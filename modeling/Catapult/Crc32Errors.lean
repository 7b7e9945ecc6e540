import Mathlib.Tactic.NormNum.Prime
import Catapult.ChecksumSound
import Catapult.Lib.LfsrCode

/-!
# What the checksum tells apart

Both builds miss a change exactly if the generator of CRC-32 divides it. Of
the changes within 33 consecutive bits this leaves one, and of the changes of
two bits those that are a multiple of `2^32 - 1` apart.
-/

namespace Catapult

open BigEndian Lfsr Polynomial

theorem msb_crcPoly : crcPoly.msb = true := by decide

theorem crc32_covered (build : Build) (m : List Byte) :
    crc32 build m (BitVec.ofNat 32 m.length) = .ok (crc (m.take (build.covers m.length))) := by
  rw [crc32_ok build (Nat.le_refl _), List.take_length]

section
variable {m m' : List Byte} (hl : m.length = m'.length)
include hl

theorem crc_eq_iff : crc m = crc m' ↔ generator crcPoly ∣ ofBits (changes m m') :=
  BitVec.not_inj.trans (absorb_eq_iff msb_crcPoly (by decide) hl _)

theorem changes_eq_replicate : changes m m' = List.replicate (changes m m').length false ↔ m = m' := by
  have hb : (messageBits m).length = (messageBits m').length := by rw [length_messageBits, length_messageBits, hl]
  have hx := ofBits_xor hb
  constructor
  · intro h
    have h₀ : ofBits (messageBits m) - ofBits (messageBits m') = 0 := by
      rw [← hx, ← ofBits_replicate_false, ← h]
      rfl
    exact messageBits_inj hl (ofBits_inj hb (sub_eq_zero.mp h₀))
  · rintro rfl
    exact ofBits_eq_zero (hx.trans (sub_self _))

/-! ## The two builds -/

variable {build : Build} (hb : m.length < build.limit)
include hb

omit hl in
theorem crc32_all : crc32 build m (BitVec.ofNat 32 m.length) = .ok (crc m) := by
  rw [crc32_covered, Build.covers_eq hb, List.take_length]

theorem crc32_eq_iff : crc32 build m (BitVec.ofNat 32 m.length) = crc32 build m' (BitVec.ofNat 32 m'.length) ↔
    generator crcPoly ∣ ofBits (changes m m') := by
  rw [crc32_all hb, crc32_all (hl ▸ hb), ← crc_eq_iff hl]
  exact ⟨Except.ok.inj, congrArg _⟩

end

/-! ## Bursts -/

/-- **Of the changes within 33 consecutive bits one is missed**, that of the
generator itself. -/
theorem crc32_burst_iff (build : Build) (m m' : List Byte) (hl : m.length = m'.length) (hb : m.length < build.limit)
    (p q : Nat) (burst : List Bool) (hk : burst.length ≤ 33)
    (h : changes m m' = List.replicate p false ++ (burst ++ List.replicate q false)) :
    crc32 build m (BitVec.ofNat 32 m.length) = crc32 build m' (BitVec.ofNat 32 m'.length) ↔
      m = m' ∨ burst = true :: lsbFirst crcPoly := by
  rw [crc32_eq_iff hl hb, ← changes_eq_replicate hl, h, generator_dvd_window msb_crcPoly, generator_dvd_burst _ hk]
  refine or_congr_left ?_
  constructor
  · intro e
    rw [e]
    simp only [List.replicate_append_replicate, List.length_replicate]
  · intro e
    have := (List.append_eq_replicate_iff.mp e).2.2
    exact (List.append_eq_replicate_iff.mp this).2.1

theorem crc32_burst_two : crc32 .fast [0] 1 = crc32 .fast [6] 1 ↔
    ([0] : List Byte) = [6] ∨ [true, true] = true :: lsbFirst crcPoly :=
  crc32_burst_iff .fast [0] [6] rfl (by decide) 1 5 [true, true] (by decide) (by decide)

/-! ## Two bits -/

set_option maxRecDepth 4000 in
/-- The generator is primitive. -/
theorem orderOf_crcPoly : orderOf (AdjoinRoot.root (generator crcPoly)) = 2 ^ 32 - 1 := by
  have h₁ : power crcPoly (clock crcPoly one) 32 (2 ^ 32 - 1) = one := by decide +kernel
  refine orderOf_root crcPoly (by decide) (by decide) (by decide) h₁ fun p hp hd => ?_
  have hn : 2 ^ 32 - 1 = 3 * 5 * 17 * 257 * 65537 := by norm_num
  rw [hn] at hd ⊢
  have prime_factor : ∀ {q : Nat}, q.Prime → p ∣ q → p = q := fun hq h => (Nat.prime_dvd_prime_iff_eq hp hq).mp h
  rcases hp.dvd_mul.mp hd with hd | h
  · rcases hp.dvd_mul.mp hd with hd | h
    · rcases hp.dvd_mul.mp hd with hd | h
      · rcases hp.dvd_mul.mp hd with h | h
        · rw [prime_factor (by norm_num) h]
          decide +kernel
        · rw [prime_factor (by norm_num) h]
          decide +kernel
      · rw [prime_factor (by norm_num) h]
        decide +kernel
    · rw [prime_factor (by norm_num) h]
      decide +kernel
  · rw [prime_factor (by norm_num) h]
    decide +kernel

/-- **Two changed bits are missed exactly at the multiples of `2^32 - 1`**, so
never in a file of less than 512 MiB. -/
theorem crc32_twoBits_iff (build : Build) (m m' : List Byte) (hl : m.length = m'.length) (hb : m.length < build.limit)
    (p d q : Nat) (h : changes m m' = List.replicate p false ++
      ((true :: (List.replicate d false ++ [true])) ++ List.replicate q false)) :
    crc32 build m (BitVec.ofNat 32 m.length) = crc32 build m' (BitVec.ofNat 32 m'.length) ↔ 2 ^ 32 - 1 ∣ d + 1 := by
  rw [crc32_eq_iff hl hb, h, generator_dvd_window msb_crcPoly, generator_dvd_pair, orderOf_crcPoly]

theorem crc32_twoBits_bytes : crc32 .bitwise [1, 0] 2 = crc32 .bitwise [0, 1] 2 ↔ 2 ^ 32 - 1 ∣ 7 + 1 :=
  crc32_twoBits_iff .bitwise [1, 0] [0, 1] rfl (by decide) 0 7 7 (by decide)

/-! ## Parts that can be chosen -/

/-- **A message ends in its own checksum**, the low byte first, exactly if the
checksum of the whole is the residue of CRC-32. -/
theorem crc32_residue_iff (build : Build) (m t : List Byte) (hb : m.length + 4 < build.limit) (ht : t.length = 4) :
    crc32 build (m ++ t) (BitVec.ofNat 32 (m ++ t).length) = .ok 0x2144DF1C ↔
      ∃ v, crc32 build m (BitVec.ofNat 32 m.length) = .ok v ∧ t = (toBytes 4 v).reverse := by
  have hl : (m ++ t).length < build.limit := by
    rw [List.length_append, ht]
    exact hb
  -- the register and its complement add up to all ones, whatever the message was
  have hr : ∀ x : BitVec 32, absorb crcPoly x (toBytes 4 (~~~x)).reverse = ~~~(0x2144DF1C : BitVec 32) := by
    intro x
    have hx : x ^^^ ~~~x = BitVec.allOnes 32 := by
      rw [BitVec.not_def, BitVec.xor_comm (BitVec.allOnes 32), ← BitVec.xor_assoc, BitVec.xor_self, BitVec.zero_xor]
    rw [absorb_eq_clocks crcPoly (by rw [List.length_reverse, length_toBytes]), List.length_reverse,
      List.reverse_reverse, length_toBytes, ofBytes_toBytes 4 rfl, hx]
    decide +kernel
  rw [crc32_all hl, crc32_all (show m.length < build.limit by omega), Except.ok.injEq]
  have hc : crc (m ++ t) = 0x2144DF1C ↔ t = (toBytes 4 (crc m)).reverse := by
    rw [crc, absorb_append, BitVec.not_eq_comm, eq_comm, ← hr (absorb crcPoly (BitVec.allOnes 32) m)]
    constructor
    · intro h
      refine (absorb_inj_bytes msb_crcPoly ?_ (by rw [ht]) h).symm
      rw [ht, List.length_reverse, length_toBytes]
    · intro h
      rw [h]
      rfl
  rw [hc]
  constructor
  · exact fun h => ⟨_, rfl, h⟩
  · rintro ⟨v, hv, h⟩
    rw [Except.ok.inj hv]
    exact h

theorem crc32_residue_nil : crc32 .fast ([] ++ [0, 0, 0, 0]) 4 = .ok 0x2144DF1C ↔
    ∃ v, crc32 .fast [] 0 = .ok v ∧ [0, 0, 0, 0] = (toBytes 4 v).reverse :=
  crc32_residue_iff .fast [] [0, 0, 0, 0] (by decide) rfl

/-! ## Sums -/

theorem crc_sum {a b c : List Byte} (hab : a.length = b.length) (hbc : b.length = c.length) :
    crc (List.zipWith (· ^^^ ·) a (List.zipWith (· ^^^ ·) b c)) = crc a ^^^ crc b ^^^ crc c := by
  have hx : absorb crcPoly (BitVec.allOnes 32) (List.zipWith (· ^^^ ·) a (List.zipWith (· ^^^ ·) b c)) =
      absorb crcPoly (BitVec.allOnes 32) a ^^^ (absorb crcPoly (BitVec.allOnes 32) b ^^^
        absorb crcPoly (BitVec.allOnes 32) c) := by
    rw [← absorb_xor crcPoly hbc, ← absorb_xor crcPoly (by simp [hab, hbc]), BitVec.xor_self, BitVec.xor_zero]
  have hn : ∀ x y z : BitVec 32, ~~~(x ^^^ (y ^^^ z)) = ~~~x ^^^ ~~~y ^^^ ~~~z := fun x y z => by
    rw [← BitVec.not_xor_right, ← BitVec.not_xor_right, ← BitVec.not_xor_left, BitVec.not_not, BitVec.xor_assoc,
      BitVec.not_xor_left]
  rw [crc, hx, hn]
  rfl

/-- **The checksum is affine**: that of a sum of three messages is the sum of
their checksums. -/
theorem crc32_sum (build : Build) (a b c : List Byte) (hab : a.length = b.length) (hbc : b.length = c.length) :
    ∃ u v w, crc32 build a (BitVec.ofNat 32 a.length) = .ok u ∧ crc32 build b (BitVec.ofNat 32 b.length) = .ok v ∧
    crc32 build c (BitVec.ofNat 32 c.length) = .ok w ∧
    crc32 build (List.zipWith (· ^^^ ·) a (List.zipWith (· ^^^ ·) b c))
      (BitVec.ofNat 32 (List.zipWith (· ^^^ ·) a (List.zipWith (· ^^^ ·) b c)).length) = .ok (u ^^^ v ^^^ w) := by
  have hs : (List.zipWith (· ^^^ ·) a (List.zipWith (· ^^^ ·) b c)).length = a.length := by
    simp only [List.length_zipWith, hab, hbc, Nat.min_self]
  refine ⟨_, _, _, crc32_covered build a, crc32_covered build b, crc32_covered build c, ?_⟩
  -- messages of one length are covered as far as each other
  rw [crc32_covered, hs, ← hbc, ← hab, List.take_zipWith, List.take_zipWith, crc_sum]
  · simp only [List.length_take, hab]
  · simp only [List.length_take, hbc]

theorem crc32_sum_bytes : ∃ u v w, crc32 .fast [1, 2] 2 = .ok u ∧ crc32 .fast [3, 4] 2 = .ok v ∧
    crc32 .fast [5, 6] 2 = .ok w ∧ crc32 .fast [7, 0] 2 = .ok (u ^^^ v ^^^ w) :=
  crc32_sum .fast [1, 2] [3, 4] [5, 6] rfl rfl

end Catapult
