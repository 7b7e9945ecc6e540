import Catapult.Crc32
import Catapult.Lib.Lfsr

/-!
# Both checksums run the same shift register

A piece of either function that consumes `k` bytes leaves in the register what
the reflected shift register of `0xEDB88320` makes of these bytes. The table
look-up is eight clocks on a byte, the rest of the register is shifted along.
-/

namespace Catapult

open BigEndian Cursor Stdio Lfsr

abbrev crcPoly : BitVec 32 := 0xEDB88320

/-! ## The table -/

theorem crcTable_get (i : Byte) : crcTable.get i.toFin = clocks crcPoly 8 (i.setWidth 32) := by
  have h : ∀ j : Fin 256, crcTable.get j = clocks crcPoly 8 ((BitVec.ofFin j : Byte).setWidth 32) := by
    decide +kernel
  exact h i.toFin

theorem mask_low (x : BitVec 32) : (x &&& 0xff).setWidth 8 = x.setWidth 8 := by
  apply BitVec.eq_of_getLsbD_eq
  intro i hi
  have h : (0xff#32).getLsbD i = true := by
    rw [show 0xff#32 = BitVec.ofNat 32 (2 ^ 8 - 1) from rfl, BitVec.getLsbD_ofNat, Nat.testBit_two_pow_sub_one]
    simp [hi, show i < 32 by omega]
  simp only [BitVec.getLsbD_setWidth, BitVec.getLsbD_and]
  rw [show (0xff : BitVec 32) = 0xff#32 from rfl, h, Bool.and_true]

/-! ## With `CRC32_FAST` -/

section
variable (message : List Byte)

/-- `m` absorbs the next `k` bytes. -/
def Advances (m : Crc → Except Fault Crc) (k : Nat) : Prop :=
  ∀ p crc, p + k ≤ message.length → m (p, crc) = .ok (p + k, absorb crcPoly crc ((message.drop p).take k))

variable {message}

theorem Advances.seq {m m' : Crc → Except Fault Crc} {k k' : Nat} (h : Advances message m k)
    (h' : Advances message m' k') : Advances message (fun s => m s >>= m') (k + k') := by
  intro p crc hl
  show (m (p, crc)).bind m' = _
  rw [h p crc (by omega)]
  show m' _ = _
  rw [h' (p + k) _ (by omega), absorb_slice, Nat.add_assoc]

theorem advances_do1 : Advances message (do1 message) 1 := by
  intro p crc hl
  have hp : p < message.length := hl
  have ht : (message.drop p).take 1 = [message[p]] := by
    rw [List.drop_eq_getElem_cons hp]
    rfl
  unfold do1
  simp only [element_ok hp, bind, Except.bind]
  rw [ht, absorb_cons, absorb_nil, absorbByte_split, mask_low, crcTable_get]
  rfl

theorem advances_do8 : Advances message (do8 message) 8 := by
  have h₂ : Advances message (do2 message) 2 := advances_do1.seq advances_do1
  have h₄ : Advances message (do4 message) 4 := h₂.seq h₂
  exact h₄.seq h₄

theorem rounds_ok (n : Nat) : ∀ (p : Nat) (crc len : BitVec 32), len.toNat = n → p + n ≤ message.length →
    ∃ q len', rounds message (p, crc) len = .ok ((p + q, absorb crcPoly crc ((message.drop p).take q)), len') ∧
      q + len'.toNat = n := by
  -- on the length still to go, of which a round takes eight bytes
  induction n using Nat.strong_induction_on with
  | _ n ih =>
    intro p crc len hn hl
    unfold rounds
    by_cases h : 8 ≤ len
    · have hlen : 8 ≤ len.toNat := h
      obtain ⟨q, len', e, hq⟩ := ih (n - 8) (by omega) (p + 8) (absorb crcPoly crc ((message.drop p).take 8))
        (len - 8) (by bv_omega) (by omega)
      refine ⟨8 + q, len', ?_, by omega⟩
      rw [if_pos h, advances_do8 p crc (by omega)]
      show rounds message _ (len - 8) = _
      rw [e, absorb_slice, Nat.add_assoc]
    · rw [if_neg h]
      exact ⟨0, len, rfl, by omega⟩

theorem rest_ok (n : Nat) : ∀ (p : Nat) (crc len : BitVec 32), len.toNat = n + 1 → p + (n + 1) ≤ message.length →
    rest message (p, crc) len = .ok (p + (n + 1), absorb crcPoly crc ((message.drop p).take (n + 1))) := by
  -- on what is left behind the first byte: the loop is never entered with a length of 0
  induction n with
  | zero =>
    intro p crc len hn hl
    unfold rest
    rw [advances_do1 p crc hl]
    have : ¬ len - 1 ≠ 0 := by simp; bv_omega
    simp only [this, ite_false, bind, Except.bind]
    rfl
  | succ n ih =>
    intro p crc len hn hl
    have h : len - 1 ≠ 0 := by
      intro h
      bv_omega
    unfold rest
    rw [advances_do1 p crc (by omega)]
    show (if len - 1 ≠ 0 then rest message _ (len - 1) else _) = _
    rw [if_pos h, ih (p + 1) _ (len - 1) (by bv_omega) (by omega), absorb_slice, Nat.add_assoc,
      Nat.add_comm 1 (n + 1)]

theorem tail_ok (p : Nat) (crc len : BitVec 32) (hl : p + len.toNat ≤ message.length) :
    tail message (p, crc) len =
      .ok (p + len.toNat, absorb crcPoly crc ((message.drop p).take len.toNat)) := by
  unfold tail
  by_cases h : len = 0
  · rw [if_neg (not_not.mpr h), h]
    rfl
  · have hn : len.toNat ≠ 0 := fun h' => h (BitVec.eq_of_toNat_eq h')
    obtain ⟨n, hn⟩ := Nat.exists_eq_succ_of_ne_zero hn
    rw [if_pos h, rest_ok n p crc len hn (by omega), hn]

theorem crc32Fast_ok {len : BitVec 32} (hl : len.toNat ≤ message.length) :
    crc32Fast message len = .ok (~~~absorb crcPoly (BitVec.allOnes 32) (message.take len.toNat)) := by
  obtain ⟨q, len', e, hq⟩ := rounds_ok len.toNat 0 (0 ^^^ 0xffffffff) len rfl
    (show 0 + len.toNat ≤ message.length by omega)
  have ht := tail_ok (0 + q) (absorb crcPoly (0 ^^^ 0xffffffff) ((message.drop 0).take q)) len'
    (show 0 + q + len'.toNat ≤ message.length by omega)
  rw [absorb_slice, hq] at ht
  unfold crc32Fast
  simp only [e, ht, bind, Except.bind]
  exact congrArg Except.ok BitVec.xor_allOnes

end

/-! ## Without it -/

theorem eightTimes_eq (n : Nat) : ∀ x : BitVec 32, eightTimes n x = clocks crcPoly n x := by
  induction n with
  | zero => intro x; rfl
  | succ n ih =>
    intro x
    have h : (x >>> 1) ^^^ (0xEDB88320 &&& -(x &&& 1)) = clock crcPoly x := by
      unfold clock
      rw [show (1 : BitVec 32) = 1#32 from rfl, BitVec.and_one_eq_setWidth_ofBool_getLsbD]
      cases x.getLsbD 0 with
      | false => simp
      | true => rfl
    show eightTimes n _ = clocks crcPoly n (clock crcPoly x)
    rw [ih, h]

theorem bytesLoop_ok {message : List Byte} {len : BitVec 32} (n : Nat) : ∀ (i : Nat) (crc : BitVec 32),
    len.toInt = i + n → i + n ≤ message.length →
      bytesLoop message len i crc = .ok (absorb crcPoly crc ((message.drop i).take n)) := by
  induction n with
  | zero =>
    intro i crc hn hl
    unfold bytesLoop
    rw [if_neg (by omega)]
    rfl
  | succ n ih =>
    intro i crc hn hl
    have hi : i < message.length := by omega
    unfold bytesLoop
    rw [if_pos (by omega), Int.toNat_natCast, element_ok hi]
    show bytesLoop message len ((i + 1 : Nat) : Int) _ = _
    rw [ih (i + 1) _ (by omega) (by omega), eightTimes_eq, List.drop_eq_getElem_cons hi]
    rfl

theorem crc32Bitwise_ok {message : List Byte} {len : BitVec 32} (hl : len.toInt.toNat ≤ message.length) :
    crc32Bitwise message len = .ok (~~~absorb crcPoly (BitVec.allOnes 32) (message.take len.toInt.toNat)) := by
  have h : bytesLoop message len 0 0xFFFFFFFF =
      .ok (absorb crcPoly (BitVec.allOnes 32) (message.take len.toInt.toNat)) := by
    by_cases hn : 0 ≤ len.toInt
    · exact bytesLoop_ok len.toInt.toNat 0 (BitVec.allOnes 32) (by omega) (by omega)
    · have h₀ : len.toInt.toNat = 0 := by omega
      unfold bytesLoop
      rw [if_neg (by omega), h₀]
      rfl
  unfold crc32Bitwise
  rw [h]
  rfl

/-! ## The two builds -/

/-- **Both builds compute the same checksum.** -/
theorem crc32Fast_eq_crc32Bitwise (message : List Byte) (hl : message.length < 2 ^ 31) :
    ∃ v, crc32Fast message (BitVec.ofNat 32 message.length) = .ok v ∧
      crc32Bitwise message (BitVec.ofNat 32 message.length) = .ok v := by
  have hn : (BitVec.ofNat 32 message.length).toNat = message.length := by
    rw [BitVec.toNat_ofNat, Nat.mod_eq_of_lt (by omega)]
  have hi : (BitVec.ofNat 32 message.length).toInt = message.length := by
    rw [BitVec.toInt_eq_toNat_of_lt (by omega), hn]
  have hf := crc32Fast_ok (Nat.le_of_eq hn)
  have hb := crc32Bitwise_ok (show (BitVec.ofNat 32 message.length).toInt.toNat ≤ message.length by omega)
  rw [hn] at hf
  rw [hi] at hb
  exact ⟨_, hf, hb⟩

theorem crc32Fast_eq_crc32Bitwise_nine : ∃ v, crc32Fast [1, 2, 3, 4, 5, 6, 7, 8, 9] 9 = .ok v ∧
    crc32Bitwise [1, 2, 3, 4, 5, 6, 7, 8, 9] 9 = .ok v :=
  crc32Fast_eq_crc32Bitwise [1, 2, 3, 4, 5, 6, 7, 8, 9] (by decide)

end Catapult
