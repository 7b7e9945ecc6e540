import Catapult.Crc32Sound
import Catapult.Lib.LfsrPoly

/-!
# The checksum as a code

The checksum is the remainder of the message by the generator of CRC-32, and
no change inside four consecutive bytes leaves it as it was.
-/

namespace Catapult

open BigEndian Lfsr Polynomial

/-- The checksum of a message: the register starts with all ones, and its
complement is the result. -/
def crc (message : List Byte) : BitVec 32 := ~~~absorb crcPoly (BitVec.allOnes 32) message

theorem crc_nil : crc [] = 0 := rfl

theorem crc32Fast_all {message : List Byte} (h : message.length < 2 ^ 32) :
    crc32Fast message (BitVec.ofNat 32 message.length) = .ok (crc message) := by
  have hn : (BitVec.ofNat 32 message.length).toNat = message.length := by
    rw [BitVec.toNat_ofNat, Nat.mod_eq_of_lt h]
  rw [crc32Fast_ok (Nat.le_of_eq hn), hn, List.take_length]
  rfl

/-- The check value of CRC-32, the checksum of the digits from 1 to 9. -/
example : crc [0x31, 0x32, 0x33, 0x34, 0x35, 0x36, 0x37, 0x38, 0x39] = 0xCBF43926 := by decide +kernel

/-! ## The remainder -/

noncomputable def crc32Poly : (ZMod 2)[X] :=
  X ^ 32 + X ^ 26 + X ^ 23 + X ^ 22 + X ^ 16 + X ^ 12 + X ^ 11 + X ^ 10 + X ^ 8 + X ^ 7 + X ^ 5 + X ^ 4 + X ^ 2 +
    X + 1

theorem generator_crcPoly : generator crcPoly = crc32Poly := by
  have h : lsbFirst crcPoly =
      [false, false, false, false, false, true, false, false, true, true, false, false, false, false, false, true,
        false, false, false, true, true, true, false, true, true, false, true, true, false, true, true, true] := by
    decide
  rw [generator, registerPoly, h, crc32Poly]
  simp only [ofBits, coef, List.length_cons, List.length_nil, ite_true, Bool.false_eq_true, ite_false, map_zero,
    map_one, zero_mul, one_mul, zero_add, pow_zero, pow_one, add_zero]
  ring

theorem registerPoly_allOnes : registerPoly (BitVec.allOnes 32) = ∑ j ∈ Finset.range 32, X ^ j := by
  ext k
  rw [coeff_registerPoly, finsetSum_coeff]
  simp only [coeff_X_pow, Finset.sum_ite_eq, Finset.mem_range]
  by_cases h : k < 32
  · rw [if_pos h, if_pos h, BitVec.getLsbD_allOnes, decide_eq_true (show 32 - 1 - k < 32 by omega)]
    rfl
  · rw [if_neg h, if_neg h]

/-- **The checksum is the complement of a polynomial remainder.** -/
theorem crc32Fast_eq_remainder (message : List Byte) (hl : message.length < 2 ^ 32) : ∃ r : BitVec 32,
    crc32Fast message (BitVec.ofNat 32 message.length) = .ok (~~~r) ∧ ∀ i < 32, (r.getLsbD i = true ↔
      ((X ^ 32 * messagePoly message + X ^ (8 * message.length) * ∑ j ∈ Finset.range 32, X ^ j) %ₘ crc32Poly).coeff
        (31 - i) = 1) := by
  refine ⟨_, crc32Fast_all hl, fun i hi => ?_⟩
  rw [← generator_crcPoly, ← registerPoly_allOnes, ← registerPoly_absorb_eq crcPoly (by decide), coeff_registerPoly,
    if_pos (show 31 - i < 32 by omega), show 32 - 1 - (31 - i) = i by omega, coef_eq_one_iff]

theorem crc32Fast_eq_remainder_nine : ∃ r : BitVec 32,
    crc32Fast [1, 2, 3, 4, 5, 6, 7, 8, 9] 9 = .ok (~~~r) ∧ ∀ i < 32, (r.getLsbD i = true ↔
      ((X ^ 32 * messagePoly [1, 2, 3, 4, 5, 6, 7, 8, 9] + X ^ 72 * ∑ j ∈ Finset.range 32, X ^ j) %ₘ crc32Poly).coeff
        (31 - i) = 1) :=
  crc32Fast_eq_remainder [1, 2, 3, 4, 5, 6, 7, 8, 9] (by decide)

/-! ## Detection -/

theorem crc_inj_window {as bs : List Byte} (hl : as.length = bs.length) (h4 : bs.length ≤ 4) (pre post : List Byte)
    (h : crc (pre ++ (as ++ post)) = crc (pre ++ (bs ++ post))) : as = bs :=
  absorb_inj_window (by decide : crcPoly.msb = true) hl (by omega) pre post (BitVec.not_inj.mp h)

/-- Messages that agree outside a window are one except for a part inside it. -/
theorem eq_window {m m' : List Byte} {p k : Nat}
    (h : ∀ i, i < p ∨ p + k ≤ i → m[i]? = m'[i]?) :
    m' = m.take p ++ ((m'.drop p).take k ++ m.drop (p + k)) := by
  have h₁ : m.take p = m'.take p := by
    apply List.ext_getElem?
    intro i
    rw [List.getElem?_take, List.getElem?_take]
    by_cases hi : i < p
    · rw [if_pos hi, if_pos hi, h i (.inl hi)]
    · rw [if_neg hi, if_neg hi]
  have h₂ : m.drop (p + k) = m'.drop (p + k) := by
    apply List.ext_getElem?
    intro i
    rw [List.getElem?_drop, List.getElem?_drop, h _ (.inr (Nat.le_add_right _ _))]
  rw [h₁, h₂, ← List.drop_drop, List.take_append_drop, List.take_append_drop]

theorem crc_inj_local {m m' : List Byte} (hl : m.length = m'.length) {p : Nat}
    (h : ∀ i, i < p ∨ p + 4 ≤ i → m[i]? = m'[i]?) (hc : crc m = crc m') : m = m' := by
  have e := eq_window (m := m) (p := p) (k := 4) fun _ _ => rfl
  have e' := eq_window h
  rw [e, e'] at hc
  have := crc_inj_window (by simp only [List.length_take, List.length_drop, hl]) (List.length_take_le _ _) _ _ hc
  rw [e, e', this]

/-- **Every change inside four consecutive bytes is detected.** -/
theorem crc32Fast_detects (m m' : List Byte) (hl : m.length = m'.length) (hb : m.length < 2 ^ 32) (hne : m ≠ m')
    (p : Nat) (h : ∀ i, i < p ∨ p + 4 ≤ i → m[i]? = m'[i]?) : ∃ v v',
    crc32Fast m (BitVec.ofNat 32 m.length) = .ok v ∧ crc32Fast m' (BitVec.ofNat 32 m'.length) = .ok v' ∧ v ≠ v' :=
  ⟨_, _, crc32Fast_all hb, crc32Fast_all (hl ▸ hb), fun e => hne (crc_inj_local hl h e)⟩

theorem crc32Fast_detects_nine : ∃ v v', crc32Fast [1, 2, 3, 4, 5, 6, 7, 8, 9] 9 = .ok v ∧
    crc32Fast [1, 2, 3, 7, 5, 6, 0, 8, 9] 9 = .ok v' ∧ v ≠ v' :=
  crc32Fast_detects [1, 2, 3, 4, 5, 6, 7, 8, 9] [1, 2, 3, 7, 5, 6, 0, 8, 9] rfl (by decide) (by decide) 3 fun i hi => by
    rcases hi with hi | hi
    · match i, hi with
      | 0, _ => rfl
      | 1, _ => rfl
      | 2, _ => rfl
    · match i, hi with
      | 7, _ => rfl
      | 8, _ => rfl
      | _ + 9, _ => rfl

end Catapult
