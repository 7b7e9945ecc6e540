import Mathlib.Algebra.Polynomial.Div
import Mathlib.Algebra.Field.ZMod
import Mathlib.Tactic.LinearCombination
import Catapult.Lib.Lfsr

/-!
# The register as a polynomial

Read with its lowest bit as the highest coefficient, the register of a
reflected CRC is a polynomial over GF(2), and a clock is a multiplication by
`X` modulo the generator. Absorbing a message leaves the remainder of what the
register held, shifted by the message, plus the message, shifted by the
register.
-/

namespace Lfsr

open BigEndian Polynomial

def coef (b : Bool) : ZMod 2 := if b then 1 else 0

/-- The polynomial over GF(2) with these coefficients, the highest first. -/
noncomputable def ofBits : List Bool → (ZMod 2)[X]
  | [] => 0
  | b :: bs => C (coef b) * X ^ bs.length + ofBits bs

def lsbFirst {w : Nat} (x : BitVec w) : List Bool := (List.range w).map x.getLsbD

noncomputable def registerPoly {w : Nat} (x : BitVec w) : (ZMod 2)[X] := ofBits (lsbFirst x)

noncomputable def messagePoly (bs : List Byte) : (ZMod 2)[X] := ofBits (bs.flatMap lsbFirst)

noncomputable def generator {w : Nat} (poly : BitVec w) : (ZMod 2)[X] := X ^ w + registerPoly poly

@[simp] theorem length_lsbFirst {w : Nat} (x : BitVec w) : (lsbFirst x).length = w := by simp [lsbFirst]

theorem coef_eq_one_iff (b : Bool) : coef b = 1 ↔ b = true := by cases b <;> decide

theorem coef_xor (a b : Bool) : coef (a ^^ b) = coef a + coef b := by cases a <;> cases b <;> decide

/-! ## Coefficients -/

theorem coeff_ofBits : ∀ (bs : List Bool) (k : Nat), (ofBits bs).coeff k = coef (bs.reverse[k]?.getD false)
  | [], k => by simp [ofBits, coef]
  | b :: bs, k => by
    have hl : bs.reverse.length = bs.length := List.length_reverse
    rw [ofBits, coeff_add, coeff_ofBits bs k, coeff_C_mul, coeff_X_pow, List.reverse_cons]
    rcases Nat.lt_trichotomy k bs.length with h | h | h
    · rw [if_neg (Nat.ne_of_lt h), mul_zero, zero_add, List.getElem?_append_left (hl ▸ h)]
    · rw [if_pos h, mul_one, List.getElem?_eq_none (by omega), List.getElem?_append_right (by omega), hl, h,
        Nat.sub_self]
      simp [coef]
    · rw [if_neg (Nat.ne_of_gt h), mul_zero, zero_add, List.getElem?_eq_none (by omega),
        List.getElem?_eq_none (by rw [List.length_append, hl, List.length_singleton]; omega)]

theorem coeff_registerPoly {w : Nat} (x : BitVec w) (k : Nat) :
    (registerPoly x).coeff k = if k < w then coef (x.getLsbD (w - 1 - k)) else 0 := by
  have hl : (lsbFirst x).reverse.length = w := by rw [List.length_reverse, length_lsbFirst]
  rw [registerPoly, coeff_ofBits]
  by_cases h : k < w
  · rw [if_pos h, List.getElem?_eq_getElem (by omega)]
    simp [lsbFirst]
  · rw [if_neg h, List.getElem?_eq_none (by omega)]
    rfl

theorem ofBits_append : ∀ as bs : List Bool, ofBits (as ++ bs) = X ^ bs.length * ofBits as + ofBits bs
  | [], bs => by simp [ofBits]
  | a :: as, bs => by
    rw [List.cons_append, ofBits, ofBits_append as bs, ofBits, List.length_append]
    ring

theorem messagePoly_cons (b : Byte) (bs : List Byte) :
    messagePoly (b :: bs) = X ^ (8 * bs.length) * registerPoly b + messagePoly bs := by
  have hl : (bs.flatMap lsbFirst).length = 8 * bs.length := by
    induction bs with
    | nil => rfl
    | cons c bs ih => rw [List.flatMap_cons, List.length_append, ih, length_lsbFirst, List.length_cons]; omega
  rw [messagePoly, List.flatMap_cons, ofBits_append, hl]
  rfl

theorem degree_registerPoly_lt {w : Nat} (x : BitVec w) : (registerPoly x).degree < w := by
  rw [degree_lt_iff_coeff_zero]
  intro k hk
  rw [coeff_registerPoly, if_neg (by omega)]

theorem generator_monic {w : Nat} (poly : BitVec w) : (generator poly).Monic :=
  monic_X_pow_add (degree_registerPoly_lt poly)

theorem degree_generator {w : Nat} (poly : BitVec w) : (generator poly).degree = w := by
  rw [generator, degree_add_eq_left_of_degree_lt, degree_X_pow]
  rw [degree_X_pow]
  exact degree_registerPoly_lt poly

/-! ## Steps -/

theorem registerPoly_xor {w : Nat} (x y : BitVec w) :
    registerPoly (x ^^^ y) = registerPoly x + registerPoly y := by
  ext k
  rw [coeff_add, coeff_registerPoly, coeff_registerPoly, coeff_registerPoly]
  by_cases h : k < w
  · rw [if_pos h, if_pos h, if_pos h, BitVec.getLsbD_xor, coef_xor]
  · rw [if_neg h, if_neg h, if_neg h, add_zero]

theorem registerPoly_setWidth {w k : Nat} (h : k ≤ w) (x : BitVec k) :
    registerPoly (x.setWidth w) = X ^ (w - k) * registerPoly x := by
  ext j
  rw [coeff_X_pow_mul', coeff_registerPoly, coeff_registerPoly]
  by_cases hj : j < w
  · by_cases hk : w - k ≤ j
    · rw [if_pos hj, if_pos hk, if_pos (by omega), show w - 1 - j = k - 1 - (j - (w - k)) by omega,
        BitVec.getLsbD_setWidth]
      simp [show k - 1 - (j - (w - k)) < w by omega]
    · rw [if_pos hj, if_neg hk, BitVec.getLsbD_setWidth, BitVec.getLsbD_of_ge x _ (by omega), Bool.and_false]
      rfl
  · rw [if_neg hj, if_pos (by omega), if_neg (by omega)]

section
variable {w : Nat} (poly : BitVec w)

/-- A clock multiplies by `X` and takes the generator away where that leaves
the register. -/
theorem registerPoly_clock (hw : 0 < w) (x : BitVec w) :
    registerPoly (clock poly x) = X * registerPoly x - C (coef (x.getLsbD 0)) * generator poly := by
  have hc : ∀ i, coef ((clock poly x).getLsbD i) =
      coef (x.getLsbD (i + 1)) - coef (x.getLsbD 0) * coef (poly.getLsbD i) := by
    intro i
    unfold clock
    cases h : x.getLsbD 0 with
    | false => simp [coef, Nat.add_comm]
    | true =>
      simp only [ite_true, BitVec.getLsbD_xor, BitVec.getLsbD_ushiftRight, Nat.add_comm 1 i]
      cases x.getLsbD (i + 1) <;> cases poly.getLsbD i <;> decide
  ext k
  rw [coeff_sub, coeff_C_mul, generator, coeff_add, coeff_X_pow, coeff_registerPoly poly, coeff_registerPoly]
  cases k with
  | zero =>
    rw [mul_coeff_zero, coeff_X_zero, zero_mul, if_pos hw, if_pos hw, hc, if_neg (show ¬ 0 = w by omega),
      show w - 1 - 0 + 1 = w by omega, BitVec.getLsbD_of_ge x w (Nat.le_refl w), zero_add]
    rfl
  | succ k =>
    rw [coeff_X_mul, coeff_registerPoly]
    rcases Nat.lt_trichotomy (k + 1) w with h | h | h
    · rw [if_pos h, if_pos h, if_pos (show k < w by omega), if_neg (show ¬ k + 1 = w by omega), hc,
        show w - 1 - (k + 1) + 1 = w - 1 - k by omega, zero_add]
    · rw [if_neg (show ¬ k + 1 < w by omega), if_neg (show ¬ k + 1 < w by omega), if_pos (show k < w by omega),
        if_pos h, show w - 1 - k = 0 by omega, add_zero, mul_one, sub_self]
    · rw [if_neg (show ¬ k + 1 < w by omega), if_neg (show ¬ k + 1 < w by omega),
        if_neg (show ¬ k < w by omega), if_neg (show ¬ k + 1 = w by omega), add_zero, mul_zero, sub_self]

theorem registerPoly_clocks (hw : 0 < w) (n : Nat) : ∀ x : BitVec w,
    ∃ q, registerPoly (clocks poly n x) = X ^ n * registerPoly x + q * generator poly := by
  induction n with
  | zero => intro x; exact ⟨0, by simp [clocks]⟩
  | succ n ih =>
    intro x
    obtain ⟨q, hq⟩ := ih (clock poly x)
    rw [registerPoly_clock poly hw] at hq
    exact ⟨q - X ^ n * C (coef (x.getLsbD 0)), by rw [clocks, hq]; ring⟩

theorem registerPoly_absorb (hw : 8 ≤ w) : ∀ (bs : List Byte) (x : BitVec w), ∃ q,
    registerPoly (absorb poly x bs) =
      X ^ w * messagePoly bs + X ^ (8 * bs.length) * registerPoly x + q * generator poly
  | [], x => ⟨0, by simp [messagePoly, ofBits]⟩
  | b :: bs, x => by
    obtain ⟨q, hq⟩ := registerPoly_absorb hw bs (absorbByte poly x b)
    obtain ⟨r, hr⟩ := registerPoly_clocks poly (by omega) 8 (x ^^^ b.setWidth w)
    have hs : (X : (ZMod 2)[X]) ^ w = X ^ 8 * X ^ (w - 8) := by rw [← pow_add, Nat.add_sub_cancel' hw]
    rw [registerPoly_xor, registerPoly_setWidth hw] at hr
    refine ⟨q + X ^ (8 * bs.length) * r, ?_⟩
    rw [absorb_cons, hq, absorbByte, hr, messagePoly_cons, List.length_cons, Nat.mul_succ, pow_add]
    linear_combination (-X ^ (8 * bs.length) * registerPoly b) * hs

/-- **What is left in the register is a remainder.** -/
theorem registerPoly_absorb_eq (hw : 8 ≤ w) (bs : List Byte) (x : BitVec w) : registerPoly (absorb poly x bs) =
    (X ^ w * messagePoly bs + X ^ (8 * bs.length) * registerPoly x) %ₘ generator poly := by
  have hG := generator_monic poly
  have hd : (registerPoly (absorb poly x bs)).degree < (generator poly).degree := by
    rw [degree_generator]
    exact degree_registerPoly_lt _
  obtain ⟨q, hq⟩ := registerPoly_absorb poly hw bs x
  rw [← (modByMonic_eq_self_iff hG).mpr hd]
  exact modByMonic_eq_of_dvd_sub hG ⟨q, by rw [hq]; ring⟩

end

end Lfsr
