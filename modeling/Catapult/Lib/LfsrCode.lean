import Mathlib.Algebra.CharP.Two
import Mathlib.GroupTheory.OrderOfElement
import Mathlib.RingTheory.AdjoinRoot
import Catapult.Lib.LfsrPoly

/-!
# The code of a shift register

Two messages of one length leave the same register exactly if the generator
divides what has changed from one to the other, the first bit as the highest
coefficient. A change within few bits and a change of two bits are looked at
closer; the second needs the order of `X` modulo the generator, which is
computed with registers.
-/

namespace Lfsr

open BigEndian Polynomial

/-! ## Bits -/

def messageBits (bs : List Byte) : List Bool := bs.flatMap lsbFirst

def changes (as bs : List Byte) : List Bool := List.zipWith (· ^^ ·) (messageBits as) (messageBits bs)

@[simp] theorem length_messageBits (bs : List Byte) : (messageBits bs).length = 8 * bs.length := by
  induction bs with
  | nil => rfl
  | cons b bs ih => rw [messageBits, List.flatMap_cons, List.length_append, length_lsbFirst, ← messageBits, ih,
      List.length_cons]; omega

theorem lsbFirst_inj {w : Nat} {x y : BitVec w} (h : lsbFirst x = lsbFirst y) : x = y := by
  apply BitVec.eq_of_getLsbD_eq
  intro i hi
  have := congrArg (·[i]?) h
  simpa [lsbFirst, hi] using this

theorem messageBits_inj : ∀ {as bs : List Byte}, as.length = bs.length → messageBits as = messageBits bs → as = bs
  | [], [], _, _ => rfl
  | a :: as, b :: bs, hl, h => by
    obtain ⟨h₁, h₂⟩ := List.append_inj h (by rw [length_lsbFirst, length_lsbFirst])
    rw [lsbFirst_inj h₁, messageBits_inj (Nat.succ.inj hl) h₂]

theorem ofBits_xor : ∀ {as bs : List Bool}, as.length = bs.length →
    ofBits (List.zipWith (· ^^ ·) as bs) = ofBits as - ofBits bs
  | [], [], _ => by simp [ofBits]
  | a :: as, b :: bs, hl => by
    have hl : as.length = bs.length := Nat.succ.inj hl
    have hc : coef (a ^^ b) = coef a - coef b := by cases a <;> cases b <;> decide
    rw [List.zipWith_cons_cons, ofBits, ofBits, ofBits, ofBits_xor hl, List.length_zipWith, hl, Nat.min_self, hc,
      C_sub]
    ring

theorem degree_ofBits_lt (bs : List Bool) : (ofBits bs).degree < bs.length := by
  rw [degree_lt_iff_coeff_zero]
  intro k hk
  rw [coeff_ofBits, List.getElem?_eq_none (by rw [List.length_reverse]; exact hk)]
  rfl

theorem ofBits_replicate_false (n : Nat) : ofBits (List.replicate n false) = 0 := by
  induction n with
  | zero => rfl
  | succ n ih => rw [List.replicate_succ, ofBits, ih]; simp [coef]

theorem ofBits_window (p q : Nat) (bs : List Bool) :
    ofBits (List.replicate p false ++ (bs ++ List.replicate q false)) = X ^ q * ofBits bs := by
  rw [ofBits_append, ofBits_replicate_false, ofBits_append, ofBits_replicate_false, List.length_replicate]
  ring

theorem coef_inj : Function.Injective coef := by decide

theorem ofBits_inj {as bs : List Bool} (hl : as.length = bs.length) (h : ofBits as = ofBits bs) : as = bs := by
  apply List.reverse_injective
  refine List.ext_getElem (by rw [List.length_reverse, List.length_reverse, hl]) fun k h₁ h₂ => coef_inj ?_
  have := congrArg (coeff · k) h
  simpa only [coeff_ofBits, List.getElem?_eq_getElem h₁, List.getElem?_eq_getElem h₂, Option.getD_some] using this

theorem ofBits_eq_zero {bs : List Bool} (h : ofBits bs = 0) : bs = List.replicate bs.length false :=
  ofBits_inj List.length_replicate.symm (h.trans (ofBits_replicate_false _).symm)

/-! ## Collisions -/

theorem registerPoly_inj {w : Nat} {x y : BitVec w} (h : registerPoly x = registerPoly y) : x = y := by
  apply BitVec.eq_of_getLsbD_eq
  intro i hi
  have := congrArg (coeff · (w - 1 - i)) h
  simp only [coeff_registerPoly, if_pos (show w - 1 - i < w by omega), show w - 1 - (w - 1 - i) = i by omega] at this
  exact coef_inj this

section
variable {w : Nat} {poly : BitVec w} (hp : poly.msb = true)
include hp

theorem isCoprime_X_generator : IsCoprime X (generator poly) := by
  have hw : 0 < w := by
    by_contra hw
    obtain rfl : w = 0 := by omega
    rw [BitVec.of_length_zero (x := poly)] at hp
    cases hp
  have h₀ : (generator poly).coeff 0 = 1 := by
    rw [BitVec.msb_eq_getLsbD_last] at hp
    rw [generator, coeff_add, coeff_X_pow, if_neg (Nat.ne_of_lt hw), coeff_registerPoly, if_pos hw, Nat.sub_zero, hp,
      zero_add]
    rfl
  refine ⟨-divX (generator poly), 1, ?_⟩
  have h := divX_mul_X_add (generator poly)
  rw [h₀, map_one] at h
  linear_combination -h

/-- **Which messages leave the same register.** -/
theorem absorb_eq_iff (hw : 8 ≤ w) {as bs : List Byte} (hl : as.length = bs.length) (x : BitVec w) :
    absorb poly x as = absorb poly x bs ↔ generator poly ∣ ofBits (changes as bs) := by
  have hx : ofBits (changes as bs) = messagePoly as - messagePoly bs :=
    ofBits_xor (by rw [length_messageBits, length_messageBits, hl])
  rw [hx]
  constructor
  · intro h
    obtain ⟨q, hq⟩ := registerPoly_absorb poly hw as x
    obtain ⟨r, hr⟩ := registerPoly_absorb poly hw bs x
    refine ((isCoprime_X_generator hp).symm.pow_right (n := w)).dvd_of_dvd_mul_left ⟨r - q, ?_⟩
    rw [h, hr, hl] at hq
    linear_combination -hq
  · intro h
    apply registerPoly_inj
    rw [registerPoly_absorb_eq poly hw, registerPoly_absorb_eq poly hw, hl]
    refine modByMonic_eq_of_dvd_sub (generator_monic poly) ?_
    have : X ^ w * messagePoly as + X ^ (8 * bs.length) * registerPoly x -
        (X ^ w * messagePoly bs + X ^ (8 * bs.length) * registerPoly x) =
          X ^ w * (messagePoly as - messagePoly bs) := by
      ring
    rw [this]
    exact h.mul_left _

theorem generator_dvd_window (p q : Nat) (bs : List Bool) :
    generator poly ∣ ofBits (List.replicate p false ++ (bs ++ List.replicate q false)) ↔
      generator poly ∣ ofBits bs := by
  rw [ofBits_window]
  exact ⟨fun h => ((isCoprime_X_generator hp).symm.pow_right (n := q)).dvd_of_dvd_mul_left h, fun h => h.mul_left _⟩

end

/-! ## Changes inside a window -/

section
variable {w : Nat} (poly : BitVec w)

theorem ofBits_generator : ofBits (true :: lsbFirst poly) = generator poly := by
  rw [ofBits, length_lsbFirst, show coef true = 1 from rfl, map_one, one_mul]
  rfl

/-- Inside of one bit more than the register has, the generator itself is the
only change that is missed. -/
theorem generator_dvd_burst {bs : List Bool} (h : bs.length ≤ w + 1) :
    generator poly ∣ ofBits bs ↔ bs = List.replicate bs.length false ∨ bs = true :: lsbFirst poly := by
  have hg := degree_generator poly
  constructor
  · rintro ⟨q, hq⟩
    by_cases h₀ : ofBits bs = 0
    · exact .inl (ofBits_eq_zero h₀)
    · -- the quotient is a constant, of which there is one besides 0
      have hq₀ : q ≠ 0 := fun e => h₀ (by rw [hq, e, mul_zero])
      have hlt := degree_ofBits_lt bs
      rw [hq, degree_mul, hg, degree_eq_natDegree hq₀] at hlt
      have hd : w + q.natDegree < bs.length := by exact_mod_cast hlt
      have hc : q = 1 := by
        have e := eq_C_of_natDegree_eq_zero (show q.natDegree = 0 by omega)
        rw [e] at hq₀ ⊢
        generalize q.coeff 0 = c at hq₀ ⊢
        fin_cases c
        · exact absurd (map_zero C) hq₀
        · exact map_one C
      rw [hc, mul_one, ← ofBits_generator] at hq
      exact .inr (ofBits_inj (by rw [List.length_cons, length_lsbFirst]; omega) hq)
  · rintro (h | rfl)
    · rw [h, ofBits_replicate_false]
      exact dvd_zero _
    · rw [ofBits_generator]

end

/-! ## The order of `X` -/

section
variable {w : Nat} (poly : BitVec w)

/-- The register that holds the polynomial 1. -/
def one : BitVec w := BitVec.twoPow w (w - 1)

/-- The product by the first `n` bits of `y`, the highest coefficient first. -/
def mulBits (x y : BitVec w) : Nat → BitVec w
  | 0 => 0#w
  | n + 1 => clock poly (mulBits x y n) ^^^ if y.getLsbD n then x else 0#w

def mul (x y : BitVec w) : BitVec w := mulBits poly x y w

/-- A power by squaring, for exponents of `k` bits. -/
def power (x : BitVec w) : Nat → Nat → BitVec w
  | 0, _ => one
  | k + 1, n =>
    let y := power x k (n / 2)
    if n % 2 = 1 then mul poly (mul poly y y) x else mul poly y y

noncomputable def residue (x : BitVec w) : AdjoinRoot (generator poly) := AdjoinRoot.mk _ (registerPoly x)

theorem residue_inj {x y : BitVec w} (h : residue poly x = residue poly y) : x = y := by
  have hd : (registerPoly x - registerPoly y).degree < (generator poly).degree := by
    rw [degree_generator]
    exact (degree_sub_le _ _).trans_lt (max_lt (degree_registerPoly_lt x) (degree_registerPoly_lt y))
  have := eq_zero_of_dvd_of_degree_lt (AdjoinRoot.mk_eq_mk.mp h) hd
  exact registerPoly_inj (sub_eq_zero.mp this)

theorem residue_xor (x y : BitVec w) : residue poly (x ^^^ y) = residue poly x + residue poly y := by
  rw [residue, registerPoly_xor, map_add]
  rfl

theorem registerPoly_zero : registerPoly (0#w) = 0 := by
  ext k
  rw [coeff_registerPoly]
  split
  · rw [BitVec.getLsbD_zero]
    rfl
  · rfl

theorem residue_zero : residue poly (0#w) = 0 := by rw [residue, registerPoly_zero, map_zero]

variable (hw : 0 < w)
include hw

theorem residue_one : residue poly one = 1 := by
  have h : registerPoly (one : BitVec w) = 1 := by
    ext k
    rw [coeff_registerPoly, one, coeff_one]
    by_cases hk : k = 0
    · subst hk
      rw [if_pos hw, if_pos rfl, BitVec.getLsbD_twoPow]
      simp [coef, hw]
    · rw [if_neg hk]
      split
      · rw [BitVec.getLsbD_twoPow, decide_eq_false (show ¬ w - 1 = w - 1 - k by omega), Bool.and_false]
        rfl
      · rfl
  rw [residue, h, map_one]

theorem residue_clock (x : BitVec w) : residue poly (clock poly x) =
    AdjoinRoot.root (generator poly) * residue poly x := by
  rw [residue, registerPoly_clock poly hw, map_sub, map_mul, map_mul, AdjoinRoot.mk_self, mul_zero, sub_zero,
    AdjoinRoot.mk_X]
  rfl

theorem residue_mulBits (x y : BitVec w) (n : Nat) : residue poly (mulBits poly x y n) =
    residue poly x * AdjoinRoot.mk _ (ofBits ((List.range n).map y.getLsbD)) := by
  induction n with
  | zero => rw [mulBits, residue_zero, List.range_zero, List.map_nil, ofBits, map_zero, mul_zero]
  | succ n ih =>
    have hb : residue poly (if y.getLsbD n then x else 0#w) =
        residue poly x * AdjoinRoot.mk _ (ofBits [y.getLsbD n]) := by
      have h₁ : ofBits [y.getLsbD n] = C (coef (y.getLsbD n)) := by simp [ofBits]
      rw [h₁]
      cases y.getLsbD n with
      | true => simp [coef]
      | false => simp [coef, residue_zero]
    rw [mulBits, residue_xor, residue_clock poly hw, ih, hb, List.range_succ, List.map_append, List.map_singleton,
      ofBits_append, map_add, map_mul, map_pow, List.length_singleton, pow_one, AdjoinRoot.mk_X]
    ring

theorem residue_mul (x y : BitVec w) : residue poly (mul poly x y) = residue poly x * residue poly y :=
  residue_mulBits poly hw x y w

theorem residue_power (x : BitVec w) : ∀ k n, n < 2 ^ k → residue poly (power poly x k n) = residue poly x ^ n
  | 0, n, h => by
    obtain rfl : n = 0 := Nat.lt_one_iff.mp h
    rw [pow_zero]
    exact residue_one poly hw
  | k + 1, n, h => by
    have ih := residue_power x k (n / 2) (by omega)
    have hn := Nat.div_add_mod n 2
    unfold power
    dsimp only
    split
    · next ho =>
      rw [residue_mul poly hw, residue_mul poly hw, ih, ← pow_add, ← pow_succ]
      congr 1
      omega
    · next ho =>
      rw [residue_mul poly hw, ih, ← pow_add]
      congr 1
      omega

theorem residue_clock_one : residue poly (clock poly one) = AdjoinRoot.root (generator poly) := by
  rw [residue_clock poly hw, residue_one poly hw, mul_one]

theorem orderOf_root {k n : Nat} (h₀ : 0 < n) (hn : n < 2 ^ k) (h : power poly (clock poly one) k n = one)
    (hd : ∀ p, p.Prime → p ∣ n → power poly (clock poly one) k (n / p) ≠ one) :
    orderOf (AdjoinRoot.root (generator poly)) = n := by
  have hx := residue_clock_one poly hw
  refine orderOf_eq_of_pow_and_pow_div_prime h₀ ?_ fun p hp hpn e => hd p hp hpn (residue_inj poly ?_)
  · rw [← hx, ← residue_power poly hw _ k n hn, h, residue_one poly hw]
  · rw [residue_power poly hw _ k _ (Nat.lt_of_le_of_lt (Nat.div_le_self n p) hn), hx, e, residue_one poly hw]

omit hw in
theorem generator_dvd_pair (d : Nat) :
    generator poly ∣ ofBits (true :: (List.replicate d false ++ [true])) ↔
      orderOf (AdjoinRoot.root (generator poly)) ∣ d + 1 := by
  have h : ofBits (true :: (List.replicate d false ++ [true])) = X ^ (d + 1) - 1 := by
    rw [ofBits, ofBits_append, ofBits_replicate_false, CharTwo.sub_eq_add]
    simp [ofBits, coef]
  rw [h, ← AdjoinRoot.mk_eq_mk, map_pow, map_one, AdjoinRoot.mk_X, orderOf_dvd_iff_pow_eq_one]

end

/-! ## Sums and parts of messages -/

section
variable {w : Nat} (poly : BitVec w)

theorem absorb_xor : ∀ {as bs : List Byte}, as.length = bs.length → ∀ x y : BitVec w,
    absorb poly (x ^^^ y) (List.zipWith (· ^^^ ·) as bs) = absorb poly x as ^^^ absorb poly y bs
  | [], [], _, _, _ => rfl
  | a :: as, b :: bs, hl, x, y => by
    have hb : absorbByte poly (x ^^^ y) (a ^^^ b) = absorbByte poly x a ^^^ absorbByte poly y b := by
      have hs : x ^^^ y ^^^ (a ^^^ b).setWidth w = x ^^^ a.setWidth w ^^^ (y ^^^ b.setWidth w) := by
        rw [BitVec.setWidth_xor]
        ac_rfl
      rw [absorbByte, hs, clocks_xor]
      rfl
    rw [List.zipWith_cons_cons, absorb_cons, hb, absorb_xor (Nat.succ.inj hl)]
    rfl

variable {poly} (hp : poly.msb = true)
include hp

end

end Lfsr
