import Catapult.Lib.BigEndian

/-!
# A reflected shift register

The register of a reflected CRC: a clock shifts towards the low end and adds
the feedback polynomial when a one falls out. A clock is linear, so `n` clocks
depend on the low `n` bits through a table and on the others through a shift.
-/

namespace Lfsr

open BigEndian

section
variable {w : Nat} (poly : BitVec w)

def clock (x : BitVec w) : BitVec w := if x.getLsbD 0 then (x >>> 1) ^^^ poly else x >>> 1

def clocks : Nat → BitVec w → BitVec w
  | 0, x => x
  | n + 1, x => clocks n (clock poly x)

def absorbByte (x : BitVec w) (b : Byte) : BitVec w := clocks poly 8 (x ^^^ b.setWidth w)

def absorb (x : BitVec w) (bs : List Byte) : BitVec w := bs.foldl (absorbByte poly) x

/-! ## Linearity -/

theorem clock_xor (x y : BitVec w) : clock poly (x ^^^ y) = clock poly x ^^^ clock poly y := by
  unfold clock
  simp only [BitVec.getLsbD_xor, BitVec.ushiftRight_xor_distrib]
  -- the feedback is added once where one register has a low bit, and cancels where both have
  cases x.getLsbD 0 <;> cases y.getLsbD 0
  · simp
  · simp [BitVec.xor_assoc]
  · simp [BitVec.xor_assoc, BitVec.xor_comm poly]
  · have : x >>> 1 ^^^ poly ^^^ (y >>> 1 ^^^ poly) = x >>> 1 ^^^ y >>> 1 ^^^ (poly ^^^ poly) := by
      ac_rfl
    simp [this]

theorem clocks_xor (n : Nat) : ∀ x y : BitVec w, clocks poly n (x ^^^ y) = clocks poly n x ^^^ clocks poly n y := by
  induction n with
  | zero => intro x y; rfl
  | succ n ih =>
    intro x y
    simp only [clocks, clock_xor, ih]

/-! ## Low and high bits -/

theorem clocks_shift (n : Nat) : ∀ x : BitVec w, (∀ i < n, x.getLsbD i = false) → clocks poly n x = x >>> n := by
  induction n with
  | zero => intro x _; simp [clocks]
  | succ n ih =>
    intro x hx
    have h₀ : clock poly x = x >>> 1 := by simp [clock, hx 0 (by omega)]
    rw [clocks, h₀, ih (x >>> 1), ← BitVec.shiftRight_add, Nat.add_comm]
    intro i hi
    simpa [Nat.add_comm] using hx (i + 1) (by omega)

theorem split_low (n : Nat) (x : BitVec w) : x = (x.setWidth n).setWidth w ^^^ (x >>> n <<< n) := by
  apply BitVec.eq_of_getLsbD_eq
  intro i hi
  by_cases h : i < n
  · simp [h, hi]
  · simp [h, hi, show n + (i - n) = i by omega]

/-- **`n` clocks as a table look-up.** -/
theorem clocks_split (n : Nat) (x : BitVec w) :
    clocks poly n x = clocks poly n ((x.setWidth n).setWidth w) ^^^ (x >>> n) := by
  conv => lhs; rw [split_low n x]
  rw [clocks_xor, clocks_shift poly n (x >>> n <<< n)]
  · congr 1
    apply BitVec.eq_of_getLsbD_eq
    intro i hi
    by_cases h : n + i < w
    · simp [h]
    · simp [h, BitVec.getLsbD_of_ge x (n + i) (by omega)]
  · intro i hi
    simp [hi]

/-! ## Messages -/

@[simp] theorem absorb_nil (x : BitVec w) : absorb poly x [] = x := rfl

@[simp] theorem absorb_cons (x : BitVec w) (b : Byte) (bs : List Byte) :
    absorb poly x (b :: bs) = absorb poly (absorbByte poly x b) bs := rfl

theorem absorb_append (x : BitVec w) (as bs : List Byte) :
    absorb poly x (as ++ bs) = absorb poly (absorb poly x as) bs := List.foldl_append

theorem absorb_slice (m : List Byte) (x : BitVec w) (p k n : Nat) :
    absorb poly (absorb poly x ((m.drop p).take k)) ((m.drop (p + k)).take n) =
      absorb poly x ((m.drop p).take (k + n)) := by
  rw [← absorb_append, List.take_add, List.drop_drop]

theorem absorbByte_split (x : BitVec w) (b : Byte) :
    absorbByte poly x b = clocks poly 8 (((x ^^^ b.setWidth w).setWidth 8).setWidth w) ^^^ (x >>> 8) := by
  have hb : b.setWidth w >>> 8 = 0#w := by
    apply BitVec.eq_of_getLsbD_eq
    intro i hi
    simp
  rw [absorbByte, clocks_split, BitVec.ushiftRight_xor_distrib, hb, BitVec.xor_zero]

/-! ## Several bytes at once -/

theorem clocks_add (m n : Nat) : ∀ x : BitVec w, clocks poly (m + n) x = clocks poly n (clocks poly m x) := by
  induction m with
  | zero => intro x; rw [Nat.zero_add]; rfl
  | succ m ih => intro x; rw [Nat.succ_add]; exact ih _

theorem clocks_shiftLeft (n : Nat) {x : BitVec w} (h : 2 ^ n * x.toNat < 2 ^ w) : clocks poly n (x <<< n) = x := by
  have hs : (x <<< n) >>> n = x := by
    apply BitVec.eq_of_toNat_eq
    rw [BitVec.toNat_ushiftRight, BitVec.toNat_shiftLeft, Nat.shiftLeft_eq, Nat.mul_comm, Nat.mod_eq_of_lt h,
      Nat.shiftRight_eq_div_pow, Nat.mul_div_cancel_left _ (Nat.two_pow_pos n)]
  rw [clocks_shift poly n _ fun i hi => by simp [hi], hs]

theorem ofBytes_reverse_cons (b : Byte) (bs : List Byte) :
    ofBytes w (b :: bs).reverse = b.setWidth w ^^^ (ofBytes w bs.reverse <<< 8) := by
  rw [List.reverse_cons, ofBytes_concat]
  apply BitVec.eq_of_getLsbD_eq
  intro i hi
  simp only [BitVec.getLsbD_or, BitVec.getLsbD_xor, BitVec.getLsbD_shiftLeft, BitVec.getLsbD_setWidth]
  by_cases h8 : i < 8
  · simp [h8]
  · simp [BitVec.getLsbD_of_ge b i (by omega)]

/-- A register absorbs at once as many bytes as it has room for. -/
theorem absorb_eq_clocks : ∀ {bs : List Byte}, 8 * bs.length ≤ w → ∀ x : BitVec w,
    absorb poly x bs = clocks poly (8 * bs.length) (x ^^^ ofBytes w bs.reverse)
  | [], _, x => by simp [clocks, ofBytes]
  | b :: bs, h, x => by
    have hk : 8 * (bs.length + 1) ≤ w := h
    have hn : (ofBytes w bs.reverse).toNat = beNat bs.reverse := by
      apply toNat_ofBytes
      rw [List.length_reverse]
      omega
    have hlt : 2 ^ 8 * (ofBytes w bs.reverse).toNat < 2 ^ w := by
      have := beNat_lt bs.reverse
      rw [List.length_reverse, show 256 = 2 ^ 8 from rfl, ← Nat.pow_mul] at this
      calc 2 ^ 8 * (ofBytes w bs.reverse).toNat = 2 ^ 8 * beNat bs.reverse := by rw [hn]
        _ < 2 ^ 8 * 2 ^ (8 * bs.length) := Nat.mul_lt_mul_of_pos_left this (by decide)
        _ = 2 ^ (8 * (bs.length + 1)) := by rw [← Nat.pow_add]; congr 1; omega
        _ ≤ 2 ^ w := Nat.pow_le_pow_right (by decide) hk
    rw [absorb_cons, absorb_eq_clocks (by omega), List.length_cons, Nat.mul_succ, Nat.add_comm, clocks_add,
      ofBytes_reverse_cons, ← BitVec.xor_assoc, clocks_xor poly 8, clocks_shiftLeft poly 8 hlt]
    rfl

/-! ## What a register remembers -/

section
variable {poly} (hp : poly.msb = true)
include hp

theorem clock_eq_zero {x : BitVec w} (h : clock poly x = 0#w) : x = 0#w := by
  rw [BitVec.msb_eq_getLsbD_last] at hp
  have hb : ∀ i, (clock poly x).getLsbD i = false := fun i => by rw [h, BitVec.getLsbD_zero]
  have h₀ : x.getLsbD 0 = false := by
    by_contra h₀
    have := hb (w - 1)
    rw [clock, if_pos (by simpa using h₀), BitVec.getLsbD_xor, hp, BitVec.getLsbD_ushiftRight,
      BitVec.getLsbD_of_ge x (1 + (w - 1)) (by omega)] at this
    cases this
  apply BitVec.eq_of_getLsbD_eq
  intro i hi
  cases i with
  | zero => rw [h₀, BitVec.getLsbD_zero]
  | succ i =>
    have := hb i
    rw [clock, if_neg (by simp [h₀]), BitVec.getLsbD_ushiftRight, Nat.add_comm] at this
    rw [this, BitVec.getLsbD_zero]

theorem clocks_eq_zero (n : Nat) : ∀ {x : BitVec w}, clocks poly n x = 0#w → x = 0#w := by
  induction n with
  | zero => intro x h; exact h
  | succ n ih => intro x h; exact clock_eq_zero hp (ih h)

theorem clocks_inj (n : Nat) {x y : BitVec w} (h : clocks poly n x = clocks poly n y) : x = y := by
  rw [← BitVec.xor_eq_zero_iff, ← clocks_xor] at h
  exact BitVec.xor_eq_zero_iff.mp (clocks_eq_zero hp n h)

theorem absorb_inj_register : ∀ (bs : List Byte) {x y : BitVec w}, absorb poly x bs = absorb poly y bs → x = y
  | [], _, _, h => h
  | b :: bs, x, y, h => by
    have := clocks_inj hp 8 (absorb_inj_register bs h)
    exact (BitVec.xor_left_inj _).mp this

theorem absorb_inj_bytes {as bs : List Byte} (hl : as.length = bs.length) (hw : 8 * bs.length ≤ w) {x : BitVec w}
    (h : absorb poly x as = absorb poly x bs) : as = bs := by
  rw [absorb_eq_clocks poly (hl ▸ hw), absorb_eq_clocks poly hw, hl] at h
  have e := (BitVec.xor_right_inj x).mp (clocks_inj hp _ h)
  have := ofBytes_inj (by rw [List.length_reverse, List.length_reverse, hl]) (by rwa [List.length_reverse]) e
  exact List.reverse_inj.mp this

/-- **A change that fits into the register is never absorbed.** -/
theorem absorb_inj_window {as bs : List Byte} (hl : as.length = bs.length) (hw : 8 * bs.length ≤ w)
    {x : BitVec w} (pre post : List Byte)
    (h : absorb poly x (pre ++ (as ++ post)) = absorb poly x (pre ++ (bs ++ post))) : as = bs := by
  simp only [absorb_append] at h
  exact absorb_inj_bytes hp hl hw (absorb_inj_register hp post h)

end

end

end Lfsr
