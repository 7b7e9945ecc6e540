import Mathlib.Data.Nat.Digits.Defs

/-!
# Big-endian words

`ofBytes w bs` is the `w`-bit word spelled by a byte string, most significant
byte first; `toBytes k x` spells the low `k` bytes of a word. On words of
`8 * k` bits the two are inverse.
-/

namespace BigEndian

abbrev Byte := BitVec 8

def beNat (bs : List Byte) : Nat := Nat.ofDigits 256 (bs.reverse.map BitVec.toNat)

def ofBytes (w : Nat) (bs : List Byte) : BitVec w := BitVec.ofNat w (beNat bs)

def toBytes {w : Nat} (k : Nat) (x : BitVec w) : List Byte :=
  (List.range k).reverse.map fun i => (x >>> (8 * i)).setWidth 8

def wordAt (w : Nat) (b : List Byte) (o : Nat) : BitVec w := ofBytes w ((b.drop o).take (w / 8))

/-! ## Numbers -/

@[simp] theorem beNat_nil : beNat [] = 0 := rfl

@[simp] theorem beNat_concat (bs : List Byte) (b : Byte) : beNat (bs ++ [b]) = 256 * beNat bs + b.toNat := by
  simp [beNat, Nat.ofDigits_cons, Nat.add_comm]

theorem beNat_lt (bs : List Byte) : beNat bs < 256 ^ bs.length := by
  have := Nat.ofDigits_lt_base_pow_length (b := 256) (l := bs.reverse.map BitVec.toNat) (by decide)
    (by simp only [List.mem_map]; rintro _ ⟨b, _, rfl⟩; exact b.isLt)
  rwa [List.length_map, List.length_reverse] at this

theorem beNat_inj {as bs : List Byte} (hl : as.length = bs.length) (h : beNat as = beNat bs) : as = bs := by
  have hlt : ∀ cs : List Byte, ∀ d ∈ cs.reverse.map BitVec.toNat, d < 256 := by
    intro cs d hd
    obtain ⟨c, _, rfl⟩ := List.mem_map.mp hd
    exact c.isLt
  have hd := Nat.ofDigits_inj_of_len_eq (by decide) (by simp [hl]) (hlt as) (hlt bs) h
  exact List.reverse_inj.mp ((List.map_inj_right fun _ _ e => BitVec.eq_of_toNat_eq e).mp hd)

/-! ## Spelling a word -/

@[simp] theorem length_toBytes {w : Nat} (k : Nat) (x : BitVec w) : (toBytes k x).length = k := by
  simp [toBytes]

theorem toBytes_succ {w : Nat} (k : Nat) (x : BitVec w) :
    toBytes (k + 1) x = toBytes k (x >>> 8) ++ [x.setWidth 8] := by
  simp only [toBytes, List.range_succ_eq_map, List.reverse_cons, List.map_append, List.map_reverse,
    List.map_map]
  congr 3
  funext i
  simp only [Function.comp, Nat.succ_eq_add_one, Nat.mul_add, Nat.add_comm (8 * i), BitVec.shiftRight_add]

theorem beNat_toBytes {w : Nat} (k : Nat) : ∀ x : BitVec w, beNat (toBytes k x) = x.toNat % 256 ^ k := by
  induction k with
  | zero => intro x; simp [toBytes, Nat.mod_one]
  | succ k ih =>
    intro x
    rw [toBytes_succ, beNat_concat, ih, Nat.pow_succ', Nat.mod_mul, BitVec.toNat_ushiftRight,
      BitVec.toNat_setWidth, Nat.shiftRight_eq_div_pow, Nat.add_comm]

/-! ## Inverses -/

theorem ofBytes_toBytes {w : Nat} (k : Nat) (hk : w = 8 * k) (x : BitVec w) : ofBytes w (toBytes k x) = x := by
  apply BitVec.eq_of_toNat_eq
  have hx := x.isLt
  have hp : 256 ^ k = 2 ^ w := by rw [hk, Nat.pow_mul]
  simp only [ofBytes, BitVec.toNat_ofNat, beNat_toBytes, hp]
  rw [Nat.mod_mod, Nat.mod_eq_of_lt hx]

theorem toNat_ofBytes {w : Nat} {bs : List Byte} (hw : 8 * bs.length ≤ w) : (ofBytes w bs).toNat = beNat bs := by
  have hp : 256 ^ bs.length ≤ 2 ^ w := by
    rw [show 256 = 2 ^ 8 from rfl, ← Nat.pow_mul]
    exact Nat.pow_le_pow_right (by decide) hw
  rw [ofBytes, BitVec.toNat_ofNat, Nat.mod_eq_of_lt (Nat.lt_of_lt_of_le (beNat_lt bs) hp)]

theorem ofBytes_inj {w : Nat} {as bs : List Byte} (hl : as.length = bs.length) (hw : 8 * bs.length ≤ w)
    (h : ofBytes w as = ofBytes w bs) : as = bs := by
  have := congrArg BitVec.toNat h
  rw [toNat_ofBytes (hl ▸ hw), toNat_ofBytes hw] at this
  exact beNat_inj hl this

theorem toBytes_ofBytes {w : Nat} (k : Nat) (hk : w = 8 * k) {bs : List Byte} (hl : bs.length = k) :
    toBytes k (ofBytes w bs) = bs := by
  subst hl
  refine beNat_inj (length_toBytes _ _) ?_
  rw [beNat_toBytes, toNat_ofBytes (Nat.le_of_eq hk.symm), Nat.mod_eq_of_lt (beNat_lt bs)]

/-! ## Words in a buffer -/

theorem toBytes_wordAt {w : Nat} (k : Nat) (hk : w = 8 * k) {b : List Byte} {o : Nat} (h : o + k ≤ b.length) :
    toBytes k (wordAt w b o) = (b.drop o).take k := by
  have e : w / 8 = k := by omega
  rw [wordAt, e, toBytes_ofBytes k hk (by rw [List.length_take, List.length_drop]; omega)]

theorem wordAt_append {w : Nat} (k : Nat) (hk : w = 8 * k) (pre post : List Byte) (x : BitVec w) :
    wordAt w (pre ++ (toBytes k x ++ post)) pre.length = x := by
  have e : w / 8 = k := by omega
  rw [wordAt, e, List.drop_left, List.take_left' (length_toBytes k x), ofBytes_toBytes k hk]

theorem wordAt_slice {w : Nat} (b : List Byte) (o : Nat) {n j : Nat} (h : j + w / 8 ≤ n) :
    wordAt w ((b.drop o).take n) j = wordAt w b (o + j) := by
  simp only [wordAt, List.drop_take, List.drop_drop, List.take_take]
  rw [Nat.min_eq_left (by omega)]

theorem ofBytes_concat {w : Nat} (bs : List Byte) (b : Byte) :
    ofBytes w (bs ++ [b]) = (ofBytes w bs <<< 8) ||| b.setWidth w := by
  apply BitVec.eq_of_getLsbD_eq
  intro i hi
  have hb := b.isLt
  simp only [ofBytes, BitVec.getLsbD_or, BitVec.getLsbD_shiftLeft, BitVec.getLsbD_setWidth,
    BitVec.getLsbD_ofNat, hi, decide_true, Bool.true_and, beNat_concat]
  rw [show 256 = 2 ^ 8 from rfl, Nat.two_pow_add_eq_or_of_lt hb, Nat.testBit_or, Nat.mul_comm,
    Nat.testBit_mul_two_pow, BitVec.testBit_toNat]
  by_cases h8 : i < 8
  · simp [h8]
  · simp [h8, show i - 8 < w by omega, show 8 ≤ i by omega]

end BigEndian
