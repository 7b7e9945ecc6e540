import Mathlib.Data.Nat.Digits.Defs
import Catapult.Lib.BigEndian

/-!
# What `printf` prints

The conversions as byte strings: `dec` is `%d`, `udec` is `%u`, `hex` is `%x`
and `str n` is `%.ns`; `put` is one conversion between two literal texts. A
number is read back from its numeral, and a report from its text, where no
value contains what stands behind it.
-/

namespace Printf

open BigEndian

def ascii (s : String) : List Byte := s.toList.map fun c => BitVec.ofNat 8 c.toNat

def digit (d : Nat) : Byte := BitVec.ofNat 8 (if d < 10 then 0x30 + d else 0x57 + d)

def natural (base n : Nat) : List Byte := if n = 0 then [digit 0] else ((Nat.digits base n).reverse).map digit

def udec (n : Nat) : List Byte := natural 10 n

def hex (n : Nat) : List Byte := natural 16 n

def dec (z : Int) : List Byte := if z < 0 then 0x2D :: natural 10 z.natAbs else natural 10 z.natAbs

def str (n : Nat) (s : List Byte) : List Byte := (s.take n).takeWhile (· ≠ 0)

def put (before : String) (value : List Byte) (after : String) : List Byte :=
  ascii before ++ (value ++ ascii after)

/-! ## Numbers -/

def undigit (b : Byte) : Nat := if b.toNat < 0x3A then b.toNat - 0x30 else b.toNat - 0x57

theorem undigit_digit {d : Nat} (h : d < 16) : undigit (digit d) = d := by
  have : ∀ d : Fin 16, undigit (digit d) = d := by decide
  exact this ⟨d, h⟩

theorem ofDigits_natural {base : Nat} (h₁ : 1 < base) (h₂ : base ≤ 16) (n : Nat) :
    Nat.ofDigits base ((natural base n).reverse.map undigit) = n := by
  unfold natural
  by_cases hn : n = 0
  · rw [if_pos hn, hn]
    rfl
  · have hd : ((Nat.digits base n).map digit).map undigit = Nat.digits base n := by
      rw [List.map_map]
      refine (List.map_congr_left fun d hd => ?_).trans (List.map_id _)
      exact undigit_digit (Nat.lt_of_lt_of_le (Nat.digits_lt_base h₁ hd) h₂)
    rw [if_neg hn, ← List.map_reverse, List.reverse_reverse, hd, Nat.ofDigits_digits]

theorem natural_inj {base : Nat} (h₁ : 1 < base) (h₂ : base ≤ 16) {m n : Nat}
    (h : natural base m = natural base n) : m = n := by
  rw [← ofDigits_natural h₁ h₂ m, h, ofDigits_natural h₁ h₂ n]

theorem udec_inj {m n : Nat} (h : udec m = udec n) : m = n := natural_inj (by decide) (by decide) h

theorem hex_inj {m n : Nat} (h : hex m = hex n) : m = n := natural_inj (by decide) (by decide) h

theorem le_digit {d : Nat} (h : d < 16) : 0x30 ≤ (digit d).toNat := by
  have : ∀ d : Fin 16, 0x30 ≤ (digit d).toNat := by decide
  exact this ⟨d, h⟩

theorem mem_natural {base : Nat} (h₁ : 1 < base) (h₂ : base ≤ 16) {n : Nat} {c : Byte} (h : c ∈ natural base n) :
    0x30 ≤ c.toNat := by
  unfold natural at h
  by_cases hn : n = 0
  · rw [if_pos hn, List.mem_singleton] at h
    exact h ▸ le_digit (by decide)
  · rw [if_neg hn] at h
    obtain ⟨d, hd, rfl⟩ := List.mem_map.mp h
    exact le_digit (Nat.lt_of_lt_of_le (Nat.digits_lt_base h₁ (List.mem_reverse.mp hd)) h₂)

theorem natural_ne_minus {n : Nat} {bs : List Byte} (h : natural 10 n = 0x2D :: bs) : False := by
  have := mem_natural (n := n) (c := 0x2D) (by decide : 1 < 10) (by decide) (h ▸ List.mem_cons_self)
  revert this
  decide

theorem dec_inj {z z' : Int} (h : dec z = dec z') : z = z' := by
  unfold dec at h
  by_cases hz : z < 0 <;> by_cases hz' : z' < 0
  · rw [if_pos hz, if_pos hz'] at h
    have := natural_inj (by decide) (by decide) (List.cons.inj h).2
    omega
  · rw [if_pos hz, if_neg hz'] at h
    exact (natural_ne_minus h.symm).elim
  · rw [if_neg hz, if_pos hz'] at h
    exact (natural_ne_minus h).elim
  · rw [if_neg hz, if_neg hz'] at h
    have := natural_inj (by decide) (by decide) h
    omega

theorem mem_dec {z : Int} {c : Byte} (h : c ∈ dec z) : 0x2D ≤ c.toNat := by
  unfold dec at h
  by_cases hz : z < 0
  · rw [if_pos hz] at h
    rcases List.mem_cons.mp h with rfl | h
    · decide
    · exact Nat.le_trans (by decide) (mem_natural (by decide) (by decide) h)
  · rw [if_neg hz] at h
    exact Nat.le_trans (by decide) (mem_natural (by decide) (by decide) h)

/-! ## What an output gives away -/

/-- Whatever follows it, the output of `p` gives away `key` and where it ends. -/
def Determines {α β : Type} (p : α → List Byte) (key : α → β) : Prop :=
  ∀ x y r r', p x ++ r = p y ++ r' → key x = key y ∧ r = r'

section
variable {α β γ : Type}

theorem Determines.imp {p : α → List Byte} {key : α → β} {key' : α → γ} (h : Determines p key)
    (hk : ∀ x y, key x = key y → key' x = key' y) : Determines p key' := fun x y r r' e =>
  ⟨hk x y (h x y r r' e).1, (h x y r r' e).2⟩

theorem Determines.nil : Determines (fun _ : α => [].flatten) (fun _ => ()) := fun _ _ _ _ e => ⟨rfl, e⟩

theorem Determines.text {ps : α → List (List Byte)} {key : α → β} (bs : List Byte)
    (h : Determines (fun x => (ps x).flatten) key) : Determines (fun x => (bs :: ps x).flatten) key := by
  intro x y r r' e
  simp only [List.flatten_cons, List.append_assoc] at e
  exact h x y r r' (List.append_cancel_left e)

theorem Determines.append {p q : α → List Byte} {key : α → β} {key' : α → γ} (h : Determines p key)
    (h' : Determines q key') : Determines (fun x => p x ++ q x) (fun x => (key x, key' x)) := by
  intro x y r r' e
  simp only [List.append_assoc] at e
  obtain ⟨hk, e⟩ := h x y _ _ e
  obtain ⟨hk', e⟩ := h' x y r r' e
  exact ⟨Prod.ext hk hk', e⟩

theorem Determines.cons {p : α → List Byte} {ps : α → List (List Byte)} {key : α → β} {key' : α → γ}
    (h : Determines p key) (h' : Determines (fun x => (ps x).flatten) key') :
    Determines (fun x => (p x :: ps x).flatten) (fun x => (key x, key' x)) := h.append h'

/-- A value that ends only where a heading starts. -/
theorem Determines.headed {p : α → List Byte} {ps : α → List (List Byte)} {key : α → β} {key' : α → γ}
    {t₁ t₂ : List Byte} (h : Determines (fun x => p x ++ (t₁ ++ t₂)) key)
    (h' : Determines (fun x => (ps x).flatten) key') :
    Determines (fun x => (p x :: t₁ :: t₂ :: ps x).flatten) (fun x => (key x, key' x)) := by
  intro x y r r' e
  refine h.append h' x y r r' ?_
  simpa only [List.flatten_cons, List.append_assoc] using e

/-- A value is read up to the first byte behind it, when it cannot contain that
byte. -/
theorem append_inj_of_stop {as bs r r' : List Byte} {c : Byte} (ha : c ∉ as) (hb : c ∉ bs)
    (h : as ++ c :: r = bs ++ c :: r') : as = bs ∧ r = r' := by
  induction as generalizing bs with
  | nil =>
    cases bs with
    | nil => exact ⟨rfl, (List.cons.inj h).2⟩
    | cons b bs => exact absurd ((List.cons.inj h).1 ▸ List.mem_cons_self) hb
  | cons a as ih =>
    cases bs with
    | nil => exact absurd ((List.cons.inj h).1 ▸ List.mem_cons_self) ha
    | cons b bs =>
      obtain ⟨rfl, e⟩ := List.cons.inj h
      obtain ⟨rfl, hr⟩ := ih (fun hc => ha (List.mem_cons_of_mem _ hc)) (fun hc => hb (List.mem_cons_of_mem _ hc)) e
      exact ⟨rfl, hr⟩

theorem append_inj_of_unbordered {t : List Byte} {n : Nat} (hn : n ≤ t.length)
    (ht : ∀ k, 0 < k → k ≤ n → t.drop k ≠ t.take (t.length - k)) {as bs r r' : List Byte} (ha : as.length ≤ n)
    (hb : bs.length ≤ n) (h : as ++ (t ++ r) = bs ++ (t ++ r')) : as = bs ∧ r = r' := by
  -- the longer of two different values would end inside the text behind the other
  have key : ∀ {us s s' : List Byte}, us.length ≤ n → t ++ s = us ++ (t ++ s') → us = [] := by
    intro us s s' hl e
    by_contra hne
    have hk : 0 < us.length := List.length_pos_iff.mpr hne
    have e' := congrArg (fun l => (l.drop us.length).take (t.length - us.length)) e
    simp only [List.drop_left] at e'
    rw [List.drop_append_of_le_length (by omega), List.take_append_of_le_length (by rw [List.length_drop]),
      List.take_append_of_le_length (by omega), List.take_of_length_le (by rw [List.length_drop])] at e'
    exact ht _ hk hl e'
  rcases List.append_eq_append_iff.mp h with ⟨us, rfl, e⟩ | ⟨us, rfl, e⟩
  · have hu : us = [] := key (by rw [List.length_append] at hb; omega) e
    subst hu
    exact ⟨(List.append_nil _).symm, List.append_cancel_left e⟩
  · have hu : us = [] := key (by rw [List.length_append] at ha; omega) e
    subst hu
    exact ⟨List.append_nil _, (List.append_cancel_left e).symm⟩

/-! ## Conversions -/

/-- A text that starts with a byte no number contains. -/
def Stops (after : String) : Prop := ∃ c cs, ascii after = c :: cs ∧ c.toNat < 0x2D

theorem stops_newline : Stops "\n" := ⟨_, _, rfl, by decide⟩
theorem stops_newlines : Stops "\n\n" := ⟨_, _, rfl, by decide⟩
theorem stops_tab : Stops "\t" := ⟨_, _, rfl, by decide⟩

theorem determines_put {value : α → List Byte} {key : α → β} (before : String) {after : String} (hs : Stops after)
    (hv : ∀ x, ∀ c ∈ value x, 0x2D ≤ c.toNat) (hk : ∀ x y, value x = value y → key x = key y) :
    Determines (fun x => put before (value x) after) key := by
  obtain ⟨c, cs, hc, hlt⟩ := hs
  intro x y r r' e
  simp only [put, hc, List.append_assoc, List.cons_append] at e
  have hx : ∀ x, c ∉ value x := fun x hm => by
    have := hv x c hm
    omega
  obtain ⟨hv, e⟩ := append_inj_of_stop (hx x) (hx y) (List.append_cancel_left e)
  exact ⟨hk x y hv, List.append_cancel_left e⟩

variable {w : Nat} (g : α → BitVec w) (before : String) {after : String} (hs : Stops after)
include hs

theorem determines_decInt : Determines (fun x => put before (dec (g x).toInt) after) g :=
  determines_put before hs (fun _ _ => mem_dec) fun _ _ h => BitVec.eq_of_toInt_eq (dec_inj h)

theorem determines_dec : Determines (fun x => put before (dec (g x).toNat) after) g :=
  determines_put before hs (fun _ _ => mem_dec) fun _ _ h => BitVec.eq_of_toNat_eq (Int.ofNat.inj (dec_inj h))

theorem determines_udec : Determines (fun x => put before (udec (g x).toNat) after) g :=
  determines_put before hs (fun _ _ h => Nat.le_trans (by decide) (mem_natural (by decide) (by decide) h))
    fun _ _ h => BitVec.eq_of_toNat_eq (udec_inj h)

theorem determines_hex : Determines (fun x => put before (hex (g x).toNat) after) g :=
  determines_put before hs (fun _ _ h => Nat.le_trans (by decide) (mem_natural (by decide) (by decide) h))
    fun _ _ h => BitVec.eq_of_toNat_eq (hex_inj h)

end

/-- A loop that prints each element with its index gives away all of them. -/
theorem Determines.loop {α β : Type} {print : α → Nat → List Byte} {key : α → β}
    (h : ∀ i, Determines (fun x => print x i) key) : ∀ {xs ys : List α}, xs.length = ys.length →
    ∀ (k : Nat) (r r' : List Byte),
      (xs.zipIdx k).flatMap (fun p => print p.1 p.2) ++ r = (ys.zipIdx k).flatMap (fun p => print p.1 p.2) ++ r' →
        xs.map key = ys.map key ∧ r = r'
  | [], [], _, _, _, _, e => ⟨rfl, e⟩
  | x :: xs, y :: ys, hl, k, r, r', e => by
    simp only [List.zipIdx_cons, List.flatMap_cons, List.append_assoc] at e
    obtain ⟨hk, e⟩ := h k x y _ _ e
    obtain ⟨hm, e⟩ := Determines.loop h (Nat.succ.inj hl) (k + 1) r r' e
    exact ⟨by rw [List.map_cons, List.map_cons, hk, hm], e⟩

end Printf
