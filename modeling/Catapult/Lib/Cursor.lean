import Mathlib.Logic.Equiv.Defs
import Catapult.Lib.BigEndian

/-!
# Reading a buffer through a running offset

A C reader takes a buffer and an `int *offset` and has no length to check
against, so a read past either end is a fault of the run and not a result.
What C leaves to the implementation is a parameter: the order in which the
calls inside one expression run, and what a signed overflow does.

`Parses` says what a reader returns on given bytes, `Takes` how many bytes it
needs, `Yields` what it does in one buffer and where it may overflow; all three
are closed under sequencing and loops. A reader with a fixed width that has an
inverse is a `Codec`.
-/

namespace Cursor

open BigEndian

inductive Fault where
  | outOfBounds (index : Int)
  | overflow
  | nullStream
  deriving DecidableEq, Repr

/-- The choices C leaves open. `rank n o i` is the turn of the `i`-th of the
`n` operand calls of an expression evaluated at offset `o`. -/
structure Impl where
  rank : (n : Nat) → Int → Equiv.Perm (Fin n)
  traps : Bool

def Impl.native : Impl where
  rank _ _ := Equiv.refl _
  traps := false

structure Env where
  impl : Impl
  src : List Byte

structure State where
  offset : Int
  log : List String
  deriving DecidableEq, Repr

abbrev Read := ReaderT Env (StateT State (Except Fault))

def Read.exec {α : Type} (m : Read α) (I : Impl) (src : List Byte) (s : State) :
    Except Fault (α × State) :=
  (m.run ⟨I, src⟩).run s

/-! ## Operations -/

def byteAt (src : List Byte) (i : Int) : Option Byte := if 0 ≤ i then src[i.toNat]? else none

def index (i : Int) : Read Byte := do
  match byteAt (← read).src i with
  | some x => pure x
  | none => throw (.outOfBounds i)

/-- The `int` an expression of value `z` evaluates to. -/
def int (z : Int) : Read Int := do
  if -2 ^ 31 ≤ z ∧ z < 2 ^ 31 then pure z
  else if (← read).impl.traps then throw .overflow
  else pure (z.bmod (2 ^ 32))

def sizeT (z : Nat) : Read Nat := do
  if z < 2 ^ 64 then pure z
  else if (← read).impl.traps then throw .overflow
  else pure (z % 2 ^ 64)

def operandRank (n : Nat) : Read (Equiv.Perm (Fin n)) := do
  return (← read).impl.rank n (← get).offset

def say (msg : String) : Read Unit := modify fun s => { s with log := s.log ++ [msg] }

def fill {α : Type} (m : Read α) : (n : Nat) → Read (Vector α n)
  | 0 => pure #v[]
  | n + 1 => do
    let xs ← fill m n
    let x ← m
    return xs.push x

/-- The `n` bytes from `&src[start]`. -/
def copyFrom (src : List Byte) (start : Int) (n : Nat) : Except Fault (List Byte) :=
  if n = 0 then .ok []
  else if start < 0 then .error (.outOfBounds start)
  else if src.length < start.toNat + n then .error (.outOfBounds (max start src.length))
  else .ok ((src.drop start.toNat).take n)

/-- A sequence that ends has ended in both of its parts. -/
theorem bind_inv {α β : Type} {x : Except Fault α} {f : α → Except Fault β} {y : β} (h : (x >>= f) = .ok y) :
    ∃ a, x = .ok a ∧ f a = .ok y := by
  cases x with
  | error e => cases h
  | ok a => exact ⟨a, rfl, h⟩

section
variable {α β : Type} (I : Impl) (b : List Byte) (s : State)

@[simp] theorem exec_pure (x : α) : (pure x : Read α).exec I b s = .ok (x, s) := rfl

theorem exec_bind (m : Read α) (f : α → Read β) :
    (m >>= f).exec I b s = (m.exec I b s).bind fun p => (f p.1).exec I b p.2 := rfl

theorem exec_bind_ok {m : Read α} {x : α} {s' : State} (h : m.exec I b s = .ok (x, s')) (f : α → Read β) :
    (m >>= f).exec I b s = (f x).exec I b s' := by
  rw [exec_bind, h]; rfl

theorem exec_bind_error {m : Read α} {e : Fault} (h : m.exec I b s = .error e) (f : α → Read β) :
    (m >>= f).exec I b s = .error e := by
  rw [exec_bind, h]; rfl

theorem exec_bind_inv {I : Impl} {b : List Byte} {s : State} {m : Read α} {f : α → Read β} {y : β} {t : State}
    (h : (m >>= f).exec I b s = .ok (y, t)) :
    ∃ x s', m.exec I b s = .ok (x, s') ∧ (f x).exec I b s' = .ok (y, t) := by
  obtain ⟨⟨x, s'⟩, hm, hf⟩ := bind_inv h
  exact ⟨x, s', hm, hf⟩

@[simp] theorem exec_get : (get : Read State).exec I b s = .ok (s, s) := rfl

@[simp] theorem exec_modify (f : State → State) : (modify f : Read PUnit).exec I b s = .ok ((), f s) := rfl

@[simp] theorem exec_say (msg : String) : (say msg).exec I b s = .ok ((), { s with log := s.log ++ [msg] }) := rfl

@[simp] theorem exec_operandRank (n : Nat) : (operandRank n).exec I b s = .ok (I.rank n s.offset, s) := rfl

theorem exec_int {z : Int} (h₁ : -2 ^ 31 ≤ z) (h₂ : z < 2 ^ 31) : (int z).exec I b s = .ok (z, s) := by
  simp only [int, h₁, h₂, and_self, ite_true]; rfl

theorem exec_int_wraps (hI : I.traps = false) (z : Int) :
    ∃ z', (int z).exec I b s = .ok (z', s) ∧ BitVec.ofInt 32 z' = BitVec.ofInt 32 z := by
  by_cases h : -2 ^ 31 ≤ z ∧ z < 2 ^ 31
  · exact ⟨z, exec_int I b s h.1 h.2, rfl⟩
  · refine ⟨z.bmod (2 ^ 32), ?_, ?_⟩
    · unfold int
      rw [if_neg h]
      show (if I.traps = true then _ else _ : Read Int).exec I b s = _
      rw [hI]; rfl
    · apply BitVec.eq_of_toInt_eq
      simp [BitVec.toInt_ofInt]

theorem exec_int_traps (hI : I.traps = true) {z : Int} (h : 2 ^ 31 ≤ z) : (int z).exec I b s = .error .overflow := by
  unfold int
  rw [if_neg (by omega)]
  show (if I.traps = true then _ else _ : Read Int).exec I b s = _
  rw [hI]; rfl

theorem exec_sizeT {z : Nat} (h : z < 2 ^ 64) : (sizeT z).exec I b s = .ok (z, s) := by
  simp only [sizeT, h, ite_true]; rfl

theorem exec_index_ok {i : Int} {x : Byte} (h : byteAt b i = some x) : (index i).exec I b s = .ok (x, s) := by
  show (match byteAt b i with | some x => _ | none => _ : Read Byte).exec I b s = _
  rw [h]; rfl

theorem exec_index_error {i : Int} (h : byteAt b i = none) :
    (index i).exec I b s = .error (.outOfBounds i) := by
  show (match byteAt b i with | some x => _ | none => _ : Read Byte).exec I b s = _
  rw [h]; rfl

theorem exec_fill_error {m : Read α} {e : Fault} (h : m.exec I b s = .error e) :
    ∀ n, (fill m (n + 1)).exec I b s = .error e
  | 0 => (exec_bind_ok I b s (exec_pure I b s #v[]) _).trans (exec_bind_error I b s h _)
  | n + 1 => exec_bind_error I b s (exec_fill_error h n) _

theorem byteAt_append (pre : List Byte) (x : Byte) (post : List Byte) :
    byteAt (pre ++ x :: post) pre.length = some x := by
  simp [byteAt]

theorem byteAt_eq_some {b : List Byte} {i : Int} {x : Byte} (h : byteAt b i = some x) :
    0 ≤ i ∧ i < b.length ∧ b[i.toNat]? = some x := by
  unfold byteAt at h
  split at h
  next h₀ =>
    have hl := (List.getElem?_eq_some_iff.mp h).1
    exact ⟨h₀, by omega, h⟩
  · cases h

theorem byteAt_of_neg {i : Int} (h : i < 0) : byteAt b i = none := if_neg (by omega)

theorem byteAt_of_length_le {i : Int} (h : b.length ≤ i) : byteAt b i = none := by
  unfold byteAt
  split
  · exact List.getElem?_eq_none (by omega)
  · rfl

end

/-! ## What a reader returns -/

/-- Wherever `bs` stands in a buffer, `m` started at it returns `x` and stops
right behind it, with nothing reported. -/
def Parses {α : Type} (I : Impl) (m : Read α) (bs : List Byte) (x : α) : Prop :=
  ∀ (pre post : List Byte) (log : List String), pre.length + bs.length < 2 ^ 31 →
    m.exec I (pre ++ (bs ++ post)) ⟨pre.length, log⟩ = .ok (x, ⟨(pre.length + bs.length : Nat), log⟩)

section
variable {I : Impl} {α β : Type}

theorem Parses.pure (x : α) : Parses I (pure x) [] x := fun _ _ _ _ => rfl

theorem Parses.bind {m : Read α} {f : α → Read β} {bs cs : List Byte} {x : α} {y : β}
    (hm : Parses I m bs x) (hf : Parses I (f x) cs y) : Parses I (m >>= f) (bs ++ cs) y := by
  intro pre post log hl
  rw [List.length_append] at hl
  rw [exec_bind_ok _ _ _ (by rw [List.append_assoc]; exact hm pre (cs ++ post) log (by omega))]
  have h := hf (pre ++ bs) post log (by rw [List.length_append]; omega)
  simpa [Nat.add_assoc] using h

theorem Parses.ret {m : Read α} {bs : List Byte} {x : α} (hm : Parses I m bs x) (g : α → β) :
    Parses I (m >>= fun x => Pure.pure (g x)) bs (g x) := by
  have h := hm.bind (f := fun x => Pure.pure (g x)) (Parses.pure _)
  rwa [List.append_nil] at h

theorem Parses.skip {m : Read α} {f : α → Read β} {cs : List Byte} {x : α} {y : β}
    (hm : ∀ b s, m.exec I b s = .ok (x, s)) (hf : Parses I (f x) cs y) : Parses I (m >>= f) cs y := by
  intro pre post log hl
  rw [exec_bind_ok _ _ _ (hm _ _)]
  exact hf pre post log hl

theorem Parses.cons {m : Read α} {f : α → Read β} {bs : List Byte} {css : List (List Byte)} {x : α} {y : β}
    (hm : Parses I m bs x) (hf : Parses I (f x) css.flatten y) :
    Parses I (m >>= f) (bs :: css).flatten y := hm.bind hf

theorem Parses.fill {m : Read α} {bytes : α → List Byte} (h : ∀ x, Parses I m (bytes x) x) :
    ∀ {n : Nat} (v : Vector α n), Parses I (fill m n) (v.toList.flatMap bytes) v := by
  intro n
  induction n with
  | zero => intro v; rw [show v = #v[] from Vector.eq_empty]; exact Parses.pure _
  | succ n ih =>
    intro v
    rw [← Vector.push_pop_back v, Vector.toList_push, List.flatMap_append]
    refine (ih _).bind ?_
    rw [List.flatMap_singleton]
    exact (h v.back).ret v.pop.push

theorem Parses.exec_slice {m : Read α} {bs : List Byte} {x : α} (h : Parses I m bs x) {b : List Byte} {o : Nat}
    (hb : (b.drop o).take bs.length = bs) (hl : o + bs.length ≤ b.length) (hi : o + bs.length < 2 ^ 31)
    (log : List String) : m.exec I b ⟨o, log⟩ = .ok (x, ⟨(o + bs.length : Nat), log⟩) := by
  have ho : (b.take o).length = o := by rw [List.length_take]; omega
  have e : b.take o ++ (bs ++ b.drop (o + bs.length)) = b := by
    have := List.take_append_drop bs.length (b.drop o)
    rw [hb, List.drop_drop] at this
    rw [this, List.take_append_drop]
  have := h (b.take o) (b.drop (o + bs.length)) log (by rwa [ho])
  rwa [e, ho] at this

end

/-! ## How much a reader needs -/

/-- Started inside a buffer, `m` consumes exactly `n` bytes if they are there,
and faults if they are not. -/
structure Takes {α : Type} (I : Impl) (m : Read α) (n : Nat) : Prop where
  fits : ∀ (b : List Byte) (o : Nat) (log : List String), o + n ≤ b.length → o + n < 2 ^ 31 →
    ∃ x, m.exec I b ⟨o, log⟩ = .ok (x, ⟨(o + n : Nat), log⟩)
  faults : ∀ (b : List Byte) (o : Nat) (log : List String), o ≤ b.length → b.length < o + n → b.length < 2 ^ 31 →
    ∃ i, m.exec I b ⟨o, log⟩ = .error (.outOfBounds i)

section
variable {I : Impl} {α β : Type}

theorem Takes.pure (x : α) : Takes I (pure x) 0 where
  fits _ _ _ _ _ := ⟨x, rfl⟩
  faults _ _ _ _ _ _ := by omega

theorem Takes.bind {m : Read α} {f : α → Read β} {n k : Nat} (hm : Takes I m n) (hf : ∀ x, Takes I (f x) k) :
    Takes I (m >>= f) (n + k) where
  fits b o log hl hi := by
    obtain ⟨x, hx⟩ := hm.fits b o log (by omega) (by omega)
    obtain ⟨y, hy⟩ := (hf x).fits b (o + n) log (by omega) (by omega)
    exact ⟨y, by rw [exec_bind_ok _ _ _ hx, hy, Nat.add_assoc]⟩
  faults b o log ho hl hi := by
    by_cases h : o + n ≤ b.length
    · obtain ⟨x, hx⟩ := hm.fits b o log h (by omega)
      rw [exec_bind_ok _ _ _ hx]
      exact (hf x).faults b (o + n) log h (by omega) (by omega)
    · obtain ⟨i, hi⟩ := hm.faults b o log ho (by omega) (by omega)
      exact ⟨i, exec_bind_error _ _ _ hi f⟩

theorem Takes.skip {m : Read α} {f : α → Read β} {x : α} {k : Nat}
    (hm : ∀ b s, m.exec I b s = .ok (x, s)) (hf : Takes I (f x) k) : Takes I (m >>= f) k where
  fits b o log hl hi := by rw [exec_bind_ok _ _ _ (hm _ _)]; exact hf.fits b o log hl hi
  faults b o log ho hl hi := by rw [exec_bind_ok _ _ _ (hm _ _)]; exact hf.faults b o log ho hl hi

theorem Takes.fill {m : Read α} {k : Nat} (h : Takes I m k) : ∀ n, Takes I (fill m n) (n * k)
  | 0 => by rw [Nat.zero_mul]; exact Takes.pure _
  | n + 1 => by
    rw [Nat.succ_mul]
    exact (Takes.fill h n).bind fun _ => h.bind fun _ => Takes.pure _

end

/-! ## Fixed-width fields -/

/-- `m` reads a field of `k` bytes and `bytes` is its inverse. -/
structure Codec {α : Type} (I : Impl) (m : Read α) (bytes : α → List Byte) (k : Nat) : Prop where
  length : ∀ x, (bytes x).length = k
  parses : ∀ x, Parses I m (bytes x) x
  onto : ∀ bs : List Byte, bs.length = k → ∃ x, bytes x = bs
  takes : Takes I m k

section
variable {I : Impl} {α : Type} {m : Read α} {bytes : α → List Byte} {k : Nat}

theorem Codec.peel (h : Codec I m bytes k) {bs : List Byte} {n : Nat} (hl : bs.length = k + n) :
    ∃ x rest, bs = bytes x ++ rest ∧ rest.length = n := by
  obtain ⟨x, hx⟩ := h.onto (bs.take k) (by rw [List.length_take]; omega)
  exact ⟨x, bs.drop k, by rw [hx, List.take_append_drop], by rw [List.length_drop]; omega⟩

theorem Codec.skip {β : Type} {f : β → Read α} {y : β} {m : Read β} (hm : ∀ b s, m.exec I b s = .ok (y, s))
    (h : Codec I (f y) bytes k) : Codec I (m >>= f) bytes k where
  length := h.length
  parses x := (h.parses x).skip hm
  onto := h.onto
  takes := h.takes.skip hm

theorem Codec.map {β : Type} {f : α → Read β} {bytes' : β → List Byte} (h : Codec I m bytes k) (g : α → β)
    (g' : β → α) (hf : ∀ x b s, (f x).exec I b s = .ok (g x, s)) (hg : ∀ y, g (g' y) = y)
    (hg' : ∀ x, g' (g x) = x) (hb : ∀ y, bytes' y = bytes (g' y)) : Codec I (m >>= f) bytes' k where
  length y := by rw [hb, h.length]
  parses y := by
    intro pre post log hl
    rw [hb] at hl ⊢
    rw [exec_bind_ok _ _ _ (h.parses _ pre post log hl), hf, hg]
  onto bs hl := by
    obtain ⟨x, hx⟩ := h.onto bs hl
    exact ⟨g x, by rw [hb, hg', hx]⟩
  takes := {
    fits := fun b o log hl hi => by
      obtain ⟨x, hx⟩ := h.takes.fits b o log hl hi
      exact ⟨g x, by rw [exec_bind_ok _ _ _ hx, hf]⟩
    faults := fun b o log ho hl hi => by
      obtain ⟨i, hi⟩ := h.takes.faults b o log ho hl hi
      exact ⟨i, exec_bind_error _ _ _ hi f⟩ }

theorem length_flatMap (hl : ∀ x, (bytes x).length = k) (xs : List α) :
    (xs.flatMap bytes).length = xs.length * k := by
  induction xs with
  | nil => simp
  | cons x xs ih => simp [hl, ih, Nat.succ_mul, Nat.add_comm]

theorem Codec.fill (h : Codec I m bytes k) (n : Nat) :
    Codec I (fill m n) (fun v => v.toList.flatMap bytes) (n * k) where
  length v := by rw [length_flatMap h.length]; simp
  parses v := Parses.fill h.parses v
  takes := h.takes.fill n
  onto := by
    induction n with
    | zero =>
      intro bs hl
      exact ⟨#v[], by rw [Nat.zero_mul] at hl; simp [List.eq_nil_of_length_eq_zero hl]⟩
    | succ n ih =>
      intro bs hl
      rw [Nat.succ_mul] at hl
      obtain ⟨v, hv⟩ := ih (bs.take (n * k)) (by rw [List.length_take]; omega)
      obtain ⟨x, hx⟩ := h.onto (bs.drop (n * k)) (by rw [List.length_drop]; omega)
      exact ⟨v.push x, by simp [Vector.toList_push, hv, hx]⟩

end

/-! ## Reading one buffer in any order -/

/-- An order for the operand calls of each expression. The calls of a reader
move the offset on, so that no two expressions are evaluated at one offset, and
an order for each offset is one for each time. -/
abbrev Order := (n : Nat) → Int → Equiv.Perm (Fin n)

def Order.leftToRight : Order := fun _ _ => Equiv.refl _

def Order.wraps (r : Order) : Impl := ⟨r, false⟩

def Order.traps (r : Order) : Impl := ⟨r, true⟩

/-- What the `i`-th of the `n` operand calls of an expression at `o` reads. -/
def operand (r : Order) (n : Nat) (b : List Byte) (o : Nat) (i : Fin n) : Byte := b.getD (o + (r n o i).val) 0

def operands (r : Order) (n : Nat) (b : List Byte) (o : Nat) : List Byte := List.ofFn (operand r n b o)

/-- At `o` in `b`, `m` consumes `k` bytes and returns `x` if all of the places
`ps` are safe, and overflows if one of them is not. -/
structure Yields {α : Type} (I : Impl) (b : List Byte) (safe : Nat → Prop) (m : Read α) (o k : Nat)
    (ps : List Nat) (x : α) : Prop where
  ends : (∀ p ∈ ps, safe p) → ∀ log, m.exec I b ⟨o, log⟩ = .ok (x, ⟨(o + k : Nat), log⟩)
  traps : ¬ (∀ p ∈ ps, safe p) → ∀ log, m.exec I b ⟨o, log⟩ = .error .overflow

section
variable {I : Impl} {b : List Byte} {safe : Nat → Prop} {α β : Type} {m : Read α} {f : α → Read β}
  {o k j : Nat} {ps qs : List Nat} {x : α} {y : β}

theorem Yields.of_exec (h : ∀ log, m.exec I b ⟨o, log⟩ = .ok (x, ⟨(o + k : Nat), log⟩)) :
    Yields I b safe m o k [] x where
  ends _ := h
  traps hn := absurd (fun _ hp => absurd hp List.not_mem_nil) hn

theorem Yields.cast {k' : Nat} {ps' : List Nat} {x' : α} (h : Yields I b safe m o k ps x) (hk : k = k')
    (hp : ps = ps') (hx : x = x') : Yields I b safe m o k' ps' x' := by
  subst hk hp hx
  exact h

theorem Yields.pure (x : α) : Yields I b safe (pure x) o 0 [] x := .of_exec fun _ => rfl

theorem Yields.bind (hm : Yields I b safe m o k ps x) (hf : Yields I b safe (f x) (o + k) j qs y) :
    Yields I b safe (m >>= f) o (k + j) (ps ++ qs) y where
  ends h log := by
    obtain ⟨hp, hq⟩ := List.forall_mem_append.mp h
    rw [exec_bind_ok _ _ _ (hm.ends hp log), hf.ends hq log, Nat.add_assoc]
  traps h log := by
    by_cases hp : ∀ p ∈ ps, safe p
    · have hq : ¬ ∀ q ∈ qs, safe q := fun hq => h (List.forall_mem_append.mpr ⟨hp, hq⟩)
      rw [exec_bind_ok _ _ _ (hm.ends hp log), hf.traps hq log]
    · exact exec_bind_error _ _ _ (hm.traps hp log) f

theorem Yields.skip (hm : ∀ b s, m.exec I b s = .ok (x, s)) (hf : Yields I b safe (f x) o j qs y) :
    Yields I b safe (m >>= f) o j qs y where
  ends h log := by rw [exec_bind_ok _ _ _ (hm _ _), hf.ends h log]
  traps h log := by rw [exec_bind_ok _ _ _ (hm _ _), hf.traps h log]

theorem Yields.fill {ps : Nat → List Nat} {x : Nat → α} : ∀ {n : Nat},
    (∀ i < n, Yields I b safe m (o + i * k) k (ps i) (x i)) →
    Yields I b safe (fill m n) o (n * k) ((List.range n).flatMap ps) (Vector.ofFn fun i : Fin n => x i)
  | 0, _ => by rw [Nat.zero_mul]; exact Yields.pure _
  | n + 1, h => by
    rw [Nat.succ_mul, List.range_succ, List.flatMap_append, List.flatMap_singleton, Vector.ofFn_succ,
      ← List.append_nil (ps n)]
    refine (Yields.fill fun i hi => h i (by omega)).bind ?_
    exact (h n (by omega)).bind (f := fun y => Pure.pure ((Vector.ofFn fun i : Fin n => x i).push y)) (Yields.pure _)

theorem Yields.overflow_iff (h : Yields I b safe m o k ps x) (log : List String) :
    m.exec I b ⟨o, log⟩ = .error .overflow ↔ ¬ ∀ p ∈ ps, safe p := by
  refine ⟨fun he hp => ?_, fun hp => h.traps hp log⟩
  rw [h.ends hp log] at he
  cases he

end

end Cursor
