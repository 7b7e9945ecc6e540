import Mathlib.Data.List.Forall2
import Catapult.GetoptRun

/-!
# How a long option may be spelled

The table of the long options is searched from its start, and a part of a name
will do for the whole. The application sees neither: a table in another order
and names written out give it the same options. Two scans go in step here,
with arguments related one by one.
-/

namespace Catapult

open Cursor Stdio Segments

/-! ## The order of the table -/

/-- Told apart by the name only. -/
structure LongOption.Alike (p q : LongOption) : Prop where
  hasArg : p.hasArg = q.hasArg
  flag : p.flag = q.flag
  val : p.val = q.val

theorem LongOption.Alike.refl (p : LongOption) : p.Alike p := ⟨rfl, rfl, rfl⟩

theorem LongOption.Alike.symm {p q : LongOption} (h : p.Alike q) : q.Alike p :=
  ⟨h.hasArg.symm, h.flag.symm, h.val.symm⟩

theorem LongOption.Alike.trans {p q r : LongOption} (h : p.Alike q) (h' : q.Alike r) : p.Alike r :=
  ⟨h.hasArg.trans h'.hasArg, h.flag.trans h'.flag, h.val.trans h'.val⟩

inductive Lookup.Alike : Lookup → Lookup → Prop
  | unknown : Alike .unknown .unknown
  | ambiguous : Alike .ambiguous .ambiguous
  | found {p q : LongOption} (h : p.Alike q) : Alike (.found p) (.found q)

/-- A name that is there twice has one meaning. -/
def Consistent (table : List LongOption) : Prop := ∀ p ∈ table, ∀ q ∈ table, p.name = q.name → p.Alike q

def Unambiguous (longOnly : Bool) (ps : List LongOption) : Prop :=
  (longOnly = true → ps.length = 1) ∧ ∀ p ∈ ps, ∀ q ∈ ps, p.Alike q

instance (p q : LongOption) : Decidable (p.Alike q) :=
  decidable_of_iff (p.hasArg = q.hasArg ∧ p.flag = q.flag ∧ p.val = q.val)
    ⟨fun h => ⟨h.1, h.2.1, h.2.2⟩, fun h => ⟨h.hasArg, h.flag, h.val⟩⟩

instance (table : List LongOption) : Decidable (Consistent table) :=
  inferInstanceAs (Decidable (∀ p ∈ table, ∀ q ∈ table, p.name = q.name → p.Alike q))

theorem clashes_eq_false {longOnly : Bool} {q p : LongOption} :
    clashes longOnly q p = false ↔ longOnly = false ∧ q.Alike p := by
  unfold clashes
  simp only [Bool.or_eq_false_iff, decide_eq_false_iff_not, not_not]
  constructor
  · intro h
    exact ⟨h.1.1.1, h.1.1.2, h.1.2, h.2⟩
  · intro h
    exact ⟨⟨⟨h.1, h.2.hasArg⟩, h.2.flag⟩, h.2.val⟩

theorem any_clashes {longOnly : Bool} {p : LongOption} {ps : List LongOption} :
    ps.any (clashes longOnly p) = false ↔ Unambiguous longOnly (p :: ps) := by
  simp only [List.any_eq_false, Bool.not_eq_true, clashes_eq_false]
  constructor
  · intro h
    have ha : ∀ r ∈ p :: ps, p.Alike r := by
      intro r hr
      rcases List.mem_cons.mp hr with e | hr
      · rw [e]
        exact .refl p
      · exact (h r hr).2
    refine ⟨fun hl => ?_, fun r hr r' hr' => (ha r hr).symm.trans (ha r' hr')⟩
    cases ps with
    | nil => rfl
    | cons r rs => exact absurd ((h r List.mem_cons_self).1.symm.trans hl) Bool.false_ne_true
  · intro h r hr
    refine ⟨?_, h.2 p List.mem_cons_self r (List.mem_cons_of_mem p hr)⟩
    cases hl : longOnly with
    | false => rfl
    | true =>
      have : ps = [] := List.eq_nil_of_length_eq_zero (Nat.succ.inj (h.1 hl))
      rw [this] at hr
      cases hr

theorem Unambiguous.perm {longOnly : Bool} {ps qs : List LongOption} (h : Unambiguous longOnly ps) (hp : ps.Perm qs) :
    Unambiguous longOnly qs :=
  ⟨fun hl => hp.length_eq.symm.trans (h.1 hl), fun p hq q hq' => h.2 p (hp.mem_iff.mpr hq) q (hp.mem_iff.mpr hq')⟩

section
variable {longOnly : Bool} {table table' : List LongOption}

variable (hp : table.Perm table') (hc : Consistent table)
include hp hc

variable (longOnly) in
/-- A name that is written out is found in any order of the table. -/
theorem lookup_name {p : LongOption} (hm : p ∈ table) :
    ∃ q, lookup (clashes longOnly) p.name table' = .found q ∧ p.Alike q := by
  unfold lookup
  cases hf : table'.find? (·.name = p.name) with
  | none =>
    have := List.find?_eq_none.mp hf p (hp.mem_iff.mp hm)
    exact absurd (decide_eq_true rfl) this
  | some q =>
    have hn : q.name = p.name := by simpa using List.find?_some hf
    exact ⟨q, rfl, hc p hm q (hp.mem_iff.mpr (List.mem_of_find?_eq_some hf)) hn.symm⟩

variable (longOnly) in
theorem lookup_perm (name : CString) :
    (lookup (clashes longOnly) name table).Alike (lookup (clashes longOnly) name table') := by
  by_cases hn : ∃ p ∈ table, p.name = name
  · obtain ⟨p, hm, rfl⟩ := hn
    obtain ⟨q, e, h⟩ := lookup_name longOnly (List.Perm.refl table) hc hm
    obtain ⟨q', e', h'⟩ := lookup_name longOnly hp hc hm
    rw [e, e']
    exact .found (h.symm.trans h')
  · have hf : table.find? (·.name = name) = none :=
      List.find?_eq_none.mpr fun p hm h => hn ⟨p, hm, of_decide_eq_true h⟩
    have hf' : table'.find? (·.name = name) = none :=
      List.find?_eq_none.mpr fun p hm h => hn ⟨p, hp.mem_iff.mpr hm, of_decide_eq_true h⟩
    have hs := hp.filter (name.isPrefixOf ·.name)
    unfold lookup
    rw [hf, hf']
    dsimp only
    generalize table.filter (name.isPrefixOf ·.name) = ps at hs
    generalize table'.filter (name.isPrefixOf ·.name) = qs at hs
    cases ps with
    | nil =>
      rw [← hs.nil_eq]
      exact .unknown
    | cons p ps =>
      cases qs with
      | nil => exact absurd hs.eq_nil (List.cons_ne_nil p ps)
      | cons q qs =>
        show Lookup.Alike (if ps.any (clashes longOnly p) then .ambiguous else .found p)
          (if qs.any (clashes longOnly q) then .ambiguous else .found q)
        cases ha : ps.any (clashes longOnly p) with
        | false =>
          have hu := any_clashes.mp ha
          rw [any_clashes.mpr (hu.perm hs)]
          exact .found (hu.2 p List.mem_cons_self q (hs.mem_iff.mpr List.mem_cons_self))
        | true =>
          have hq : qs.any (clashes longOnly q) = true := by
            refine Bool.eq_true_of_not_eq_false fun h => ?_
            rw [any_clashes.mpr ((any_clashes.mp h).perm hs.symm)] at ha
            cases ha
          rw [hq]
          exact .ambiguous

end

/-! ## Names written out -/

inductive SpelledOut (longOnly : Bool) (table : List LongOption) : CString → CString → Prop
  | mk {pending : CString} {p : LongOption} (hn : pending ≠ []) (he : '=' ∉ p.name)
    (hl : lookup (clashes longOnly) (pending.takeWhile (· ≠ '=')) table = .found p) :
    SpelledOut longOnly table ('-' :: '-' :: pending) ('-' :: '-' :: (p.name ++ pending.dropWhile (· ≠ '=')))

/-- `R` allows for names to be written out, and for nothing else. -/
structure Spelling (longOnly : Bool) (table : List LongOption) (R : CString → CString → Prop) : Prop where
  refl : ∀ x, R x x
  out : ∀ x x', R x x' → x' = x ∨ SpelledOut longOnly table x x'

section
variable {longOnly : Bool} {table : List LongOption} {x x' : CString}

theorem SpelledOut.name_ne_nil {pending : CString} {p : LongOption} (hn : pending ≠ [])
    (hl : lookup (clashes longOnly) (pending.takeWhile (· ≠ '=')) table = .found p) :
    p.name ++ pending.dropWhile (· ≠ '=') ≠ [] := by
  intro h
  obtain ⟨h₁, h₂⟩ := List.append_eq_nil_iff.mp h
  have hp := List.isPrefixOf_iff_prefix.mp (List.mem_filter.mp (mem_filter_of_lookup hl)).2
  rw [h₁, List.prefix_nil] at hp
  have := List.takeWhile_append_dropWhile (p := (· ≠ '=')) (l := pending)
  rw [hp, h₂] at this
  exact hn this.symm

theorem SpelledOut.ne_terminator (h : SpelledOut longOnly table x x') : x ≠ terminator ∧ x' ≠ terminator := by
  cases h with
  | mk hn he hl =>
    constructor
    · intro e
      cases e
      exact hn rfl
    · intro e
      exact SpelledOut.name_ne_nil hn hl (List.cons.inj (List.cons.inj e).2).2

theorem Spelling.nonoption {R : CString → CString → Prop} (hR : Spelling longOnly table R) (h : R x x') :
    nonoption x' = nonoption x := by
  rcases hR.out x x' h with rfl | h
  · rfl
  · cases h
    rfl

theorem Spelling.terminator {R : CString → CString → Prop} (hR : Spelling longOnly table R) (h : R x x') :
    x' = terminator ↔ x = terminator := by
  rcases hR.out x x' h with rfl | h
  · rfl
  · exact ⟨fun e => absurd e h.ne_terminator.2, fun e => absurd e h.ne_terminator.1⟩

end

/-! ## Related options -/

/-- The same for the application but for what is printed. -/
structure Event.Alike (R : CString → CString → Prop) (e e' : Event) : Prop where
  value : e.value = e'.value
  optarg : Option.Rel R e.optarg e'.optarg
  stores : e.stores = e'.stores

structure Parsed.Alike (R : CString → CString → Prop) (d d' : Parsed) : Prop where
  event : d.event.Alike R d'.event
  pending : d.pending = d'.pending
  used : d.used = d'.used

def Setting.reordered (t : Setting) (table : List LongOption) : Setting :=
  { t with call := { t.call with longopts := some table } }

section
variable {t : Setting} {R : CString → CString → Prop} {next next' : Option CString}

theorem getD_alike {d d' : Parsed} {o o' : Option Parsed} (ho : Option.Rel (Parsed.Alike R) o o') (hd : d.Alike R d') :
    (o.getD d).Alike R (o'.getD d') := by
  cases ho with
  | none => exact hd
  | some h => exact h

theorem accept_alike {p q : LongOption} (h : p.Alike q) {optarg optarg' : Option CString}
    (ho : Option.Rel R optarg optarg') : Event.Alike R (Setting.accept p optarg) (Setting.accept q optarg') := by
  unfold Setting.accept
  rw [h.flag, h.val]
  cases q.flag with
  | none => exact ⟨rfl, ho, rfl⟩
  | some flag => exact ⟨rfl, ho, rfl⟩

theorem short_alike (hr : ∀ x, R x x) (table' : List LongOption) (c : Char) (cs : CString)
    (hn : Option.Rel R next next') :
    Parsed.Alike R (t.short c cs next) ((t.reordered table').short c cs next') := by
  have e : (t.reordered table').optstring = t.optstring := rfl
  unfold Setting.short
  rw [e]
  cases if c = ':' then none else myIndex t.optstring c with
  | none => exact ⟨⟨rfl, .none, rfl⟩, rfl, rfl⟩
  | some spec =>
    dsimp only
    by_cases h₁ : spec[1]? = some ':'
    · rw [if_pos h₁, if_pos h₁]
      by_cases hc : cs ≠ []
      · rw [if_pos hc, if_pos hc]
        exact ⟨⟨rfl, .some (hr cs), rfl⟩, rfl, rfl⟩
      · rw [if_neg hc, if_neg hc]
        by_cases h₂ : spec[2]? = some ':'
        · rw [if_pos h₂, if_pos h₂]
          exact ⟨⟨rfl, .none, rfl⟩, rfl, rfl⟩
        · rw [if_neg h₂, if_neg h₂]
          cases hn with
          | none => exact ⟨⟨rfl, .none, rfl⟩, rfl, rfl⟩
          | some h => exact ⟨⟨rfl, .some h, rfl⟩, rfl, rfl⟩
    · rw [if_neg h₁, if_neg h₁]
      exact ⟨⟨rfl, .none, rfl⟩, rfl, rfl⟩

/-- Two elements are decoded alike if the lookups of their names are. -/
theorem long_alike (hr : ∀ x, R x x) {table table' : List LongOption} {x x' pending pending' : CString}
    (hx : x'[1]? = x[1]?) (ha : pending'.dropWhile (· ≠ '=') = pending.dropWhile (· ≠ '='))
    (hl : (lookup (clashes t.call.longOnly) (pending.takeWhile (· ≠ '=')) table).Alike
      (lookup (clashes t.call.longOnly) (pending'.takeWhile (· ≠ '=')) table'))
    (hu : lookup (clashes t.call.longOnly) (pending.takeWhile (· ≠ '=')) table = .unknown → pending' = pending)
    (hn : Option.Rel R next next') :
    Option.Rel (Parsed.Alike R) (t.long table x pending next) ((t.reordered table').long table' x' pending' next') := by
  have eo : (t.reordered table').call.longOnly = t.call.longOnly := rfl
  have es : (t.reordered table').optstring = t.optstring := rfl
  unfold Setting.long
  rw [eo, es, ha, hx]
  dsimp only
  generalize lookup (clashes t.call.longOnly) (pending.takeWhile (· ≠ '=')) table = l at hl hu
  generalize lookup (clashes t.call.longOnly) (pending'.takeWhile (· ≠ '=')) table' = l' at hl
  cases hl with
  | unknown =>
    rw [hu rfl]
    dsimp only
    split
    · exact .some ⟨⟨rfl, .none, rfl⟩, rfl, rfl⟩
    · exact .none
  | ambiguous => exact .some ⟨⟨rfl, .none, rfl⟩, rfl, rfl⟩
  | @found p q h =>
    dsimp only
    rw [← h.hasArg]
    by_cases he : pending.dropWhile (· ≠ '=') ≠ []
    · rw [if_pos he, if_pos he]
      by_cases h₀ : p.hasArg ≠ 0
      · rw [if_pos h₀, if_pos h₀]
        exact .some ⟨accept_alike h (.some (hr _)), rfl, rfl⟩
      · rw [if_neg h₀, if_neg h₀]
        exact .some ⟨⟨rfl, .none, rfl⟩, rfl, rfl⟩
    · rw [if_neg he, if_neg he]
      by_cases h₁ : p.hasArg = 1
      · rw [if_pos h₁, if_pos h₁]
        cases hn with
        | none => exact .some ⟨⟨rfl, .none, rfl⟩, rfl, rfl⟩
        | some hy => exact .some ⟨accept_alike h (.some hy), rfl, rfl⟩
      · rw [if_neg h₁, if_neg h₁]
        exact .some ⟨accept_alike h .none, rfl, rfl⟩

theorem long_found {table : List LongOption} {x pending : CString} {p : LongOption}
    (hl : lookup (clashes t.call.longOnly) (pending.takeWhile (· ≠ '=')) table = .found p) :
    ∃ d, t.long table x pending next = some d ∧ d.pending = [] := by
  unfold Setting.long
  dsimp only
  rw [hl]
  dsimp only
  split
  · split
    · exact ⟨_, rfl, rfl⟩
    · exact ⟨_, rfl, rfl⟩
  · split
    · cases next with
      | none => exact ⟨_, rfl, rfl⟩
      | some y => exact ⟨_, rfl, rfl⟩
    · exact ⟨_, rfl, rfl⟩

variable {table table' : List LongOption} (ht : t.call.longopts = some table) (hp : table.Perm table')
  (hc : Consistent table)
include ht hp hc

theorem decode_alike (hr : ∀ x, R x x) (x pending : CString) (hn : Option.Rel R next next') :
    Parsed.Alike R (t.decode x pending next) ((t.reordered table').decode x pending next') := by
  have hi : (t.reordered table').isLong x = t.isLong x := by
    unfold Setting.isLong
    rw [ht]
    rfl
  have hl := long_alike (t := t) (x := x) hr rfl rfl (lookup_perm t.call.longOnly hp hc (pending.takeWhile (· ≠ '=')))
    (fun _ => rfl) hn
  have step : ∀ d d' : Parsed, d.Alike R d' →
      Parsed.Alike R (if t.isLong x then (t.long table x pending next).getD d else d)
        (if t.isLong x then ((t.reordered table').long table' x pending next').getD d' else d') := by
    intro d d' hs
    cases t.isLong x with
    | false => exact hs
    | true => exact getD_alike hl hs
  unfold Setting.decode
  rw [hi, ht]
  cases pending with
  | nil => exact step _ _ ⟨⟨rfl, .none, rfl⟩, rfl, rfl⟩
  | cons c cs => exact step _ _ (short_alike hr table' c cs hn)

theorem decode_spelledOut (hr : ∀ x, R x x) {x x' : CString} (h : SpelledOut t.call.longOnly table x x')
    (hn : Option.Rel R next next') :
    Parsed.Alike R (t.decode x (x.drop 2) next) ((t.reordered table').decode x' (x'.drop 2) next') ∧
      (t.decode x (x.drop 2) next).pending = [] := by
  cases h with
  | @mk pending p hne he hl =>
    have hname : ∀ c ∈ p.name, decide (c ≠ '=') = true := fun c hm =>
      decide_eq_true fun e => he (e ▸ hm)
    have hd : (pending.dropWhile (· ≠ '=')).takeWhile (· ≠ '=') = [] := by
      refine List.takeWhile_eq_nil_iff.mpr fun h0 => ?_
      exact List.dropWhile_get_zero_not _ _ h0
    have htake : (p.name ++ pending.dropWhile (· ≠ '=')).takeWhile (· ≠ '=') = p.name := by
      rw [List.takeWhile_append_of_pos hname, hd, List.append_nil]
    have hdrop : (p.name ++ pending.dropWhile (· ≠ '=')).dropWhile (· ≠ '=') = pending.dropWhile (· ≠ '=') := by
      rw [List.dropWhile_append_of_pos hname]
      exact List.dropWhile_eq_self_iff.mpr fun h0 => List.dropWhile_get_zero_not _ _ h0
    obtain ⟨q, hq, ha⟩ := lookup_name t.call.longOnly hp hc (mem_of_lookup hl)
    have hrel : Option.Rel (Parsed.Alike R) (t.long table ('-' :: '-' :: pending) pending next)
        ((t.reordered table').long table' ('-' :: '-' :: (p.name ++ pending.dropWhile (· ≠ '=')))
          (p.name ++ pending.dropWhile (· ≠ '=')) next') := by
      refine long_alike hr rfl hdrop ?_ (fun e => ?_) hn
      · rw [htake, hl, hq]
        exact .found ha
      · rw [hl] at e
        cases e
    obtain ⟨d, hd, hpd⟩ : ∃ d, t.long table ('-' :: '-' :: pending) pending next = some d ∧ d.pending = [] :=
      long_found hl
    have hi : ∀ cs, t.isLong ('-' :: '-' :: cs) = true := by
      intro cs
      unfold Setting.isLong
      rw [ht]
      rfl
    have hi' : ∀ cs, (t.reordered table').isLong ('-' :: '-' :: cs) = true := fun cs => rfl
    unfold Setting.decode
    rw [hi, hi', ht]
    show Parsed.Alike R ((t.long table ('-' :: '-' :: pending) pending next).getD _) (((t.reordered table').long table'
      ('-' :: '-' :: (p.name ++ pending.dropWhile (· ≠ '='))) (p.name ++ pending.dropWhile (· ≠ '=')) next').getD _) ∧
      ((t.long table ('-' :: '-' :: pending) pending next).getD _).pending = []
    rw [hd] at hrel ⊢
    generalize (t.reordered table').long table' ('-' :: '-' :: (p.name ++ pending.dropWhile (· ≠ '=')))
      (p.name ++ pending.dropWhile (· ≠ '=')) next' = o at hrel ⊢
    cases hrel with
    | some h => exact ⟨h, hpd⟩

end

/-! ## Two scans in step -/

structure Scan.Alike (R : CString → CString → Prop) (a b : Scan) : Prop where
  options : List.Forall₂ R a.options b.options
  operands : List.Forall₂ R a.operands b.operands
  pending : a.pending = b.pending
  rest : List.Forall₂ R a.rest b.rest
  cluster : a.pending ≠ [] → a.rest.head? = b.rest.head?

theorem forall₂_takeWhile {R : CString → CString → Prop} {p : CString → Bool} (hp : ∀ x y, R x y → p y = p x)
    {xs ys : List CString} (h : List.Forall₂ R xs ys) : List.Forall₂ R (xs.takeWhile p) (ys.takeWhile p) := by
  induction h with
  | nil => exact .nil
  | @cons x y xs ys hxy _ ih =>
    rw [List.takeWhile_cons, List.takeWhile_cons, hp x y hxy]
    cases p x with
    | false => exact .nil
    | true => exact .cons hxy ih

theorem head?_alike {R : CString → CString → Prop} {xs ys : List CString} (h : List.Forall₂ R xs ys) :
    Option.Rel R xs.head? ys.head? := by
  cases h with
  | nil => exact .none
  | cons h _ => exact .some h

section
variable {t : Setting} {R : CString → CString → Prop} {table table' : List LongOption} {a b : Scan}

theorem take_alike {x x' pending pending' : CString} {xs xs' : List CString} (ho : List.Forall₂ R a.options b.options)
    (hn : List.Forall₂ R a.operands b.operands) (hx : R x x') (hxs : List.Forall₂ R xs xs') (hpd : pending ≠ [])
    (hd : Parsed.Alike R (t.decode x pending xs.head?) ((t.reordered table').decode x' pending' xs'.head?))
    (hc : (t.decode x pending xs.head?).pending ≠ [] → x' = x) :
    Event.Alike R (t.take a x pending xs).1 ((t.reordered table').take b x' pending' xs').1 ∧
      Scan.Alike R (t.take a x pending xs).2 ((t.reordered table').take b x' pending' xs').2 := by
  have hr : List.Forall₂ R (x :: xs) (x' :: xs') := .cons hx hxs
  refine ⟨hd.event, ?_, hn, hd.pending, ?_, ?_⟩
  · show List.Forall₂ R (a.options ++ (x :: xs).take _) (b.options ++ (x' :: xs').take _)
    rw [← hd.used]
    exact List.rel_append ho (List.forall₂_take _ hr)
  · show List.Forall₂ R ((x :: xs).drop _) ((x' :: xs').drop _)
    rw [← hd.used]
    exact List.forall₂_drop _ hr
  · intro hne
    have hu : (t.decode x pending xs.head?).used = 0 := by
      cases decode_fits t x hpd xs.head? with
      | part hu => exact hu
      | whole _ hp => exact absurd hp hne
      | both _ hp => exact absurd hp hne
    show ((x :: xs).drop _).head? = ((x' :: xs').drop _).head?
    rw [← hd.used, hu, hc hne]
    rfl

variable (ht : t.call.longopts = some table) (hp : table.Perm table') (hc : Consistent table)
  (hR : Spelling t.call.longOnly table R)
include ht hp hc hR

theorem fresh_alike {x x' : CString} {xs xs' : List CString} (ho : List.Forall₂ R a.options b.options)
    (hn : List.Forall₂ R a.operands b.operands) (hx : R x x') (hxs : List.Forall₂ R xs xs') (hno : nonoption x = false)
    (hd : x ≠ terminator) :
    Event.Alike R (t.take a x (x.drop (if x[1]? = some '-' then 2 else 1)) xs).1
        ((t.reordered table').take b x' (x'.drop (if x'[1]? = some '-' then 2 else 1)) xs').1 ∧
      Scan.Alike R (t.take a x (x.drop (if x[1]? = some '-' then 2 else 1)) xs).2
        ((t.reordered table').take b x' (x'.drop (if x'[1]? = some '-' then 2 else 1)) xs').2 := by
  have hpd : x.drop (if x[1]? = some '-' then 2 else 1) ≠ [] := by
    have := drop_ne_nil hno hd true
    simpa only [Bool.true_and, decide_eq_true_eq] using this
  rcases hR.out x x' hx with rfl | hs
  · exact take_alike ho hn hx hxs hpd (decode_alike ht hp hc hR.refl _ _ (head?_alike hxs)) fun _ => rfl
  · have hk : x[1]? = some '-' ∧ x'[1]? = some '-' := by
      cases hs
      exact ⟨rfl, rfl⟩
    rw [if_pos hk.1] at hpd ⊢
    rw [if_pos hk.2]
    obtain ⟨hal, hpn⟩ := decode_spelledOut ht hp hc hR.refl hs (head?_alike hxs)
    exact take_alike ho hn hx hxs hpd hal fun h => absurd hpn h

theorem head_alike (h : a.Alike R b) : Option.Rel (Event.Alike R) (t.head a).1 ((t.reordered table').head b).1 ∧
    Scan.Alike R (t.head a).2 ((t.reordered table').head b).2 := by
  obtain ⟨options, operands, pending, rest⟩ := a
  obtain ⟨options', operands', pending', rest'⟩ := b
  obtain ⟨ho, hn, hpd, hr, hcl⟩ := h
  have e₁ : (t.reordered table').ordering = t.ordering := rfl
  have e₂ : (t.reordered table').call.longopts = some table' := rfl
  unfold Setting.head
  rw [e₁, e₂, ht]
  cases hr with
  | nil => exact ⟨.none, ho, hn, hpd, .nil, fun _ => rfl⟩
  | @cons x x' xs xs' hx hxs =>
    dsimp only [Option.isSome_some]
    simp only [Bool.true_and, decide_eq_true_eq]
    by_cases hd : x = terminator
    · rw [if_pos hd, if_pos ((hR.terminator hx).mpr hd)]
      exact ⟨.none, List.rel_append ho (.cons hx .nil), List.rel_append hn hxs, rfl, .nil, fun h => absurd rfl h⟩
    · rw [if_neg hd, if_neg (mt (hR.terminator hx).mp hd), hR.nonoption hx]
      cases hno : nonoption x with
      | true =>
        rw [if_pos rfl, if_pos rfl]
        by_cases hr : t.ordering = .requireOrder
        · rw [if_pos hr, if_pos hr]
          exact ⟨.none, ho, List.rel_append hn (.cons hx hxs), rfl, .nil, fun h => absurd rfl h⟩
        · rw [if_neg hr, if_neg hr]
          exact ⟨.some ⟨rfl, .some hx, rfl⟩, List.rel_append ho (.cons hx .nil), hn, rfl, hxs, fun h => absurd rfl h⟩
      | false =>
        rw [if_neg Bool.false_ne_true, if_neg Bool.false_ne_true]
        obtain ⟨he, ha⟩ := fresh_alike ht hp hc hR (a := ⟨options, operands, pending, x :: xs⟩)
          (b := ⟨options', operands', pending', x' :: xs'⟩) ho hn hx hxs hno hd
        exact ⟨.some he, ha⟩

theorem next_alike (h : a.Alike R b) (ha : a.Proper) :
    Option.Rel (Event.Alike R) (t.next a).1 ((t.reordered table').next b).1 ∧
    Scan.Alike R (t.next a).2 ((t.reordered table').next b).2 := by
  obtain ⟨options, operands, pending, rest⟩ := a
  obtain ⟨options', operands', pending', rest'⟩ := b
  obtain ⟨ho, hn, hpd, hr, hcl⟩ := h
  cases hpd
  cases pending with
  | nil =>
    have hs : List.Forall₂ R (t.skipped rest) ((t.reordered table').skipped rest') := by
      show List.Forall₂ R (if t.ordering = .permute then rest.takeWhile nonoption else [])
        (if t.ordering = .permute then rest'.takeWhile nonoption else [])
      by_cases hpm : t.ordering = .permute
      · rw [if_pos hpm, if_pos hpm]
        exact forall₂_takeWhile (fun x y h => hR.nonoption h) hr
      · rw [if_neg hpm, if_neg hpm]
        exact .nil
    refine head_alike ht hp hc hR ⟨ho, List.rel_append hn hs, rfl, ?_, fun h => absurd rfl h⟩
    show List.Forall₂ R (rest.drop (t.skipped rest).length) (rest'.drop ((t.reordered table').skipped rest').length)
    rw [← hs.length_eq]
    exact List.forall₂_drop _ hr
  | cons c cs =>
    obtain ⟨x, xs, rfl, -⟩ : ∃ x xs, rest = x :: xs ∧ nonoption x = false := ha (List.cons_ne_nil c cs)
    cases hr with
    | @cons _ x' _ xs' hx hxs =>
      have hx' : x' = x := (Option.some.inj (hcl (List.cons_ne_nil c cs))).symm
      have hd : Parsed.Alike R (t.decode x (c :: cs) xs.head?)
        ((t.reordered table').decode x' (c :: cs) xs'.head?) := by
        rw [hx']
        exact decode_alike ht hp hc hR.refl x (c :: cs) (head?_alike hxs)
      obtain ⟨he, ha⟩ := take_alike (a := ⟨options, operands, c :: cs, x :: xs⟩)
        (b := ⟨options', operands', c :: cs, x' :: xs'⟩) ho hn hx hxs (List.cons_ne_nil c cs) hd fun _ => hx'
      exact ⟨.some he, ha⟩

omit ht hR in
/-- The induction follows the first scan, the other one takes the same steps. -/
theorem Scans.alike {a' : Scan} {es : List Event} (h : Scans t a es a') : t.call.longopts = some table →
    Spelling t.call.longOnly table R → ∀ {b : Scan}, a.Alike R b → a.Proper →
    ∃ es' b', Scans (t.reordered table') b es' b' ∧ List.Forall₂ (Event.Alike R) es es' ∧ a'.Alike R b' := by
  induction h with
  | @done t a a' h =>
    intro ht hR b hab ha
    have hn := next_alike ht hp hc hR hab ha
    rw [h] at hn
    cases he : (t.reordered table').next b with
    | mk e' b' =>
      rw [he] at hn
      cases e' with
      | some e' => cases hn.1
      | none => exact ⟨[], b', .done he, .nil, hn.2⟩
  | @step t a a₁ a' e es h _ ih =>
    intro ht hR b hab ha
    have hn := next_alike ht hp hc hR hab ha
    have ha₁ := (next_some t ha h).1
    rw [h] at hn
    cases he : (t.reordered table').next b with
    | mk e' b₁ =>
      rw [he] at hn
      obtain ⟨h₁, h₂⟩ := hn
      cases h₁ with
      | @some _ e' hev =>
        obtain ⟨es', b', hs, hes, hb⟩ := ih ht hR h₂ ha₁
        exact ⟨e' :: es', b', .step he hs, .cons hev hes, hb⟩

end

/-! ## What the application sees -/

theorem eq_of_rel {optarg optarg' : Option CString} (h : Option.Rel Eq optarg optarg') : optarg = optarg' := by
  cases h with
  | none => rfl
  | some h => rw [h]

section
variable {R : CString → CString → Prop} {es es' : List Event}

theorem stores_alike (h : List.Forall₂ (Event.Alike R) es es') : es.flatMap (·.stores) = es'.flatMap (·.stores) := by
  induction h with
  | nil => rfl
  | cons he _ ih => rw [List.flatMap_cons, List.flatMap_cons, he.stores, ih]

theorem outcome_alike (h : List.Forall₂ (Event.Alike R) es es') :
    List.Forall₂ (fun v v' => v.1 = v'.1 ∧ Option.Rel R v.2 v'.2) (outcome es) (outcome es') := by
  induction h with
  | nil => exact .nil
  | cons he _ ih => exact .cons ⟨he.value, he.optarg⟩ ih

end

theorem getoptLoop_alike {R : CString → CString → Prop} (call : Call) (hr : call.Regular)
    {table table' : List LongOption} (ht : call.longopts = some table) (hp : table.Perm table') (hc : Consistent table)
    (hR : Spelling call.longOnly table R)
    {pre args args' : List CString} {s : Getopt} (hf : Fresh pre args s) (ha : List.Forall₂ R args args') :
    ∃ vs vs' s' s₁, (∀ n, (args.map fun x => x.length + 1).sum < n → getoptLoop call n s = .ok (some (vs, s'))) ∧
      (∀ n, (args'.map fun x => x.length + 1).sum < n → getoptLoop { call with longopts := some table' } n
        { s with argv := pre ++ args' } = .ok (some (vs', s₁))) ∧
      List.Forall₂ (fun v v' => v.1 = v'.1 ∧ Option.Rel R v.2 v'.2) vs vs' ∧ List.Forall₂ R s'.argv s₁.argv ∧
      s₁.optind = s'.optind ∧ s₁.stores = s'.stores := by
  obtain ⟨es, a, hs, hl, s', hsc, hn⟩ := getoptLoop_eq_scan call hr pre args s hf
  have hr' : Call.Regular { call with longopts := some table' } :=
    ⟨⟨hr.noW, fun p hm => hr.names p (by rw [ht]; exact hp.mem_iff.mpr hm)⟩,
      fun p hm => hr.vals p (by rw [ht]; exact hp.mem_iff.mpr hm), hr.chars⟩
  obtain ⟨es₁, b, hs₁, hl₁, s₁, hsc₁, hn₁⟩ := getoptLoop_eq_scan { call with longopts := some table' } hr' pre args'
    { s with argv := pre ++ args' } ⟨rfl, hf.optind, hf.ne_nil⟩
  obtain ⟨es', b', hs', hes, hb⟩ := hs.alike hp hc ht hR (b := Scan.start args')
    ⟨.nil, .nil, rfl, ha, fun h => absurd rfl h⟩ (proper_start args)
  obtain ⟨rfl, rfl⟩ := hs'.unique hs₁
  refine ⟨outcome es, outcome es₁, s', s₁, fun n h => hn n (Nat.lt_of_le_of_lt hl h),
    fun n h => hn₁ n (Nat.lt_of_le_of_lt hl₁ h), outcome_alike hes, ?_, ?_, ?_⟩
  · rw [hsc.argv, hsc₁.argv]
    exact List.rel_append (List.forall₂_same.mpr fun x _ => hR.refl x) (List.rel_append hb.options hb.operands)
  · rw [hsc.optind, hsc₁.optind, hb.options.length_eq]
  · rw [hsc.stores, hsc₁.stores, stores_alike hes]

/-- **The order of the table does not matter** to the application, as long as a
name that is there twice has one meaning. -/
theorem getoptLoop_tableOrder (call : Call) (hr : call.Regular) (table table' : List LongOption)
    (ht : call.longopts = some table) (hp : table.Perm table') (hc : Consistent table) (pre args : List CString)
    (s : Getopt) (hf : Fresh pre args s) : ∃ vs s' s₁,
    (∀ n, (args.map fun x => x.length + 1).sum < n → getoptLoop call n s = .ok (some (vs, s'))) ∧
      (∀ n, (args.map fun x => x.length + 1).sum < n →
        getoptLoop { call with longopts := some table' } n s = .ok (some (vs, s₁))) ∧
      s₁.argv = s'.argv ∧ s₁.optind = s'.optind ∧ s₁.stores = s'.stores := by
  have hR : Spelling call.longOnly table Eq := ⟨fun _ => rfl, fun x x' h => .inl h.symm⟩
  obtain ⟨vs, vs', s', s₁, h, h', hv, ha, ho, hst⟩ := getoptLoop_alike call hr ht hp hc hR hf
    (List.forall₂_same.mpr fun _ _ => rfl)
  have hvs : vs = vs' := by
    rw [← List.forall₂_eq_eq_eq]
    exact hv.imp fun v v' hvv => Prod.ext hvv.1 (eq_of_rel hvv.2)
  have hs : ({ s with argv := pre ++ args } : Getopt) = s := by rw [← hf.argv]
  rw [hs] at h'
  rw [List.forall₂_eq_eq_eq] at ha
  exact ⟨vs, s', s₁, h, by rw [hvs]; exact h', ha.symm, ho, hst⟩

def twoNames : Call :=
  ⟨"a:b".toList, some [⟨"all".toList, 0, none, promote 'b'⟩, ⟨"also".toList, 1, none, promote 'a'⟩],
    false, false, false⟩

theorem regular_twoNames : twoNames.Regular where
  noW := by decide
  names p hp := by
    have h : ∀ p ∈ twoNames.longopts.getD [], p.name.length ≤ 4 := by decide
    exact Nat.lt_of_le_of_lt (h p hp) (by norm_num)
  vals := by decide
  chars := by
    show ∀ c ∈ ['a', ':', 'b'], promote c ≠ -1
    simp [promote]

theorem getoptLoop_tableOrder_twoNames : ∃ vs s' s₁,
    (∀ n, 13 < n → getoptLoop twoNames n (sampleGetopt ["--als".toList, "x".toList, "--al".toList]) =
      .ok (some (vs, s'))) ∧
      (∀ n, 13 < n → getoptLoop { twoNames with
          longopts := some [⟨"also".toList, 1, none, promote 'a'⟩, ⟨"all".toList, 0, none, promote 'b'⟩] } n
        (sampleGetopt ["--als".toList, "x".toList, "--al".toList]) = .ok (some (vs, s₁))) ∧
      s₁.argv = s'.argv ∧ s₁.optind = s'.optind ∧ s₁.stores = s'.stores :=
  getoptLoop_tableOrder twoNames regular_twoNames _ _ rfl (.swap _ _ []) (by decide) ["prog".toList]
    ["--als".toList, "x".toList, "--al".toList] _ (fresh_sampleGetopt _)

/-- `x` with the name of a long option written out. -/
def spellOut (longOnly : Bool) (table : List LongOption) (x : CString) : CString :=
  match x with
  | '-' :: '-' :: c :: cs =>
    match lookup (clashes longOnly) ((c :: cs).takeWhile (· ≠ '=')) table with
    | .found p => '-' :: '-' :: (p.name ++ (c :: cs).dropWhile (· ≠ '='))
    | _ => x
  | _ => x

def Spelled (longOnly : Bool) (table : List LongOption) (x x' : CString) : Prop :=
  x' = x ∨ x' = spellOut longOnly table x

theorem spelling_spelled (longOnly : Bool) {table : List LongOption} (he : ∀ p ∈ table, '=' ∉ p.name) :
    Spelling longOnly table (Spelled longOnly table) where
  refl _ := .inl rfl
  out x x' h := by
    rcases h with h | h
    · exact .inl h
    · unfold spellOut at h
      split at h
      · next c cs =>
        split at h
        · next p hl =>
          rw [h]
          exact .inr (.mk (List.cons_ne_nil c cs) (he p (mem_of_lookup hl)) hl)
        · exact .inl h
      · exact .inl h

/-- **An abbreviation is as good as the name**: with any of the arguments written
out the application gets the same options with the same arguments, and stops at
the same operand. -/
theorem getoptLoop_spellOut (call : Call) (hr : call.Regular) (table : List LongOption)
    (ht : call.longopts = some table)
    (hc : Consistent table) (he : ∀ p ∈ table, '=' ∉ p.name) (pre args args' : List CString) (s : Getopt)
    (hf : Fresh pre args s) (ha : List.Forall₂ (Spelled call.longOnly table) args args') : ∃ vs vs' s' s₁,
    (∀ n, (args.map fun x => x.length + 1).sum < n → getoptLoop call n s = .ok (some (vs, s'))) ∧
      (∀ n, (args'.map fun x => x.length + 1).sum < n →
        getoptLoop call n { s with argv := pre ++ args' } = .ok (some (vs', s₁))) ∧
      List.Forall₂ (fun v v' => v.1 = v'.1 ∧ Option.Rel (Spelled call.longOnly table) v.2 v'.2) vs vs' ∧
      List.Forall₂ (Spelled call.longOnly table) s'.argv s₁.argv ∧ s₁.optind = s'.optind ∧ s₁.stores = s'.stores := by
  obtain ⟨vs, vs', s', s₁, h, h', hrest⟩ := getoptLoop_alike call hr ht (List.Perm.refl table) hc
    (spelling_spelled call.longOnly he) hf ha
  have e : ({ call with longopts := some table } : Call) = call := by rw [← ht]
  rw [e] at h'
  exact ⟨vs, vs', s', s₁, h, h', hrest⟩

theorem getoptLoop_spellOut_twoNames : ∃ vs vs' s' s₁,
    (∀ n, 8 < n → getoptLoop twoNames n (sampleGetopt ["--als".toList, "x".toList]) = .ok (some (vs, s'))) ∧
      (∀ n, 9 < n → getoptLoop twoNames n (sampleGetopt ["--also".toList, "x".toList]) = .ok (some (vs', s₁))) ∧
      List.Forall₂ (fun v v' => v.1 = v'.1 ∧
        Option.Rel (Spelled false (twoNames.longopts.getD [])) v.2 v'.2) vs vs' ∧
      List.Forall₂ (Spelled false (twoNames.longopts.getD [])) s'.argv s₁.argv ∧ s₁.optind = s'.optind ∧
      s₁.stores = s'.stores :=
  getoptLoop_spellOut twoNames regular_twoNames _ rfl (by decide) (by decide) ["prog".toList]
    ["--als".toList, "x".toList]
    ["--also".toList, "x".toList] _ (fresh_sampleGetopt _) (.cons (.inr rfl) (.cons (.inl rfl) .nil))

end Catapult
