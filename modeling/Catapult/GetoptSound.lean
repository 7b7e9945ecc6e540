import Catapult.Scanner

/-!
# `getopt.c` scans as it should
-/

namespace Catapult

open Cursor Stdio Segments

/-! ## Long options -/

section
variable {same : Nat → Nat → Bool} {clash : LongOption → LongOption → Bool} {name : CString}

/-- The comparison of lengths tells an exact match from an abbreviation. -/
def Exact (same : Nat → Nat → Bool) (name : CString) (table : List LongOption) : Prop :=
  ∀ p ∈ table, name.isPrefixOf p.name = true → (same name.length p.name.length = true ↔ p.name = name)

theorem exact_of_lt {table : List LongOption} (h : ∀ p ∈ table, p.name.length < 2 ^ 32) :
    Exact sameUnsigned name table := by
  intro p hp hn
  have hl := h p hp
  obtain ⟨cs, e⟩ := List.isPrefixOf_iff_prefix.mp hn
  have hle := congrArg List.length e
  simp only [List.length_append] at hle
  simp only [sameUnsigned, decide_eq_true_eq]
  constructor
  · intro hm
    have : cs = [] := List.eq_nil_of_length_eq_zero (by omega)
    rw [← e, this, List.append_nil]
  · rintro rfl
    rfl

theorem Exact.tail {p : LongOption} {ps : List LongOption} (h : Exact same name (p :: ps)) : Exact same name ps :=
  fun r hr => h r (List.mem_cons_of_mem _ hr)

section
variable {p : LongOption} {ps : List LongOption} {i : Nat} {found : Found}

theorem findLong_skip (hn : name.isPrefixOf p.name = false) :
    findLong same clash name (p :: ps) i found = findLong same clash name ps (i + 1) found := by
  simp [findLong, hn]

theorem findLong_exact (hs : Exact same name (p :: ps)) (he : p.name = name) :
    findLong same clash name (p :: ps) i found = { found with pfound := some (i, p), exact := true } := by
  have hn : name.isPrefixOf p.name = true := by rw [he]; exact isPrefixOf_rfl
  have hx := (hs p List.mem_cons_self hn).mpr he
  simp [findLong, hn, hx]

theorem findLong_abbrev (hs : Exact same name (p :: ps)) (he : p.name ≠ name) (hn : name.isPrefixOf p.name = true) :
    findLong same clash name (p :: ps) i found = findLong same clash name ps (i + 1) (match found.pfound with
      | none => { found with pfound := some (i, p) }
      | some (_, q) => if clash q p then { found with ambig := true } else found) := by
  have hx : ¬ same name.length p.name.length = true := fun h => he ((hs p List.mem_cons_self hn).mp h)
  cases h : found.pfound <;> simp [findLong, hn, hx, h]

end

variable (clash) in
theorem findLong_find : ∀ {ps : List LongOption} (_ : Exact same name ps) (i : Nat) (found : Found) {p : LongOption},
    ps.find? (·.name = name) = some p → ∃ k,
      (findLong same clash name ps i found).pfound = some (i + k, p) ∧ ps[k]? = some p ∧
      (findLong same clash name ps i found).exact = true
  | q :: ps, hs, i, found, p, hp => by
    by_cases he : q.name = name
    · have : q = p := by simpa [List.find?_cons, he] using hp
      subst this
      exact ⟨0, by rw [findLong_exact hs he]; exact ⟨rfl, rfl, rfl⟩⟩
    · have hp : ps.find? (·.name = name) = some p := by simpa [List.find?_cons, he] using hp
      have step : ∃ found', findLong same clash name (q :: ps) i found =
        findLong same clash name ps (i + 1) found' := by
        cases hn : name.isPrefixOf q.name with
        | false => exact ⟨_, findLong_skip hn⟩
        | true => exact ⟨_, findLong_abbrev hs he hn⟩
      obtain ⟨found', e⟩ := step
      obtain ⟨k, hk⟩ := findLong_find hs.tail (i + 1) found' hp
      rw [e]
      exact ⟨k + 1, by rw [hk.1, Nat.add_right_comm, Nat.add_assoc], hk.2⟩

theorem findLong_second (q : LongOption) (j : Nat) : ∀ {ps : List LongOption} (_ : Exact same name ps) (i : Nat)
    (b : Bool),
    (∀ p ∈ ps, p.name ≠ name) → findLong same clash name ps i ⟨some (j, q), false, b⟩ =
      ⟨some (j, q), false, b || (ps.filter (name.isPrefixOf ·.name)).any (clash q)⟩
  | [], _, _, b, _ => by simp [findLong]
  | p :: ps, hs, i, b, h => by
    have he := h p List.mem_cons_self
    have ih := fun b => findLong_second q j hs.tail (i + 1) b fun r hr => h r (List.mem_cons_of_mem _ hr)
    cases hn : name.isPrefixOf p.name with
    | false => rw [findLong_skip hn, ih, List.filter_cons_of_neg (by simp [hn])]
    | true =>
      rw [findLong_abbrev hs he hn, List.filter_cons, if_pos hn, List.any_cons]
      cases hc : clash q p with
      | false => simp [hc, ih]
      | true => simp [hc, ih]

variable (clash) in
theorem findLong_filter : ∀ {ps : List LongOption} (_ : Exact same name ps) (i : Nat), (∀ p ∈ ps, p.name ≠ name) →
    match ps.filter (name.isPrefixOf ·.name) with
    | [] => findLong same clash name ps i ⟨none, false, false⟩ = ⟨none, false, false⟩
    | p :: rest => ∃ k,
      findLong same clash name ps i ⟨none, false, false⟩ = ⟨some (i + k, p), false, rest.any (clash p)⟩ ∧
        ps[k]? = some p
  | [], _, _, _ => rfl
  | p :: ps, hs, i, h => by
    have he := h p List.mem_cons_self
    have h' := fun r hr => h r (List.mem_cons_of_mem p hr)
    cases hn : name.isPrefixOf p.name with
    | false =>
      have ih := findLong_filter hs.tail (i + 1) h'
      rw [findLong_skip hn, List.filter_cons_of_neg (by simp [hn])]
      split at ih
      · exact ih
      · obtain ⟨k, hk⟩ := ih
        exact ⟨k + 1, by rw [hk.1, Nat.add_right_comm, Nat.add_assoc], hk.2⟩
    | true =>
      rw [findLong_abbrev hs he hn, List.filter_cons, if_pos hn]
      exact ⟨0, findLong_second p i hs.tail (i + 1) false h', rfl⟩

/-- The search has found what a lookup says, at the index it reports. -/
def Found.Is (found : Found) (table : List LongOption) : Lookup → Prop
  | .unknown => (found.ambig && !found.exact) = false ∧ found.pfound = none
  | .ambiguous => (found.ambig && !found.exact) = true
  | .found p => (found.ambig && !found.exact) = false ∧ ∃ i, found.pfound = some (i, p) ∧ table[i]? = some p

/-- **The search of the table is the lookup**: an exact match wins over all
abbreviations, and no order of the table makes an ambiguous one acceptable. -/
theorem findLong_is_lookup (clash : LongOption → LongOption → Bool) {table : List LongOption}
    (hs : Exact same name table) :
    (findLong same clash name table 0 ⟨none, false, false⟩).Is table (lookup clash name table) := by
  unfold lookup
  cases hf : table.find? (·.name = name) with
  | some p =>
    obtain ⟨k, hp, hk, hx⟩ := findLong_find clash hs 0 ⟨none, false, false⟩ hf
    rw [Nat.zero_add] at hp
    exact ⟨by rw [hx]; simp, k, hp, hk⟩
  | none =>
    have h : ∀ p ∈ table, p.name ≠ name := by simpa using hf
    have := findLong_filter clash hs 0 h
    cases hn : table.filter (name.isPrefixOf ·.name) with
    | nil =>
      rw [hn] at this
      rw [this]
      exact ⟨rfl, rfl⟩
    | cons p rest =>
      rw [hn] at this
      obtain ⟨k, e, hk⟩ := this
      rw [Nat.zero_add] at e
      rw [e]
      dsimp only
      cases ha : rest.any (clash p) with
      | false => exact ⟨rfl, k, rfl, hk⟩
      | true => rfl

end

/-! ## One option -/

structure Keeps (s s' : Getopt) : Prop where
  argv : s'.argv = s.argv
  opterr : s'.opterr = s.opterr
  initialized : s'.initialized = s.initialized
  ordering : s'.ordering = s.ordering
  posixlyCorrect : s'.posixlyCorrect = s.posixlyCorrect
  firstNonopt : s'.firstNonopt = s.firstNonopt
  lastNonopt : s'.lastNonopt = s.lastNonopt

theorem Keeps.update (s : Getopt) {optarg : Option CString} {optind : Nat} {optopt : Int} {nextchar : Option CString}
    {longind : Nat} {stores : List (Nat × Int)} {stderr : List String} :
    Keeps s { s with optarg, optind, optopt, nextchar, longind, stores, stderr } :=
  ⟨rfl, rfl, rfl, rfl, rfl, rfl, rfl⟩

structure Delivers (s s' : Getopt) (d : Parsed) : Prop extends Keeps s s' where
  optarg : s'.optarg = d.event.optarg
  stderr : s'.stderr = s.stderr ++ d.event.messages
  stores : s'.stores = s.stores ++ d.event.stores
  nextchar : s'.nextchar.getD [] = d.pending
  optind : s'.optind = s.optind + d.used

structure At (t : Setting) (s : Getopt) (x : CString) (xs : List CString) : Prop where
  split : ∃ before, s.argv = before ++ x :: xs ∧ before.length = s.optind
  prog : s.argv.head? = some t.prog
  posix : s.posixlyCorrect = t.posix
  optarg : s.optarg = none

/-- The option string and the table are as the scanner expects them: no `W;`,
and no name of four gigabytes. -/
structure Setting.Regular (t : Setting) : Prop where
  noW : (myIndex t.optstring 'W').bind (·[1]?) ≠ some ';'
  names : ∀ p ∈ t.call.longopts.getD [], p.name.length < 2 ^ 32

section
variable {t : Setting} {s : Getopt} {x : CString} {xs : List CString}

theorem At.element (h : At t s x xs) : (element s.argv s.optind : Except Fault CString) = .ok x := by
  obtain ⟨before, e, hl⟩ := h.split
  rw [e, ← hl]
  exact element_append before x xs

theorem At.element_next {y : CString} {ys : List CString} (h : At t s x (y :: ys)) :
    (Stdio.element s.argv (s.optind + 1) : Except Fault CString) = .ok y := by
  obtain ⟨before, e, hl⟩ := h.split
  have := element_append (before ++ [x]) y ys
  rw [List.append_assoc, List.length_append, hl] at this
  rw [e]
  exact this

theorem At.length (h : At t s x xs) : s.argv.length = s.optind + 1 + xs.length := by
  obtain ⟨before, e, hl⟩ := h.split
  rw [e, List.length_append, hl, List.length_cons]
  omega

theorem At.element_prog (h : At t s x xs) : (Stdio.element s.argv 0 : Except Fault CString) = .ok t.prog := by
  have := h.prog
  rw [List.head?_eq_getElem?] at this
  unfold Stdio.element
  rw [this]
  rfl

theorem complain_ok (hp : (Stdio.element s.argv 0 : Except Fault CString) = .ok t.prog) (msg : String) :
    complain t.errors msg s = .ok { s with stderr := s.stderr ++ t.message "" msg } := by
  unfold complain Setting.message
  cases t.errors with
  | false => simp; rfl
  | true => simp only [ite_true, hp]; rfl

theorem complainIndented_ok (hp : (Stdio.element s.argv 0 : Except Fault CString) = .ok t.prog) (msg : String) :
    complainIndented t.errors msg s = .ok { s with stderr := s.stderr ++ t.message Setting.continuation msg } := by
  unfold complainIndented Setting.message
  cases t.errors with
  | false => simp; rfl
  | true => simp only [ite_true, hp]; rfl

/-- `m` comes back with what `d` says, everything else being kept. -/
def Decodes (m : Except Fault (Int × Getopt)) (s : Getopt) (d : Parsed) : Prop :=
  ∃ s', m = .ok (d.event.value, s') ∧ Delivers s s' d

theorem shortOption_decodes (ht : t.Regular) (h : At t s x xs) (c : Char) (cs : CString) :
    Decodes (shortOption t.call t.optstring t.errors (c :: cs) s) s (t.short c cs xs.head?) := by
  have hp := h.element_prog
  have hl := h.length
  have hc₀ : ∀ {spec}, myIndex t.optstring c = some spec → ¬ (c = 'W' ∧ spec[1]? = some ';') := by
    rintro spec hm ⟨rfl, hs⟩
    exact ht.noW (by rw [hm]; exact hs)
  unfold shortOption Setting.short
  by_cases hc : myIndex t.optstring c = none ∨ c = ':'
  · -- no such option
    have hm : (if c = ':' then none else myIndex t.optstring c) = none := by
      split
      · rfl
      · next hc' => exact hc.resolve_right hc'
    simp only [hc, hm, ite_true, complain_ok, hp, h.posix, bind, Except.bind]
    refine ⟨_, rfl, ⟨rfl, rfl, rfl, rfl, h.posix.symm, rfl, rfl⟩, h.optarg, rfl, (List.append_nil _).symm, rfl, ?_⟩
    show _ = s.optind + (if cs = [] then 1 else 0)
    split <;> rfl
  · obtain ⟨hm, hc'⟩ := not_or.mp hc
    obtain ⟨spec, hm⟩ := Option.ne_none_iff_exists'.mp hm
    simp only [hc', hm, ite_false, Option.getD_some, if_neg (hc₀ hm)]
    by_cases ha : spec[1]? = some ':'
    · simp only [ha, ite_true]
      cases cs with
      | cons c' cs =>
        simp only [ne_eq, reduceCtorEq, not_false_eq_true, ite_true, ite_false]
        exact ⟨_, rfl, .update s, rfl, (List.append_nil _).symm, (List.append_nil _).symm, rfl,
          rfl⟩
      | nil =>
        simp only [ne_eq, not_true_eq_false, ite_true, ite_false]
        by_cases hb : spec[2]? = some ':'
        · simp only [hb, ite_true]
          exact ⟨_, rfl, .update s, rfl, (List.append_nil _).symm, (List.append_nil _).symm,
            rfl, rfl⟩
        · simp only [hb, ite_false]
          cases xs with
          | nil =>
            have hl : s.optind + 1 = s.argv.length := hl.symm
            simp only [hl, ite_true, complain_ok, hp, bind, Except.bind, List.head?_nil]
            exact ⟨_, rfl, .update s, h.optarg, rfl, (List.append_nil _).symm, rfl, hl.symm⟩
          | cons y ys =>
            have hl : ¬ s.optind + 1 = s.argv.length := by rw [hl, List.length_cons]; omega
            simp only [hl, ite_false, h.element_next, bind, Except.bind, List.head?_cons]
            exact ⟨_, rfl, .update s, rfl, (List.append_nil _).symm, (List.append_nil _).symm,
              rfl, rfl⟩
    · simp only [ha, ite_false]
      refine ⟨_, rfl, .update s, h.optarg, (List.append_nil _).symm, (List.append_nil _).symm,
        rfl, ?_⟩
      show _ = s.optind + (if cs = [] then 1 else 0)
      split <;> rfl

theorem charAt_ok {i : Nat} (h : i ≤ x.length) : charAt x i = .ok x[i]? := if_pos h

theorem acceptLong_delivers (i : Nat) (p : LongOption) (optarg : Option CString) (n : Nat) (call : Call) :
    ∃ s', acceptLong call i p { s with optarg := optarg, optind := s.optind + n } =
      ((Setting.accept p optarg).value, s') ∧
      Delivers s s' ⟨Setting.accept p optarg, [], n⟩ := by
  unfold acceptLong Setting.accept
  cases p.flag with
  | none => exact ⟨_, rfl, .update s, rfl, (List.append_nil _).symm, (List.append_nil _).symm, rfl, rfl⟩
  | some flag => exact ⟨_, rfl, .update s, rfl, (List.append_nil _).symm, rfl, rfl, rfl⟩

theorem longOption_decodes (ht : t.Regular) (h : At t s x xs) (hx : 2 ≤ x.length) {table : List LongOption}
    (hl : t.call.longopts = some table) (pending : CString) :
    match t.long table x pending xs.head? with
    | some d => ∃ s', longOption t.call t.optstring t.errors table x pending s = .ok (some d.event.value, s') ∧
      Delivers s s' d
    | none => longOption t.call t.optstring t.errors table x pending s = .ok (none, s) := by
  have hp := h.element_prog
  have hc := charAt_ok (Nat.le_of_lt hx)
  have he : Exact sameUnsigned (pending.takeWhile (· ≠ '=')) table := exact_of_lt (by simpa [hl] using ht.names)
  have hf := findLong_is_lookup (clashes t.call.longOnly) he
  unfold longOption Setting.long
  dsimp only
  generalize findLong sameUnsigned (clashes t.call.longOnly) (pending.takeWhile (· ≠ '=')) table 0
    ⟨none, false, false⟩ = found at hf ⊢
  generalize lookup (clashes t.call.longOnly) (pending.takeWhile (· ≠ '=')) table = what at hf ⊢
  generalize pending.dropWhile (· ≠ '=') = arg
  cases what with
  | ambiguous =>
    have ha : (found.ambig && !found.exact) = true := hf
    simp only [ha, ite_true, complain_ok, hp, bind, Except.bind]
    exact ⟨_, rfl, .update s, h.optarg, rfl, (List.append_nil _).symm, rfl, rfl⟩
  | unknown =>
    obtain ⟨ha, hn⟩ := hf
    simp only [ha, hn, ite_false, Bool.false_eq_true, bind, Except.bind, hc]
    split
    · next d hd =>
      split at hd
      · cases hd
        next hu =>
        simp only [hu, ite_true, complain_ok, hp]
        exact ⟨_, rfl, .update s, h.optarg, rfl, (List.append_nil _).symm, rfl, rfl⟩
      · cases hd
    · next hd =>
      split at hd
      · cases hd
      · next hu => simp only [hu]; rfl
  | found p =>
    obtain ⟨ha, i, hi, -⟩ := hf
    simp only [ha, hi, ite_false, Bool.false_eq_true, bind, Except.bind]
    by_cases hn : arg = []
    · simp only [hn, ne_eq, not_true_eq_false, ite_false]
      by_cases hr : p.hasArg = 1
      · simp only [hr, ite_true]
        cases xs with
        | nil =>
          have hl : ¬ s.optind + 1 < s.argv.length := by rw [h.length]; simp
          simp only [hl, ite_false, complain_ok, hp, List.head?_nil]
          exact ⟨_, rfl, .update s, h.optarg, rfl, (List.append_nil _).symm, rfl, rfl⟩
        | cons y ys =>
          have hl : s.optind + 1 < s.argv.length := by rw [h.length, List.length_cons]; omega
          simp only [hl, ite_true, h.element_next, List.head?_cons]
          obtain ⟨s', e, hd⟩ := acceptLong_delivers (s := s) i p (some y) 2 t.call
          simp only [e]
          exact ⟨s', rfl, hd⟩
      · simp only [hr, ite_false]
        obtain ⟨s', e, hd⟩ := acceptLong_delivers (s := s) i p s.optarg 1 t.call
        simp only [e]
        rw [h.optarg] at hd ⊢
        exact ⟨s', rfl, hd⟩
    · simp only [hn, ne_eq, not_false_eq_true, ite_true]
      by_cases hz : p.hasArg = 0
      · simp only [hz, not_true_eq_false, ite_false, complainIndented_ok, hp, hc]
        exact ⟨_, rfl, .update s, h.optarg, rfl, (List.append_nil _).symm, rfl, rfl⟩
      · simp only [hz, not_false_eq_true, ite_true]
        obtain ⟨s', e, hd⟩ := acceptLong_delivers (s := s) i p (some (arg.drop 1)) 1 t.call
        simp only [e]
        exact ⟨s', rfl, hd⟩

theorem isLongOption_ok (hx : 2 ≤ x.length) (longOnly : Bool) (optstring : CString) :
    isLongOption longOnly optstring x = .ok (x[1]? = some '-' ||
      (longOnly && (x[2]?.isSome || (x[1]?.bind (myIndex optstring)).isNone))) := by
  unfold isLongOption
  simp only [charAt_ok hx, charAt_ok (Nat.le_of_lt hx), bind, Except.bind]
  by_cases h : x[1]? = some '-'
  · simp only [h, ite_true, decide_true, Bool.true_or]
    rfl
  · cases longOnly <;> simp only [h, ite_false, ite_true, decide_false, Bool.false_or] <;> rfl

/-- **An option is decoded from its element and the next one alone.** -/
theorem decode_decodes (ht : t.Regular) (h : At t s x xs) (hx : 2 ≤ x.length) {pending : CString} (hn : pending ≠ []) :
    Decodes (decode t.call t.optstring t.errors pending s) s (t.decode x pending xs.head?) := by
  obtain ⟨c, cs, rfl⟩ := List.exists_cons_of_ne_nil hn
  have hs := shortOption_decodes ht h c cs
  unfold decode Setting.decode Setting.isLong
  cases hl : t.call.longopts with
  | none => simpa using hs
  | some table =>
    have hlong := longOption_decodes ht h hx hl (c :: cs)
    simp only [h.element, isLongOption_ok hx, bind, Except.bind, Option.isSome_some, Bool.true_and, Option.getD_some]
    split
    · split at hlong
      · next d hd =>
        obtain ⟨s', e, hd'⟩ := hlong
        simp only [e, hd, Option.getD_some]
        exact ⟨s', rfl, hd'⟩
      · next hd =>
        simp only [hlong, hd, Option.getD_none]
        exact hs
    · exact hs

end

end Catapult
