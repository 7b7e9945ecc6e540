import Catapult.GetoptSound

/-!
# A scan permutes the command line
-/

namespace Catapult

open Cursor Stdio Segments

/-! ## Exchanging the operands with the options behind them -/

theorem exchangeLoop_within {α : Type} (n : Nat) : ∀ (pre as bs post : List α), as.length + bs.length ≤ n →
    exchangeLoop (pre.length + as.length) pre.length (pre.length + as.length + bs.length)
      (pre ++ (as ++ (bs ++ post))) = .ok (pre ++ (bs ++ (as ++ post))) := by
  induction n with
  | zero =>
    intro pre as bs post h
    rw [exchangeLoop, if_neg (by omega), List.eq_nil_of_length_eq_zero (l := as) (by omega),
      List.eq_nil_of_length_eq_zero (l := bs) (by omega)]
    rfl
  | succ n ih =>
    intro pre as bs post h
    rw [exchangeLoop]
    split
    · next hc =>
      split
      · next hl =>
        -- `as` changes places with the last elements `cs` of the longer segment
        obtain ⟨bs, cs, rfl, hcs⟩ : ∃ bs' cs, bs = bs' ++ cs ∧ cs.length = as.length :=
          ⟨bs.take (bs.length - as.length), bs.drop (bs.length - as.length), (List.take_append_drop _ _).symm, by
            rw [List.length_drop]; omega⟩
        have hs := swapRuns_append as.length pre as bs cs post rfl hcs
        rw [List.length_append] at h hc hl ⊢
        have ih := ih pre cs bs (as ++ post) (by omega)
        rw [hcs] at ih
        rw [show pre.length + as.length + (bs.length + cs.length) - (pre.length + as.length - pre.length) =
          pre.length + (as.length + bs.length) by omega, Nat.add_sub_cancel_left, List.append_assoc, hs]
        show exchangeLoop _ _ _ _ = _
        rw [← Nat.add_assoc, ih, List.append_assoc]
      · next hl =>
        -- `bs` changes places with the first elements of the longer segment
        obtain ⟨as, cs, rfl, has⟩ : ∃ as' cs, as = as' ++ cs ∧ as'.length = bs.length :=
          ⟨as.take bs.length, as.drop bs.length, (List.take_append_drop _ _).symm, by
            rw [List.length_take]; omega⟩
        have hs := swapRuns_append bs.length pre as cs bs post has rfl
        rw [List.length_append] at h hc hl ⊢
        have ih := ih (pre ++ bs) cs as post (by omega)
        simp only [List.length_append, List.append_assoc] at ih
        rw [Nat.add_sub_cancel_left, List.append_assoc,
          show pre.length + (as.length + cs.length) = pre.length + (bs.length + cs.length) by omega, hs]
        show exchangeLoop _ _ _ _ = _
        rw [show pre.length + (bs.length + cs.length) + bs.length = pre.length + bs.length + cs.length + as.length by
          omega, ← Nat.add_assoc, ih, List.append_assoc]
    · next hc =>
      rcases Nat.eq_zero_or_pos bs.length with hb | hb
      · rw [List.eq_nil_of_length_eq_zero hb]
        rfl
      · rw [List.eq_nil_of_length_eq_zero (l := as) (by omega)]
        rfl

theorem exchangeLoop_append {α : Type} (pre as bs post : List α) :
    exchangeLoop (pre.length + as.length) pre.length (pre.length + as.length + bs.length)
      (pre ++ (as ++ (bs ++ post))) = .ok (pre ++ (bs ++ (as ++ post))) :=
  exchangeLoop_within _ pre as bs post (Nat.le_refl _)

/-! ## Where the arguments are -/

/-- Behind `pre`: options `ps`, operands `ns`, options `qs` taken since, and
what has not been read yet. -/
structure Layout (pre ps ns qs rest : List CString) (s : Getopt) : Prop where
  argv : s.argv = pre ++ (ps ++ (ns ++ (qs ++ rest)))
  first : s.firstNonopt = pre.length + ps.length
  last : s.lastNonopt = pre.length + ps.length + ns.length
  optind : s.optind = pre.length + ps.length + ns.length + qs.length

def Getopt.place (s : Getopt) (pre opts ns rest : List CString) : Getopt :=
  { s with
    argv := pre ++ (opts ++ (ns ++ rest)), firstNonopt := pre.length + opts.length,
    lastNonopt := pre.length + opts.length + ns.length, optind := pre.length + opts.length + ns.length }

def Moved (s s' : Getopt) : Prop :=
  { s' with argv := s.argv, optind := s.optind, firstNonopt := s.firstNonopt, lastNonopt := s.lastNonopt } = s

theorem Moved.trans {s₁ s₂ s₃ : Getopt} (h : Moved s₁ s₂) (h' : Moved s₂ s₃) : Moved s₁ s₃ := by
  have := congrArg (fun u : Getopt => { u with
    argv := s₁.argv, optind := s₁.optind, firstNonopt := s₁.firstNonopt, lastNonopt := s₁.lastNonopt }) h'
  exact this.trans h

theorem moved_place (s : Getopt) (pre opts ns rest : List CString) : Moved s (s.place pre opts ns rest) := rfl

section
variable {pre ps ns qs rest : List CString} {s : Getopt}

theorem layout_place (s : Getopt) (pre opts ns rest : List CString) :
    Layout pre opts ns [] rest (s.place pre opts ns rest) := ⟨rfl, rfl, rfl, rfl⟩

theorem Layout.eq_place (h : Layout pre ps ns [] rest s) : s = s.place pre ps ns rest := by
  obtain ⟨h₁, h₂, h₃, h₄⟩ := h
  cases s
  cases h₁
  cases h₂
  cases h₃
  cases h₄
  rfl

theorem exchange_ok (h : Layout pre ps ns qs rest s) : exchange s = .ok (s.place pre (ps ++ qs) ns rest) := by
  have he := exchangeLoop_append (pre ++ ps) ns qs rest
  simp only [List.length_append, List.append_assoc] at he
  unfold exchange
  rw [h.first, h.last, h.optind, h.argv, he]
  simp only [Getopt.place, bind, Except.bind, pure, Except.pure, List.length_append, List.append_assoc]
  congr 2 <;> omega

theorem clampNonoptions_eq (h : Layout pre ps ns qs rest s) : clampNonoptions s = s := by
  have h₁ := h.first
  have h₂ := h.last
  have h₃ := h.optind
  unfold clampNonoptions
  rw [Nat.min_eq_left (by omega), Nat.min_eq_left (by omega)]

theorem skipNonoptions_eq : ∀ (xs : List CString) (i : Nat), skipNonoptions xs i = i + (xs.takeWhile nonoption).length
  | [], _ => rfl
  | x :: xs, i => by
    rw [skipNonoptions, List.takeWhile_cons]
    split
    · rw [skipNonoptions_eq xs, List.length_cons]
      omega
    · rfl

theorem moveOptions_ok (h : Layout pre ps ns qs rest s) (empty : Bool) (h₁ : ns = [] → qs ≠ [] → empty = true)
    (h₂ : ns ≠ [] → qs = [] → empty = false) :
    ∃ l, moveOptions empty s = .ok { s.place pre (ps ++ qs) ns rest with lastNonopt := l } := by
  have hf : s.firstNonopt = s.lastNonopt ↔ ns = [] := by
    rw [h.first, h.last, ← List.length_eq_zero_iff]
    omega
  have hl : s.lastNonopt = s.optind ↔ qs = [] := by
    rw [h.last, h.optind, ← List.length_eq_zero_iff]
    omega
  unfold moveOptions
  by_cases hq : qs = []
  · subst hq
    rw [if_neg (fun hc => hc.2 (hl.mpr rfl)), List.append_nil, ← h.eq_place]
    refine ⟨s.lastNonopt, ?_⟩
    cases empty with
    | false => rfl
    | true =>
      have hn : ns = [] := by_contra fun hn => Bool.noConfusion (h₂ hn rfl)
      have he : s.optind = s.firstNonopt := by rw [hf.mpr hn, hl.mpr rfl]
      have hs : { s with firstNonopt := s.optind } = s := by
        cases s
        cases he
        rfl
      rw [if_pos rfl, hs]
      rfl
  · by_cases hn : ns = []
    · rw [if_neg (fun hc => hc.1 (hf.mpr hn)), h₁ hn hq]
      refine ⟨s.lastNonopt, ?_⟩
      subst hn
      have ha := h.argv
      have ho := h.optind
      simp only [List.nil_append, List.length_nil, Nat.add_zero] at ha ho
      simp only [ite_true, Getopt.place, List.nil_append, List.append_assoc, List.length_append, List.length_nil,
        Nat.add_zero, ← ha, ← Nat.add_assoc, ← ho]
      rfl
    · rw [if_pos ⟨fun e => hn (hf.mp e), fun e => hq (hl.mp e)⟩]
      exact ⟨_, exchange_ok h⟩

theorem permuteNonoptions_ok (ho : s.ordering = .permute) (h : Layout pre ps ns qs rest s) :
    permuteNonoptions s =
      .ok (s.place pre (ps ++ qs) (ns ++ rest.takeWhile nonoption) (rest.dropWhile nonoption)) := by
  have hl : s.lastNonopt = s.optind ↔ qs = [] := by
    rw [h.last, h.optind, ← List.length_eq_zero_iff]
    omega
  obtain ⟨l, e⟩ := moveOptions_ok h (s.lastNonopt ≠ s.optind) (fun _ hq => by simpa [hl] using hq)
    fun _ hq => by simpa [hl] using hq
  have hd : (s.place pre (ps ++ qs) ns rest).argv.drop (s.place pre (ps ++ qs) ns rest).optind = rest := by
    simp only [Getopt.place, ← List.append_assoc]
    exact List.drop_left' (by simp only [List.length_append]; omega)
  unfold permuteNonoptions
  rw [if_pos ho, e]
  simp only [bind, Except.bind, skipNonoptions_eq, hd]
  simp only [Getopt.place, List.append_assoc, List.length_append, List.takeWhile_append_dropWhile, pure, Except.pure]
  congr 2 <;> omega

theorem element_layout {x : CString} {xs : List CString} (h : Layout pre ps ns qs (x :: xs) s) :
    (element s.argv s.optind : Except Fault CString) = .ok x := by
  have := element_append (pre ++ (ps ++ (ns ++ qs))) x xs
  simp only [List.length_append, List.append_assoc] at this
  rw [h.argv, h.optind, ← this]
  congr 1
  omega

theorem length_layout (h : Layout pre ps ns qs rest s) : s.argv.length = s.optind + rest.length := by
  rw [h.argv, h.optind]
  simp only [List.length_append]
  omega

theorem endOfOptions_terminator {xs : List CString} (h : Layout pre ps ns qs (terminator :: xs) s) :
    endOfOptions s = .ok (s.place pre (ps ++ qs ++ [terminator]) (ns ++ xs) []) := by
  have hf : s.firstNonopt = s.lastNonopt ↔ ns = [] := by
    rw [h.first, h.last, ← List.length_eq_zero_iff]
    omega
  have hl : s.optind ≠ s.argv.length := by
    rw [length_layout h, List.length_cons]
    omega
  have h' : Layout pre ps ns (qs ++ [terminator]) xs { s with optind := s.optind + 1 } :=
    ⟨by rw [h.argv]; simp, h.first, h.last, by simp [h.optind]; omega⟩
  obtain ⟨l, e⟩ := moveOptions_ok h' (s.firstNonopt = s.lastNonopt) (fun hn _ => by simpa [hf] using hn)
    fun hn => by simp
  unfold endOfOptions
  rw [if_pos hl, element_layout h]
  simp only [bind, Except.bind, ite_true, e, Getopt.place, List.append_assoc, List.append_nil, List.length_append, pure,
    Except.pure]
  congr 2 <;> omega

theorem endOfOptions_other (h : Layout pre ps ns qs rest s) (hr : rest.head? ≠ some terminator) :
    endOfOptions s = .ok s := by
  unfold endOfOptions
  cases rest with
  | nil =>
    rw [if_neg (by rw [length_layout h]; simp)]
    rfl
  | cons x xs =>
    have hx : x ≠ terminator := fun e => hr (congrArg some e)
    rw [if_pos (by rw [length_layout h, List.length_cons]; omega), element_layout h]
    simp only [bind, Except.bind, hx, ite_false]
    rfl

end

/-! ## One call -/

structure Setting.Holds (t : Setting) (pre : List CString) (s : Getopt) : Prop where
  prog : pre.head? = some t.prog
  posix : s.posixlyCorrect = t.posix
  ordering : s.ordering = t.ordering
  initialized : s.initialized = true
  errors : t.errors = (if t.call.optstring.head? = some ':' then false else s.opterr)

/-- The variables of `getopt.c` stand for a scan of the arguments behind `pre`. -/
structure Represents (t : Setting) (pre : List CString) (s : Getopt) (a : Scan) : Prop extends t.Holds pre s where
  layout : ∃ ps qs, a.options = ps ++ qs ∧ Layout pre ps a.operands qs a.rest s
  nextchar : s.nextchar.getD [] = a.pending
  proper : a.Proper
  operands : t.ordering ≠ .permute → a.operands = []

structure Emits (s s' : Getopt) (e : Event) : Prop where
  optarg : s'.optarg = e.optarg
  stderr : s'.stderr = s.stderr ++ e.messages
  stores : s'.stores = s.stores ++ e.stores

/-- The scan is over: its options come first and `optind` is behind them. The
next call would read on from the operands. -/
structure Ends (t : Setting) (pre : List CString) (s s' : Getopt) (a : Scan) : Prop extends t.Holds pre s' where
  layout : ∃ ps qs, a.options = ps ++ qs ∧ Layout pre ps [] qs a.operands (clampNonoptions s')
  nextchar : s'.nextchar.getD [] = []
  stderr : s'.stderr = s.stderr
  stores : s'.stores = s.stores

theorem Ends.argv {t : Setting} {pre : List CString} {s s' : Getopt} {a : Scan} (h : Ends t pre s s' a) :
    s'.argv = pre ++ (a.options ++ a.operands) := by
  obtain ⟨ps, qs, ha, hL⟩ := h.layout
  rw [ha, List.append_assoc]
  exact hL.argv

theorem Ends.optind {t : Setting} {pre : List CString} {s s' : Getopt} {a : Scan} (h : Ends t pre s s' a) :
    s'.optind = pre.length + a.options.length := by
  obtain ⟨ps, qs, ha, hL⟩ := h.layout
  rw [ha, List.length_append, ← Nat.add_assoc]
  exact hL.optind

def Answers (t : Setting) (pre : List CString) (s : Getopt) (a : Scan) (m : Except Fault (Int × Getopt)) : Prop :=
  match t.next a with
  | (some e, a') => ∃ s', m = .ok (e.value, s') ∧ Emits s s' e ∧ Represents t pre s' a'
  | (none, a') => ∃ s', m = .ok (-1, s') ∧ Ends t pre s s' a'

section
variable {t : Setting} {pre ps qs : List CString} {s s' : Getopt}

theorem Answers.clear {a : Scan} {m : Except Fault (Int × Getopt)} {optarg : Option CString} {optind : Nat}
    {initialized : Bool} {nextchar : Option CString} {ordering : ArgOrdering} {posixlyCorrect : Bool}
    {firstNonopt lastNonopt : Nat}
    (h : Answers t pre { s with
      optarg, optind, initialized, nextchar, ordering, posixlyCorrect, firstNonopt, lastNonopt } a m) :
    Answers t pre s a m := by
  unfold Answers at h ⊢
  split at h
  · obtain ⟨s', e', hem, hr⟩ := h
    exact ⟨s', e', ⟨hem.optarg, hem.stderr, hem.stores⟩, hr⟩
  · obtain ⟨s', e', hen⟩ := h
    exact ⟨s', e', ⟨hen.toHolds, hen.layout, hen.nextchar, hen.stderr, hen.stores⟩⟩

theorem Setting.Holds.keeps (h : t.Holds pre s) (hk : Keeps s s') : t.Holds pre s' where
  prog := h.prog
  posix := hk.posixlyCorrect.trans h.posix
  ordering := hk.ordering.trans h.ordering
  initialized := hk.initialized.trans h.initialized
  errors := by rw [h.errors, hk.opterr]

theorem Setting.Holds.moved (h : t.Holds pre s) (hm : Moved s s') : t.Holds pre s' where
  prog := h.prog
  posix := (congrArg (·.posixlyCorrect) hm).trans h.posix
  ordering := (congrArg (·.ordering) hm).trans h.ordering
  initialized := (congrArg (·.initialized) hm).trans h.initialized
  errors := by rw [h.errors, ← show s'.opterr = s.opterr from congrArg (·.opterr) hm]

theorem decode_represents (ht : t.Regular) (h : t.Holds pre s) {a : Scan} {x pending : CString} {xs : List CString}
    (ha : a.options = ps ++ qs) (hL : Layout pre ps a.operands qs (x :: xs) s) (hx : nonoption x = false)
    (hp : pending ≠ []) (hn : t.ordering ≠ .permute → a.operands = []) (ho : s.optarg = none) :
    ∃ s', decode t.call t.optstring t.errors pending s = .ok ((t.take a x pending xs).1.value, s') ∧
      Emits s s' (t.take a x pending xs).1 ∧ Represents t pre s' (t.take a x pending xs).2 := by
  have hAt : At t s x xs := by
    refine ⟨⟨pre ++ (ps ++ (a.operands ++ qs)), ?_, ?_⟩, ?_, h.posix, ho⟩
    · rw [hL.argv]
      simp only [List.append_assoc]
    · rw [hL.optind]
      simp only [List.length_append]
      omega
    · rw [hL.argv, List.head?_append, h.prog]
      rfl
  obtain ⟨s', e, hd⟩ := decode_decodes ht hAt (length_of_nonoption hx) hp
  have hf := decode_fits t x hp xs.head?
  refine ⟨s', e, ⟨hd.optarg, hd.stderr, hd.stores⟩, h.keeps hd.toKeeps,
    ⟨ps, qs ++ (x :: xs).take (t.decode x pending xs.head?).used, ?_, ?_⟩, hd.nextchar, ?_, hn⟩
  · simp only [Setting.take, ha, List.append_assoc]
  · have hu : (t.decode x pending xs.head?).used ≤ (x :: xs).length := hf.used_le
    refine ⟨?_, hd.firstNonopt.trans hL.first, hd.lastNonopt.trans hL.last, ?_⟩
    · simp only [Setting.take]
      rw [hd.argv, hL.argv, List.append_assoc qs, List.take_append_drop]
    · rw [hd.optind, hL.optind, List.length_append, List.length_take_of_le hu, Nat.add_assoc]
      rfl
  · intro hp'
    cases hf with
    | part hu => exact ⟨x, xs, by simp only [Setting.take, hu, List.drop_zero], hx⟩
    | whole _ hp'' => exact absurd hp'' hp'
    | both _ hp'' => exact absurd hp'' hp'

theorem permuteNonoptions_represents {a : Scan} (R : Represents t pre s a) :
    ∃ s₁ ps qs, permuteNonoptions (clampNonoptions s) = .ok s₁ ∧ Moved s s₁ ∧ a.options = ps ++ qs ∧
      Layout pre ps (a.operands ++ t.skipped a.rest) qs (a.rest.drop (t.skipped a.rest).length) s₁ ∧
      (qs = [] ∨ a.operands ++ t.skipped a.rest = []) := by
  obtain ⟨ps, qs, ha, hL⟩ := R.layout
  rw [clampNonoptions_eq hL]
  unfold Setting.skipped
  by_cases ho : t.ordering = .permute
  · rw [if_pos ho, drop_operands]
    refine ⟨_, ps ++ qs, [], permuteNonoptions_ok (R.ordering.trans ho) hL, moved_place .., ?_, layout_place ..,
      .inl rfl⟩
    rw [ha, List.append_nil]
  · rw [if_neg ho, R.operands ho]
    refine ⟨s, ps, qs, ?_, rfl, ha, ?_, .inr rfl⟩
    · unfold permuteNonoptions
      rw [if_neg (by rw [R.ordering]; exact ho)]
      rfl
    · rw [R.operands ho] at hL
      exact hL

theorem ends_of_layout {ns : List CString} {s₁ : Getopt} (hH : t.Holds pre s) (hnc : s.nextchar.getD [] = [])
    (h : Layout pre ps ns qs [] s₁) (hm : Moved s s₁) (hq : qs = [] ∨ ns = []) (o : Scan) (hs : o.options = ps ++ qs)
    (hn : o.operands = ns) :
    Ends t pre s (if s₁.firstNonopt ≠ s₁.lastNonopt then { s₁ with optind := s₁.firstNonopt } else s₁) o := by
  have hf : s₁.firstNonopt = s₁.lastNonopt ↔ ns = [] := by
    rw [h.first, h.last, ← List.length_eq_zero_iff]
    omega
  have h₁ := hH.moved hm
  have hc : s₁.nextchar.getD [] = [] := (congrArg (·.nextchar.getD []) hm).trans hnc
  have he : s₁.stderr = s.stderr := congrArg (·.stderr) hm
  have ht : s₁.stores = s.stores := congrArg (·.stores) hm
  by_cases hn' : ns = []
  · rw [if_neg (not_not.mpr (hf.mpr hn'))]
    subst hn'
    refine ⟨h₁, ⟨ps, qs, hs, ?_⟩, hc, he, ht⟩
    rw [clampNonoptions_eq h, hn]
    exact h
  · rw [if_pos (fun e => hn' (hf.mp e))]
    cases hq.resolve_right hn'
    refine ⟨⟨h₁.prog, h₁.posix, h₁.ordering, h₁.initialized, h₁.errors⟩, ⟨ps, [], hs, ?_⟩, hc, he, ht⟩
    have hle : s₁.firstNonopt ≤ s₁.lastNonopt := by
      rw [h.first, h.last]
      exact Nat.le_add_right _ _
    refine ⟨?_, ?_, ?_, h.first⟩
    · rw [hn]
      exact h.argv.trans (by rw [List.nil_append, List.append_nil]; rfl)
    · exact (Nat.min_self _).trans h.first
    · exact (Nat.min_eq_right hle).trans h.first

/-- **A call is one step of the scan.** -/
theorem scan_represents (ht : t.Regular) {a : Scan} (R : Represents t pre s a) (ho : s.optarg = none) :
    Answers t pre s a (scan t.call t.optstring t.errors s) := by
  obtain ⟨options, operands, pending, rest⟩ := a
  have hnc : s.nextchar.getD [] = pending := R.nextchar
  cases pending with
  | cons c cs =>
    obtain ⟨x, xs, rfl, hx⟩ : ∃ x xs, rest = x :: xs ∧ nonoption x = false := R.proper (List.cons_ne_nil _ _)
    obtain ⟨ps, qs, ha, hL⟩ := R.layout
    unfold scan
    rw [if_neg (by rw [hnc]; exact List.cons_ne_nil _ _), hnc]
    exact decode_represents ht R.toHolds ha hL hx (List.cons_ne_nil _ _) R.operands ho
  | nil =>
    obtain ⟨s₁, ps, qs, e, hm, ha, hL, hq⟩ := permuteNonoptions_represents R
    have h₁ := R.toHolds.moved hm
    show match t.head ⟨options, operands ++ t.skipped rest, [], rest.drop (t.skipped rest).length⟩ with
      | (some e, a') => _
      | (none, a') => _
    unfold scan advance
    rw [if_pos hnc, e]
    have hns : t.ordering ≠ .permute → operands ++ t.skipped rest = [] := fun hp => by
      rw [show operands = [] from R.operands hp, Setting.skipped, if_neg hp]
      rfl
    have ho₁ : s₁.optarg = none := (congrArg (·.optarg) hm).trans ho
    have he₁ : s₁.stderr = s.stderr := congrArg (·.stderr) hm
    have ht₁ : s₁.stores = s.stores := congrArg (·.stores) hm
    simp only at hL ha hq
    generalize rest.drop (t.skipped rest).length = rest' at hL ⊢
    generalize operands ++ t.skipped rest = ns at hL hq hns ⊢
    unfold Setting.head
    cases rest' with
    | nil =>
      simp only [bind, Except.bind, endOfOptions_other hL (by simp)]
      rw [if_pos (by rw [length_layout hL]; rfl)]
      exact ⟨_, rfl, ends_of_layout R.toHolds hnc hL hm hq _ ha rfl⟩
    | cons x xs =>
      by_cases hx : x = terminator
      · subst hx
        have hL' := layout_place s₁ pre (ps ++ qs ++ [terminator]) (ns ++ xs) []
        simp only [bind, Except.bind, endOfOptions_terminator hL, ite_true]
        rw [if_pos (by rw [length_layout hL']; rfl)]
        exact ⟨_, rfl, ends_of_layout R.toHolds hnc hL' (hm.trans (moved_place ..)) (.inl rfl) _
          (by rw [ha, List.append_nil]) rfl⟩
      · have hl : ¬ s₁.optind = s₁.argv.length := by
          rw [length_layout hL, List.length_cons]
          omega
        simp only [bind, Except.bind, endOfOptions_other hL (by simpa using hx), hl, ite_false, element_layout hL, hx]
        cases hno : nonoption x with
        | true =>
          by_cases hr : t.ordering = .requireOrder
          · -- the first operand ends the scan
            have hn : ns = [] := hns (by rw [hr]; exact ArgOrdering.noConfusion)
            subst hn
            simp only [h₁.ordering.trans hr, hr, ite_true]
            exact ⟨_, rfl, h₁, ⟨ps, qs, ha, by
              rw [clampNonoptions_eq hL]
              exact hL⟩, (congrArg (·.nextchar.getD []) hm).trans hnc, he₁, ht₁⟩
          · have hr' : ¬ s₁.ordering = .requireOrder := by rw [h₁.ordering]; exact hr
            simp only [hr, hr', ite_true, ite_false]
            refine ⟨_, rfl, ⟨rfl, ?_, ?_⟩, ⟨h₁.prog, h₁.posix, h₁.ordering, h₁.initialized, h₁.errors⟩,
              ⟨ps, qs ++ [x], ?_, ?_⟩, ?_, ?_, hns⟩
            · rw [List.append_nil]; exact he₁
            · rw [List.append_nil]; exact ht₁
            · rw [ha, List.append_assoc]
            · refine ⟨?_, hL.first, hL.last, ?_⟩
              · rw [hL.argv, List.append_assoc qs]
                rfl
              · rw [hL.optind, List.length_append, Nat.add_assoc]
                rfl
            · exact (congrArg (·.nextchar.getD []) hm).trans hnc
            · exact fun h => absurd rfl h
        | false =>
          simp only [ite_false, Bool.false_eq_true, charAt_ok (Nat.le_of_lt (length_of_nonoption hno)), pure,
            Except.pure, Option.getD_some]
          have hd := drop_ne_nil hno hx t.call.longopts.isSome
          generalize (if t.call.longopts.isSome && x[1]? = some '-' then 2 else 1) = k at hd ⊢
          obtain ⟨s', e', hem, hr⟩ := decode_represents (a := ⟨options, ns, [], x :: xs⟩)
            (s := { s₁ with nextchar := some (x.drop k) }) ht ⟨h₁.prog, h₁.posix, h₁.ordering, h₁.initialized,
              h₁.errors⟩ ha
            ⟨hL.argv, hL.first, hL.last, hL.optind⟩ hno hd hns ho₁
          exact ⟨s', e', ⟨hem.optarg, by rw [hem.stderr, ← he₁], by rw [hem.stores, ← ht₁]⟩, hr⟩

theorem Represents.again {a : Scan} (R : Represents t pre s a) : Represents t.again pre s a :=
  ⟨⟨R.prog, R.posix, R.ordering, R.initialized, R.errors⟩, R.layout, R.nextchar, R.proper, R.operands⟩

theorem Represents.started {a : Scan} (R : Represents t pre s a) :
    ¬ s.argv.length < 1 ∧ ¬ (s.optind = 0 ∨ s.initialized = false) := by
  obtain ⟨ps, qs, ha, hL⟩ := R.layout
  have hpre : 0 < pre.length := by
    cases hp : pre with
    | nil => rw [hp] at R; cases R.prog
    | cons => simp
  constructor
  · rw [hL.argv, List.length_append]
    omega
  · rintro (h | h)
    · rw [hL.optind] at h
      omega
    · rw [show s.initialized = true from R.initialized] at h
      cases h

theorem getoptInternal_represents (ht : t.Regular) (hg : t.again = t) {a : Scan} (R : Represents t pre s a) :
    Answers t pre s a (getoptInternal t.call s) := by
  obtain ⟨ps, qs, ha, hL⟩ := R.layout
  obtain ⟨hl, hi⟩ := R.started
  have R' : Represents t pre { s with optarg := none } a :=
    ⟨⟨R.prog, R.posix, R.ordering, R.initialized, R.errors⟩, ⟨ps, qs, ha, hL.argv, hL.first, hL.last, hL.optind⟩,
      R.nextchar, R.proper, R.operands⟩
  have he : getoptInternal t.call s = scan t.call t.optstring t.errors { s with optarg := none } := by
    unfold getoptInternal
    rw [if_neg hl]
    rw [R.errors, show t.optstring = t.call.optstring from (congrArg (·.optstring) hg).symm]
    simp only [if_neg hi]
  rw [he]
  exact (scan_represents ht R' rfl).clear

end

/-! ## The first call -/

/-- No `W;`, and no name of four gigabytes. -/
structure Call.Readable (call : Call) : Prop where
  noW : (myIndex call.optstring 'W').bind (·[1]?) ≠ some ';'
  names : ∀ p ∈ call.longopts.getD [], p.name.length < 2 ^ 32

/-- No option looks like the end, too. -/
structure Call.Regular (call : Call) : Prop extends call.Readable where
  vals : ∀ p ∈ call.longopts.getD [], p.flag = none → p.val ≠ -1
  chars : ∀ c ∈ call.optstring, promote c ≠ -1

/-- The scan starts behind `pre`, which includes the program's name. -/
structure Fresh (pre args : List CString) (s : Getopt) : Prop where
  argv : s.argv = pre ++ args
  optind : s.optind = pre.length ∧ s.initialized = false ∨ s.optind = 0 ∧ pre.length = 1
  ne_nil : pre ≠ []

section
variable {call : Call} {pre args : List CString} {s : Getopt} {prog : CString} {opterr : Bool}

theorem getoptInitialize_eq (env : Bool) (optstring : CString) (s : Getopt) :
    getoptInitialize env optstring s = (Call.unsigned ⟨optstring, none, false, false, env⟩, { s with
      firstNonopt := s.optind, lastNonopt := s.optind, nextchar := none, posixlyCorrect := env, initialized := true,
      ordering := Call.ordering ⟨optstring, none, false, false, env⟩ }) := by
  unfold getoptInitialize Call.unsigned Call.ordering
  split
  · rfl
  · rfl
  · next h₁ h₂ =>
    have h₁ : optstring.head? ≠ some '-' := by
      cases optstring with
      | nil => simp
      | cons c cs => simpa using fun e => h₁ cs (by rw [e])
    have h₂ : optstring.head? ≠ some '+' := by
      cases optstring with
      | nil => simp
      | cons c cs => simpa using fun e => h₂ cs (by rw [e])
    simp only [h₁, h₂, false_or, ite_false]

theorem myIndex_tail {c c' : Char} (h : c' ≠ c) (cs : CString) : myIndex (c' :: cs) c = myIndex cs c := by
  unfold myIndex
  rw [List.dropWhile_cons, if_pos (by simpa using h)]

theorem Call.Readable.setting (h : call.Readable) : (call.setting opterr prog).Regular where
  noW := by
    have := h.noW
    show (myIndex call.unsigned 'W').bind (·[1]?) ≠ some ';'
    unfold Call.unsigned
    split
    · next hs =>
      cases ho : call.optstring with
      | nil => simp [myIndex]
      | cons c cs =>
        rw [ho] at this hs
        have hc : c ≠ 'W' := by
          rintro rfl
          simp at hs
        rwa [myIndex_tail hc] at this
    · exact this
  names := h.names

theorem Call.Readable.again (h : call.Readable) : (call.setting opterr prog).again.Regular := ⟨h.noW, h.names⟩

theorem getoptInternal_first (hr : call.Readable) (hf : Fresh pre args s) (hp : pre.head? = some prog) :
    Answers (call.setting s.opterr prog) pre s (Scan.start args) (getoptInternal call s) := by
  have hpre := List.length_pos_of_ne_nil hf.ne_nil
  have hl : ¬ s.argv.length < 1 := by
    rw [hf.argv, List.length_append]
    omega
  have hi : s.optind = 0 ∨ s.initialized = false := hf.optind.elim (fun h => .inr h.2) fun h => .inl h.1
  have ho : (if s.optind = 0 then 1 else s.optind) = pre.length := by
    rcases hf.optind with h | h
    · rw [if_neg (by omega), h.1]
    · rw [if_pos h.1, h.2]
  let s₀ : Getopt := { s with
    optarg := none, optind := pre.length, firstNonopt := pre.length, lastNonopt := pre.length, nextchar := none,
    posixlyCorrect := call.env, initialized := true, ordering := call.ordering }
  have hL : Layout pre [] [] [] args s₀ := ⟨hf.argv, rfl, rfl, rfl⟩
  have R : Represents (call.setting s.opterr prog) pre s₀ (Scan.start args) :=
    ⟨⟨hp, rfl, rfl, rfl, rfl⟩, ⟨[], [], rfl, hL⟩, rfl, fun h => absurd rfl h, fun _ => rfl⟩
  have he : getoptInternal call s =
      scan call (call.setting s.opterr prog).optstring (call.setting s.opterr prog).errors s₀ := by
    unfold getoptInternal
    rw [if_neg hl]
    simp only [if_pos hi, getoptInitialize_eq, ho]
    rfl
  rw [he]
  exact (scan_represents hr.setting R rfl).clear

end

/-! ## The application's loop -/

/-- `while ((c = getopt_long(…)) != -1)`: the values and arguments of at most
`n` calls, `none` if they are not enough. -/
def getoptLoop (call : Call) : Nat → Getopt → Except Fault (Option (List (Int × Option CString) × Getopt))
  | 0, _ => return none
  | n + 1, s => do
    let (v, s) ← getoptInternal call s
    if v = -1 then return some ([], s)
    else
      let optarg := s.optarg
      let rest ← getoptLoop call n s
      return rest.map fun (vs, s) => ((v, optarg) :: vs, s)

structure Scanned (pre : List CString) (s s' : Getopt) (es : List Event) (a : Scan) : Prop where
  argv : s'.argv = pre ++ (a.options ++ a.operands)
  optind : s'.optind = pre.length + a.options.length
  stderr : s'.stderr = s.stderr ++ es.flatMap (·.messages)
  stores : s'.stores = s.stores ++ es.flatMap (·.stores)

theorem Ends.scanned {t : Setting} {pre : List CString} {s s' : Getopt} {a : Scan}
    (h : Ends t pre s s' a) : Scanned pre s s' [] a :=
  ⟨h.argv, h.optind, by rw [h.stderr]; exact (List.append_nil _).symm, by rw [h.stores]; exact (List.append_nil _).symm⟩

theorem Scanned.emits {pre : List CString} {s s₁ s' : Getopt} {e : Event} {es : List Event} {a : Scan}
    (h : Scanned pre s₁ s' es a) (he : Emits s s₁ e) : Scanned pre s s' (e :: es) a := by
  refine ⟨h.argv, h.optind, ?_, ?_⟩
  · rw [h.stderr, he.stderr, List.append_assoc]
    rfl
  · rw [h.stores, he.stores, List.append_assoc]
    rfl

def outcome (es : List Event) : List (Int × Option CString) := es.map fun e => (e.value, e.optarg)

section
variable {t : Setting} {call : Call} {pre args : List CString} {s s₁ s' : Getopt} {e : Event} {es : List Event}
    {a a' : Scan}

theorem getoptLoop_end (h : getoptInternal call s = .ok (-1, s')) (n : Nat) :
    getoptLoop call (n + 1) s = .ok (some ([], s')) := by
  simp only [getoptLoop, h, bind, Except.bind, ite_true]
  rfl

theorem getoptLoop_step {v : Int} (h : getoptInternal call s = .ok (v, s₁)) (hv : v ≠ -1) {n : Nat}
    {vs : List (Int × Option CString)} (hr : getoptLoop call n s₁ = .ok (some (vs, s'))) :
    getoptLoop call (n + 1) s = .ok (some ((v, s₁.optarg) :: vs, s')) := by
  simp only [getoptLoop, h, hr, hv, bind, Except.bind, ite_false]
  rfl

theorem getoptLoop_scans (h : Scans t a es a') : ∀ {s : Getopt}, t.Regular → t.Distinct → t.again = t →
    Represents t pre s a → ∃ s', Scanned pre s s' es a' ∧
      ∀ n, es.length < n → getoptLoop t.call n s = .ok (some (outcome es, s')) := by
  induction h with
  | @done t a a' h =>
    intro s ht hd hg R
    have := getoptInternal_represents ht hg R
    rw [Answers, h] at this
    obtain ⟨s', e, hen⟩ := this
    refine ⟨s', hen.scanned, fun n hn => ?_⟩
    obtain ⟨n, rfl⟩ := Nat.exists_eq_succ_of_ne_zero (Nat.ne_zero_of_lt hn)
    exact getoptLoop_end e n
  | @step t a a₁ a' e es h _ ih =>
    intro s ht hd hg R
    have := getoptInternal_represents ht hg R
    rw [Answers, h] at this
    obtain ⟨s₁, e', hem, R₁⟩ := this
    rw [hg] at ih
    obtain ⟨s', hsc, hl⟩ := ih ht hd hg R₁
    refine ⟨s', hsc.emits hem, fun n hn => ?_⟩
    obtain ⟨n, rfl⟩ := Nat.exists_eq_succ_of_ne_zero (Nat.ne_zero_of_lt hn)
    rw [getoptLoop_step e' (next_value hd R.proper h) (hl n (Nat.lt_of_succ_lt_succ hn)), hem.optarg]
    rfl

theorem Call.Regular.distinct (h : call.Regular) (opterr : Bool) (prog : CString) :
    (call.setting opterr prog).Distinct where
  vals := h.vals
  chars := by
    intro c hc
    refine h.chars c ?_
    have hc : c ∈ call.unsigned := hc
    unfold Call.unsigned at hc
    split at hc
    · exact List.mem_of_mem_tail hc
    · exact hc

/-- The loop of an application is one scan of its arguments, and finds no more
options than there are characters, the ends of the arguments included. -/
theorem getoptLoop_eq_scan (call : Call) (hr : call.Regular) (pre args : List CString) (s : Getopt)
    (hf : Fresh pre args s) : ∃ es a, Scans (call.setting s.opterr (pre.headD [])) (Scan.start args) es a ∧
      es.length ≤ (args.map fun x => x.length + 1).sum ∧ ∃ s', Scanned pre s s' es a ∧
      ∀ n, es.length < n → getoptLoop call n s = .ok (some (outcome es, s')) := by
  have hp : pre.head? = some (pre.headD []) := by
    obtain ⟨x, xs, rfl⟩ := List.exists_cons_of_ne_nil hf.ne_nil
    rfl
  obtain ⟨es, a, hs, hl⟩ := scans_exists _ (call.setting s.opterr (pre.headD [])) (Scan.start args)
    (proper_start args) (Nat.le_refl _)
  refine ⟨es, a, hs, hl, ?_⟩
  have hf := getoptInternal_first hr.toReadable hf hp
  cases hs with
  | done h =>
    rw [Answers, h] at hf
    obtain ⟨s', e, hen⟩ := hf
    refine ⟨s', hen.scanned, fun n hn => ?_⟩
    obtain ⟨n, rfl⟩ := Nat.exists_eq_succ_of_ne_zero (Nat.ne_zero_of_lt hn)
    exact getoptLoop_end e n
  | @step _ _ a₁ _ e es h hs =>
    rw [Answers, h] at hf
    obtain ⟨s₁, e', hem, R₁⟩ := hf
    obtain ⟨s', hsc, hl⟩ := getoptLoop_scans hs hr.toReadable.again ⟨hr.vals, hr.chars⟩ rfl R₁.again
    refine ⟨s', hsc.emits hem, fun n hn => ?_⟩
    obtain ⟨n, rfl⟩ := Nat.exists_eq_succ_of_ne_zero (Nat.ne_zero_of_lt hn)
    rw [getoptLoop_step e' (next_value (hr.distinct _ _) (proper_start args) h)
      (hl n (Nat.lt_of_succ_lt_succ hn)), hem.optarg]
    rfl

/-- **The scanner refines a single pass over the arguments.** Whatever the pass
finds is what the loop of an application gets, message for message, although
the scanner moves the arguments about. -/
theorem getoptLoop_refines (call : Call) (hr : call.Regular) (pre args : List CString) (s : Getopt)
    (hf : Fresh pre args s) (es : List Event) (a : Scan)
    (hs : Scans (call.setting s.opterr (pre.headD [])) (Scan.start args) es a) : ∃ s', Scanned pre s s' es a ∧
      ∀ n, es.length < n → getoptLoop call n s = .ok (some (outcome es, s')) := by
  obtain ⟨es', a', hs', _, s', h⟩ := getoptLoop_eq_scan call hr pre args s hf
  obtain ⟨rfl, rfl⟩ := hs'.unique hs
  exact ⟨s', h⟩

def sampleCall : Call := ⟨"a:b".toList, some [⟨"all".toList, 0, none, promote 'b'⟩], false, false, false⟩

def sampleGetopt (args : List CString) : Getopt :=
  ⟨"prog".toList :: args, none, 1, true, 0, false, none, .permute, false, 0, 0, 0, [], []⟩

theorem regular_sampleCall : sampleCall.Regular where
  noW := by decide
  names p hp := by
    rw [List.mem_singleton.mp hp]
    exact Nat.lt_of_le_of_lt (by decide : 3 ≤ 3) (by norm_num)
  vals := by decide
  chars := by
    show ∀ c ∈ ['a', ':', 'b'], promote c ≠ -1
    simp [promote]

theorem fresh_sampleGetopt (args : List CString) : Fresh ["prog".toList] args (sampleGetopt args) :=
  ⟨rfl, .inl ⟨rfl, rfl⟩, List.cons_ne_nil _ _⟩

theorem getoptLoop_refines_sampleCall : ∃ s',
    Scanned ["prog".toList] (sampleGetopt ["x".toList, "-a".toList, "1".toList]) s'
      [⟨promote 'a', some "1".toList, [], []⟩] ⟨["-a".toList, "1".toList], ["x".toList], [], []⟩ ∧
    ∀ n, 1 < n → getoptLoop sampleCall n (sampleGetopt ["x".toList, "-a".toList, "1".toList]) =
      .ok (some ([(promote 'a', some "1".toList)], s')) :=
  getoptLoop_refines sampleCall regular_sampleCall ["prog".toList] ["x".toList, "-a".toList, "1".toList] _
    (fresh_sampleGetopt _) [⟨promote 'a', some "1".toList, [], []⟩] ⟨["-a".toList, "1".toList], ["x".toList], [], []⟩
    (.step rfl (.done rfl))

end

end Catapult
