import Catapult.GetoptRun

/-!
# The permuted command line

After a scan the options with their arguments come first, the operands behind
them in their order. Scanning the result again changes nothing, in either of
the two orderings.
-/

namespace Catapult

open Cursor Stdio Segments

/-! ## Operands -/

/-- Nothing but operands has been passed over, up to what stands behind `--`. -/
def Behind (options operands : List CString) : Prop :=
  ∃ ns after, operands = ns ++ after ∧ (∀ x ∈ ns, nonoption x = true) ∧
    (after ≠ [] → options.getLast? = some terminator)

section
variable {t : Setting} {a a' : Scan} {e : Event}

theorem next_operands (hp : a.Proper) (h : t.next a = (some e, a')) :
    ∃ ns, a'.operands = a.operands ++ ns ∧ ∀ x ∈ ns, nonoption x = true := by
  have hs := next_steps t hp
  rw [h] at hs
  cases hs with
  | operand => exact ⟨[], (List.append_nil _).symm, fun x hx => nomatch hx⟩
  | @option _ _ ns _ _ hn => exact ⟨ns, rfl, hn.nonoption⟩
  | cluster => exact ⟨[], (List.append_nil _).symm, fun x hx => nomatch hx⟩

theorem next_end (hp : a.Proper) (h : t.next a = (none, a')) (hn : ∀ x ∈ a.operands, nonoption x = true)
    (ho : t.ordering = .permute) : Behind a'.options a'.operands := by
  have hs := next_steps t hp
  rw [h] at hs
  have happ : ∀ ns, t.Passes ns → ∀ x ∈ a.operands ++ ns, nonoption x = true := fun ns hns x hx =>
    (List.mem_append.mp hx).elim (hn x) (hns.nonoption x)
  cases hs with
  | @exhausted _ operands ns hns =>
    exact ⟨operands ++ ns, [], (List.append_nil _).symm, happ ns hns, fun h => absurd rfl h⟩
  | @ended _ operands ns xs hns =>
    exact ⟨operands ++ ns, xs, rfl, happ ns hns, fun _ => List.getLast?_concat⟩
  | stopped _ ho' =>
    rw [ho] at ho'
    cases ho'

theorem next_inOrder (ho : t.ordering ≠ .permute) (hp : a.Proper) (hn : a.operands = []) :
    (t.next a).2.options ++ ((t.next a).2.operands ++ (t.next a).2.rest) = a.options ++ a.rest ∧
      ((t.next a).1 ≠ none → (t.next a).2.operands = []) := by
  have ht : ∀ (b : Scan) (x pending : CString) (xs : List CString), b.operands = [] →
      (t.take b x pending xs).2.options ++ ((t.take b x pending xs).2.operands ++ (t.take b x pending xs).2.rest) =
        b.options ++ x :: xs := fun b x pending xs hb => by
    simp only [Setting.take, hb, List.nil_append, List.append_assoc, List.take_append_drop]
  have hs := next_steps t hp
  generalize t.next a = r at hs ⊢
  cases hs with
  | exhausted hns =>
    cases (hn : _ = [])
    exact ⟨by simp, fun h => absurd rfl h⟩
  | ended hns =>
    cases (hn : _ = [])
    cases hns.ordering ho
    exact ⟨by simp, fun h => absurd rfl h⟩
  | stopped =>
    cases (hn : _ = [])
    exact ⟨by simp, fun h => absurd rfl h⟩
  | operand =>
    cases (hn : _ = [])
    exact ⟨by simp, fun _ => rfl⟩
  | @option options operands ns x xs hns =>
    cases (hn : operands = [])
    cases hns.ordering ho
    exact ⟨ht ⟨options, [], [], x :: xs⟩ x _ xs rfl, fun _ => rfl⟩
  | @cluster options operands c cs x xs =>
    cases (hn : operands = [])
    exact ⟨ht ⟨options, [], c :: cs, x :: xs⟩ x (c :: cs) xs rfl, fun _ => rfl⟩

end

theorem Scans.behind {t : Setting} {a a' : Scan} {es : List Event} (h : Scans t a es a') : t.ordering = .permute →
    a.Proper → (∀ x ∈ a.operands, nonoption x = true) → Behind a'.options a'.operands := by
  induction h with
  | done h => exact fun ho hp hn => next_end hp h hn ho
  | step h _ ih =>
    intro ho hp hn
    obtain ⟨ns, e, hns⟩ := next_operands hp h
    refine ih ho (next_some _ hp h).1 fun x hx => ?_
    rw [e] at hx
    exact (List.mem_append.mp hx).elim (hn x) (hns x)

theorem Scans.inOrder {t : Setting} {a a' : Scan} {es : List Event} (h : Scans t a es a') : t.ordering ≠ .permute →
    a.Proper → a.operands = [] → a'.options ++ a'.operands = a.options ++ a.rest := by
  induction h with
  | @done t a a' h =>
    intro ho hp hn
    have := (next_inOrder ho hp hn).1
    rwa [h, next_none t hp h, List.append_nil] at this
  | @step t a a₁ a' e es h _ ih =>
    intro ho hp hn
    obtain ⟨h₁, h₂⟩ := next_inOrder ho hp hn
    rw [h] at h₁ h₂
    have hn₁ : a₁.operands = [] := h₂ (by simp)
    rw [ih ho (next_some t hp h).1 hn₁, ← h₁, hn₁]
    rfl

/-! ## Options with their arguments -/

/-- What was taken, and what it came to: an option gives one event, or one for
each character of a cluster, and the argument of the last may be the element
behind it. `--` can only end the options, and an operand is among them only
where operands are returned in order. -/
inductive Grouped (ordering : ArgOrdering) : List CString → List Event → Prop
  | nil : Grouped ordering [] []
  | ended : Grouped ordering [terminator] []
  | operand {x : CString} {options : List CString} {es : List Event} (hx : nonoption x = true)
    (ho : ordering = .returnInOrder) (h : Grouped ordering options es) :
    Grouped ordering (x :: options) (⟨1, some x, [], []⟩ :: es)
  | alone {x : CString} {options : List CString} {e : Event} {es es' : List Event} (hx : nonoption x = false)
    (hd : x ≠ terminator) (h : Grouped ordering options es') : Grouped ordering (x :: options) (es ++ e :: es')
  | argument {x y : CString} {options : List CString} {e : Event} {es es' : List Event} (hx : nonoption x = false)
    (hd : x ≠ terminator) (he : e.optarg = some y) (h : Grouped ordering options es') :
    Grouped ordering (x :: y :: options) (es ++ e :: es')

section
variable {t : Setting}

theorem take_rest (a : Scan) (x : CString) {pending : CString} (hp : pending ≠ []) (xs : List CString)
    (h : (t.take a x pending xs).2.pending ≠ []) : (t.take a x pending xs).2.rest = x :: xs := by
  cases decode_fits t x hp xs.head? with
  | part hu => simp only [Setting.take, hu, List.drop_zero]
  | whole _ hp' => exact absurd hp' h
  | both _ hp' => exact absurd hp' h

/-- Between `a` and `a'` options were taken that give `es`. In the middle of a
cluster they begin with the element it stands in, which has given `es₀` already. -/
def Setting.Groups (t : Setting) (a a' : Scan) (es : List Event) : Prop :=
  ∃ options, a'.options = a.options ++ options ∧
    ∀ es₀, (a.pending = [] → es₀ = []) → Grouped t.ordering options (es₀ ++ es)

theorem take_groups (a : Scan) {x : CString} (hx : nonoption x = false) (hd : x ≠ terminator) {pending : CString}
    (hp : pending ≠ []) (xs : List CString) {a' : Scan} {es : List Event}
    (h : ((t.take a x pending xs).2.pending ≠ [] → (t.take a x pending xs).2.rest.head? ≠ some terminator) →
      t.Groups (t.take a x pending xs).2 a' es) : t.Groups a a' ((t.take a x pending xs).1 :: es) := by
  obtain ⟨options, ho, h⟩ := h fun hp' => by
    rw [take_rest a x hp xs hp']
    exact fun e => hd (Option.some.inj e)
  refine ⟨(x :: xs).take (t.decode x pending xs.head?).used ++ options, ?_, fun es₀ _ => ?_⟩
  · rw [ho]
    exact List.append_assoc _ _ _
  · cases decode_fits t x hp xs.head? with
    | part hu hp' =>
      rw [hu, List.append_cons]
      exact h _ fun e => absurd e hp'
    | whole hu =>
      rw [hu]
      exact .alone hx hd (h [] fun _ => rfl)
    | both hu _ y hy ha =>
      cases xs with
      | nil => cases hy
      | cons z zs =>
        cases hy
        rw [hu]
        exact .argument hx hd ha (h [] fun _ => rfl)

theorem Scans.groups {a a' : Scan} {es : List Event} (h : Scans t a es a') : a.Proper →
    (a.pending ≠ [] → a.rest.head? ≠ some terminator) → t.Groups a a' es := by
  induction h with
  | @done t a a' h =>
    intro hp _
    have hs := next_steps t hp
    rw [h] at hs
    cases hs with
    | exhausted =>
      refine ⟨[], (List.append_nil _).symm, fun es₀ he => ?_⟩
      rw [he rfl]
      exact .nil
    | ended =>
      refine ⟨[terminator], rfl, fun es₀ he => ?_⟩
      rw [he rfl]
      exact .ended
    | stopped =>
      refine ⟨[], (List.append_nil _).symm, fun es₀ he => ?_⟩
      rw [he rfl]
      exact .nil
  | @step t a a₁ a' e es h _ ih =>
    intro hp hd
    have ih := ih (next_some t hp h).1
    have hs := next_steps t hp
    rw [h] at hs
    cases hs with
    | @operand options operands x xs hx ho =>
      obtain ⟨opts, hopts, hi⟩ := ih fun h => absurd rfl h
      refine ⟨x :: opts, by rw [hopts]; exact List.append_assoc _ _ _, fun es₀ he => ?_⟩
      rw [he rfl]
      exact .operand hx ho (hi [] fun _ => rfl)
    | @option options operands ns x xs hn hx hdx pending hpd =>
      subst hpd
      exact take_groups ⟨options, operands ++ ns, [], x :: xs⟩ hx hdx (drop_ne_nil hx hdx _) xs ih
    | @cluster options operands c cs x xs hx =>
      have hdx : x ≠ terminator := fun e => hd (List.cons_ne_nil c cs) (congrArg some e)
      exact take_groups ⟨options, operands, c :: cs, x :: xs⟩ hx hdx (List.cons_ne_nil c cs) xs ih

end

/-! ## What a scan leaves in `argv` -/

/-- The options that the pass has taken first, the operands behind them, nothing
lost and both in their order; not permuted at all where the ordering forbids it. -/
structure Permuted (call : Call) (pre args : List CString) (es : List Event) (a : Scan) (s' : Getopt) : Prop where
  argv : s'.argv = pre ++ (a.options ++ a.operands)
  optind : s'.optind = pre.length + a.options.length
  shuffle : Shuffle a.options a.operands args
  options : Grouped call.ordering a.options es
  operands : call.ordering = .permute → Behind a.options a.operands
  inOrder : call.ordering ≠ .permute → a.options ++ a.operands = args

/-- **The scan sorts the command line stably** into options and operands, with
`optind` at the first operand. The application gets what the options moved to
the front come to, and one call more than there are characters is enough. -/
theorem getoptLoop_permutes (call : Call) (hr : call.Regular) (pre args : List CString) (s : Getopt)
    (hf : Fresh pre args s) : ∃ es a s', Scans (call.setting s.opterr (pre.headD [])) (Scan.start args) es a ∧
      Permuted call pre args es a s' ∧
      ∀ n, (args.map fun x => x.length + 1).sum < n → getoptLoop call n s = .ok (some (outcome es, s')) := by
  obtain ⟨es, a, hs, hl, s', hsc, hn⟩ := getoptLoop_eq_scan call hr pre args s hf
  have hp := proper_start args
  obtain ⟨options, ho, hg⟩ := hs.groups hp fun h => absurd rfl h
  have ho : a.options = options := ho
  refine ⟨es, a, s', hs, ⟨hsc.argv, hsc.optind, hs.shuffle, ?_, fun hq => ?_, fun hq => ?_⟩,
    fun n h => hn n (Nat.lt_of_le_of_lt hl h)⟩
  · rw [ho]
    exact hg [] fun _ => rfl
  · exact hs.behind hq hp (by simp [Scan.start])
  · exact hs.inOrder hq hp rfl

theorem getoptLoop_permutes_sampleCall : ∃ es a s',
    Scans (sampleCall.setting true "prog".toList) (Scan.start ["x".toList, "-a".toList, "1".toList]) es a ∧
    Permuted sampleCall ["prog".toList] ["x".toList, "-a".toList, "1".toList] es a s' ∧ ∀ n, 7 < n →
      getoptLoop sampleCall n (sampleGetopt ["x".toList, "-a".toList, "1".toList]) = .ok (some (outcome es, s')) :=
  getoptLoop_permutes sampleCall regular_sampleCall ["prog".toList] ["x".toList, "-a".toList, "1".toList] _
    (fresh_sampleGetopt _)

/-! ## Scanning the result again -/

def Setting.under (t : Setting) (env : Bool) : Setting :=
  { t with
    call := { t.call with env := env }, posix := env, ordering := if env then .requireOrder else .permute }

/-- No option takes the next argument for its own. -/
structure Setting.Selfcontained (t : Setting) : Prop where
  table : ∀ p ∈ t.call.longopts.getD [], p.hasArg ≠ 1
  optstring : ':' ∉ t.optstring

def Parsed.silent (d : Parsed) : Parsed := { d with event := { d.event with messages := [] } }

section
variable {t : Setting}

/-- The two orderings read an option alike, but word one message differently. -/
theorem decode_under (env : Bool) (x pending : CString) (next : Option CString) :
    ((t.under env).decode x pending next).silent = (t.decode x pending next).silent := by
  have hs : ∀ c cs, ((t.under env).short c cs next).silent = (t.short c cs next).silent := by
    intro c cs
    have e : (t.under env).optstring = t.optstring := rfl
    unfold Setting.short
    rw [e]
    cases if c = ':' then none else myIndex t.optstring c with
    | none => rfl
    | some spec => rfl
  have hl : (t.under env).long (t.call.longopts.getD []) x pending next =
    t.long (t.call.longopts.getD []) x pending next := rfl
  unfold Setting.decode
  show Parsed.silent (if t.isLong x
    then ((t.under env).long (t.call.longopts.getD []) x pending next).getD _ else _) = _
  rw [hl]
  cases pending with
  | nil => rfl
  | cons c cs =>
    cases t.isLong x with
    | false => exact hs c cs
    | true =>
      cases t.long (t.call.longopts.getD []) x (c :: cs) next with
      | none => exact hs c cs
      | some d => rfl

theorem mem_of_spec {optstring spec : CString} {c c' : Char} {i : Nat} (h : myIndex optstring c = some spec)
    (hi : spec[i]? = some c') : c' ∈ optstring := by
  unfold myIndex at h
  split at h
  · cases h
  · cases h
    exact (List.dropWhile_suffix _).subset (List.mem_of_getElem? hi)

theorem short_next (c : Char) (cs : CString) {next next' : Option CString}
    (h₂ : (t.short c cs next).used = 2 → next' = next) (h : next ≠ none ∨ t.Selfcontained) :
    t.short c cs next' = t.short c cs next := by
  unfold Setting.short at h₂ ⊢
  dsimp only at h₂ ⊢
  split
  · rfl
  · next spec hs =>
    rw [hs] at h₂
    split
    · next ha =>
      split
      · rfl
      · next hc =>
        split
        · rfl
        · next hb =>
          simp only [ha, hc, hb, ite_true, ite_false] at h₂
          cases next with
          | none =>
            have hm : ':' ∈ t.optstring := by
              split at hs
              · cases hs
              · exact mem_of_spec hs ha
            exact absurd hm (h.resolve_left fun h => h rfl).optstring
          | some y => rw [h₂ rfl]
    · rfl

theorem long_next (x pending : CString) {next : Option CString} (next' : Option CString)
    (h₂ : ∀ d, t.long (t.call.longopts.getD []) x pending next = some d → d.used = 2 → next' = next)
    (h : next ≠ none ∨ t.Selfcontained) :
    t.long (t.call.longopts.getD []) x pending next' = t.long (t.call.longopts.getD []) x pending next := by
  unfold Setting.long at h₂ ⊢
  dsimp only at h₂ ⊢
  split
  · rfl
  · rfl
  · next p hp =>
    rw [hp] at h₂
    split
    · rfl
    · next ha =>
      split
      · next hr =>
        simp only [ha, hr, ite_true, ite_false] at h₂
        cases next with
        | none => exact absurd hr ((h.resolve_left fun h => h rfl).table p (mem_of_lookup hp))
        | some y => rw [h₂ _ rfl rfl]
      · rfl

theorem decode_next (x : CString) {pending : CString} {next next' : Option CString} (hp : pending ≠ [])
    (h₂ : (t.decode x pending next).used = 2 → next' = next) (h : next ≠ none ∨ t.Selfcontained) :
    t.decode x pending next' = t.decode x pending next := by
  obtain ⟨c, cs, rfl⟩ := List.exists_cons_of_ne_nil hp
  unfold Setting.decode at h₂ ⊢
  dsimp only at h₂ ⊢
  cases hi : t.isLong x with
  | false =>
    rw [hi] at h₂
    exact short_next c cs h₂ h
  | true =>
    rw [hi] at h₂
    simp only [ite_true] at h₂ ⊢
    have hl := long_next x (c :: cs) (t := t) next' (fun d hd hu => h₂ (by rw [hd]; exact hu)) h
    rw [hl]
    cases hd : t.long (t.call.longopts.getD []) x (c :: cs) next with
    | none =>
      rw [hd] at h₂
      exact short_next c cs h₂ h
    | some d => rfl

end

/-- No option can lack its argument: none needs the next one, or the command
line ends with an operand. -/
def Settled (t : Setting) (rest : List CString) : Prop :=
  t.Selfcontained ∨ ∀ x, rest.getLast? = some x → nonoption x = true

theorem Settled.suffix {t : Setting} {read rest : List CString} (h : Settled t (read ++ rest)) : Settled t rest :=
  h.imp_right fun h x hx => h x (by rw [List.getLast?_append, hx]; rfl)

theorem Settled.next {t : Setting} {x : CString} {xs : List CString} (h : Settled t (x :: xs))
    (hx : nonoption x = false) : xs.head? ≠ none ∨ t.Selfcontained := by
  rcases h with h | h
  · exact .inr h
  · cases xs with
    | nil => rw [h x rfl] at hx; cases hx
    | cons y ys => exact .inl (by simp)

section
variable {t : Setting}

theorem take_again (env : Bool) (a : Scan) {x pending : CString} {xs opts : List CString} (ns : List CString)
    (hp : pending ≠ []) (hs : xs.head? ≠ none ∨ t.Selfcontained)
    (ho : (t.take a x pending xs).2.pending ≠ [] → opts.head? = some x) (opts₀ : List CString) :
    ∃ ys e', (x :: xs).take (t.decode x pending xs.head?).used ++ (opts ++ ns) = x :: ys ∧
      ((x :: xs).take (t.decode x pending xs.head?).used ++ opts).head? = some x ∧
      (e'.value, e'.optarg) = ((t.take a x pending xs).1.value, (t.take a x pending xs).1.optarg) ∧
      ∀ pending', (t.under env).take ⟨opts₀, [], pending', x :: ys⟩ x pending ys =
        (e', ⟨opts₀ ++ (x :: xs).take (t.decode x pending xs.head?).used, [],
          (t.take a x pending xs).2.pending, opts ++ ns⟩) := by
  have hf := decode_fits t x hp xs.head?
  have hlen : (t.decode x pending xs.head?).used ≤ (x :: xs).length := hf.used_le
  obtain ⟨ys, hys, hh, hy₂⟩ : ∃ ys, (x :: xs).take (t.decode x pending xs.head?).used ++ (opts ++ ns) = x :: ys ∧
      ((x :: xs).take (t.decode x pending xs.head?).used ++ opts).head? = some x ∧
      ((t.decode x pending xs.head?).used = 2 → ys.head? = xs.head?) := by
    cases hf with
    | part hu hp' =>
      obtain ⟨o, os, rfl⟩ := List.exists_cons_of_ne_nil (l := opts) (by rintro rfl; cases ho hp')
      cases ho hp'
      exact ⟨os ++ ns, by rw [hu]; rfl, by rw [hu]; rfl, fun h => by omega⟩
    | whole hu => exact ⟨opts ++ ns, by rw [hu]; rfl, by rw [hu]; rfl, fun h => by omega⟩
    | both hu _ y hy =>
      cases xs with
      | nil => cases hy
      | cons y ys => exact ⟨y :: (opts ++ ns), by rw [hu]; rfl, by rw [hu]; rfl, fun _ => rfl⟩
  have hd : ((t.under env).decode x pending ys.head?).silent = (t.decode x pending xs.head?).silent := by
    rw [decode_under, decode_next x hp hy₂ hs]
  have hu : ((t.under env).decode x pending ys.head?).used = (t.decode x pending xs.head?).used := by
    have := congrArg Parsed.used hd
    exact this
  have hp' : ((t.under env).decode x pending ys.head?).pending = (t.decode x pending xs.head?).pending := by
    have := congrArg Parsed.pending hd
    exact this
  refine ⟨ys, ((t.under env).decode x pending ys.head?).event, hys, hh, ?_, fun pending' => ?_⟩
  · have := congrArg (fun d : Parsed => (d.event.value, d.event.optarg)) hd
    exact this
  · simp only [Setting.take, hu, hp']
    rw [← hys, List.take_left' (List.length_take_of_le hlen), List.drop_left' (List.length_take_of_le hlen)]

theorem next_under (env : Bool) {x : CString} (hx : nonoption x = false) (hd : x ≠ terminator) (opts : List CString)
    (xs : List CString) : (t.under env).next ⟨opts, [], [], x :: xs⟩ =
      let r := (t.under env).take ⟨opts, [], [], x :: xs⟩ x
        (x.drop (if t.call.longopts.isSome && x[1]? = some '-' then 2 else 1)) xs
      (some r.1, r.2) := by
  have hs : (t.under env).skipped (x :: xs) = [] := by
    unfold Setting.skipped
    rw [List.takeWhile_cons, hx]
    simp
  show (t.under env).head ⟨opts, [] ++ (t.under env).skipped (x :: xs), [],
    (x :: xs).drop ((t.under env).skipped (x :: xs)).length⟩ = _
  rw [hs]
  unfold Setting.head
  simp only [List.length_nil, List.drop_zero, List.append_nil, hd, ite_false, hx, Bool.false_eq_true]
  rfl

theorem next_under_operands (env : Bool) {ns : List CString} (hn : ∀ x ∈ ns, nonoption x = true) (opts : List CString) :
    (t.under env).next ⟨opts, [], [], ns⟩ = (none, ⟨opts, ns, [], []⟩) := by
  show (t.under env).head ⟨opts, [] ++ (t.under env).skipped ns, [], ns.drop ((t.under env).skipped ns).length⟩ = _
  cases env with
  | false =>
    have hs : (t.under false).skipped ns = ns := List.takeWhile_eq_self_iff.mpr hn
    rw [hs, List.drop_length]
    rfl
  | true =>
    have hs : (t.under true).skipped ns = [] := rfl
    rw [hs]
    cases ns with
    | nil => rfl
    | cons x xs =>
      have hx := hn x List.mem_cons_self
      have hd : x ≠ terminator := by
        rintro rfl
        cases hx
      simp only [Setting.head, List.length_nil, List.drop_zero, List.append_nil, hd, ite_false, hx, ite_true]
      rfl

theorem next_under_terminator (env : Bool) (opts ns : List CString) :
    (t.under env).next ⟨opts, [], [], terminator :: ns⟩ = (none, ⟨opts ++ [terminator], ns, [], []⟩) := by
  have hs : (t.under env).skipped (terminator :: ns) = [] := by
    unfold Setting.skipped
    split <;> rfl
  show (t.under env).head ⟨opts, [] ++ (t.under env).skipped (terminator :: ns), [],
    (terminator :: ns).drop ((t.under env).skipped (terminator :: ns)).length⟩ = _
  rw [hs]
  rfl

/-- While a permuting scan goes on it takes options, and under either ordering
the same option is taken at the head of other arguments. -/
theorem next_take (ho : t.ordering = .permute) {a a₁ : Scan} {e : Event} (hp : a.Proper) (h : t.next a = (some e, a₁)) :
    ∃ (b : Scan) (x pending : CString) (xs : List CString), pending ≠ [] ∧ nonoption x = false ∧
      b.options = a.options ∧ t.take b x pending xs = (e, a₁) ∧ (∃ read, a.rest = read ++ x :: xs) ∧
      (a.pending ≠ [] → a.rest = x :: xs) ∧
      ∀ env opts₀ ys, (t.under env).next ⟨opts₀, [], a.pending, x :: ys⟩ =
        (some ((t.under env).take ⟨opts₀, [], a.pending, x :: ys⟩ x pending ys).1,
          ((t.under env).take ⟨opts₀, [], a.pending, x :: ys⟩ x pending ys).2) := by
  have hs := next_steps t hp
  rw [h] at hs
  cases hs with
  | operand _ ho' =>
    rw [ho] at ho'
    cases ho'
  | @option options operands ns x xs hns hx hd pending hpd =>
    subst hpd
    exact ⟨⟨options, operands ++ ns, [], x :: xs⟩, x, _, xs, drop_ne_nil hx hd _, hx, rfl, rfl, ⟨ns, rfl⟩,
      fun h => absurd rfl h, fun env opts₀ ys => next_under env hx hd opts₀ ys⟩
  | @cluster options operands c cs x xs hx =>
    exact ⟨⟨options, operands, c :: cs, x :: xs⟩, x, c :: cs, xs, List.cons_ne_nil c cs, hx, rfl, rfl, ⟨[], rfl⟩,
      fun _ => rfl, fun _ _ _ => rfl⟩

/-- The scan of what a scan has left, options first, finds the same options and
stops where they end. The induction follows the first scan. -/
theorem Scans.again {a a' : Scan} {es : List Event} (h : Scans t a es a') (env : Bool) : t.ordering = .permute →
    t.again = t → a.Proper → (∀ x ∈ a.operands, nonoption x = true) → Settled t a.rest →
    ∃ opts, a'.options = a.options ++ opts ∧ (a.pending ≠ [] → opts.head? = a.rest.head?) ∧ ∀ opts₀, ∃ es',
      outcome es' = outcome es ∧
      Scans (t.under env) ⟨opts₀, [], a.pending, opts ++ a'.operands⟩ es' ⟨opts₀ ++ opts, a'.operands, [], []⟩ := by
  induction h with
  | @done t a a' h =>
    intro ho hg hp hn _
    have hs := next_steps t hp
    rw [h] at hs
    have happ : ∀ ns, t.Passes ns → ∀ x ∈ a.operands ++ ns, nonoption x = true := fun ns hns x hx =>
      (List.mem_append.mp hx).elim (hn x) (hns.nonoption x)
    cases hs with
    | @exhausted options operands ns hns =>
      refine ⟨[], (List.append_nil _).symm, fun h => absurd rfl h, fun opts₀ => ⟨[], rfl, .done ?_⟩⟩
      rw [List.append_nil]
      exact next_under_operands env (happ ns hns) opts₀
    | @ended options operands ns xs hns =>
      exact ⟨[terminator], rfl, fun h => absurd rfl h,
        fun opts₀ => ⟨[], rfl, .done (next_under_terminator env opts₀ _)⟩⟩
    | stopped _ ho' =>
      rw [ho] at ho'
      cases ho'
  | @step t a a₁ a' e es h _ ih =>
    intro ho hg hp hn hs
    have hp₁ := (next_some t hp h).1
    have hr₁ := next_reads t hp
    obtain ⟨ns₁, hn₁, hns₁⟩ := next_operands hp h
    rw [h] at hr₁
    obtain ⟨_, _, read, _, _, hread, _⟩ := hr₁
    rw [hg] at ih
    have hs₁ : Settled t a₁.rest := by
      rw [hread] at hs
      exact hs.suffix
    obtain ⟨opts, ho₁, hh₁, ih⟩ := ih ho hg hp₁
      (fun x hx => by rw [hn₁] at hx; exact (List.mem_append.mp hx).elim (hn x) (hns₁ x)) hs₁
    obtain ⟨b, x, pending, xs, hpd, hx, hb, ht, ⟨read', hr'⟩, hrest, hnext⟩ := next_take ho hp h
    have hsx : Settled t (x :: xs) := by
      rw [hr'] at hs
      exact hs.suffix
    have htp : (t.take b x pending xs).2.pending = a₁.pending := by rw [ht]
    have hto : a₁.options = a.options ++ (x :: xs).take (t.decode x pending xs.head?).used := by
      rw [← hb]
      exact (congrArg (·.2.options) ht).symm
    have hox : (t.take b x pending xs).2.pending ≠ [] → opts.head? = some x := by
      intro hp'
      have hrest₁ := take_rest b x hpd xs hp'
      rw [ht] at hrest₁ hp'
      rw [hh₁ hp', hrest₁]
      rfl
    refine ⟨(x :: xs).take (t.decode x pending xs.head?).used ++ opts, ?_, ?_, fun opts₀ => ?_⟩
    · rw [ho₁, hto, List.append_assoc]
    · intro hp'
      obtain ⟨_, _, _, hh, _⟩ := take_again env b [] hpd (hsx.next hx) hox []
      rw [hh, hrest hp']
      rfl
    · obtain ⟨ys, e', hys, _, hv, ht'⟩ := take_again env b a'.operands hpd (hsx.next hx) hox opts₀
      obtain ⟨es', hes, hsc⟩ := ih (opts₀ ++ (x :: xs).take (t.decode x pending xs.head?).used)
      refine ⟨e' :: es', ?_, ?_⟩
      · rw [ht] at hv
        exact congrArg₂ List.cons hv hes
      · rw [List.append_assoc, hys]
        have hn : (t.under env).next ⟨opts₀, [], a.pending, x :: ys⟩ = (some e', ⟨opts₀ ++ (x :: xs).take
            (t.decode x pending xs.head?).used, [], a₁.pending, opts ++ a'.operands⟩) := by
          rw [hnext env opts₀ ys, ht', htp]
        refine .step hn ?_
        rw [show (t.under env).again = t.under env from congrArg (·.under env) hg, ← List.append_assoc]
        exact hsc

end

/-- Calls one after the other, each with an option string and a table of its
own, and going on behind the end. -/
def getoptCalls : List Call → Getopt → Except Fault (List Int × Getopt)
  | [], s => return ([], s)
  | call :: calls, s => do
    let (v, s) ← getoptInternal call s
    let (vs, s) ← getoptCalls calls s
    return (v :: vs, s)

/-- Between two calls: `args` is all there in some order. Behind the end the
record of the non-options waits for the next call to put it right. -/
structure Between (pre args : List CString) (s : Getopt) : Prop where
  scan : ∃ t a, Represents t pre (clampNonoptions s) a ∧ (a.pending ≠ [] → clampNonoptions s = s) ∧
    (a.options ++ (a.operands ++ a.rest)).Perm args

theorem Scan.Reads.perm {a a' : Scan} (h : a.Reads a') :
    (a'.options ++ (a'.operands ++ a'.rest)).Perm (a.options ++ (a.operands ++ a.rest)) := by
  obtain ⟨opts, ns, read, ho, hn, hr, hs⟩ := h
  rw [ho, hn, hr, List.append_assoc]
  refine List.Perm.append_left _ ?_
  have : (opts ++ (a.operands ++ ns ++ a'.rest)).Perm (a.operands ++ (opts ++ ns ++ a'.rest)) := by
    simp only [List.append_assoc]
    rw [← List.append_assoc, ← List.append_assoc a.operands]
    exact List.perm_append_comm.append_right _
  exact this.trans ((hs.perm.append_right _).append_left _)

section
variable {t : Setting} {pre args : List CString} {s s' : Getopt} {a a' : Scan}

theorem Represents.clamp (R : Represents t pre s a) : clampNonoptions s = s := by
  obtain ⟨_, _, _, hL⟩ := R.layout
  exact clampNonoptions_eq hL

theorem Represents.between (R : Represents t pre s a) (hp : (a.options ++ (a.operands ++ a.rest)).Perm args) :
    Between pre args s :=
  ⟨t, a, by rw [R.clamp]; exact R, fun _ => R.clamp, hp⟩

theorem Ends.between (h : Ends t pre s s' a) (hp : (a.options ++ (a.operands ++ [])).Perm args) :
    Between pre args s' := by
  obtain ⟨ps, qs, ha, hL⟩ := h.layout
  refine ⟨t, ⟨a.options, [], [], a.operands⟩, ⟨⟨h.prog, h.posix, h.ordering, h.initialized, h.errors⟩,
    ⟨ps, qs, ha, hL⟩, h.nextchar, fun h => absurd rfl h, fun _ => rfl⟩, fun h => absurd rfl h, ?_⟩
  rwa [List.append_nil] at hp

theorem Answers.between (args : List CString) {m : Except Fault (Int × Getopt)} (h : Answers t pre s a m)
    (ha : a.Proper) (hp : (a.options ++ (a.operands ++ a.rest)).Perm args) :
    ∃ v s', m = .ok (v, s') ∧ Between pre args s' := by
  have hr := next_reads t ha
  unfold Answers at h
  cases hn : t.next a with
  | mk e a' =>
    rw [hn] at h hr
    cases e with
    | some e =>
      obtain ⟨s', e', _, R⟩ := h
      exact ⟨_, s', e', R.between (hr.perm.trans hp)⟩
    | none =>
      obtain ⟨s', e', he⟩ := h
      have := hr.perm.trans hp
      rw [next_none t ha hn] at this
      exact ⟨_, s', e', he.between this⟩

theorem clampNonoptions_twice (s : Getopt) : clampNonoptions (clampNonoptions s) = clampNonoptions s := by
  unfold clampNonoptions
  simp only [Nat.min_assoc, Nat.min_self]

theorem getoptInternal_clamp (call : Call) (hn : s.nextchar.getD [] = []) (hl : ¬ s.argv.length < 1)
    (hi : ¬ (s.optind = 0 ∨ s.initialized = false)) :
    getoptInternal call (clampNonoptions s) = getoptInternal call s := by
  have hs : ∀ optstring errors, scan call optstring errors { clampNonoptions s with optarg := none } =
      scan call optstring errors { s with optarg := none } := by
    intro optstring errors
    unfold scan advance
    rw [if_pos (show ({ clampNonoptions s with optarg := none } : Getopt).nextchar.getD [] = [] from hn),
      if_pos (show ({ s with optarg := none } : Getopt).nextchar.getD [] = [] from hn)]
    have := clampNonoptions_twice { s with optarg := none }
    rw [show clampNonoptions { clampNonoptions s with optarg := none } =
      clampNonoptions { s with optarg := none } from this]
  have hl' : ¬ (clampNonoptions s).argv.length < 1 := hl
  have hi' : ¬ ((clampNonoptions s).optind = 0 ∨ (clampNonoptions s).initialized = false) := hi
  unfold getoptInternal
  simp only [if_neg hl, if_neg hl', if_neg hi, if_neg hi']
  exact hs _ _

theorem Between.call (h : Between pre args s) {call : Call} (hr : call.Readable) :
    ∃ v s', getoptInternal call s = .ok (v, s') ∧ Between pre args s' := by
  obtain ⟨t, a, R, hc, hp⟩ := h.scan
  let t' : Setting := ⟨call, call.optstring, if call.optstring.head? = some ':' then false else s.opterr,
    s.posixlyCorrect, s.ordering, t.prog⟩
  have R' : Represents t' pre (clampNonoptions s) a :=
    ⟨⟨R.prog, rfl, rfl, R.initialized, rfl⟩, R.layout, R.nextchar, R.proper, fun ho => R.operands fun e =>
      ho (R.ordering.trans e)⟩
  obtain ⟨v, s', e, hb⟩ := (getoptInternal_represents (t := t') ⟨hr.noW, hr.names⟩ rfl R').between _ R.proper hp
  refine ⟨v, s', ?_, hb⟩
  by_cases hn : a.pending = []
  · obtain ⟨hl, hi⟩ := R.started
    exact (getoptInternal_clamp (s := s) call (R.nextchar.trans hn) hl hi).symm.trans e
  · rw [hc hn] at e
    exact e

theorem Between.calls : ∀ (calls : List Call), (∀ call ∈ calls, call.Readable) → ∀ {s : Getopt}, Between pre args s →
    ∃ vs s', getoptCalls calls s = .ok (vs, s') ∧ Between pre args s'
  | [], _, s, h => ⟨[], s, rfl, h⟩
  | call :: calls, hr, s, h => by
    obtain ⟨v, s₁, e, h₁⟩ := h.call (hr call List.mem_cons_self)
    obtain ⟨vs, s', e', h'⟩ := Between.calls calls (fun c hc => hr c (List.mem_cons_of_mem _ hc)) h₁
    refine ⟨v :: vs, s', ?_, h'⟩
    simp only [getoptCalls, e, e', bind, Except.bind]
    rfl

end

/-- **No sequence of calls reads or moves anything outside of the scanned
arguments**: whatever the option strings and tables are, and however often the
end has been reported. -/
theorem getoptCalls_safe (call : Call) (calls : List Call) (hr : ∀ c ∈ call :: calls, c.Readable)
    (pre args : List CString) (s : Getopt) (hf : Fresh pre args s) :
    ∃ vs s' args', getoptCalls (call :: calls) s = .ok (vs, s') ∧ s'.argv = pre ++ args' ∧ args'.Perm args ∧
      pre.length ≤ s'.optind ∧ s'.optind ≤ s'.argv.length := by
  have hp : pre.head? = some (pre.headD []) := by
    obtain ⟨x, xs, rfl⟩ := List.exists_cons_of_ne_nil hf.ne_nil
    rfl
  obtain ⟨v, s₁, e, h₁⟩ := (getoptInternal_first (hr call List.mem_cons_self) hf hp).between args
    (proper_start args) (.refl _)
  obtain ⟨vs, s', e', h'⟩ := Between.calls calls (fun c hc => hr c (List.mem_cons_of_mem _ hc)) h₁
  obtain ⟨t, a, R, _, hperm⟩ := h'.scan
  obtain ⟨ps, qs, ha, hL⟩ := R.layout
  refine ⟨v :: vs, s', ps ++ (a.operands ++ (qs ++ a.rest)), ?_, hL.argv, ?_, ?_, ?_⟩
  · simp only [getoptCalls, e, e', bind, Except.bind]
    rfl
  · rw [ha, List.append_assoc] at hperm
    refine List.Perm.trans (List.Perm.append_left _ ?_) hperm
    rw [← List.append_assoc, ← List.append_assoc]
    exact List.perm_append_comm.append_right _
  · have := hL.optind
    change s'.optind = _ at this
    omega
  · have := length_layout hL
    change s'.argv.length = s'.optind + _ at this
    omega

theorem getoptCalls_safe_sampleCall : ∃ vs s' args',
    getoptCalls [sampleCall, { sampleCall with optstring := "-c".toList }] (sampleGetopt ["x".toList, "-b".toList]) =
      .ok (vs, s') ∧ s'.argv = ["prog".toList] ++ args' ∧ args'.Perm ["x".toList, "-b".toList] ∧ 1 ≤ s'.optind ∧
        s'.optind ≤ s'.argv.length :=
  getoptCalls_safe sampleCall [{ sampleCall with optstring := "-c".toList }] (fun c hc => by
      rcases List.mem_pair.mp hc with rfl | rfl
      · exact regular_sampleCall.toReadable
      · exact ⟨by decide, regular_sampleCall.names⟩)
    ["prog".toList] ["x".toList, "-b".toList] _ (fresh_sampleGetopt _)

end Catapult
