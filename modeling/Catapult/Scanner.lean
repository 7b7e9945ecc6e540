import Mathlib.Data.List.TakeWhile
import Catapult.Getopt

/-!
# What the scan is for

The command line is read once from left to right. Options are taken with their
arguments, operands passed over; `--` makes operands of all that follows it. A
cluster of short options is taken one character at a time, `pending` being what
is left of it at the head of `rest`.
-/

namespace Catapult

open Cursor Stdio Segments

/-! ## Looking up a long option -/

inductive Lookup where
  | unknown
  | ambiguous
  | found (p : LongOption)
  deriving DecidableEq, Repr

/-- An exact match wins; an abbreviation has to stand for one option only, or
for several that do the same. -/
def lookup (clash : LongOption → LongOption → Bool) (name : CString) (table : List LongOption) : Lookup :=
  match table.find? (·.name = name) with
  | some p => .found p
  | none =>
    match table.filter (name.isPrefixOf ·.name) with
    | [] => .unknown
    | p :: ps => if ps.any (clash p) then .ambiguous else .found p

/-! ## One option -/

structure Event where
  value : Int
  optarg : Option CString
  messages : List String
  stores : List (Nat × Int)
  deriving DecidableEq, Repr

/-- `used` elements are finished; `pending` is left of the first when none is. -/
structure Parsed where
  event : Event
  pending : CString
  used : Nat
  deriving DecidableEq, Repr

/-- What stays the same through the calls of one scan. -/
structure Setting where
  call : Call
  optstring : CString
  errors : Bool
  posix : Bool
  ordering : ArgOrdering
  prog : CString

namespace Setting

variable (t : Setting)

def message (lead msg : String) : List String :=
  if t.errors then [lead ++ String.ofList t.prog ++ ": " ++ msg ++ "\n"] else []

def refuse (value : Int) (lead msg : String) : Event := ⟨value, none, t.message lead msg, []⟩

def continuation : String := "\t\t\t\t\t\t\t\t\t\t\t  "

def accept (p : LongOption) (optarg : Option CString) : Event :=
  match p.flag with
  | some flag => ⟨0, optarg, [], [(flag, p.val)]⟩
  | none => ⟨p.val, optarg, [], []⟩

def intro (x : CString) : String := if x[1]? = some '-' then "--" else String.ofList (x.take 1)

/-- `x` names the option `pending`; `none` when only a short one can be meant. -/
def long (table : List LongOption) (x pending : CString) (next : Option CString) : Option Parsed :=
  let name := pending.takeWhile (· ≠ '=')
  let arg := pending.dropWhile (· ≠ '=')
  match lookup (clashes t.call.longOnly) name table with
  | .ambiguous => some ⟨t.refuse (promote '?') "" ("option `" ++ String.ofList x ++ "' is ambiguous"), [], 1⟩
  | .unknown =>
    if !t.call.longOnly || x[1]? = some '-' || (pending.head?.bind (myIndex t.optstring)).isNone then
      some ⟨t.refuse (promote '?') "" ("unrecognized option `" ++ intro x ++ String.ofList pending ++ "'"), [], 1⟩
    else none
  | .found p =>
    if arg ≠ [] then
      if p.hasArg ≠ 0 then some ⟨accept p (some (arg.drop 1)), [], 1⟩
      else some ⟨t.refuse (promote '?') continuation
        ("option `" ++ intro x ++ String.ofList p.name ++ "' doesn't allow an argument"), [], 1⟩
    else if p.hasArg = 1 then
      match next with
      | some y => some ⟨accept p (some y), [], 2⟩
      | none => some ⟨t.refuse (missingArgument t.optstring) ""
        ("option `" ++ String.ofList x ++ "' requires an argument"), [], 1⟩
    else some ⟨accept p none, [], 1⟩

def short (c : Char) (cs : CString) (next : Option CString) : Parsed :=
  let used := if cs = [] then 1 else 0
  match if c = ':' then none else myIndex t.optstring c with
  | none =>
    ⟨t.refuse (promote '?') "" ((if t.posix then "illegal" else "invalid") ++ " option -- " ++ String.ofList [c]),
      cs, used⟩
  | some spec =>
    if spec[1]? = some ':' then
      if cs ≠ [] then ⟨⟨promote c, some cs, [], []⟩, [], 1⟩
      else if spec[2]? = some ':' then ⟨⟨promote c, none, [], []⟩, [], 1⟩
      else match next with
      | some y => ⟨⟨promote c, some y, [], []⟩, [], 2⟩
      | none =>
        ⟨t.refuse (missingArgument t.optstring) "" ("option requires an argument -- " ++ String.ofList [c]), [], 1⟩
    else ⟨⟨promote c, none, [], []⟩, cs, used⟩

def isLong (x : CString) : Bool :=
  t.call.longopts.isSome && (x[1]? = some '-' ||
    (t.call.longOnly && (x[2]?.isSome || (x[1]?.bind (myIndex t.optstring)).isNone)))

def decode (x pending : CString) (next : Option CString) : Parsed :=
  let short := match pending with
    | [] => ⟨⟨-1, none, [], []⟩, [], 1⟩
    | c :: cs => t.short c cs next
  if t.isLong x then (t.long (t.call.longopts.getD []) x pending next).getD short else short

end Setting

/-! ## The scan -/

structure Scan where
  options : List CString
  operands : List CString
  pending : CString
  rest : List CString
  deriving DecidableEq, Repr

def Scan.start (args : List CString) : Scan := ⟨[], [], [], args⟩

namespace Setting

variable (t : Setting)

def take (a : Scan) (x pending : CString) (xs : List CString) : Event × Scan :=
  let d := t.decode x pending xs.head?
  (d.event, ⟨a.options ++ (x :: xs).take d.used, a.operands, d.pending, (x :: xs).drop d.used⟩)

/-- The operands in front of the next option, where options are looked for
behind operands. -/
def skipped (rest : List CString) : List CString := if t.ordering = .permute then rest.takeWhile nonoption else []

/-- The next element, once the operands in front of it are passed over. -/
def head (a : Scan) : Option Event × Scan :=
  match a.rest with
  | [] => (none, a)
  | x :: xs =>
    if x = terminator then (none, ⟨a.options ++ [x], a.operands ++ xs, [], []⟩)
    else if nonoption x then
      if t.ordering = .requireOrder then (none, ⟨a.options, a.operands ++ x :: xs, [], []⟩)
      else (some ⟨1, some x, [], []⟩, ⟨a.options ++ [x], a.operands, [], xs⟩)
    else
      let (e, a) := t.take a x (x.drop (if t.call.longopts.isSome && x[1]? = some '-' then 2 else 1)) xs
      (some e, a)

def next (a : Scan) : Option Event × Scan :=
  match a.pending, a.rest with
  | [], rest =>
    let skipped := t.skipped rest
    t.head ⟨a.options, a.operands ++ skipped, [], rest.drop skipped.length⟩
  | _ :: _, [] => (none, a)
  | c :: cs, x :: xs =>
    let (e, a) := t.take a x (c :: cs) xs
    (some e, a)

end Setting

/-! ## What an option takes -/

inductive Parsed.Fits (d : Parsed) (pending : CString) (next : Option CString) : Prop
  | part (hu : d.used = 0) (hp : d.pending ≠ []) (hl : d.pending.length < pending.length)
  | whole (hu : d.used = 1) (hp : d.pending = [])
  | both (hu : d.used = 2) (hp : d.pending = []) (y : CString) (hn : next = some y) (ha : d.event.optarg = some y)

theorem exists_of_nonoption : ∀ {x : CString}, nonoption x = false → ∃ c cs, x = '-' :: c :: cs := by
  intro x h
  unfold nonoption at h
  split at h
  · next c cs => exact ⟨c, cs, rfl⟩
  · cases h

theorem length_of_nonoption {x : CString} (h : nonoption x = false) : 2 ≤ x.length := by
  obtain ⟨c, cs, rfl⟩ := exists_of_nonoption h
  simp

/-- `nextchar` points at a character: `--` has been dealt with. -/
theorem drop_ne_nil {x : CString} (hx : nonoption x = false) (hd : x ≠ terminator) (longopts : Bool) :
    x.drop (if longopts && x[1]? = some '-' then 2 else 1) ≠ [] := by
  obtain ⟨c, cs, rfl⟩ := exists_of_nonoption hx
  split
  · next h =>
    have hc : c = '-' := by simpa using (Bool.and_eq_true_iff.mp h).2
    rintro (rfl : cs = [])
    exact hd (by rw [hc]; rfl)
  · exact List.cons_ne_nil _ _

theorem Parsed.Fits.used_le {d : Parsed} {pending x : CString} {xs : List CString} (h : d.Fits pending xs.head?) :
    d.used ≤ (x :: xs).length := by
  cases h with
  | part hu => rw [hu]; exact Nat.zero_le _
  | whole hu => rw [hu, List.length_cons]; exact Nat.le_add_left _ _
  | both hu _ y hy =>
    cases xs with
    | nil => cases hy
    | cons y ys => rw [hu, List.length_cons, List.length_cons]; omega

theorem mem_of_myIndex {str : CString} {c : Char} {s : CString} (h : myIndex str c = some s) : c ∈ str := by
  unfold myIndex at h
  split at h
  · cases h
  · next hd =>
    by_contra hc
    refine hd (List.dropWhile_eq_nil_iff.mpr fun d hm => ?_)
    have : d ≠ c := fun e => hc (e ▸ hm)
    simpa using this

theorem isPrefixOf_rfl {name : CString} : name.isPrefixOf name = true :=
    List.isPrefixOf_iff_prefix.mpr (List.prefix_refl _)

theorem mem_filter_of_lookup {clash : LongOption → LongOption → Bool} {name : CString} {table : List LongOption}
    {p : LongOption} (h : lookup clash name table = .found p) : p ∈ table.filter (name.isPrefixOf ·.name) := by
  unfold lookup at h
  cases hf : table.find? (·.name = name) with
  | some q =>
    rw [hf] at h
    cases h
    have hn : p.name = name := by simpa using List.find?_some hf
    refine List.mem_filter.mpr ⟨List.mem_of_find?_eq_some hf, ?_⟩
    rw [hn]
    exact isPrefixOf_rfl
  | none =>
    rw [hf] at h
    dsimp only at h
    cases hq : table.filter (name.isPrefixOf ·.name) with
    | nil =>
      rw [hq] at h
      cases h
    | cons q qs =>
      rw [hq] at h
      dsimp only at h
      split at h <;> cases h
      exact List.mem_cons_self

theorem mem_of_lookup {clash : LongOption → LongOption → Bool} {name : CString} {table : List LongOption}
    {p : LongOption} (h : lookup clash name table = .found p) : p ∈ table :=
  (List.mem_filter.mp (mem_filter_of_lookup h)).1

theorem optarg_accept (p : LongOption) (optarg : Option CString) : (Setting.accept p optarg).optarg = optarg := by
  unfold Setting.accept
  cases p.flag <;> rfl

section
variable (t : Setting)

/-- What an option can come to: it is refused or accepted. -/
inductive Setting.Comes : Event → Prop
  | refused {value : Int} (hv : value = promote '?' ∨ value = missingArgument t.optstring) (lead msg : String) :
    Setting.Comes (t.refuse value lead msg)
  | long {p : LongOption} (hp : p ∈ t.call.longopts.getD []) (optarg : Option CString) :
    Setting.Comes (Setting.accept p optarg)
  | short {c : Char} (hc : c ∈ t.optstring) (optarg : Option CString) : Setting.Comes ⟨promote c, optarg, [], []⟩

theorem short_comes (c : Char) (cs : CString) (next : Option CString) :
    (t.short c cs next).Fits (c :: cs) next ∧ t.Comes (t.short c cs next).event := by
  have hr : ∀ e, (⟨e, cs, if cs = [] then 1 else 0⟩ : Parsed).Fits (c :: cs) next := by
    intro e
    by_cases h : cs = []
    · exact .whole (if_pos h) h
    · exact .part (if_neg h) h (Nat.lt_succ_self _)
  unfold Setting.short
  dsimp only
  split
  · exact ⟨hr _, .refused (.inl rfl) _ _⟩
  · next spec hs =>
    have hc : c ∈ t.optstring := by
      split at hs
      · cases hs
      · exact mem_of_myIndex hs
    split
    · split
      · exact ⟨.whole rfl rfl, .short hc _⟩
      · split
        · exact ⟨.whole rfl rfl, .short hc _⟩
        · cases next with
          | none => exact ⟨.whole rfl rfl, .refused (.inr rfl) _ _⟩
          | some y => exact ⟨.both rfl rfl y rfl rfl, .short hc _⟩
    · exact ⟨hr _, .short hc _⟩

theorem long_comes {x pending : CString} {next : Option CString} {d : Parsed}
    (h : t.long (t.call.longopts.getD []) x pending next = some d) : d.Fits pending next ∧ t.Comes d.event := by
  unfold Setting.long at h
  dsimp only at h
  split at h
  · cases h
    exact ⟨.whole rfl rfl, .refused (.inl rfl) _ _⟩
  · split at h <;> cases h
    exact ⟨.whole rfl rfl, .refused (.inl rfl) _ _⟩
  · next p hp =>
    have hm := mem_of_lookup hp
    split at h
    · split at h <;> cases h
      · exact ⟨.whole rfl rfl, .long hm _⟩
      · exact ⟨.whole rfl rfl, .refused (.inl rfl) _ _⟩
    · split at h
      · cases next with
        | none => cases h; exact ⟨.whole rfl rfl, .refused (.inr rfl) _ _⟩
        | some y => cases h; exact ⟨.both rfl rfl y rfl (optarg_accept p _), .long hm _⟩
      · cases h
        exact ⟨.whole rfl rfl, .long hm _⟩

theorem decode_comes (x : CString) {pending : CString} (hp : pending ≠ []) (next : Option CString) :
    (t.decode x pending next).Fits pending next ∧ t.Comes (t.decode x pending next).event := by
  obtain ⟨c, cs, rfl⟩ := List.exists_cons_of_ne_nil hp
  have hs := short_comes t c cs next
  unfold Setting.decode
  dsimp only
  split
  · cases hl : t.long (t.call.longopts.getD []) x (c :: cs) next with
    | none => exact hs
    | some d => exact long_comes t hl
  · exact hs

theorem decode_fits (x : CString) {pending : CString} (hp : pending ≠ []) (next : Option CString) :
    (t.decode x pending next).Fits pending next :=
  (decode_comes t x hp next).1

end

/-! ## Whole scans -/

/-- A sign in front of the option string selects the ordering. -/
def Call.ordering (call : Call) : ArgOrdering :=
  if call.optstring.head? = some '-' then .returnInOrder
  else if call.optstring.head? = some '+' ∨ call.env then .requireOrder
  else .permute

def Call.unsigned (call : Call) : CString :=
  if call.optstring.head? = some '-' ∨ call.optstring.head? = some '+' then call.optstring.tail else call.optstring

def Call.setting (call : Call) (opterr : Bool) (prog : CString) : Setting where
  call := call
  optstring := call.unsigned
  errors := if call.optstring.head? = some ':' then false else opterr
  posix := call.env
  ordering := call.ordering
  prog := prog

/-- The setting of the later calls: the sign has come back. -/
def Setting.again (t : Setting) : Setting := { t with optstring := t.call.optstring }

inductive Scans : Setting → Scan → List Event → Scan → Prop
  | done {t : Setting} {a a' : Scan} (h : t.next a = (none, a')) : Scans t a [] a'
  | step {t : Setting} {a a₁ a' : Scan} {e : Event} {es : List Event} (h : t.next a = (some e, a₁))
    (hs : Scans t.again a₁ es a') : Scans t a (e :: es) a'

/-! ## Nothing is lost -/

/-- `a'` has read on from `a`, each argument read being an option or an operand. -/
structure Scan.Reads (a a' : Scan) : Prop where
  split : ∃ opts ns read, a'.options = a.options ++ opts ∧ a'.operands = a.operands ++ ns ∧ a.rest = read ++ a'.rest ∧
    Shuffle opts ns read

theorem Scan.Reads.of {a a' : Scan} (opts ns read : List CString) (ho : a'.options = a.options ++ opts)
    (hn : a'.operands = a.operands ++ ns) (hr : a.rest = read ++ a'.rest) (h : Shuffle opts ns read) : a.Reads a' :=
  ⟨opts, ns, read, ho, hn, hr, h⟩

theorem Scan.Reads.trans {a b c : Scan} (h : a.Reads b) (h' : b.Reads c) : a.Reads c := by
  obtain ⟨o, n, r, ho, hn, hr, hs⟩ := h
  obtain ⟨o', n', r', ho', hn', hr', hs'⟩ := h'
  refine .of (o ++ o') (n ++ n') (r ++ r') ?_ ?_ ?_ (hs.append hs')
  · rw [ho', ho, List.append_assoc]
  · rw [hn', hn, List.append_assoc]
  · rw [hr, hr', List.append_assoc]

/-- What is left of a cluster belongs to the element in turn. -/
def Scan.Proper (a : Scan) : Prop := a.pending ≠ [] → ∃ x xs, a.rest = x :: xs ∧ nonoption x = false

theorem proper_start (args : List CString) : (Scan.start args).Proper := fun h => absurd rfl h

def Scan.left (a : Scan) : Nat :=
  match a.pending with
  | [] => (a.rest.map fun x => x.length + 1).sum
  | cs => cs.length + (a.rest.tail.map fun x => x.length + 1).sum

section
variable (t : Setting)

theorem take_reads (a : Scan) (x pending : CString) (xs : List CString) (ha : a.rest = x :: xs) :
    a.Reads (t.take a x pending xs).2 :=
  .of _ [] _ rfl (List.append_nil _).symm (ha.trans (List.take_append_drop _ _).symm) (.all_left _)

theorem take_proper (a : Scan) {x : CString} (hx : nonoption x = false) {pending : CString} (hp : pending ≠ [])
    (xs : List CString) : (t.take a x pending xs).2.Proper := by
  intro h
  cases decode_fits t x hp xs.head? with
  | part hu => exact ⟨x, xs, by simp [Setting.take, hu], hx⟩
  | whole _ hp' => exact absurd hp' h
  | both _ hp' => exact absurd hp' h

theorem take_left (a : Scan) (x : CString) {pending : CString} (hp : pending ≠ []) (xs : List CString) :
    (t.take a x pending xs).2.left < pending.length + (xs.map fun x => x.length + 1).sum := by
  have hl := List.length_pos_of_ne_nil hp
  cases decode_fits t x hp xs.head? with
  | part hu hp' hl' =>
    obtain ⟨c, cs, e⟩ := List.exists_cons_of_ne_nil hp'
    simp only [Setting.take, Scan.left, hu, e, List.drop_zero, List.tail_cons] at hl' ⊢
    omega
  | whole hu hp' =>
    simp only [Setting.take, Scan.left, hu, hp', List.drop_one, List.tail_cons]
    omega
  | both hu hp' y hy =>
    cases xs with
    | nil => cases hy
    | cons y ys =>
      simp only [Setting.take, Scan.left, hu, hp', List.drop_succ_cons, List.drop_zero, List.map_cons, List.sum_cons]
      omega

theorem drop_operands (rest : List CString) :
    rest.drop (rest.takeWhile nonoption).length = rest.dropWhile nonoption := by
  have hd : (rest.takeWhile nonoption ++ rest.dropWhile nonoption).drop (rest.takeWhile nonoption).length =
      rest.dropWhile nonoption := List.drop_left
  rwa [List.takeWhile_append_dropWhile] at hd

theorem skipped_append (rest : List CString) : t.skipped rest ++ rest.drop (t.skipped rest).length = rest := by
  unfold Setting.skipped
  split
  · rw [drop_operands, List.takeWhile_append_dropWhile]
  · rfl

/-! ## What a step can be -/

/-- Operands that options are looked for behind. -/
structure Setting.Passes (ns : List CString) : Prop where
  nonoption : ∀ x ∈ ns, nonoption x = true
  ordering : t.ordering ≠ .permute → ns = []

/-- The operands passed over are `ns`; the scan ends with them, at `--` or at the
first operand, or else an element is taken. -/
inductive Setting.Steps : Scan → Option Event × Scan → Prop
  | exhausted {options operands ns : List CString} (hn : t.Passes ns) :
    Setting.Steps ⟨options, operands, [], ns⟩ (none, ⟨options, operands ++ ns, [], []⟩)
  | ended {options operands ns xs : List CString} (hn : t.Passes ns) :
    Setting.Steps ⟨options, operands, [], ns ++ terminator :: xs⟩
      (none, ⟨options ++ [terminator], operands ++ ns ++ xs, [], []⟩)
  | stopped {options operands : List CString} {x : CString} {xs : List CString} (hx : nonoption x = true)
    (ho : t.ordering = .requireOrder) :
    Setting.Steps ⟨options, operands, [], x :: xs⟩ (none, ⟨options, operands ++ x :: xs, [], []⟩)
  | operand {options operands : List CString} {x : CString} {xs : List CString} (hx : nonoption x = true)
    (ho : t.ordering = .returnInOrder) :
    Setting.Steps ⟨options, operands, [], x :: xs⟩ (some ⟨1, some x, [], []⟩, ⟨options ++ [x], operands, [], xs⟩)
  | option {options operands ns : List CString} {x : CString} {xs : List CString} (hn : t.Passes ns)
    (hx : nonoption x = false) (hd : x ≠ terminator) {pending : CString}
    (hp : pending = x.drop (if t.call.longopts.isSome && x[1]? = some '-' then 2 else 1)) :
    Setting.Steps ⟨options, operands, [], ns ++ x :: xs⟩
      (some (t.take ⟨options, operands ++ ns, [], x :: xs⟩ x pending xs).1,
        (t.take ⟨options, operands ++ ns, [], x :: xs⟩ x pending xs).2)
  | cluster {options operands : List CString} {c : Char} {cs x : CString} {xs : List CString}
    (hx : nonoption x = false) :
    Setting.Steps ⟨options, operands, c :: cs, x :: xs⟩
      (some (t.take ⟨options, operands, c :: cs, x :: xs⟩ x (c :: cs) xs).1,
        (t.take ⟨options, operands, c :: cs, x :: xs⟩ x (c :: cs) xs).2)

theorem passes_skipped (rest : List CString) : t.Passes (t.skipped rest) where
  nonoption x hx := by
    unfold Setting.skipped at hx
    split at hx
    · exact List.mem_takeWhile_imp hx
    · cases hx
  ordering ho := if_neg ho

theorem nonoption_of_drop {rest xs : List CString} {x : CString} (ho : t.ordering = .permute)
    (h : rest.drop (t.skipped rest).length = x :: xs) : nonoption x = false := by
  unfold Setting.skipped at h
  rw [if_pos ho, drop_operands] at h
  have := List.head?_dropWhile_not nonoption rest
  rw [h] at this
  simpa using this

theorem next_steps {a : Scan} (ha : a.Proper) : t.Steps a (t.next a) := by
  obtain ⟨options, operands, pending, rest⟩ := a
  cases pending with
  | nil =>
    show t.Steps _ (t.head ⟨options, operands ++ t.skipped rest, [], rest.drop (t.skipped rest).length⟩)
    have hs := passes_skipped t rest
    have hr := skipped_append t rest
    have hx : ∀ x xs, rest.drop (t.skipped rest).length = x :: xs → t.ordering = .permute → nonoption x = false :=
      fun x xs h ho => nonoption_of_drop t ho h
    generalize t.skipped rest = ns at hs hr hx
    generalize rest.drop ns.length = rest' at hr hx
    subst hr
    unfold Setting.head
    cases rest' with
    | nil =>
      rw [List.append_nil]
      exact .exhausted hs
    | cons x xs =>
      dsimp only
      by_cases hd : x = terminator
      · rw [if_pos hd, hd]
        exact .ended hs
      · rw [if_neg hd]
        cases hn : nonoption x with
        | false =>
          rw [if_neg Bool.false_ne_true]
          exact .option hs hn hd rfl
        | true =>
          have ho : t.ordering ≠ .permute := fun ho => by
            rw [hx x xs rfl ho] at hn
            cases hn
          rw [if_pos rfl, hs.ordering ho, List.append_nil]
          by_cases hq : t.ordering = .requireOrder
          · rw [if_pos hq]
            exact .stopped hn hq
          · rw [if_neg hq]
            refine .operand hn ?_
            cases e : t.ordering with
            | requireOrder => exact absurd e hq
            | permute => exact absurd e ho
            | returnInOrder => rfl
  | cons c cs =>
    obtain ⟨x, xs, rfl, hx⟩ : ∃ x xs, rest = x :: xs ∧ nonoption x = false := ha (List.cons_ne_nil c cs)
    exact .cluster hx

theorem next_reads {a : Scan} (ha : a.Proper) : a.Reads (t.next a).2 := by
  have h := next_steps t ha
  generalize t.next a = r at h
  cases h with
  | exhausted hn => exact .of [] _ _ (List.append_nil _).symm rfl (List.append_nil _).symm (.all_right _)
  | @ended options operands ns xs hn =>
    refine .of [terminator] (ns ++ xs) (ns ++ terminator :: xs) rfl (List.append_assoc _ _ _)
      (List.append_nil _).symm ?_
    exact (Shuffle.all_right ns).append ((Shuffle.all_left [terminator]).append (.all_right xs))
  | stopped => exact .of [] _ _ (List.append_nil _).symm rfl (List.append_nil _).symm (.all_right _)
  | @operand _ _ x => exact .of [x] [] [x] rfl (List.append_nil _).symm rfl (.all_left _)
  | @option options operands ns x xs hn =>
    have hs : Scan.Reads ⟨options, operands, [], ns ++ x :: xs⟩ ⟨options, operands ++ ns, [], x :: xs⟩ :=
      .of [] ns ns (List.append_nil _).symm rfl rfl (.all_right _)
    exact hs.trans (take_reads t _ x _ xs rfl)
  | @cluster _ _ c cs x xs => exact take_reads t _ x (c :: cs) xs rfl

theorem next_some {a a' : Scan} {e : Event} (hp : a.Proper) (h : t.next a = (some e, a')) :
    a'.Proper ∧ a'.left < a.left := by
  have hs := next_steps t hp
  rw [h] at hs
  cases hs with
  | operand => exact ⟨fun h => absurd rfl h, by simp [Scan.left]⟩
  | @option options operands ns x xs hn hx hd _ hpd =>
    have hne := drop_ne_nil hx hd t.call.longopts.isSome
    rw [← hpd] at hne
    refine ⟨take_proper t _ hx hne xs, Nat.lt_of_lt_of_le (take_left t _ x hne xs) ?_⟩
    show _ ≤ ((ns ++ x :: xs).map fun x => x.length + 1).sum
    rw [List.map_append, List.sum_append, List.map_cons, List.sum_cons, hpd, List.length_drop]
    omega
  | @cluster _ _ c cs x xs hx =>
    exact ⟨take_proper t _ hx (List.cons_ne_nil _ _) xs, take_left t _ x (List.cons_ne_nil _ _) xs⟩

theorem next_none {a a' : Scan} (hp : a.Proper) (h : t.next a = (none, a')) : a'.rest = [] := by
  have hs := next_steps t hp
  rw [h] at hs
  cases hs with
  | exhausted => rfl
  | ended => rfl
  | stopped => rfl

end

/-! ## No option looks like the end -/

structure Setting.Distinct (t : Setting) : Prop where
  vals : ∀ p ∈ t.call.longopts.getD [], p.flag = none → p.val ≠ -1
  chars : ∀ c ∈ t.optstring, promote c ≠ -1

section
variable {t : Setting}

theorem Setting.Comes.value {e : Event} (h : t.Comes e) (ht : t.Distinct) : e.value ≠ -1 := by
  cases h with
  | refused hv =>
    rcases hv with rfl | rfl
    · show promote '?' ≠ -1
      decide
    · show missingArgument t.optstring ≠ -1
      unfold missingArgument
      split <;> decide
  | @long p hp optarg =>
    unfold Setting.accept
    cases hf : p.flag with
    | none => exact ht.vals p hp hf
    | some flag => exact Int.noConfusion
  | short hc => exact ht.chars _ hc

theorem next_value (ht : t.Distinct) {a a' : Scan} {e : Event} (hp : a.Proper)
    (h : t.next a = (some e, a')) : e.value ≠ -1 := by
  have hs := next_steps t hp
  rw [h] at hs
  cases hs with
  | operand => exact Int.noConfusion
  | @option _ _ _ x xs _ hx hd _ hpd =>
    have hne := drop_ne_nil hx hd t.call.longopts.isSome
    rw [← hpd] at hne
    exact (decode_comes t x hne xs.head?).2.value ht
  | @cluster _ _ c cs x xs => exact (decode_comes t x (List.cons_ne_nil c cs) xs.head?).2.value ht

end

theorem scans_exists : ∀ (n : Nat) (t : Setting) (a : Scan), a.Proper → a.left ≤ n →
    ∃ es a', Scans t a es a' ∧ es.length ≤ n
  | n, t, a, hp, hl => by
    cases h : t.next a with
    | mk e a₁ =>
      cases e with
      | none => exact ⟨[], a₁, .done h, Nat.zero_le _⟩
      | some e =>
        obtain ⟨hp', hl'⟩ := next_some t hp h
        cases n with
        | zero => omega
        | succ n =>
          obtain ⟨es, a', hs, hn⟩ := scans_exists n t.again a₁ hp' (by omega)
          exact ⟨e :: es, a', .step h hs, Nat.succ_le_succ hn⟩

theorem Scans.unique {t : Setting} {a a₁ a₂ : Scan} {es es₂ : List Event} (h : Scans t a es a₁) :
    Scans t a es₂ a₂ → es₂ = es ∧ a₂ = a₁ := by
  induction h generalizing es₂ with
  | done h =>
    intro h₂
    cases h₂ with
    | done h' =>
      rw [h] at h'
      cases h'
      exact ⟨rfl, rfl⟩
    | step h' _ =>
      rw [h] at h'
      cases h'
  | step h _ ih =>
    intro h₂
    cases h₂ with
    | done h' =>
      rw [h] at h'
      cases h'
    | step h' hs =>
      rw [h] at h'
      cases h'
      obtain ⟨rfl, rfl⟩ := ih hs
      exact ⟨rfl, rfl⟩

theorem Scans.reads {t : Setting} {a a' : Scan} {es : List Event} (h : Scans t a es a') :
    a.Proper → a.Reads a' ∧ a'.rest = [] := by
  induction h with
  | @done t a a' h =>
    intro hp
    have := next_reads t hp
    rw [h] at this
    exact ⟨this, next_none t hp h⟩
  | @step t a a₁ a' e es h _ ih =>
    intro hp
    have := next_reads t hp
    rw [h] at this
    obtain ⟨hr, hn⟩ := ih (next_some t hp h).1
    exact ⟨this.trans hr, hn⟩

theorem Scans.shuffle {t : Setting} {args : List CString} {es : List Event} {a : Scan}
    (h : Scans t (Scan.start args) es a) : Shuffle a.options a.operands args := by
  obtain ⟨⟨opts, ns, read, ho, hn, hr, hs⟩, he⟩ := h.reads (proper_start args)
  rw [he, List.append_nil] at hr
  rw [ho, hn, show args = read from hr]
  exact hs

end Catapult
