import Catapult.Permute
import Catapult.Main

/-!
# What the command line does
-/

namespace Catapult

open BigEndian Cursor Stdio Printf Segments

/-! ## The options of `CAT` -/

abbrev Reply := Except String AppState

section
variable (posix : Bool) (prog : CString)

def refusal (lead msg : String) : Reply := .error (lead ++ String.ofList prog ++ ": " ++ msg ++ "\n")

def shortOptions : CString → AppState → Reply
  | [], state => .ok state
  | c :: cs, state =>
    if c = 't' then shortOptions cs { state with showTracks := true }
    else if c = 'a' then shortOptions cs { state with showAlphabetTable := true }
    else refusal prog "" ((if posix then "illegal" else "invalid") ++ " option -- " ++ String.ofList [c])

/-- `--name`: a part of the name will do, an argument is not taken. -/
def longFlag (opt : CString) (state : AppState) : Reply :=
  let name := opt.takeWhile (· ≠ '=')
  let accept := fun (full : String) (state : AppState) =>
    if '=' ∈ opt then refusal prog Setting.continuation ("option `" ++ "--" ++ full ++ "' doesn't allow an argument")
    else .ok state
  if name = [] then refusal prog "" ("option `" ++ String.ofList (terminator ++ opt) ++ "' is ambiguous")
  else if name.isPrefixOf "tracks".toList then accept "tracks" { state with showTracks := true }
  else if name.isPrefixOf "alphabet-table".toList then
    accept "alphabet-table" { state with showAlphabetTable := true }
  else refusal prog "" ("unrecognized option `" ++ "--" ++ String.ofList opt ++ "'")

/-- The arguments behind the file, read once from left to right. -/
def catArgs : List CString → AppState → Reply
  | [], state => .ok state
  | x :: xs, state =>
    if x = terminator then .ok state
    else match x with
    | '-' :: '-' :: opt => longFlag prog opt state >>= catArgs xs
    | '-' :: c :: cs => shortOptions posix prog (c :: cs) state >>= catArgs xs
    | _ => if posix then .ok state else catArgs xs state

end

/-! ## Refinement -/

def catCall (env : Bool) : Call := ⟨['t', 'a'], some longOptions, false, false, env⟩

abbrev catSetting (env : Bool) (prog : CString) : Setting := (catCall env).setting true prog

theorem catCall_regular (env : Bool) : (catCall env).Regular where
  noW := by
    show (myIndex ['t', 'a'] 'W').bind (·[1]?) ≠ some ';'
    decide
  names := by
    have h : ∀ p ∈ longOptions, p.name.length ≤ 14 := by decide
    exact fun p hp => Nat.lt_of_le_of_lt (h p hp) (by norm_num)
  vals := by
    show ∀ p ∈ longOptions, p.flag = none → p.val ≠ -1
    decide
  chars := by
    show ∀ c ∈ ['t', 'a'], promote c ≠ -1
    simp [promote]

section
variable {env : Bool} {prog : CString}

theorem catSetting_ordering : (catSetting env prog).ordering = if env then .requireOrder else .permute := by
  cases env <;> rfl

/-- Without a name that both begin with, the first prefix decides. -/
theorem lookup_pair {clash : LongOption → LongOption → Bool} {name : CString} {p q : LongOption}
    (h : ¬ (name.isPrefixOf p.name ∧ name.isPrefixOf q.name)) : lookup clash name [p, q] =
      if name.isPrefixOf p.name then .found p else if name.isPrefixOf q.name then .found q else .unknown := by
  have he : ∀ r : LongOption, r.name = name → name.isPrefixOf r.name = true := by
    intro r hr
    rw [hr]
    exact isPrefixOf_rfl
  unfold lookup
  cases hp : name.isPrefixOf p.name with
  | true =>
    have hq : name.isPrefixOf q.name = false := Bool.eq_false_iff.mpr fun hq => h ⟨hp, hq⟩
    by_cases hn : p.name = name
    · simp [hn]
    · have hq' : ¬ q.name = name := fun e => by rw [he q e] at hq; cases hq
      simp [hn, hq', hp, hq]
  | false =>
    have hn : ¬ p.name = name := fun e => by rw [he p e] at hp; cases hp
    cases hq : name.isPrefixOf q.name with
    | true =>
      by_cases hn' : q.name = name
      · simp [hn, hn']
      · simp [hn, hn', hp, hq]
    | false =>
      have hn' : ¬ q.name = name := fun e => by rw [he q e] at hq; cases hq
      simp [hn, hn', hp, hq]

theorem lookup_longOptions (name : CString) : lookup (clashes false) name longOptions =
    if name = [] then .ambiguous
    else if name.isPrefixOf "tracks".toList then .found ⟨"tracks".toList, 0, none, promote 't'⟩
    else if name.isPrefixOf "alphabet-table".toList then .found ⟨"alphabet-table".toList, 0, none, promote 'a'⟩
    else .unknown := by
  cases name with
  | nil => decide
  | cons c cs =>
    rw [if_neg (List.cons_ne_nil _ _)]
    refine lookup_pair ?_
    rintro ⟨ht, ha⟩
    have ht : c = 't' := by
      have : (c == 't') = true := (Bool.and_eq_true_iff.mp ht).1
      exact eq_of_beq this
    have ha : c = 'a' := by
      have : (c == 'a') = true := (Bool.and_eq_true_iff.mp ha).1
      exact eq_of_beq this
    rw [ht] at ha
    exact absurd ha (by decide)

theorem short_cat (c : Char) (cs : CString) (next : Option CString) : (catSetting env prog).short c cs next =
    if c = 't' then ⟨⟨promote 't', none, [], []⟩, cs, if cs = [] then 1 else 0⟩
    else if c = 'a' then ⟨⟨promote 'a', none, [], []⟩, cs, if cs = [] then 1 else 0⟩
    else ⟨(catSetting env prog).refuse (promote '?') ""
      ((if env then "illegal" else "invalid") ++ " option -- " ++ String.ofList [c]),
      cs, if cs = [] then 1 else 0⟩ := by
  by_cases ht : c = 't'
  · subst ht
    rfl
  · by_cases ha : c = 'a'
    · subst ha
      rfl
    · have hm : myIndex ['t', 'a'] c = none := by
        simp [myIndex, Ne.symm ht, Ne.symm ha]
      have hs : (if c = ':' then none else myIndex (catSetting env prog).optstring c) = none := by
        split
        · rfl
        · exact hm
      rw [if_neg ht, if_neg ha]
      unfold Setting.short
      rw [hs]
      rfl

/-- The event is what the reply says, with at most one message. -/
def Replies (e : Event) (state : AppState) : Reply → Prop
  | .ok state' => e.messages = [] ∧ (e.value = promote 't' ∧ state' = { state with showTracks := true } ∨
      e.value = promote 'a' ∧ state' = { state with showAlphabetTable := true })
  | .error m => e.messages = [m] ∧ e.value = promote '?'

theorem replies_refusal (state : AppState) (lead msg : String) :
    Replies ((catSetting env prog).refuse (promote '?') lead msg) state (refusal prog lead msg) := ⟨rfl, rfl⟩

variable (env prog) in
theorem short_replies (c : Char) (cs : CString) (next : Option CString) (state : AppState) :
    Replies ((catSetting env prog).short c cs next).event state (shortOptions env prog [c] state) ∧
      ((catSetting env prog).short c cs next).pending = cs ∧
      ((catSetting env prog).short c cs next).used = if cs = [] then 1 else 0 := by
  rw [short_cat]
  unfold shortOptions
  split
  · exact ⟨⟨rfl, .inl ⟨rfl, rfl⟩⟩, rfl, rfl⟩
  · split
    · exact ⟨⟨rfl, .inr ⟨rfl, rfl⟩⟩, rfl, rfl⟩
    · exact ⟨replies_refusal state _ _, rfl, rfl⟩

theorem shortOptions_cons (c : Char) (cs : CString) (state : AppState) :
    shortOptions env prog (c :: cs) state = shortOptions env prog [c] state >>= shortOptions env prog cs := by
  simp only [shortOptions]
  split
  · rfl
  · split
    · rfl
    · rfl

theorem dropWhile_eq_nil (opt : CString) : opt.dropWhile (· ≠ '=') = [] ↔ '=' ∉ opt := by
  rw [List.dropWhile_eq_nil_iff]
  constructor
  · intro h hm
    have := h '=' hm
    simp at this
  · intro h c hc
    have : c ≠ '=' := fun e => h (e ▸ hc)
    simpa using this

theorem long_flag (opt : CString) (next : Option CString) {p : LongOption}
    (hl : lookup (clashes false) (opt.takeWhile (· ≠ '=')) longOptions = .found p) (h₀ : p.hasArg = 0)
    (hf : p.flag = none) : (catSetting env prog).long longOptions (terminator ++ opt) opt next =
      some ⟨if '=' ∈ opt then (catSetting env prog).refuse (promote '?') Setting.continuation
        ("option `" ++ "--" ++ String.ofList p.name ++ "' doesn't allow an argument")
        else ⟨p.val, none, [], []⟩, [], 1⟩ := by
  have ha := dropWhile_eq_nil opt
  unfold Setting.long
  dsimp only
  rw [show (catSetting env prog).call.longOnly = false from rfl, hl]
  by_cases hm : '=' ∈ opt
  · have hn : opt.dropWhile (· ≠ '=') ≠ [] := fun e => ha.mp e hm
    simp only [hn, ne_eq, not_false_eq_true, ite_true, h₀, not_true_eq_false, ite_false, hm]
    rfl
  · have hz : ¬ (0 : Int) = 1 := by decide
    simp only [ha.mpr hm, ne_eq, not_true_eq_false, ite_false, h₀, hz, hm, Setting.accept, hf]

variable (env prog) in
theorem long_replies (opt : CString) (next : Option CString) (state : AppState) : ∃ d,
    (catSetting env prog).long longOptions (terminator ++ opt) opt next = some d ∧ d.pending = [] ∧ d.used = 1 ∧
      Replies d.event state (longFlag prog opt state) := by
  have hl := lookup_longOptions (opt.takeWhile (· ≠ '='))
  unfold longFlag
  dsimp only
  by_cases h₀ : opt.takeWhile (· ≠ '=') = []
  · rw [if_pos h₀] at hl
    rw [if_pos h₀]
    refine ⟨⟨(catSetting env prog).refuse (promote '?') _ _, [], 1⟩, ?_, rfl, rfl, replies_refusal state _ _⟩
    unfold Setting.long
    dsimp only
    rw [show (catSetting env prog).call.longOnly = false from rfl, hl]
  · rw [if_neg h₀] at hl
    rw [if_neg h₀]
    split
    · next ht =>
      rw [if_pos ht] at hl
      refine ⟨_, long_flag opt next hl rfl rfl, rfl, rfl, ?_⟩
      split
      · exact replies_refusal state _ _
      · exact ⟨rfl, .inl ⟨rfl, rfl⟩⟩
    · next ht =>
      rw [if_neg ht] at hl
      split
      · next ha =>
        rw [if_pos ha] at hl
        refine ⟨_, long_flag opt next hl rfl rfl, rfl, rfl, ?_⟩
        split
        · exact replies_refusal state _ _
        · exact ⟨rfl, .inr ⟨rfl, rfl⟩⟩
      · next ha =>
        rw [if_neg ha] at hl
        refine ⟨⟨(catSetting env prog).refuse (promote '?') _ _, [], 1⟩, ?_, rfl, rfl, replies_refusal state _ _⟩
        unfold Setting.long
        dsimp only
        rw [show (catSetting env prog).call.longOnly = false from rfl, hl]
        rfl

def catFrom (posix : Bool) (prog : CString) (a : Scan) (state : AppState) : Reply :=
  match a.pending, a.rest with
  | [], rest => catArgs posix prog rest state
  | c :: cs, _ :: xs => shortOptions posix prog (c :: cs) state >>= catArgs posix prog xs
  | _ :: _, [] => .ok state

/-- A cluster that is not finished is no long option. -/
def Scan.Clustered (a : Scan) : Prop := a.pending ≠ [] → ∃ c cs xs, a.rest = ('-' :: c :: cs) :: xs ∧ c ≠ '-'

section
variable (posix : Bool) (prog : CString) (xs : List CString) (state : AppState)

theorem catArgs_operand {x : CString} (hx : nonoption x = true) :
    catArgs posix prog (x :: xs) state = if posix then .ok state else catArgs posix prog xs state := by
  have ht : x ≠ terminator := by
    rintro rfl
    cases hx
  rw [catArgs, if_neg ht]
  · rintro opt rfl
    cases hx
  · rintro c cs rfl
    cases hx

theorem catArgs_long {opt : CString} (hn : opt ≠ []) :
    catArgs posix prog ((terminator ++ opt) :: xs) state = longFlag prog opt state >>= catArgs posix prog xs := by
  have ht : terminator ++ opt ≠ terminator := fun e => hn (List.append_right_eq_self.mp e)
  show (if terminator ++ opt = terminator then Except.ok state
    else longFlag prog opt state >>= catArgs posix prog xs) = _
  exact if_neg ht

theorem catArgs_short {c : Char} (cs : CString) (hc : c ≠ '-') : catArgs posix prog (('-' :: c :: cs) :: xs) state =
    shortOptions posix prog (c :: cs) state >>= catArgs posix prog xs := by
  have ht : '-' :: c :: cs ≠ terminator := fun e => hc (by injection (List.cons.inj e).2)
  rw [catArgs, if_neg ht]
  exact hc

end

theorem take_short {c : Char} {opt : CString} (hc : c ≠ '-') (a : Scan) (d : Char) (ds : CString) (xs : List CString)
    (state : AppState) : ∃ r, Replies ((catSetting env prog).take a ('-' :: c :: opt) (d :: ds) xs).1 state r ∧
      (shortOptions env prog (d :: ds) state >>= catArgs env prog xs) =
        (r >>= catFrom env prog ((catSetting env prog).take a ('-' :: c :: opt) (d :: ds) xs).2) ∧
      ((catSetting env prog).take a ('-' :: c :: opt) (d :: ds) xs).2.Clustered := by
  obtain ⟨hr, hp, hu⟩ := short_replies env prog d ds xs.head? state
  have hd : (catSetting env prog).decode ('-' :: c :: opt) (d :: ds) xs.head? =
      (catSetting env prog).short d ds xs.head? := by
    have hl : (catSetting env prog).isLong ('-' :: c :: opt) = false := by
      show (decide (some c = some '-') || _) = false
      simp only [Option.some.injEq, hc, decide_false, Bool.false_or]
      rfl
    unfold Setting.decode
    rw [hl]
    rfl
  refine ⟨shortOptions env prog [d] state, ?_, ?_, ?_⟩
  · simp only [Setting.take, hd]
    exact hr
  · rw [shortOptions_cons]
    simp only [Setting.take, hd, hp, hu]
    cases shortOptions env prog [d] state with
    | error m => rfl
    | ok state =>
      cases ds with
      | nil => rfl
      | cons d' ds => rfl
  · simp only [Setting.take, hd, hp, hu]
    intro h
    have h : ds ≠ [] := h
    exact ⟨c, opt, xs, by simp [h], hc⟩

theorem take_long (opt : CString) (a : Scan) (xs : List CString) (state : AppState) :
    ∃ r, Replies ((catSetting env prog).take a (terminator ++ opt) opt xs).1 state r ∧
      (longFlag prog opt state >>= catArgs env prog xs) =
        (r >>= catFrom env prog ((catSetting env prog).take a (terminator ++ opt) opt xs).2) ∧
      ((catSetting env prog).take a (terminator ++ opt) opt xs).2.Clustered := by
  obtain ⟨d, hd, hp, hu, hr⟩ := long_replies env prog opt xs.head? state
  have he : (catSetting env prog).decode (terminator ++ opt) opt xs.head? = d := by
    unfold Setting.decode
    rw [show (catSetting env prog).isLong (terminator ++ opt) = true from rfl]
    show ((catSetting env prog).long longOptions (terminator ++ opt) opt xs.head?).getD _ = d
    rw [hd]
    rfl
  refine ⟨longFlag prog opt state, ?_, ?_, ?_⟩
  · simp only [Setting.take, he]
    exact hr
  · simp only [Setting.take, he, hp, hu]
    rfl
  · simp only [Setting.take, he, hp, hu]
    exact fun h => absurd rfl h

theorem catArgs_passes {ns : List CString} (hn : (catSetting env prog).Passes ns) (rest : List CString)
    (state : AppState) :
    catArgs env prog (ns ++ rest) state = catArgs env prog rest state := by
  cases env with
  | true =>
    rw [hn.ordering (by rw [catSetting_ordering]; exact ArgOrdering.noConfusion)]
    rfl
  | false =>
    have h := hn.nonoption
    clear hn
    induction ns with
    | nil => rfl
    | cons x xs ih =>
      rw [List.cons_append, catArgs_operand false prog _ state (h x List.mem_cons_self)]
      exact ih fun y hy => h y (List.mem_cons_of_mem x hy)

variable (env prog) in
theorem next_cat {a : Scan} (ha : a.Clustered) (hp : a.Proper) (state : AppState) :
    match (catSetting env prog).next a with
    | (some e, a') => ∃ r, Replies e state r ∧ catFrom env prog a state = (r >>= catFrom env prog a') ∧ a'.Clustered
    | (none, _) => catFrom env prog a state = .ok state := by
  have hs := next_steps (catSetting env prog) hp
  generalize (catSetting env prog).next a = r at hs
  cases hs with
  | @exhausted options operands ns hn =>
    have := catArgs_passes hn [] state
    rw [List.append_nil] at this
    exact this
  | ended hn => exact catArgs_passes hn _ state
  | @stopped options operands x xs hx ho =>
    rw [catSetting_ordering] at ho
    show catArgs env prog (x :: xs) state = _
    rw [catArgs_operand env prog xs state hx]
    cases env with
    | true => rfl
    | false => cases ho
  | operand _ ho =>
    rw [catSetting_ordering] at ho
    cases env <;> cases ho
  | @option options operands ns x xs hn hx hd pending hpd =>
    rw [show catFrom env prog ⟨options, operands, [], ns ++ x :: xs⟩ state = catArgs env prog (x :: xs) state from
      catArgs_passes hn _ state]
    obtain ⟨c, cs, rfl⟩ := exists_of_nonoption hx
    by_cases hc : c = '-'
    · subst hc
      have hcs : cs ≠ [] := by
        rintro rfl
        exact hd rfl
      rw [show '-' :: '-' :: cs = terminator ++ cs from rfl, catArgs_long env prog xs state hcs, hpd]
      exact take_long cs _ xs state
    · have hk : pending = c :: cs := by
        rw [hpd]
        simp [hc]
      rw [catArgs_short env prog xs state cs hc, hk]
      exact take_short hc _ c cs xs state
  | @cluster options operands d ds x xs =>
    obtain ⟨c, cs, xs', e, hc⟩ := ha (List.cons_ne_nil d ds)
    cases e
    exact take_short hc _ d ds xs state

theorem catOptions_succ {s s' : Getopt} {v : Int} (h : getoptInternal (catCall env) s = .ok (v, s')) (n : Nat)
    (state : AppState) : catOptions env (n + 1) state s =
      if v = -1 then .ok (some (some state, s'))
      else if v = promote 't' then catOptions env n { state with showTracks := true } s'
      else if v = promote 'a' then catOptions env n { state with showAlphabetTable := true } s'
      else .ok (some (none, s')) := by
  have h : getoptLong env ['t', 'a'] longOptions false s = .ok (v, s') := h
  rw [catOptions, h]
  rfl

/-- The loop of `handle_cat`, from any call on. The induction is on the calls
still allowed. -/
theorem catOptions_answers {pre : List CString} : ∀ (n : Nat) {a : Scan} {s : Getopt} (state : AppState),
    Answers (catSetting env prog) pre s a (getoptInternal (catCall env) s) → a.Clustered → a.Proper → a.left < n →
    match catFrom env prog a state with
    | .ok state' => ∃ s', catOptions env n state s = .ok (some (some state', s')) ∧ s'.stderr = s.stderr
    | .error m => ∃ s', catOptions env n state s = .ok (some (none, s')) ∧ s'.stderr = s.stderr ++ [m]
  | 0, _, _, _, _, _, _, h => absurd h (Nat.not_lt_zero _)
  | n + 1, a, s, state, hA, ha, hp, hl => by
    have hc := next_cat env prog ha hp state
    unfold Answers at hA
    cases hn : (catSetting env prog).next a with
    | mk e a' =>
      rw [hn] at hA hc
      cases e with
      | none =>
        obtain ⟨s', e', hen⟩ := hA
        have hc : catFrom env prog a state = .ok state := hc
        rw [hc]
        exact ⟨s', catOptions_succ e' n state, hen.stderr⟩
      | some e =>
        obtain ⟨s', e', hem, R⟩ := hA
        obtain ⟨r, hr, hf, ha'⟩ := hc
        obtain ⟨hp', hl'⟩ := next_some _ hp hn
        have ih := fun state => catOptions_answers n state (getoptInternal_represents ⟨(catCall_regular env).noW,
          (catCall_regular env).names⟩ rfl R) ha' hp' (by omega)
        rw [hf, catOptions_succ e' n state]
        cases r with
        | error m =>
          obtain ⟨hm, hv⟩ := hr
          rw [hv]
          exact ⟨s', rfl, by rw [hem.stderr, hm]⟩
        | ok state' =>
          obtain ⟨hm, hv⟩ := hr
          have hs : s'.stderr = s.stderr := by rw [hem.stderr, hm, List.append_nil]
          rw [← hs]
          rcases hv with ⟨hv, rfl⟩ | ⟨hv, rfl⟩
          · rw [hv]
            exact ih _
          · rw [hv]
            exact ih _

end

/-- **The options of `CAT` are read once from left to right**, whatever the
scanner does to the command line on the way. -/
theorem catOptions_eq (env : Bool) (argv : List CString) (h : 3 ≤ argv.length) (n : Nat)
    (hn : ((argv.drop 3).map fun x => x.length + 1).sum < n) (state : AppState) :
    match catArgs env (argv.headD []) (argv.drop 3) state with
    | .ok state' => ∃ s', catOptions env n state (.initial 3 argv) = .ok (some (some state', s')) ∧ s'.stderr = []
    | .error m => ∃ s', catOptions env n state (.initial 3 argv) = .ok (some (none, s')) ∧ s'.stderr = [m] := by
  have hf : Fresh (argv.take 3) (argv.drop 3) (.initial 3 argv) := by
    refine ⟨(List.take_append_drop 3 argv).symm, .inl ⟨(List.length_take_of_le h).symm, rfl⟩, fun e => ?_⟩
    have := List.length_take_of_le h
    rw [e] at this
    cases this
  have hp : (argv.take 3).head? = some (argv.headD []) := by
    cases argv with
    | nil => cases h
    | cons x xs => rfl
  have hA := getoptInternal_first (catCall_regular env).toReadable hf hp
  exact catOptions_answers n state hA (fun h => absurd rfl h) (proper_start _) hn

/-! ## Requests -/

inductive Request where
  | logo
  | message (m : String)
  | cat (file : String) (state : AppState)
  | checksum (file : String)
  | nothing

def catRequest (posix : Bool) (prog : CString) : List CString → Request
  | file :: args =>
    match catArgs posix prog args ⟨false, false⟩ with
    | .ok state => .cat (String.ofList file) state
    | .error m => .message m
  | [] => .message "Usage: catapult CAT /path/to/Config.pul [options]...\n"

def checksumRequest : List CString → Request
  | file :: _ => .checksum (String.ofList file)
  | [] => .message "Usage: catapult CHECKSUM <file>\n"

def request (posix : Bool) : List CString → Request
  | prog :: command :: args =>
    if "CAT".toList.isPrefixOf (command.map Char.toUpper) then catRequest posix prog args
    else if "CHECKSUM".toList.isPrefixOf (command.map Char.toUpper) then checksumRequest args
    else .nothing
  | _ => .logo

def Request.perform (host : Host) (w : World) : Request → Except Fault (Nat × World)
  | .logo => .ok (1, (w.print printLogo).report ["Usage: catapult <command> [options]...\n"])
  | .message m => .ok (0, w.report [m])
  | .cat file state => (0, ·) <$> commandCat host.impl host.load state host.memory file w
  | .checksum file => (0, ·) <$> commandChecksum host.build host.checksum file w
  | .nothing => .ok (0, w)

/-- Enough calls of the scanner for a command line. -/
def callsFor (argv : List CString) : Nat := ((argv.drop 3).map fun x => x.length + 1).sum + 1

section
variable (host : Host) (prog command : CString) (args : List CString) (w : World)

theorem handleCat_performs {n : Nat} (hn : callsFor (prog :: command :: args) ≤ n) :
    (do return (← handleCat n host (prog :: command :: args) ⟨false, false⟩ w).map fun w => (0, w)) =
      some <$> (catRequest host.posixlyCorrect prog args).perform host w := by
  unfold handleCat
  cases args with
  | nil => rfl
  | cons file args =>
    have hs := catOptions_eq host.posixlyCorrect (prog :: command :: file :: args) (Nat.le_add_left 3 _) n hn
      ⟨false, false⟩
    change match catArgs host.posixlyCorrect prog args ⟨false, false⟩ with | .ok _ => _ | .error _ => _ at hs
    rw [if_neg (by simp)]
    show ((catOptions _ n _ _ >>= _) >>= _) = _
    unfold catRequest
    dsimp only
    cases hc : catArgs host.posixlyCorrect prog args ⟨false, false⟩ with
    | error m =>
      rw [hc] at hs
      obtain ⟨s, e, hm⟩ := hs
      rw [e]
      show Except.ok (some (0, w.report s.stderr)) = _
      rw [hm]
      rfl
    | ok state =>
      rw [hc] at hs
      obtain ⟨s, e, hm⟩ := hs
      rw [e]
      show ((commandCat host.impl host.load state host.memory (String.ofList file) (w.report s.stderr) >>= _) >>= _) = _
      rw [hm, report_nil]
      show _ = some <$> (0, ·) <$> commandCat host.impl host.load state host.memory (String.ofList file) w
      cases commandCat host.impl host.load state host.memory (String.ofList file) w <;> rfl

theorem handleChecksum_performs : (do return some (0, ← handleChecksum host (prog :: command :: args) w)) =
    some <$> (checksumRequest args).perform host w := by
  cases args with
  | nil => rfl
  | cons file args =>
    show (commandChecksum host.build host.checksum (String.ofList file) w >>= _) =
      some <$> (0, ·) <$> commandChecksum host.build host.checksum (String.ofList file) w
    cases commandChecksum host.build host.checksum (String.ofList file) w <;> rfl

end

/-- Raising the command, scanning and permuting the arguments leave nothing
else behind. -/
theorem main_performs (host : Host) (argv : List CString) (w : World) {n : Nat} (hn : callsFor argv ≤ n) :
    main n host argv w = some <$> (request host.posixlyCorrect argv).perform host w := by
  match argv with
  | [] | [_] => rfl
  | prog :: command :: args =>
    have hc := handleCat_performs host prog (command.map Char.toUpper) args w (n := n) hn
    have hk := handleChecksum_performs host prog (command.map Char.toUpper) args w
    unfold main request
    rw [if_neg (by simp)]
    show (if "CAT".toList.isPrefixOf (command.map Char.toUpper) then
        handleCat n host (prog :: command.map Char.toUpper :: args) ⟨false, false⟩ w >>= _ else
      if "CHECKSUM".toList.isPrefixOf (command.map Char.toUpper) then
        handleChecksum host (prog :: command.map Char.toUpper :: args) w >>= _ else _) = _
    dsimp only
    split
    · exact hc
    · split
      · exact hk
      · rfl

/-- **The program comes to an end and does what was asked for**, as a single
reading of the command line from left to right finds it. -/
theorem main_refines (host : Host) (argv : List CString) (w : World) : ∃ n₀, ∀ n, n₀ ≤ n →
    main n host argv w = some <$> (request host.posixlyCorrect argv).perform host w :=
  ⟨callsFor argv, fun _ hn => main_performs host argv w hn⟩

end Catapult
