import Catapult.ChecksumSound
import Catapult.CommandSound
import Catapult.MainSound

/-!
# What a run of the program comes to
-/

namespace Catapult

open BigEndian Cursor Stdio Printf

def sampleHost : Host := ⟨.fast, .native, false, .success, .success, samplePul⟩

/-! ## The calls of the scanner -/

def Request.code : Request → Nat
  | .logo => 1
  | _ => 0

section
variable {files : String → Option (List Byte)}

theorem bufferFromFile_files (o : LoadOutcome) (filename : String) (files : String → Option (List Byte)) :
    ∃ buf msgs, ∀ w, w.files = files → bufferFromFile o filename w = (buf, w.report msgs) := by
  have h : ∀ w : World, w.files = files → openRead o.opens filename w = openRead o.opens filename ⟨files, [], []⟩ := by
    intro w hw
    rw [← hw]
    rfl
  unfold bufferFromFile
  cases hc : openRead o.opens filename ⟨files, [], []⟩ with
  | none => exact ⟨_, _, fun w hw => by rw [h w hw, hc]⟩
  | some content =>
    by_cases ha : (!o.allocs) = true
    · exact ⟨_, _, fun w hw => by
        rw [h w hw, hc]
        exact if_pos ha⟩
    · by_cases hm : content.length - o.missing ≠ content.length
      · exact ⟨_, _, fun w hw => by
          rw [h w hw, hc]
          exact (if_neg ha).trans (if_pos hm)⟩
      · refine ⟨⟨some content, content.length⟩, [], fun w hw => ?_⟩
        rw [h w hw, hc, report_nil]
        exact (if_neg ha).trans (if_neg hm)

theorem outputs_commandCat (I : Impl) (o : LoadOutcome) (state : AppState) (pf : PulFile) (filename : String) :
    Outputs files (commandCat I o state pf filename) := by
  obtain ⟨buf, msgs, hb⟩ := bufferFromFile_files o filename files
  by_cases hs : buf.size = 0
  · refine (outputs_report msgs).congr fun w hw => ?_
    unfold commandCat
    rw [hb w hw]
    exact if_pos hs
  · cases hr : (readFile pf).exec I buf.bytes ⟨0, []⟩ with
    | error e =>
      refine .inl ⟨e, fun w hw => ?_⟩
      unfold commandCat
      rw [hb w hw]
      dsimp only
      rw [if_neg hs, hr]
      rfl
    | ok r =>
      obtain ⟨f, s⟩ := r
      have ht : Outputs files _ := (outputs_print (printTrackEntries f)).guard state.showTracks
      have ha : Outputs files _ := (outputs_print (printAlphabetTable f)).guard state.showAlphabetTable
      refine (((outputs_report (msgs ++ s.log)).bind (outputs_print (.ok (printFile f)))).bind (ht.bind ha)).congr
        fun w hw => ?_
      unfold commandCat
      rw [hb w hw]
      dsimp only
      rw [if_neg hs, hr]
      have hm : (w.report msgs).report s.log = w.report (msgs ++ s.log) := by simp [World.report]
      cases state.showTracks <;> rw [← hm] <;> rfl

theorem outputs_commandChecksum (build : Build) (o : ChecksumOutcome) (filename : String) :
    Outputs files (commandChecksum build o filename) := by
  obtain ⟨buf, msgs, hb⟩ := bufferFromFile_files o.load filename files
  cases hc : openRead o.opens filename ⟨files, [], []⟩ with
  | none =>
    refine ((outputs_report ["Failed to open file in the crc32 function\n"]).bind
      (outputs_print (.ok (printChecksum 0)))).congr ?_
    rintro w rfl
    unfold commandChecksum crc32FromFile
    change openRead o.opens filename w = none at hc
    rw [hc]
    rfl
  | some content =>
    have h : ∀ w, w.files = files → commandChecksum build o filename w =
        (crc32 build (buf.ptr.getD []) (BitVec.ofNat 32 buf.size) >>= fun v =>
          .ok ((w.report msgs).print (printChecksum v))) := by
      intro w hw
      subst hw
      change openRead o.opens filename w = some content at hc
      unfold commandChecksum crc32FromFile
      rw [hc]
      dsimp only
      rw [hb w rfl]
      cases crc32 build (buf.ptr.getD []) (BitVec.ofNat 32 buf.size) <;> rfl
    cases hv : crc32 build (buf.ptr.getD []) (BitVec.ofNat 32 buf.size) with
    | error e => exact .inl ⟨e, fun w hw => by rw [h w hw, hv]; rfl⟩
    | ok v =>
      refine ((outputs_report msgs).bind (outputs_print (.ok (printChecksum v)))).congr fun w hw => ?_
      rw [h w hw, hv]
      rfl

variable (files) in
theorem perform_outputs (host : Host) : ∀ r : Request, ∃ m, Outputs files m ∧
    ∀ w, r.perform host w = (r.code, ·) <$> m w
  | .logo => ⟨_, (outputs_print (.ok printLogo)).bind (outputs_report _), fun _ => rfl⟩
  | .message m => ⟨_, outputs_report [m], fun _ => rfl⟩
  | .cat _ _ => ⟨_, outputs_commandCat .., fun _ => rfl⟩
  | .checksum _ => ⟨_, outputs_commandChecksum .., fun _ => rfl⟩
  | .nothing => ⟨_, outputs_pure, fun _ => rfl⟩

end

theorem code_request (posix : Bool) : ∀ argv : List CString,
    (request posix argv).code = if argv.length < 2 then 1 else 0
  | [] | [_] => rfl
  | prog :: command :: args => by
    rw [if_neg (by simp)]
    unfold request
    dsimp only
    split
    · cases args with
      | nil => rfl
      | cons file args =>
        unfold catRequest
        dsimp only
        split <;> rfl
    · split
      · cases args <;> rfl
      · rfl

/-- **The program only prints.** On one host, the old content of the structure
included, the command line and the files decide what it prints and reports and
whether it goes wrong; it touches no file, and the exit code only says whether
there was a command. -/
theorem main_outputs (host : Host) (argv : List CString) (files : String → Option (List Byte)) : ∃ n₀,
    (∃ e, ∀ n, n₀ ≤ n → ∀ w, w.files = files → main n host argv w = .error e) ∨
      ∃ out msgs, ∀ n, n₀ ≤ n → ∀ w, w.files = files →
        main n host argv w = .ok (some (if argv.length < 2 then 1 else 0, (w.print out).report msgs)) := by
  obtain ⟨m, hm, hp⟩ := perform_outputs files host (request host.posixlyCorrect argv)
  have h : ∀ n, callsFor argv ≤ n → ∀ w, main n host argv w =
      some <$> (if argv.length < 2 then 1 else 0, ·) <$> m w := fun n hn w => by
    rw [main_performs host argv w hn, hp w, code_request]
  refine ⟨callsFor argv, hm.imp ?_ ?_⟩
  · rintro ⟨e, he⟩
    exact ⟨e, fun n hn w hw => by rw [h n hn w, he w hw]; rfl⟩
  · rintro ⟨out, msgs, ho⟩
    exact ⟨out, msgs, fun n hn w hw => by rw [h n hn w, ho w hw]; rfl⟩

/-! ## When a run goes wrong -/

/-- What is looked at as an option: nothing behind `--`, and nothing behind the
first operand if `posix`. -/
def givenOptions (posix : Bool) (args : List CString) : List CString :=
  (args.takeWhile fun x => x ≠ terminator && !(posix && nonoption x)).filter fun x => !nonoption x

def clusterFlags (cs : CString) : Option AppState :=
  if cs.all fun c => c = 't' || c = 'a' then some ⟨cs.any (· = 't'), cs.any (· = 'a')⟩ else none

/-- The flags an option sets: a cluster of `t` and `a`, or a part of a long
name. -/
def optionFlags : CString → Option AppState
  | '-' :: '-' :: opt =>
    if opt ≠ [] ∧ opt.isPrefixOf "tracks".toList then some ⟨true, false⟩
    else if opt ≠ [] ∧ opt.isPrefixOf "alphabet-table".toList then some ⟨false, true⟩
    else none
  | x => clusterFlags x.tail

def AppState.join (state flags : AppState) : AppState :=
  ⟨state.showTracks || flags.showTracks, state.showAlphabetTable || flags.showAlphabetTable⟩

def flagsOf : List CString → AppState
  | [] => ⟨false, false⟩
  | x :: xs => ((optionFlags x).getD ⟨false, false⟩).join (flagsOf xs)

section
variable (posix : Bool) (prog : CString)

theorem join_assoc (r s t : AppState) : (r.join s).join t = r.join (s.join t) := by
  simp only [AppState.join, Bool.or_assoc]

theorem join_none (state : AppState) : state.join ⟨false, false⟩ = state := by
  simp only [AppState.join, Bool.or_false]

def Settles (flags : Option AppState) (reply : AppState → Reply) : Prop :=
  match flags with
  | some flags => ∀ state, reply state = .ok (state.join flags)
  | none => ∃ m, ∀ state, reply state = .error m

theorem Settles.after {flags : Option AppState} {reply : AppState → Reply} (h : Settles flags reply)
    (first : AppState) :
    Settles (flags.map first.join) fun state => reply (state.join first) := by
  cases flags with
  | none => exact h.imp fun m hm state => hm _
  | some flags => exact fun state => (h _).trans (congrArg Except.ok (join_assoc ..))

theorem clusterFlags_cons {c : Char} (hc : c = 't' ∨ c = 'a') (cs : CString) :
    clusterFlags (c :: cs) = (clusterFlags cs).map (AppState.join ⟨c = 't', c = 'a'⟩) := by
  have h : (decide (c = 't') || decide (c = 'a')) = true := by simpa using hc
  unfold clusterFlags
  rw [List.all_cons, h, Bool.true_and]
  split <;> rfl

theorem shortOptions_settles : ∀ cs : CString, Settles (clusterFlags cs) (shortOptions posix prog cs)
  | [] => fun state => congrArg Except.ok (join_none state).symm
  | c :: cs => by
    have ih := shortOptions_settles cs
    by_cases ht : c = 't'
    · subst ht
      rw [clusterFlags_cons (.inl rfl)]
      have e : shortOptions posix prog ('t' :: cs) = fun state =>
          shortOptions posix prog cs (state.join ⟨true, false⟩) := by
        funext state
        simp [shortOptions, AppState.join]
      rw [e]
      exact ih.after ⟨true, false⟩
    · by_cases ha : c = 'a'
      · subst ha
        rw [clusterFlags_cons (.inr rfl)]
        have e : shortOptions posix prog ('a' :: cs) = fun state =>
          shortOptions posix prog cs (state.join ⟨false, true⟩) := by
          funext state
          simp [shortOptions, AppState.join]
        rw [e]
        exact ih.after ⟨false, true⟩
      · have hn : clusterFlags (c :: cs) = none := by simp [clusterFlags, ht, ha]
        rw [hn]
        have e : ∀ state, shortOptions posix prog (c :: cs) state =
            refusal prog "" ((if posix then "illegal" else "invalid") ++ " option -- " ++ String.ofList [c]) := by
          intro state
          rw [shortOptions, if_neg ht, if_neg ha]
        exact ⟨_, e⟩

theorem longFlag_settles {opt : CString} (ho : opt ≠ []) : Settles (optionFlags ('-' :: '-' :: opt))
    (longFlag prog opt) := by
  have hr : ∀ lead msg, ∃ m, ∀ _ : AppState, refusal prog lead msg = .error m := fun lead msg => ⟨_, fun _ => rfl⟩
  have hf : optionFlags ('-' :: '-' :: opt) = if opt ≠ [] ∧ opt.isPrefixOf "tracks".toList then some ⟨true, false⟩
      else if opt ≠ [] ∧ opt.isPrefixOf "alphabet-table".toList then some ⟨false, true⟩ else none := rfl
  rw [hf]
  unfold longFlag
  dsimp only
  by_cases hm : '=' ∈ opt
  · -- an option with an argument begins no name, and is refused one way or the other
    have hn : ∀ name : CString, '=' ∉ name → opt.isPrefixOf name = false := fun name hn =>
      Bool.eq_false_iff.mpr fun h => hn ((List.isPrefixOf_iff_prefix.mp h).subset hm)
    rw [hn "tracks".toList (by decide), hn "alphabet-table".toList (by decide)]
    simp only [hm, ite_true, Bool.false_eq_true, and_false, ite_false]
    split
    · exact hr _ _
    · split
      · exact hr _ _
      · split
        · exact hr _ _
        · exact hr _ _
  · have ht : opt.takeWhile (· ≠ '=') = opt :=
      List.takeWhile_eq_self_iff.mpr fun c hc => by simpa using fun e : c = '=' => hm (e ▸ hc)
    simp only [ht, hm, ho, ite_false, ne_eq, not_false_eq_true, true_and]
    split
    · exact fun state => by simp [AppState.join]
    · split
      · exact fun state => by simp [AppState.join]
      · exact hr _ _

theorem givenOptions_operand {x : CString} (hx : nonoption x = true) (xs : List CString) :
    givenOptions posix (x :: xs) = if posix then [] else givenOptions posix xs := by
  have ht : x ≠ terminator := by
    rintro rfl
    cases hx
  unfold givenOptions
  cases posix with
  | true => simp [ht, hx]
  | false => simp [ht, hx]

theorem givenOptions_option {x : CString} (ht : x ≠ terminator) (hx : nonoption x = false) (xs : List CString) :
    givenOptions posix (x :: xs) = x :: givenOptions posix xs := by
  unfold givenOptions
  rw [List.takeWhile_cons_of_pos (by simp [ht, hx]), List.filter_cons_of_pos (by simp [hx])]

theorem catArgs_settles : ∀ args : List CString, Settles
    (if (givenOptions posix args).all fun x => (optionFlags x).isSome
      then some (flagsOf (givenOptions posix args)) else none)
    (catArgs posix prog args)
  | [] => fun state => congrArg Except.ok (join_none state).symm
  | x :: xs => by
    have ih := catArgs_settles xs
    by_cases ht : x = terminator
    · subst ht
      exact fun state => congrArg Except.ok (join_none state).symm
    · cases hx : nonoption x with
      | true =>
        have e := fun state => catArgs_operand posix prog xs state hx
        rw [givenOptions_operand posix hx xs]
        cases posix with
        | true => exact fun state => (e state).trans (congrArg Except.ok (join_none state).symm)
        | false => rwa [show catArgs false prog (x :: xs) = catArgs false prog xs from funext e]
      | false =>
        rw [givenOptions_option posix ht hx xs]
        obtain ⟨reply, hr, e⟩ : ∃ reply, Settles (optionFlags x) reply ∧
            catArgs posix prog (x :: xs) = fun state => reply state >>= catArgs posix prog xs := by
          obtain ⟨c, cs, rfl⟩ := exists_of_nonoption hx
          by_cases hc : c = '-'
          · subst hc
            have hn : cs ≠ [] := fun h => ht (by rw [h]; rfl)
            exact ⟨_, longFlag_settles prog hn, funext fun state => catArgs_long posix prog xs state hn⟩
          · have hf : optionFlags ('-' :: c :: cs) = clusterFlags (c :: cs) := by
              unfold optionFlags
              split
              · next h => cases h; exact absurd rfl hc
              · rfl
            rw [hf]
            exact ⟨_, shortOptions_settles posix prog (c :: cs), funext fun state =>
              catArgs_short posix prog xs state cs hc⟩
        rw [e]
        cases hf : optionFlags x with
        | none =>
          rw [hf] at hr
          obtain ⟨m, hm⟩ := hr
          simp only [List.all_cons, hf, Option.isSome_none, Bool.false_and]
          refine ⟨m, fun state => ?_⟩
          dsimp only
          rw [hm]
          rfl
        | some flags =>
          rw [hf] at hr
          have hr : ∀ state, reply state = .ok (state.join flags) := hr
          have e' : (fun state => reply state >>= catArgs posix prog xs) = fun state =>
            catArgs posix prog xs (state.join flags) :=
            funext fun state => by rw [hr]; rfl
          rw [e']
          have ih := ih.after flags
          simp only [List.all_cons, hf, Option.isSome_some, Bool.true_and, flagsOf, Option.getD_some]
          rwa [apply_ite (Option.map flags.join)] at ih

end

/-- `CAT` is told what to show by its options: every one of them must be a
cluster of `t` and `a` or a part of a long name, and each sets its flags. -/
theorem main_cat_flags (host : Host) (prog command file : CString) (args : List CString) (w : World) (n : Nat)
    (hc : "CAT".toList.isPrefixOf (command.map Char.toUpper)) (hn : callsFor (prog :: command :: file :: args) ≤ n) :
    if (givenOptions host.posixlyCorrect args).all fun x => (optionFlags x).isSome then
      main n host (prog :: command :: file :: args) w = (fun w' => some (0, w')) <$> commandCat host.impl host.load
        (flagsOf (givenOptions host.posixlyCorrect args)) host.memory (String.ofList file) w
    else ∃ m, main n host (prog :: command :: file :: args) w = .ok (some (0, w.report [m])) := by
  have hs := catArgs_settles host.posixlyCorrect prog args
  have hr : request host.posixlyCorrect (prog :: command :: file :: args) =
      catRequest host.posixlyCorrect prog (file :: args) := if_pos hc
  rw [main_performs host _ w hn, hr]
  unfold catRequest
  dsimp only
  split
  · next h =>
    rw [if_pos h] at hs
    rw [hs ⟨false, false⟩]
    have hj : AppState.join ⟨false, false⟩ (flagsOf (givenOptions host.posixlyCorrect args)) =
        flagsOf (givenOptions host.posixlyCorrect args) := by simp [AppState.join]
    rw [hj]
    show some <$> (0, ·) <$> _ = _
    rw [← comp_map]
    rfl
  · next h =>
    rw [if_neg h] at hs
    obtain ⟨m, hm⟩ := hs
    rw [hm]
    exact ⟨m, rfl⟩

theorem showTracks_flagsOf (options : List CString) : (flagsOf options).showTracks = true ↔
    ∃ x ∈ options, ((optionFlags x).getD ⟨false, false⟩).showTracks = true := by
  induction options with
  | nil => simp [flagsOf]
  | cons x xs ih => simp [flagsOf, AppState.join, ih]

theorem showAlphabetTable_flagsOf (options : List CString) : (flagsOf options).showAlphabetTable = true ↔
    ∃ x ∈ options, ((optionFlags x).getD ⟨false, false⟩).showAlphabetTable = true := by
  induction options with
  | nil => simp [flagsOf]
  | cons x xs ih => simp [flagsOf, AppState.join, ih]

theorem flagsOf_congr {xs ys : List CString} (h : ∀ x, x ∈ xs ↔ x ∈ ys) : flagsOf xs = flagsOf ys := by
  have ht := (showTracks_flagsOf xs).trans ((exists_congr fun x => and_congr_left fun _ => h x).trans
    (showTracks_flagsOf ys).symm)
  have ha := (showAlphabetTable_flagsOf xs).trans ((exists_congr fun x => and_congr_left fun _ => h x).trans
    (showAlphabetTable_flagsOf ys).symm)
  show AppState.mk _ _ = AppState.mk _ _
  rw [Bool.eq_iff_iff.mpr ht, Bool.eq_iff_iff.mpr ha]

/-- **Only the set of the options counts**: not their order, not how often one
is repeated, not the operands between them, not the name of the program. -/
theorem main_cat_sameOptions (host : Host) (prog prog' command command' file : CString) (args args' : List CString)
    (w : World) (n : Nat) (hc : "CAT".toList.isPrefixOf (command.map Char.toUpper))
    (hc' : "CAT".toList.isPrefixOf (command'.map Char.toUpper)) (hn : callsFor (prog :: command :: file :: args) ≤ n)
    (hn' : callsFor (prog' :: command' :: file :: args') ≤ n)
    (h : ∀ x, x ∈ givenOptions host.posixlyCorrect args ↔ x ∈ givenOptions host.posixlyCorrect args') :
    main n host (prog :: command :: file :: args) w = main n host (prog' :: command' :: file :: args') w ∨
      ∃ m m', main n host (prog :: command :: file :: args) w = .ok (some (0, w.report [m])) ∧
        main n host (prog' :: command' :: file :: args') w = .ok (some (0, w.report [m'])) := by
  have r := main_cat_flags host prog command file args w n hc hn
  have r' := main_cat_flags host prog' command' file args' w n hc' hn'
  have ha : (givenOptions host.posixlyCorrect args).all (fun x => (optionFlags x).isSome) =
      (givenOptions host.posixlyCorrect args').all (fun x => (optionFlags x).isSome) := by
    rw [Bool.eq_iff_iff, List.all_eq_true, List.all_eq_true]
    exact forall_congr' fun x => by rw [h x]
  rw [ha, flagsOf_congr h] at r
  split at r
  · next hp =>
    rw [if_pos hp] at r'
    exact .inl (r.trans r'.symm)
  · next hp =>
    rw [if_neg hp] at r'
    obtain ⟨m, e⟩ := r
    obtain ⟨m', e'⟩ := r'
    exact .inr ⟨m, m', e, e'⟩

theorem main_cat_sameOptions_clusters : main 20 sampleHost
      ["catapult".toList, "cat".toList, "f".toList, "-a".toList, "x".toList, "-t".toList] default =
        main 20 sampleHost ["c".toList, "CAT".toList, "f".toList, "-t".toList, "-a".toList, "-t".toList] default ∨
    ∃ m m', main 20 sampleHost
        ["catapult".toList, "cat".toList, "f".toList, "-a".toList, "x".toList, "-t".toList] default =
        .ok (some (0, (default : World).report [m])) ∧
      main 20 sampleHost ["c".toList, "CAT".toList, "f".toList, "-t".toList, "-a".toList, "-t".toList] default =
        .ok (some (0, (default : World).report [m'])) :=
  main_cat_sameOptions sampleHost "catapult".toList "c".toList "cat".toList "CAT".toList "f".toList
    ["-a".toList, "x".toList, "-t".toList] ["-t".toList, "-a".toList, "-t".toList] default 20 (by decide) (by decide)
    (by decide) (by decide) fun x => by
      show x ∈ ["-a".toList, "-t".toList] ↔ x ∈ ["-t".toList, "-a".toList, "-t".toList]
      simp only [List.mem_cons, List.not_mem_nil, or_false]
      tauto

end Catapult
