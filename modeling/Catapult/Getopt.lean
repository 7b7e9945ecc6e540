import Catapult.Lib.Segments

/-!
# The scan of the options: `getopt.c`

The scanner keeps its state in variables of the file, here in `Getopt`; the
pointer `nextchar` is the rest of the string it points into. A long option's
`flag` is the address it is stored at, `env` whether `POSIXLY_CORRECT` is set.
-/

namespace Catapult

open Cursor Stdio Segments

/-! ## Strings and state -/

abbrev CString := List Char

/-- `s[i]`, with `none` for the NUL. -/
def charAt (s : CString) (i : Nat) : Except Fault (Option Char) :=
  if i ≤ s.length then return s[i]? else throw (.outOfBounds i)

/-- A `char` where an `int` is expected. -/
def promote (c : Char) : Int := (BitVec.ofNat 8 c.toNat).toInt

structure LongOption where
  name : CString
  hasArg : Int
  flag : Option Nat
  val : Int
  deriving DecidableEq, Repr

inductive ArgOrdering where
  | requireOrder | permute | returnInOrder
  deriving DecidableEq, Repr

structure Getopt where
  argv : List CString
  optarg : Option CString
  optind : Nat
  opterr : Bool
  optopt : Int
  initialized : Bool
  nextchar : Option CString
  ordering : ArgOrdering
  posixlyCorrect : Bool
  firstNonopt : Nat
  lastNonopt : Nat
  longind : Nat
  stores : List (Nat × Int)
  stderr : List String
  deriving DecidableEq, Repr

/-- The arguments of a call other than `argc` and `argv`; `longind` tells
whether the caller wants the index. -/
structure Call where
  optstring : CString
  longopts : Option (List LongOption)
  longind : Bool
  longOnly : Bool
  env : Bool
  deriving DecidableEq, Repr

/-- `my_index`: the rest of the string from its first `chr` on. -/
def myIndex (str : CString) (chr : Char) : Option CString :=
  match str.dropWhile (· ≠ chr) with
  | [] => none
  | s => some s

/-! ## Permuting the arguments -/

/-- The loop of `exchange`; it swaps the shorter segment with the far end of
the longer one until nothing is left to swap. -/
def exchangeLoop {α : Type} (middle : Nat) (bottom top : Nat) (argv : List α) : Except Fault (List α) :=
  if middle < top ∧ bottom < middle then
    if middle - bottom < top - middle then do
      let argv ← swapRuns bottom (top - (middle - bottom)) argv (middle - bottom)
      exchangeLoop middle bottom (top - (middle - bottom)) argv
    else do
      let argv ← swapRuns bottom middle argv (top - middle)
      exchangeLoop middle (bottom + (top - middle)) top argv
  else return argv
termination_by top - bottom

def exchange (s : Getopt) : Except Fault Getopt := do
  let argv ← exchangeLoop s.lastNonopt s.firstNonopt s.optind s.argv
  return { s with argv := argv, firstNonopt := s.firstNonopt + s.optind - s.lastNonopt, lastNonopt := s.optind }

/-- `_getopt_initialize`, with the option string it returns. -/
def getoptInitialize (env : Bool) (optstring : CString) (s : Getopt) : CString × Getopt :=
  let s := { s with
    firstNonopt := s.optind, lastNonopt := s.optind, nextchar := none, posixlyCorrect := env, initialized := true }
  match optstring with
  | '-' :: optstring => (optstring, { s with ordering := .returnInOrder })
  | '+' :: optstring => (optstring, { s with ordering := .requireOrder })
  | optstring => (optstring, { s with ordering := if env then .requireOrder else .permute })

/-! ## The next element -/

def nonoption : CString → Bool
  | '-' :: _ :: _ => false
  | _ => true

def skipNonoptions : List CString → Nat → Nat
  | [], optind => optind
  | x :: xs, optind => if nonoption x then skipNonoptions xs (optind + 1) else optind

/-- The caller may have moved `optind` back. -/
def clampNonoptions (s : Getopt) : Getopt :=
  { s with lastNonopt := min s.lastNonopt s.optind, firstNonopt := min s.firstNonopt s.optind }

/-- Options behind non-options are moved in front of them; with nothing to move
the record of the non-options starts afresh if `empty`. -/
def moveOptions (empty : Bool) (s : Getopt) : Except Fault Getopt :=
  if s.firstNonopt ≠ s.lastNonopt ∧ s.lastNonopt ≠ s.optind then exchange s
  else return if empty then { s with firstNonopt := s.optind } else s

def permuteNonoptions (s : Getopt) : Except Fault Getopt :=
  if s.ordering = .permute then do
    let s ← moveOptions (s.lastNonopt ≠ s.optind) s
    let optind := skipNonoptions (s.argv.drop s.optind) s.optind
    return { s with optind := optind, lastNonopt := optind }
  else return s

def terminator : CString := ['-', '-']

/-- `--` is skipped like an option, what follows it like a non-option. -/
def endOfOptions (s : Getopt) : Except Fault Getopt :=
  if s.optind ≠ s.argv.length then do
    let x ← element s.argv s.optind
    if x = terminator then do
      let s ← moveOptions (s.firstNonopt = s.lastNonopt) { s with optind := s.optind + 1 }
      return { s with lastNonopt := s.argv.length, optind := s.argv.length }
    else return s
  else return s

/-- The value returned, if the scan stops here; else `nextchar` is set. -/
def advance (longopts : Bool) (s : Getopt) : Except Fault (Option Int × Getopt) := do
  let s ← permuteNonoptions (clampNonoptions s)
  let s ← endOfOptions s
  if s.optind = s.argv.length then
    return (some (-1), if s.firstNonopt ≠ s.lastNonopt then { s with optind := s.firstNonopt } else s)
  else
    let x ← element s.argv s.optind
    if nonoption x then
      if s.ordering = .requireOrder then return (some (-1), s)
      else return (some 1, { s with optarg := some x, optind := s.optind + 1 })
    else
      let c ← charAt x 1
      return (none, { s with nextchar := some (x.drop (if longopts && c = some '-' then 2 else 1)) })

/-! ## Messages -/

/-- A message, if `print_errors`; `argv[0]` stands in front. -/
def complain (printErrors : Bool) (msg : String) (s : Getopt) : Except Fault Getopt :=
  if printErrors then do
    let prog ← element s.argv 0
    return { s with stderr := s.stderr ++ [String.ofList prog ++ ": " ++ msg ++ "\n"] }
  else return s

/-- A message whose literal is continued on an indented line. -/
def complainIndented (printErrors : Bool) (msg : String) (s : Getopt) : Except Fault Getopt :=
  if printErrors then do
    let prog ← element s.argv 0
    return { s with
      stderr := s.stderr ++ ["\t\t\t\t\t\t\t\t\t\t\t  " ++ String.ofList prog ++ ": " ++ msg ++ "\n"] }
  else return s

/-! ## Long options -/

structure Found where
  pfound : Option (Nat × LongOption)
  exact : Bool
  ambig : Bool
  deriving DecidableEq, Repr

/-- Every long option is tested for an exact or an abbreviated match. `same`
compares the two lengths, `clash` says when a second abbreviated match counts. -/
def findLong (same : Nat → Nat → Bool) (clash : LongOption → LongOption → Bool) (name : CString) :
    List LongOption → Nat → Found → Found
  | [], _, found => found
  | p :: ps, index, found =>
    if name.isPrefixOf p.name then
      if same name.length p.name.length then { found with pfound := some (index, p), exact := true }
      else match found.pfound with
        | none => findLong same clash name ps (index + 1) { found with pfound := some (index, p) }
        | some (_, q) =>
          findLong same clash name ps (index + 1) (if clash q p then { found with ambig := true } else found)
    else findLong same clash name ps (index + 1) found

def sameUnsigned (n m : Nat) : Bool := n % 2 ^ 32 = m % 2 ^ 32

def sameSize (n m : Nat) : Bool := n % 2 ^ 32 = m

def clashes (longOnly : Bool) (q p : LongOption) : Bool :=
  longOnly || q.hasArg ≠ p.hasArg || q.flag ≠ p.flag || q.val ≠ p.val

/-- The option is found: its index, and its value or the store of it. -/
def acceptLong (call : Call) (index : Nat) (p : LongOption) (s : Getopt) : Int × Getopt :=
  let s := { s with nextchar := some [], longind := if call.longind then index else s.longind }
  match p.flag with
  | some flag => (0, { s with stores := s.stores ++ [(flag, p.val)] })
  | none => (p.val, s)

def missingArgument (optstring : CString) : Int := promote (if optstring.head? = some ':' then ':' else '?')

/-- `x` is the element of `argv` the option stands in; `none` when it is to be
taken for a short option. -/
def longOption (call : Call) (optstring : CString) (printErrors : Bool) (longopts : List LongOption)
    (x nextchar : CString) (s : Getopt) : Except Fault (Option Int × Getopt) := do
  let name := nextchar.takeWhile (· ≠ '=')
  let nameend := nextchar.dropWhile (· ≠ '=')
  let found := findLong sameUnsigned (clashes call.longOnly) name longopts 0 ⟨none, false, false⟩
  if found.ambig && !found.exact then
    let s ← complain printErrors ("option `" ++ String.ofList x ++ "' is ambiguous") s
    return (some (promote '?'), { s with nextchar := some [], optind := s.optind + 1, optopt := 0 })
  else match found.pfound with
  | some (index, p) =>
    let s := { s with optind := s.optind + 1 }
    if nameend ≠ [] then
      if p.hasArg ≠ 0 then
        let (v, s) := acceptLong call index p { s with optarg := some (nameend.drop 1) }
        return (some v, s)
      else
        let c ← charAt x 1
        let intro := if c = some '-' then "--" else String.ofList (x.take 1)
        let s ← complainIndented printErrors
          ("option `" ++ intro ++ String.ofList p.name ++ "' doesn't allow an argument") s
        return (some (promote '?'), { s with nextchar := some [], optopt := p.val })
    else if p.hasArg = 1 then
      if s.optind < s.argv.length then
        let y ← element s.argv s.optind
        let (v, s) := acceptLong call index p { s with optarg := some y, optind := s.optind + 1 }
        return (some v, s)
      else
        let s ← complain printErrors ("option `" ++ String.ofList x ++ "' requires an argument") s
        return (some (missingArgument optstring), { s with nextchar := some [], optopt := p.val })
    else
      let (v, s) := acceptLong call index p s
      return (some v, s)
  | none =>
    let c ← charAt x 1
    if !call.longOnly || c = some '-' || (nextchar.head?.bind (myIndex optstring)).isNone then
      let intro := if c = some '-' then "--" else String.ofList (x.take 1)
      let s ← complain printErrors ("unrecognized option `" ++ intro ++ String.ofList nextchar ++ "'") s
      return (some (promote '?'), { s with nextchar := some [], optind := s.optind + 1, optopt := 0 })
    else return (none, s)

/-! ## Short options -/

/-- `-W foo` for `--foo`; `rest` is what follows the `W`. -/
def wOption (call : Call) (optstring : CString) (printErrors : Bool) (c : Char) (rest : CString) (s : Getopt) :
    Except Fault (Int × Getopt) := do
  if rest = [] ∧ s.optind = s.argv.length then
    let s ← complain printErrors ("option requires an argument -- " ++ String.ofList [c]) s
    return (missingArgument optstring, { s with optopt := promote c })
  else
    let arg ← if rest ≠ [] then pure rest else element s.argv s.optind
    let s := { s with optarg := some arg, nextchar := some arg, optind := s.optind + 1 }
    let name := arg.takeWhile (· ≠ '=')
    let nameend := arg.dropWhile (· ≠ '=')
    match call.longopts with
    | none => throw (.outOfBounds 0)
    | some longopts =>
      let found := findLong sameSize (fun _ _ => true) name longopts 0 ⟨none, false, false⟩
      if found.ambig && !found.exact then
        -- the element named is the one after the argument
        let x ← if printErrors then element s.argv s.optind else pure []
        let s ← complain printErrors ("option `-W " ++ String.ofList x ++ "' is ambiguous") s
        return (promote '?', { s with nextchar := some [], optind := s.optind + 1 })
      else match found.pfound with
      | some (index, p) =>
        if nameend ≠ [] then
          if p.hasArg ≠ 0 then
            return acceptLong call index p { s with optarg := some (nameend.drop 1) }
          else
            let s ← complainIndented printErrors
              ("option `-W " ++ String.ofList p.name ++ "' doesn't allow an argument") s
            return (promote '?', { s with nextchar := some [] })
        else if p.hasArg = 1 then
          if s.optind < s.argv.length then
            let y ← element s.argv s.optind
            return acceptLong call index p { s with optarg := some y, optind := s.optind + 1 }
          else
            let x ← if printErrors then element s.argv (s.optind - 1) else pure []
            let s ← complain printErrors ("option `" ++ String.ofList x ++ "' requires an argument") s
            return (missingArgument optstring, { s with nextchar := some [] })
        else return acceptLong call index p s
      | none => return (promote 'W', { s with nextchar := none })

def shortOption (call : Call) (optstring : CString) (printErrors : Bool) (nextchar : CString) (s : Getopt) :
    Except Fault (Int × Getopt) :=
  match nextchar with
  | [] => throw (.outOfBounds 1)
  | c :: rest => do
    -- `optind` moves on when the last character of an element is processed
    let s := { s with nextchar := some rest, optind := if rest = [] then s.optind + 1 else s.optind }
    let temp := myIndex optstring c
    if temp = none ∨ c = ':' then
      let kind := if s.posixlyCorrect then "illegal" else "invalid"
      let s ← complain printErrors (kind ++ " option -- " ++ String.ofList [c]) s
      return (promote '?', { s with optopt := promote c })
    else
      let temp := temp.getD []
      if c = 'W' ∧ temp[1]? = some ';' then wOption call optstring printErrors c rest s
      else if temp[1]? = some ':' then
        if rest ≠ [] then
          return (promote c, { s with optarg := some rest, optind := s.optind + 1, nextchar := none })
        else if temp[2]? = some ':' then
          return (promote c, { s with optarg := none, nextchar := none })
        else if s.optind = s.argv.length then
          let s ← complain printErrors ("option requires an argument -- " ++ String.ofList [c]) s
          return (missingArgument optstring, { s with optopt := promote c, nextchar := none })
        else
          let y ← element s.argv s.optind
          return (promote c, { s with optarg := some y, optind := s.optind + 1, nextchar := none })
      else return (promote c, s)

/-! ## The scanner -/

/-- Whether the element is tried as a long option. With `longOnly` a single dash
will do, but `-f` with a valid short option `f` stays one. -/
def isLongOption (longOnly : Bool) (optstring x : CString) : Except Fault Bool := do
  let c ← charAt x 1
  if c = some '-' then return true
  else if longOnly then
    let c' ← charAt x 2
    return c'.isSome || (c.bind (myIndex optstring)).isNone
  else return false

def decode (call : Call) (optstring : CString) (printErrors : Bool) (nextchar : CString) (s : Getopt) :
    Except Fault (Int × Getopt) :=
  match call.longopts with
  | none => shortOption call optstring printErrors nextchar s
  | some longopts => do
    let x ← element s.argv s.optind
    if ← isLongOption call.longOnly optstring x then
      let (v, s) ← longOption call optstring printErrors longopts x nextchar s
      match v with
      | some v => return (v, s)
      | none => shortOption call optstring printErrors nextchar s
    else shortOption call optstring printErrors nextchar s

/-- `_getopt_internal` once the state is initialised. -/
def scan (call : Call) (optstring : CString) (printErrors : Bool) (s : Getopt) : Except Fault (Int × Getopt) :=
  if s.nextchar.getD [] = [] then do
    let (v, s) ← advance call.longopts.isSome s
    match v with
    | some v => return (v, s)
    | none => decode call optstring printErrors (s.nextchar.getD []) s
  else decode call optstring printErrors (s.nextchar.getD []) s

def getoptInternal (call : Call) (s : Getopt) : Except Fault (Int × Getopt) :=
  let printErrors := if call.optstring.head? = some ':' then false else s.opterr
  if s.argv.length < 1 then return (-1, s)
  else
    let s := { s with optarg := none }
    if s.optind = 0 ∨ s.initialized = false then
      let s := { s with optind := if s.optind = 0 then 1 else s.optind }
      let (optstring, s) := getoptInitialize call.env call.optstring s
      scan call optstring printErrors s
    else scan call call.optstring printErrors s

def getopt (env : Bool) (optstring : CString) : Getopt → Except Fault (Int × Getopt) :=
  getoptInternal ⟨optstring, none, false, false, env⟩

def getoptLong (env : Bool) (options : CString) (longOptions : List LongOption) (optIndex : Bool) :
    Getopt → Except Fault (Int × Getopt) :=
  getoptInternal ⟨options, some longOptions, optIndex, false, env⟩

def getoptLongOnly (env : Bool) (options : CString) (longOptions : List LongOption) (optIndex : Bool) :
    Getopt → Except Fault (Int × Getopt) :=
  getoptInternal ⟨options, some longOptions, optIndex, true, env⟩

end Catapult
