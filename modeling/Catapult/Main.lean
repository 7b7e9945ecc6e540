import Catapult.Command
import Catapult.Getopt

/-!
# The command line: `catapult.c`

`main` raises its command to capitals in place and hands the command line on.
Standard output and error are those of the world; what the host decides (the
environment, the build, how the library calls turn out and what memory holds)
is an argument.
-/

namespace Catapult

open BigEndian Cursor Stdio Printf

structure Host where
  build : Build
  impl : Impl
  posixlyCorrect : Bool
  load : LoadOutcome
  checksum : ChecksumOutcome
  memory : PulFile

def printLogo : List Byte :=
  [ascii "                     __                                    __    __     \n",
    ascii "                    |  \\                                  |  \\  |  \\    \n",
    ascii "  _______  ______  _| $$_     ______    ______   __    __ | $$ _| $$_   \n",
    ascii " /       \\|      \\|   $$ \\   |      \\  /      \\ |  \\  |  \\| $$|   $$ \\  \n",
    ascii "|  $$$$$$$ \\$$$$$$\\\\$$$$$$    \\$$$$$$\\|  $$$$$$\\| $$  | $$| $$ \\$$$$$$  \n",
    ascii "| $$      /      $$ | $$ __  /      $$| $$  | $$| $$  | $$| $$  | $$ __ \n",
    ascii "| $$_____|  $$$$$$$ | $$|  \\|  $$$$$$$| $$__/ $$| $$__/ $$| $$  | $$|  \\ \n",
    ascii " \\$$     \\\\$$    $$  \\$$  $$ \\$$    $$| $$    $$ \\$$    $$| $$   \\$$  $$\n",
    ascii "  \\$$$$$$$ \\$$$$$$$   \\$$$$   \\$$$$$$$| $$$$$$$   \\$$$$$$  \\$$    \\$$$$ \n",
    ascii "                                      | $$                              \n",
    ascii "                                      | $$                              \n",
    ascii "                                       \\$$                              \n\n"].flatten

/-! ## CHECKSUM -/

def handleChecksum (host : Host) (argv : List CString) (w : World) : Except Fault World :=
  if argv.length < 3 then return w.report ["Usage: catapult CHECKSUM <file>\n"]
  else do
    let file ← element argv 2
    commandChecksum host.build host.checksum (String.ofList file) w

/-! ## CAT -/

def longOptions : List LongOption :=
  [⟨"tracks".toList, 0, none, promote 't'⟩, ⟨"alphabet-table".toList, 0, none, promote 'a'⟩]

/-- The state of `getopt.c` as the program starts, but for `optind`. -/
def Getopt.initial (optind : Nat) (argv : List CString) : Getopt where
  argv := argv
  optarg := none
  optind := optind
  opterr := true
  optopt := promote '?'
  initialized := false
  nextchar := none
  ordering := .requireOrder
  posixlyCorrect := false
  firstNonopt := 0
  lastNonopt := 0
  longind := 0
  stores := []
  stderr := []

/-- The loop over the options, for at most `n` calls: the first component is
`none` where `handle_cat` returns from inside of it. -/
def catOptions (posixlyCorrect : Bool) : Nat → AppState → Getopt → Except Fault (Option (Option AppState × Getopt))
  | 0, _, _ => return none
  | n + 1, state, s => do
    let (opt, s) ← getoptLong posixlyCorrect ['t', 'a'] longOptions false s
    if opt = -1 then return some (some state, s)
    else if opt = promote 't' then catOptions posixlyCorrect n { state with showTracks := true } s
    else if opt = promote 'a' then catOptions posixlyCorrect n { state with showAlphabetTable := true } s
    else return some (none, s)

/-- `none` if more than `n` calls of `getopt_long` are needed. -/
def handleCat (n : Nat) (host : Host) (argv : List CString) (state : AppState) (w : World) :
    Except Fault (Option World) :=
  if argv.length < 3 then return some (w.report ["Usage: catapult CAT /path/to/Config.pul [options]...\n"])
  else do
    let file ← element argv 2
    match ← catOptions host.posixlyCorrect n state (.initial 3 argv) with
    | none => return none
    | some (none, s) => return some (w.report s.stderr)
    | some (some state, s) =>
      let w ← commandCat host.impl host.load state host.memory (String.ofList file) (w.report s.stderr)
      return some w

/-! ## Entry point -/

/-- The exit code, and what the program has done. -/
def main (n : Nat) (host : Host) (argv : List CString) (w : World) : Except Fault (Option (Nat × World)) :=
  if argv.length < 2 then
    return some (1, (w.print printLogo).report ["Usage: catapult <command> [options]...\n"])
  else do
    let command := (← element argv 1).map Char.toUpper
    let argv := argv.set 1 command
    if "CAT".toList.isPrefixOf command then
      let r ← handleCat n host argv ⟨false, false⟩ w
      return r.map fun w => (0, w)
    else if "CHECKSUM".toList.isPrefixOf command then
      let w ← handleChecksum host argv w
      return some (0, w)
    else return some (0, w)

end Catapult
