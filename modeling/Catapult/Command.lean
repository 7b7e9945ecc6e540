import Catapult.Print

/-!
# The commands: `catapult.c`

`command_cat` reads into a structure that is not initialised: what it held
before is an argument.
-/

namespace Catapult

open BigEndian Cursor Stdio Printf

/-! ## CHECKSUM -/

def printChecksum (checksum : BitVec 32) : List Byte :=
  [ascii "Generated Checksum\n",
    ascii "-------------------\n",
    put "CRC32: " (udec checksum.toNat) "\n\n"].flatten

def commandChecksum (build : Build) (o : ChecksumOutcome) (file : String) (w : World) : Except Fault World := do
  let (checksum, w) ← crc32FromFile build o file w
  return w.print (printChecksum checksum)

/-! ## CAT -/

structure AppState where
  showTracks : Bool
  showAlphabetTable : Bool

def commandCat (I : Impl) (o : LoadOutcome) (state : AppState) (pf : PulFile) (filename : String) (w : World) :
    Except Fault World := do
  let (buffer, w) := bufferFromFile o filename w
  if buffer.size = 0 then return w
  else
    let (pf, s) ← (readFile pf).exec I buffer.bytes ⟨0, []⟩
    let w := (w.report s.log).print (printFile pf)
    let w ← if state.showTracks then w.print <$> printTrackEntries pf else pure w
    if state.showAlphabetTable then w.print <$> printAlphabetTable pf else pure w

end Catapult
