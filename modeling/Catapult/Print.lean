import Catapult.Lib.Printf
import Catapult.Pul

/-!
# Printing: `pul.c`

What each of the printing functions sends to the standard output. A 32-bit
field printed with `%d` is read as two's complement, a smaller one is promoted.
-/

namespace Catapult

open BigEndian Cursor Stdio Printf

def printTrackEntry (track : TrackEntry) (index : Nat) : List Byte :=
  [put "TRACK ENTRY " (dec index) "\n",
    ascii "------------\n",
    put "Track slot:\t" (dec track.trackSlot.toNat) "\n",
    put "Music slot:\t" (dec track.musicSlot.toNat) "\n",
    put "Variant count:\t" (dec track.nVariants.toNat) "\n",
    put "CRC32:\t\t" (udec track.crc32.toNat) "\n\n"].flatten

def printFile (file : PulFile) : List Byte :=
  [ascii "FILE HEADER\n",
    ascii "------------\n",
    put "Magic:\t\t" (hex file.fHdr.magic.toNat) "\n",
    put "Version:\t" (dec file.fHdr.version.toInt) "\n",
    put "Info offset:\t" (dec file.fHdr.infoOffset.toInt) "\n",
    put "Cups offset:\t" (dec file.fHdr.cupsOffset.toInt) "\n",
    put "BMG offset:\t" (dec file.fHdr.bmgOffset.toInt) "\n",
    put "Mod folder:\t" (str modNameMax file.fHdr.modFolderName.toList) "\n\n",
    ascii "INFO HEADER\n",
    ascii "------------\n",
    put "Magic:\t\t" (hex file.iHdr.magic.toNat) "\n",
    put "Version:\t" (dec file.iHdr.version.toInt) "\n",
    put "Size:\t\t" (dec file.iHdr.size.toInt) "\n\n",
    ascii "INFO FIELDS\n",
    ascii "------------\n",
    put "Room key:\t" (dec file.iFld.roomKey.toInt) "\n",
    put "100cc chance:\t" (dec file.iFld.prob100cc.toInt) "\n",
    put "150cc chance:\t" (dec file.iFld.prob150cc.toInt) "\n",
    put "Region:\t\t" (dec file.iFld.wiimmfiRegion.toInt) "\n",
    put "Blocking:\t" (dec file.iFld.trackBlocking.toInt) "\n",
    put "TT trophies:\t" (dec file.iFld.ttTrophies.toNat) "\n",
    put "200cc:\t\t" (dec file.iFld.enable200cc.toNat) "\n",
    put "UMTs:\t\t" (dec file.iFld.umts.toNat) "\n",
    put "Feather:\t" (dec file.iFld.feather.toNat) "\n",
    put "Mega TC:\t" (dec file.iFld.megaTc.toNat) "\n",
    put "Cup icon count:\t" (dec file.iFld.nCupIcons.toNat) "\n",
    put "Track timer:\t" (dec file.iFld.trackTimer.toNat) "\n\n",
    ascii "CUPS HEADER\n",
    ascii "------------\n",
    put "Magic:\t\t" (hex file.cHdr.magic.toNat) "\n",
    put "Version:\t" (dec file.cHdr.version.toInt) "\n",
    put "Size:\t\t" (dec file.cHdr.size.toInt) "\n",
    put "Cup count:\t" (dec file.cHdr.nCtCups.toNat) "\n",
    put "Track mode:\t" (dec file.cHdr.ninTrackMode.toNat) "\n",
    put "Trophy count 1:\t" (dec file.cHdr.nTrophies[0]!.toNat) "\n",
    put "Trophy count 2:\t" (dec file.cHdr.nTrophies[1]!.toNat) "\n",
    put "Trophy count 3:\t" (dec file.cHdr.nTrophies[2]!.toNat) "\n",
    put "Trophy count 4:\t" (dec file.cHdr.nTrophies[3]!.toNat) "\n",
    put "Variant count:\t" (dec file.cHdr.nVariants.toInt) "\n\n"].flatten

def numPerLine : Nat := 10

def printAlphabetIndex (x : BitVec 16) (index : Nat) : List Byte :=
  let nl := if (index + 1) % numPerLine = 0 then "\n" else "\t"
  put "" (dec x.toNat) nl

def printLoop {α : Type} (print : α → Nat → List Byte) (xs : List α) : Nat → Except Fault (List Byte)
  | 0 => return []
  | n + 1 => do
    let before ← printLoop print xs n
    let x ← element xs n
    return before ++ print x n

def printTrackEntries (file : PulFile) : Except Fault (List Byte) :=
  printLoop printTrackEntry file.tArr (nTracks file.cHdr.nCtCups)

def printAlphabetTable (file : PulFile) : Except Fault (List Byte) := do
  let table ← printLoop printAlphabetIndex file.alphabetTable (nTracks file.cHdr.nCtCups)
  return [ascii "ALPHABET INDEX TABLE\n", ascii "---------------------\n", table, ascii "\n\n"].flatten

theorem printLoop_ok {α : Type} (print : α → Nat → List Byte) (xs : List α) : ∀ n ≤ xs.length,
    printLoop print xs n = .ok ((xs.take n).zipIdx.flatMap fun p => print p.1 p.2) := by
  intro n
  induction n with
  | zero => intro _; rfl
  | succ n ih =>
    intro h
    have hn : n < xs.length := h
    have ht : (xs.take n).length = n := List.length_take_of_le (Nat.le_of_lt hn)
    simp only [printLoop, ih (Nat.le_of_lt hn), element_ok hn, bind, Except.bind,
      List.take_succ_eq_append_getElem hn, List.zipIdx_append, List.flatMap_append, ht, Nat.zero_add]
    simp [pure, Except.pure]

end Catapult
