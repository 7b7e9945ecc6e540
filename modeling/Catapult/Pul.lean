import Catapult.Binary

/-!
# PUL files: `pul.h` and `pul.c`

The structures of a PUL file, its reader, the exports of the two sub-files and
the writer. A reader gets the previous content of the structure it fills: a
header whose magic does not match is left as it was, apart from the magic.
-/

namespace Catapult

open BigEndian Cursor Stdio

abbrev fileMagic : BitVec 32 := 0x50554C53
abbrev infoMagic : BitVec 32 := 0x494E464F
abbrev cupsMagic : BitVec 32 := 0x43555053
abbrev bmgMagic1 : BitVec 32 := 0x4D455347
abbrev bmgMagic2 : BitVec 32 := 0x626D6731
abbrev textMagic : BitVec 32 := 0x46494C45

abbrev modNameMax : Nat := 16

structure FileHeader where
  magic : BitVec 32
  version : BitVec 32
  infoOffset : BitVec 32
  cupsOffset : BitVec 32
  bmgOffset : BitVec 32
  modFolderName : Vector Byte modNameMax
  deriving DecidableEq, Repr

structure InfoHeader where
  magic : BitVec 32
  version : BitVec 32
  size : BitVec 32
  deriving DecidableEq, Repr

structure InfoFields where
  roomKey : BitVec 32
  prob100cc : BitVec 32
  prob150cc : BitVec 32
  wiimmfiRegion : BitVec 32
  trackBlocking : BitVec 32
  ttTrophies : Byte
  enable200cc : Byte
  umts : Byte
  feather : Byte
  megaTc : Byte
  nCupIcons : BitVec 16
  trackTimer : Byte
  padding : Vector Byte 40
  deriving DecidableEq, Repr

structure CupsHeader where
  magic : BitVec 32
  version : BitVec 32
  size : BitVec 32
  nCtCups : BitVec 16
  ninTrackMode : Byte
  padding : Byte
  nTrophies : Vector (BitVec 16) 4
  nVariants : BitVec 32
  deriving DecidableEq, Repr

structure TrackEntry where
  trackSlot : Byte
  musicSlot : Byte
  nVariants : BitVec 16
  crc32 : BitVec 32
  deriving DecidableEq, Repr

/-- The two tables are the arrays behind the pointers `t_arr` and
`alphabet_table`. -/
structure PulFile where
  fHdr : FileHeader
  iHdr : InfoHeader
  iFld : InfoFields
  cHdr : CupsHeader
  tArr : List TrackEntry
  alphabetTable : List (BitVec 16)
  deriving DecidableEq, Repr

def nTracks (nCtCups : BitVec 16) : Nat := 4 * (nCtCups.toNat + nCtCups.toNat % 2)

/-! ## Read PUL file -/

/-- What the section readers share: at a wrong magic they report and return,
and only the magic of the structure has changed. -/
def readSection {α : Type} (expected : BitVec 32) (msg : String) (bad : BitVec 32 → α)
    (fields : BitVec 32 → Read α) : Read α := do
  let magic ← readBeUint32
  if magic ≠ expected then
    say msg
    return bad magic
  else fields magic

def readFileHeader (hdr : FileHeader) : Read FileHeader :=
  readSection fileMagic "Invalid data: PULS\n" (fun magic => { hdr with magic }) fun magic => do
    let version ← readBeUint32
    let infoOffset ← readBeUint32
    let cupsOffset ← readBeUint32
    let bmgOffset ← readBeUint32
    let modFolderName ← readBytes modNameMax
    return { magic, version, infoOffset, cupsOffset, bmgOffset, modFolderName }

def readFileInfo (hdr : InfoHeader) (fld : InfoFields) : Read (InfoHeader × InfoFields) :=
  readSection infoMagic "Invalid data: INFO\n" (fun magic => ({ hdr with magic }, fld)) fun magic => do
    let version ← readBeUint32
    let size ← readBeUint32
    let roomKey ← readBeUint32
    let prob100cc ← readBeUint32
    let prob150cc ← readBeUint32
    let wiimmfiRegion ← readBeUint32
    let trackBlocking ← readBeUint32
    let ttTrophies ← readByte
    let enable200cc ← readByte
    let umts ← readByte
    let feather ← readByte
    let megaTc ← readByte
    let nCupIcons ← readBeUint16
    let trackTimer ← readByte
    let padding ← readBytes 40
    return ({ magic, version, size },
      { roomKey, prob100cc, prob150cc, wiimmfiRegion, trackBlocking, ttTrophies, enable200cc, umts, feather,
        megaTc, nCupIcons, trackTimer, padding })

def readCupsHeader (hdr : CupsHeader) : Read CupsHeader :=
  readSection cupsMagic "Invalid data: CUPS\n" (fun magic => { hdr with magic }) fun magic => do
    let version ← readBeUint32
    let size ← readBeUint32
    let nCtCups ← readBeUint16
    let ninTrackMode ← readByte
    let padding ← readByte
    let t₀ ← readBeUint16
    let t₁ ← readBeUint16
    let t₂ ← readBeUint16
    let t₃ ← readBeUint16
    let nVariants ← readBeUint32
    return { magic, version, size, nCtCups, ninTrackMode, padding, nTrophies := #v[t₀, t₁, t₂, t₃], nVariants }

def readTrackEntry : Read TrackEntry := do
  let trackSlot ← readByte
  let musicSlot ← readByte
  let nVariants ← readBeUint16
  let crc32 ← readBeUint32
  return { trackSlot, musicSlot, nVariants, crc32 }

def countTracks (nCtCups : BitVec 16) : Read Nat := do
  let odd ← int (nCtCups.toNat % 2)
  let nCups ← int (nCtCups.toNat + odd)
  let n ← int (4 * nCups)
  return n.toNat

/-- The part of `read_file` behind the CUPS header: both tables are allocated
with one slot for each track and filled. -/
def readTables (cHdr : CupsHeader) : Read (List TrackEntry × List (BitVec 16)) := do
  let n ← countTracks cHdr.nCtCups
  let _ ← sizeT (8 * n)
  let tArr ← fill readTrackEntry n
  let _ ← sizeT (2 * n)
  let alphabetTable ← fill readBeUint16 n
  return (tArr.toList, alphabetTable.toList)

def readFile (file : PulFile) : Read PulFile := do
  let fHdr ← readFileHeader file.fHdr
  let info ← readFileInfo file.iHdr file.iFld
  let cHdr ← readCupsHeader file.cHdr
  let tables ← readTables cHdr
  return { fHdr, iHdr := info.1, iFld := info.2, cHdr, tArr := tables.1, alphabetTable := tables.2 }

/-! ## Export sub-files -/

/-- What both exports start with: the two magics and the size field of the
BMG, or `none` at a wrong magic. -/
def bmgSize (I : Impl) (buffer : List Byte) (start : Int) : Except Fault (Option Nat) := do
  let (magic₁, s) ← readBeUint32.exec I buffer ⟨start, []⟩
  if magic₁ ≠ bmgMagic1 then return none
  else
    let (magic₂, s) ← readBeUint32.exec I buffer s
    if magic₂ ≠ bmgMagic2 then return none
    else
      let (size, _) ← readBeUint32.exec I buffer s
      return some size.toNat

/-- `fopen(path, "wb")`, one `fwrite` of the `n` bytes at `&buffer[start]`, `fclose`. -/
def dump (opens : Bool) (buffer : List Byte) (start : Int) (n : Nat) (path : String) (w : World) :
    Except Fault World := do
  let (fp, w) := openWrite opens path w
  let bytes ← copyFrom buffer start n
  let (_, fp) ← (fwrite bytes).run fp
  close fp w

def exportBmg (I : Impl) (opens : Bool) (file : PulFile) (buffer : List Byte) (path : String) (w : World) :
    Except Fault World := do
  let start := file.fHdr.bmgOffset.toInt
  match ← bmgSize I buffer start with
  | none => return w.report ["BMG magic invalid\n"]
  | some fSize => dump opens buffer start fSize path w

/-- `offset = start + f_size`: the sum is a `size_t`, the offset an `int`. -/
def textOffset (start : Int) (fSize : Nat) : Int := ((start + fSize) % 2 ^ 64).bmod (2 ^ 32)

def textSize (size : Nat) (offset : Int) : Nat := ((size - offset) % 2 ^ 64).toNat

def exportTxt (I : Impl) (opens : Bool) (file : PulFile) (buffer : List Byte) (size : Nat) (path : String)
    (w : World) : Except Fault World := do
  let start := file.fHdr.bmgOffset.toInt
  match ← bmgSize I buffer start with
  | none => return w.report ["BMG magic invalid: export txt\n"]
  | some fSize =>
    let offset := textOffset start fSize
    let (magic, _) ← readBeUint32.exec I buffer ⟨offset, []⟩
    if magic ≠ textMagic then return w.report ["FILE magic invalid\n"]
    else dump opens buffer offset (textSize size offset) path w

/-! ## Write PUL file -/

def writeFileHeader (fHdr : FileHeader) : Write Unit := do
  writeBeUint32 fHdr.magic
  writeBeUint32 fHdr.version
  writeBeUint32 fHdr.infoOffset
  writeBeUint32 fHdr.cupsOffset
  writeBeUint32 fHdr.bmgOffset
  fwrite fHdr.modFolderName.toList

def writeInfo (iHdr : InfoHeader) (iFld : InfoFields) : Write Unit := do
  writeBeUint32 iHdr.magic
  writeBeUint32 iHdr.version
  writeBeUint32 iHdr.size
  writeBeUint32 iFld.roomKey
  writeBeUint32 iFld.prob100cc
  writeBeUint32 iFld.prob150cc
  writeBeUint32 iFld.wiimmfiRegion
  writeBeUint32 iFld.trackBlocking
  writeByte iFld.ttTrophies
  writeByte iFld.enable200cc
  writeByte iFld.umts
  writeByte iFld.feather
  writeByte iFld.megaTc
  writeBeUint16 iFld.nCupIcons
  writeByte iFld.trackTimer
  fwrite iFld.padding.toList

def writeCups (cHdr : CupsHeader) : Write Unit := do
  writeBeUint32 cHdr.magic
  writeBeUint32 cHdr.version
  writeBeUint32 cHdr.size
  writeBeUint16 cHdr.nCtCups
  writeByte cHdr.ninTrackMode
  writeByte cHdr.padding
  writeBeUint16 cHdr.nTrophies[0]!
  writeBeUint16 cHdr.nTrophies[1]!
  writeBeUint16 cHdr.nTrophies[2]!
  writeBeUint16 cHdr.nTrophies[3]!
  writeBeUint32 cHdr.nVariants

def writeTrackEntry (track : TrackEntry) : Write Unit := do
  writeByte track.trackSlot
  writeByte track.musicSlot
  writeBeUint16 track.nVariants
  writeBeUint32 track.crc32

def writeHeaders (file : PulFile) : Write Unit := do
  writeFileHeader file.fHdr
  writeInfo file.iHdr file.iFld
  writeCups file.cHdr
  count (fun i => element file.tArr i >>= writeTrackEntry) (nTracks file.cHdr.nCtCups)
  count (fun i => element file.alphabetTable i >>= writeBeUint16) (nTracks file.cHdr.nCtCups)

/-- How the library calls of one `write_file` turn out. `bmgSeen` and `txtSeen`
are the bytes of the output that are in its file when the sub-file is opened. -/
structure WriteOutcome where
  opens : Bool
  bmg : LoadOutcome
  bmgSeen : Nat
  txt : LoadOutcome
  txtSeen : Nat

def WriteOutcome.success : WriteOutcome := ⟨true, .success, 0, .success, 0⟩

structure WriteOutcome.Succeeds (o : WriteOutcome) : Prop where
  opens : o.opens = true
  bmg : o.bmg = .success
  txt : o.txt = .success

def writeFile (o : WriteOutcome) (file : PulFile) (filename bmgPath txtPath : String) (w : World) :
    Except Fault World := do
  let (fp, w) := openWrite o.opens filename w
  let (_, fp) ← (writeHeaders file).run fp
  let w := sync fp o.bmgSeen w
  let (bmgBuff, w) := bufferFromFile o.bmg bmgPath w
  let (_, fp) ← (fwrite bmgBuff.bytes).run fp
  let w := sync fp o.txtSeen w
  let (txtBuff, w) := bufferFromFile o.txt txtPath w
  let (_, fp) ← (fwrite txtBuff.bytes).run fp
  close fp w

end Catapult
