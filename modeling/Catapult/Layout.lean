import Catapult.Pul

/-!
# The layout of a PUL file

What a PUL file is, independently of the code: each structure as a table of
fields, most significant byte first, the tables behind the CUPS header, and
then the two sub-files. An `Archive` is a configuration whose magics and table
lengths are right together with a BMG and a text file; it is `Located` when its
header says where its BMG is.
-/

namespace Catapult

open BigEndian

/-! ## Fields -/

def fileFields (h : FileHeader) : List Byte :=
  [toBytes 4 h.version, toBytes 4 h.infoOffset, toBytes 4 h.cupsOffset, toBytes 4 h.bmgOffset,
    h.modFolderName.toList].flatten

def infoFields (x : InfoHeader × InfoFields) : List Byte :=
  [toBytes 4 x.1.version, toBytes 4 x.1.size, toBytes 4 x.2.roomKey, toBytes 4 x.2.prob100cc,
    toBytes 4 x.2.prob150cc, toBytes 4 x.2.wiimmfiRegion, toBytes 4 x.2.trackBlocking, [x.2.ttTrophies],
    [x.2.enable200cc], [x.2.umts], [x.2.feather], [x.2.megaTc], toBytes 2 x.2.nCupIcons, [x.2.trackTimer],
    x.2.padding.toList].flatten

def cupsFields (h : CupsHeader) : List Byte :=
  [toBytes 4 h.version, toBytes 4 h.size, toBytes 2 h.nCtCups, [h.ninTrackMode], [h.padding],
    toBytes 2 h.nTrophies[0]!, toBytes 2 h.nTrophies[1]!, toBytes 2 h.nTrophies[2]!,
    toBytes 2 h.nTrophies[3]!, toBytes 4 h.nVariants].flatten

def trackBytes (t : TrackEntry) : List Byte :=
  [[t.trackSlot], [t.musicSlot], toBytes 2 t.nVariants, toBytes 4 t.crc32].flatten

/-! ## Sections -/

def fileHeaderBytes (h : FileHeader) : List Byte := toBytes 4 h.magic ++ fileFields h

def infoBytes (x : InfoHeader × InfoFields) : List Byte := toBytes 4 x.1.magic ++ infoFields x

def cupsBytes (h : CupsHeader) : List Byte := toBytes 4 h.magic ++ cupsFields h

def tablesBytes (x : List TrackEntry × List (BitVec 16)) : List Byte :=
  x.1.flatMap trackBytes ++ x.2.flatMap (toBytes 2)

def PulFile.bytes (f : PulFile) : List Byte :=
  fileHeaderBytes f.fHdr ++ (infoBytes (f.iHdr, f.iFld) ++ (cupsBytes f.cHdr ++
    tablesBytes (f.tArr, f.alphabetTable)))

def tablesEnd (nCtCups : BitVec 16) : Nat := 144 + 10 * nTracks nCtCups

structure PulFile.WellFormed (f : PulFile) : Prop where
  fileMagic : f.fHdr.magic = fileMagic
  infoMagic : f.iHdr.magic = infoMagic
  cupsMagic : f.cHdr.magic = cupsMagic
  tArr : f.tArr.length = nTracks f.cHdr.nCtCups
  alphabetTable : f.alphabetTable.length = nTracks f.cHdr.nCtCups

/-- Both tables have an entry for each track of the cup count. -/
structure PulFile.TablesComplete (f : PulFile) : Prop where
  tArr : f.tArr.length = nTracks f.cHdr.nCtCups
  alphabetTable : f.alphabetTable.length = nTracks f.cHdr.nCtCups

theorem PulFile.WellFormed.tablesComplete {f : PulFile} (hf : f.WellFormed) : f.TablesComplete :=
  ⟨hf.tArr, hf.alphabetTable⟩

/-! ## Sub-files -/

structure IsBmg (bmg : List Byte) : Prop where
  header : 12 ≤ bmg.length
  magic₁ : wordAt 32 bmg 0 = bmgMagic1
  magic₂ : wordAt 32 bmg 4 = bmgMagic2
  size : (wordAt 32 bmg 8).toNat = bmg.length

structure IsText (txt : List Byte) : Prop where
  header : 4 ≤ txt.length
  magic : wordAt 32 txt 0 = textMagic

structure Archive where
  pul : PulFile
  bmg : List Byte
  txt : List Byte
  wellFormed : pul.WellFormed
  isBmg : IsBmg bmg
  isText : IsText txt

def Archive.bytes (a : Archive) : List Byte := a.pul.bytes ++ (a.bmg ++ a.txt)

/-- The header gives the position the BMG really has. -/
def Archive.Located (a : Archive) : Prop := a.pul.fHdr.bmgOffset.toNat = a.pul.bytes.length

/-! ## Lengths -/

@[simp] theorem length_fileFields (h : FileHeader) : (fileFields h).length = 32 := by
  simp [fileFields, modNameMax]

@[simp] theorem length_infoFields (x : InfoHeader × InfoFields) : (infoFields x).length = 76 := by
  simp [infoFields]

@[simp] theorem length_cupsFields (h : CupsHeader) : (cupsFields h).length = 24 := by simp [cupsFields]

@[simp] theorem length_trackBytes (t : TrackEntry) : (trackBytes t).length = 8 := by simp [trackBytes]

@[simp] theorem length_fileHeaderBytes (h : FileHeader) : (fileHeaderBytes h).length = 36 := by
  simp [fileHeaderBytes]

@[simp] theorem length_infoBytes (x : InfoHeader × InfoFields) : (infoBytes x).length = 80 := by
  simp [infoBytes]

@[simp] theorem length_cupsBytes (h : CupsHeader) : (cupsBytes h).length = 28 := by simp [cupsBytes]

@[simp] theorem length_tablesBytes (x : List TrackEntry × List (BitVec 16)) :
    (tablesBytes x).length = 8 * x.1.length + 2 * x.2.length := by
  simp only [tablesBytes, List.length_append, Cursor.length_flatMap length_trackBytes,
    Cursor.length_flatMap (length_toBytes 2)]
  omega

theorem PulFile.drop_fileHeader (f : PulFile) (post : List Byte) : (f.bytes ++ post).drop 36 =
    infoBytes (f.iHdr, f.iFld) ++ ((cupsBytes f.cHdr ++ tablesBytes (f.tArr, f.alphabetTable)) ++ post) := by
  simp only [PulFile.bytes, List.append_assoc]
  exact List.drop_left' (length_fileHeaderBytes _)

theorem PulFile.drop_info (f : PulFile) (post : List Byte) : (f.bytes ++ post).drop 116 =
    (cupsBytes f.cHdr ++ tablesBytes (f.tArr, f.alphabetTable)) ++ post := by
  have h := List.drop_drop (i := 80) (j := 36) (l := f.bytes ++ post)
  rw [f.drop_fileHeader, List.drop_left' (length_infoBytes _)] at h
  exact h.symm

theorem PulFile.WellFormed.length_bytes {f : PulFile} (hf : f.WellFormed) :
    f.bytes.length = tablesEnd f.cHdr.nCtCups := by
  simp only [PulFile.bytes, List.length_append, length_fileHeaderBytes, length_infoBytes, length_cupsBytes,
    length_tablesBytes, hf.tArr, hf.alphabetTable, tablesEnd]
  omega

theorem Archive.length_bytes (a : Archive) :
    a.bytes.length = tablesEnd a.pul.cHdr.nCtCups + a.bmg.length + a.txt.length := by
  simp only [Archive.bytes, List.length_append, a.wellFormed.length_bytes]
  omega

theorem nTracks_le (n : BitVec 16) : nTracks n ≤ 262144 := by
  have := n.isLt
  unfold nTracks
  omega

theorem tablesEnd_lt (n : BitVec 16) : tablesEnd n < 2 ^ 31 := by
  have := nTracks_le n
  unfold tablesEnd
  omega

end Catapult
