import Catapult.ReadSound

/-!
# What `write_file` leaves in its output

An opened output ends up holding the layout of the structure and whatever the
two loads delivered; if the loads succeed on files other than the output, that
is the two sub-files.
-/

namespace Catapult

open BigEndian Cursor Stdio

/-! ## Headers and tables -/

theorem appends_writeFileHeader (h : FileHeader) : Appends (writeFileHeader h) (fileHeaderBytes h) :=
  (appends_writeBeUint32 h.magic).cons <| (appends_writeBeUint32 h.version).cons <|
    (appends_writeBeUint32 h.infoOffset).cons <| (appends_writeBeUint32 h.cupsOffset).cons <|
    (appends_writeBeUint32 h.bmgOffset).cons <| (appends_fwrite h.modFolderName.toList).last

theorem appends_writeInfo (iHdr : InfoHeader) (iFld : InfoFields) :
    Appends (writeInfo iHdr iFld) (infoBytes (iHdr, iFld)) :=
  (appends_writeBeUint32 iHdr.magic).cons <| (appends_writeBeUint32 iHdr.version).cons <|
    (appends_writeBeUint32 iHdr.size).cons <| (appends_writeBeUint32 iFld.roomKey).cons <|
    (appends_writeBeUint32 iFld.prob100cc).cons <| (appends_writeBeUint32 iFld.prob150cc).cons <|
    (appends_writeBeUint32 iFld.wiimmfiRegion).cons <| (appends_writeBeUint32 iFld.trackBlocking).cons <|
    (appends_writeByte iFld.ttTrophies).cons <| (appends_writeByte iFld.enable200cc).cons <|
    (appends_writeByte iFld.umts).cons <| (appends_writeByte iFld.feather).cons <|
    (appends_writeByte iFld.megaTc).cons <| (appends_writeBeUint16 iFld.nCupIcons).cons <|
    (appends_writeByte iFld.trackTimer).cons <| (appends_fwrite iFld.padding.toList).last

theorem appends_writeCups (h : CupsHeader) : Appends (writeCups h) (cupsBytes h) :=
  (appends_writeBeUint32 h.magic).cons <| (appends_writeBeUint32 h.version).cons <|
    (appends_writeBeUint32 h.size).cons <| (appends_writeBeUint16 h.nCtCups).cons <|
    (appends_writeByte h.ninTrackMode).cons <| (appends_writeByte h.padding).cons <|
    (appends_writeBeUint16 h.nTrophies[0]!).cons <| (appends_writeBeUint16 h.nTrophies[1]!).cons <|
    (appends_writeBeUint16 h.nTrophies[2]!).cons <| (appends_writeBeUint16 h.nTrophies[3]!).cons <|
    (appends_writeBeUint32 h.nVariants).last

theorem appends_writeTrackEntry (t : TrackEntry) : Appends (writeTrackEntry t) (trackBytes t) :=
  (appends_writeByte t.trackSlot).cons <| (appends_writeByte t.musicSlot).cons <|
    (appends_writeBeUint16 t.nVariants).cons <| (appends_writeBeUint32 t.crc32).last

theorem appends_writeHeaders {f : PulFile} (hf : f.TablesComplete) : Appends (writeHeaders f) f.bytes := by
  have ht := Appends.each f.tArr appends_writeTrackEntry
  have ha := Appends.each f.alphabetTable appends_writeBeUint16
  rw [hf.tArr] at ht
  rw [hf.alphabetTable] at ha
  exact (appends_writeFileHeader _).seq <| (appends_writeInfo _ _).seq <| (appends_writeCups _).seq <| ht.seq ha

/-! ## The whole file -/

section
variable {o : WriteOutcome} {f : PulFile} (filename bmgPath txtPath : String) (w : World)

/-- Whatever the loads deliver, an opened output gets the headers, the tables
and what they delivered. -/
theorem writeFile_opened (ho : o.opens = true) (hf : f.WellFormed) : ∃ bmg txt w',
    writeFile o f filename bmgPath txtPath w = .ok w' ∧
      w'.files filename = some (f.bytes ++ (bmg ++ txt)) := by
  unfold writeFile openWrite
  rw [if_pos ho]
  simp only [appends_writeHeaders hf.tablesComplete _, appends_fwrite _ _, bind, Except.bind]
  exact ⟨_, _, _, rfl, by simp [List.append_assoc]; rfl⟩

variable {filename bmgPath txtPath w}

theorem writeFile_success (ho : o.Succeeds) (hf : f.WellFormed) {bmg txt : List Byte}
    (hb : w.files bmgPath = some bmg) (ht : w.files txtPath = some txt)
    (hb' : bmgPath ≠ filename) (ht' : txtPath ≠ filename) :
    writeFile o f filename bmgPath txtPath w = .ok (w.setFile filename (f.bytes ++ (bmg ++ txt))) := by
  have load : ∀ (p : String) (c : List Byte) (v : List Byte), p ≠ filename → w.files p = some c →
      bufferFromFile .success p (w.setFile filename v) = (⟨some c, c.length⟩, w.setFile filename v) := by
    intro p c v hp hc
    exact bufferFromFile_success (by rw [files_setFile_of_ne w v hp, hc])
  unfold writeFile openWrite
  rw [if_pos ho.opens]
  simp only [appends_writeHeaders hf.tablesComplete _, appends_fwrite _ _, bind, Except.bind, sync, setFile_setFile,
    ho.bmg, ho.txt, load bmgPath bmg _ hb' hb, load txtPath txt _ ht' ht]
  simp [close, Buffer.bytes]

end

/-! ## Decoding what was encoded -/

def samplePul : PulFile where
  fHdr := ⟨fileMagic, 3, 36, 116, 224, Vector.replicate 16 0x41⟩
  iHdr := ⟨infoMagic, 1, 80⟩
  iFld := ⟨0xDEADBEEF, 50, 50, 0x2FD, 10, 1, 0, 1, 1, 0, 1, 30, Vector.replicate 40 0⟩
  cHdr := ⟨cupsMagic, 3, 108, 1, 2, 0, #v[4, 3, 2, 1], 0⟩
  tArr := List.replicate 8 ⟨8, 8, 1, 0xCAFEBABE⟩
  alphabetTable := [0, 1, 2, 3, 4, 5, 6, 7]

theorem wellFormed_samplePul : samplePul.WellFormed := ⟨rfl, rfl, rfl, rfl, rfl⟩

/-- **Decode undoes encode.** Read back at any position of a larger buffer, the
output of `write_file` is the structure it was given, up to the end of the
tables, whatever the sub-files were. -/
theorem readFile_writeFile (o : WriteOutcome) (ho : o.opens = true) (pf f : PulFile) (hf : f.WellFormed)
    (filename bmgPath txtPath : String) (w : World) : ∃ w' out,
    writeFile o f filename bmgPath txtPath w = .ok w' ∧ w'.files filename = some out ∧
    ∀ (p : List Byte) (log : List String), p.length + out.length < 2 ^ 31 →
      (readFile pf).exec .native (p ++ out) ⟨p.length, log⟩ =
        .ok (f, ⟨(p.length + (144 + 10 * nTracks f.cHdr.nCtCups) : Nat), log⟩) := by
  obtain ⟨bmg, txt, w', hw, hout⟩ := writeFile_opened filename bmgPath txtPath w ho hf
  refine ⟨w', _, hw, hout, fun p log hl => ?_⟩
  rw [List.length_append] at hl
  have := parses_readFile pf hf p (bmg ++ txt) log (by omega)
  rwa [hf.length_bytes] at this

theorem readFile_writeFile_samplePul : ∃ out,
    (readFile samplePul).exec .native ([7, 7] ++ out) ⟨2, []⟩ = .ok (samplePul, ⟨226, []⟩) := by
  let w : World := ⟨fun p => if p = "bmg" then some [1, 2] else if p = "txt" then some [3] else none, [], []⟩
  obtain ⟨w', out, hw, hout, h⟩ := readFile_writeFile .success rfl samplePul samplePul wellFormed_samplePul
    "out" "bmg" "txt" w
  have hs := writeFile_success (w := w) ⟨rfl, rfl, rfl⟩ wellFormed_samplePul (o := .success) rfl rfl
    (show "bmg" ≠ "out" by decide) (show "txt" ≠ "out" by decide)
  have ew : w' = _ := Except.ok.inj (hw.symm.trans hs)
  rw [ew, files_setFile_self] at hout
  refine ⟨out, h [7, 7] [] ?_⟩
  rw [← Option.some.inj hout, List.length_append, wellFormed_samplePul.length_bytes]
  decide

end Catapult
