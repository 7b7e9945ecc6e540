import Catapult.BinarySound
import Catapult.Layout

/-!
# What `read_file` does to a buffer

Each section reader does one of three things: it faults, it meets a wrong magic
and keeps the rest of its structure, or it returns the structure whose layout
the bytes are. On the layout of a well-formed file `read_file` returns the file.
-/

namespace Catapult

open BigEndian Cursor

theorem parses32 (x : BitVec 32) : Parses .native readBeUint32 (toBytes 4 x) x := codec_readBeUint32.parses x
theorem parses16 (x : BitVec 16) : Parses .native readBeUint16 (toBytes 2 x) x := codec_readBeUint16.parses x
theorem parses8 (x : Byte) : Parses .native readByte [x] x := (codec_readByte _).parses x
theorem parsesBytes {n : Nat} (v : Vector Byte n) : Parses .native (readBytes n) v.toList v :=
  (codec_readBytes _ n).parses v

/-! ## Fields behind a magic -/

/-- `fields M` reads `k` bytes, and every string of that length is the tail of a
structure with the magic `M`. -/
structure FieldsOf {α : Type} (M : BitVec 32) (fields : BitVec 32 → Read α) (magic : α → BitVec 32)
    (tail : α → List Byte) (k : Nat) : Prop where
  parses : ∀ x, magic x = M → Parses .native (fields M) (tail x) x
  onto : ∀ bs : List Byte, bs.length = k → ∃ x, magic x = M ∧ tail x = bs
  takes : Takes .native (fields M) k

def sectionEnd (M : BitVec 32) (k : Nat) (b : List Byte) (o : Nat) : Nat :=
  o + if wordAt 32 b o = M then 4 + k else 4

/-- What a family of readers does, `rd a` being given the previous content `a`. -/
structure SectionReader {α : Type} (rd : α → Read α) (M : BitVec 32) (msg : String) (bad : α → BitVec 32 → α)
    (magic : α → BitVec 32) (tail : α → List Byte) (k : Nat) : Prop where
  parses : ∀ a x, magic x = M → Parses .native (rd a) (toBytes 4 (magic x) ++ tail x) x
  onto : ∀ bs : List Byte, bs.length = k → ∃ x, magic x = M ∧ tail x = bs
  wrong : ∀ a b o log, o + 4 ≤ b.length → o + 4 < 2 ^ 31 → wordAt 32 b o ≠ M →
    (rd a).exec .native b ⟨(o : Nat), log⟩ = .ok (bad a (wordAt 32 b o), ⟨(o + 4 : Nat), log ++ [msg]⟩)
  short : ∀ a b o log, o ≤ b.length → b.length < sectionEnd M k b o → o + 4 + k < 2 ^ 31 →
    ∃ i, (rd a).exec .native b ⟨(o : Nat), log⟩ = .error (.outOfBounds i)

theorem exec_readBeUint32 {b : List Byte} {o : Nat} (log : List String) (h : o + 4 ≤ b.length)
    (hi : o + 4 < 2 ^ 31) :
    readBeUint32.exec .native b ⟨o, log⟩ = .ok (wordAt 32 b o, ⟨(o + 4 : Nat), log⟩) := by
  have := (parses32 (wordAt 32 b o)).exec_slice (b := b) (o := o) (by simp [toBytes_wordAt 4 rfl h])
    (by simpa using h) (by simpa using hi) log
  simpa using this

section
variable {α : Type} {rd : α → Read α} {M : BitVec 32} {msg : String} {bad : α → BitVec 32 → α}
  {fields : BitVec 32 → Read α} {magic : α → BitVec 32} {tail : α → List Byte} {k : Nat}

theorem FieldsOf.sectionReader (hf : FieldsOf M fields magic tail k)
    (hrd : ∀ a, rd a = readSection M msg (bad a) fields) : SectionReader rd M msg bad magic tail k where
  parses a x hx := by
    rw [hrd, hx]
    refine (parses32 M).bind ?_
    rw [if_neg (not_not.mpr rfl)]
    exact hf.parses x hx
  onto := hf.onto
  wrong a b o log hl hi hM := by
    rw [hrd, readSection, exec_bind_ok _ _ _ (exec_readBeUint32 log hl hi), if_pos hM,
      exec_bind_ok _ _ _ (exec_say _ _ _ _), exec_pure]
  short a b o log ho hl hi := by
    rw [hrd, readSection]
    by_cases h : o + 4 ≤ b.length
    · have hM : wordAt 32 b o = M := by
        by_contra hM
        simp only [sectionEnd, hM, ite_false] at hl
        omega
      simp only [sectionEnd, hM, ite_true] at hl
      rw [exec_bind_ok _ _ _ (exec_readBeUint32 log h (by omega)), hM, if_neg (not_not.mpr rfl)]
      exact hf.takes.faults b (o + 4) log h (by omega) (by omega)
    · obtain ⟨i, h⟩ := codec_readBeUint32.takes.faults b o log ho (by omega) (by omega)
      exact ⟨i, exec_bind_error _ _ _ h _⟩

theorem SectionReader.exists_split (h : SectionReader rd M msg bad magic tail k) {b : List Byte} {o : Nat}
    (hM : wordAt 32 b o = M) (hl : o + (4 + k) ≤ b.length) :
    ∃ x, magic x = M ∧ (b.drop o).take (4 + k) = toBytes 4 (magic x) ++ tail x := by
  obtain ⟨x, hx, ht⟩ := h.onto ((b.drop (o + 4)).take k) (by rw [List.length_take, List.length_drop]; omega)
  refine ⟨x, hx, ?_⟩
  rw [ht, hx, ← hM, toBytes_wordAt 4 rfl (by omega), List.take_add, List.drop_drop]

/-- A section that ends inside the buffer: its reader stops there, with the
structure whose layout the section is or, at a wrong magic, with the previous
one. -/
theorem SectionReader.run (h : SectionReader rd M msg bad magic tail k) (a : α) {b : List Byte} {o : Nat}
    (log : List String) (hl : sectionEnd M k b o ≤ b.length) (hi : o + 4 + k < 2 ^ 31) :
    ∃ x log', (rd a).exec .native b ⟨o, log⟩ = .ok (x, ⟨sectionEnd M k b o, log'⟩) ∧
      ((wordAt 32 b o = M ∧ magic x = M ∧ (b.drop o).take (4 + k) = toBytes 4 (magic x) ++ tail x) ∨
        (wordAt 32 b o ≠ M ∧ x = bad a (wordAt 32 b o))) := by
  by_cases hM : wordAt 32 b o = M
  · simp only [sectionEnd, hM, ite_true] at hl ⊢
    obtain ⟨x, hx, hs⟩ := h.exists_split hM hl
    have hk : (toBytes 4 (magic x) ++ tail x).length = 4 + k := by
      rw [← hs, List.length_take, List.length_drop]; omega
    have hr := (h.parses a x hx).exec_slice (b := b) (o := o) (by rw [hk, hs]) (by rw [hk]; omega)
      (by rw [hk]; omega) log
    rw [hk] at hr
    exact ⟨x, log, hr, .inl ⟨trivial, hx, hs⟩⟩
  · simp only [sectionEnd, hM, ite_false] at hl ⊢
    exact ⟨_, _, h.wrong a b o log hl (by omega) hM, .inr ⟨hM, rfl⟩⟩

end

/-! ## The three sections -/

theorem reader_fileHeader : SectionReader readFileHeader fileMagic "Invalid data: PULS\n"
    (fun hdr magic => { hdr with magic }) FileHeader.magic fileFields 32 := by
  refine FieldsOf.sectionReader ⟨?_, ?_, ?_⟩ fun _ => rfl
  · rintro ⟨magic, version, infoOffset, cupsOffset, bmgOffset, modFolderName⟩ rfl
    exact (parses32 version).cons <| (parses32 infoOffset).cons <| (parses32 cupsOffset).cons <|
      (parses32 bmgOffset).cons <| (parsesBytes modFolderName).cons <| Parses.pure _
  · intro bs h₀
    obtain ⟨version, bs₁, rfl, h₁⟩ := codec_readBeUint32.peel (n := 28) h₀
    obtain ⟨infoOffset, bs₂, rfl, h₂⟩ := codec_readBeUint32.peel (n := 24) h₁
    obtain ⟨cupsOffset, bs₃, rfl, h₃⟩ := codec_readBeUint32.peel (n := 20) h₂
    obtain ⟨bmgOffset, bs₄, rfl, h₄⟩ := codec_readBeUint32.peel (n := 16) h₃
    obtain ⟨modFolderName, rfl⟩ := (codec_readBytes .native modNameMax).onto bs₄ h₄
    exact ⟨⟨fileMagic, version, infoOffset, cupsOffset, bmgOffset, modFolderName⟩, rfl, by simp [fileFields]⟩
  · have t₃₂ := codec_readBeUint32.takes
    exact t₃₂.bind fun _ => t₃₂.bind fun _ => t₃₂.bind fun _ => t₃₂.bind fun _ =>
      (codec_readBytes .native modNameMax).takes.bind fun _ => Takes.pure _

theorem reader_fileInfo : SectionReader (fun x => readFileInfo x.1 x.2) infoMagic "Invalid data: INFO\n"
    (fun x magic => ({ x.1 with magic }, x.2)) (fun x => x.1.magic) infoFields 76 := by
  refine FieldsOf.sectionReader ⟨?_, ?_, ?_⟩ fun _ => rfl
  · rintro ⟨⟨magic, version, size⟩, ⟨roomKey, prob100cc, prob150cc, wiimmfiRegion, trackBlocking, ttTrophies,
      enable200cc, umts, feather, megaTc, nCupIcons, trackTimer, padding⟩⟩ rfl
    exact (parses32 version).cons <| (parses32 size).cons <| (parses32 roomKey).cons <|
      (parses32 prob100cc).cons <| (parses32 prob150cc).cons <| (parses32 wiimmfiRegion).cons <|
      (parses32 trackBlocking).cons <| (parses8 ttTrophies).cons <| (parses8 enable200cc).cons <|
      (parses8 umts).cons <| (parses8 feather).cons <| (parses8 megaTc).cons <| (parses16 nCupIcons).cons <|
      (parses8 trackTimer).cons <| (parsesBytes padding).cons <| Parses.pure _
  · intro bs h₀
    have c₈ := codec_readByte .native
    obtain ⟨version, bs₁, rfl, h₁⟩ := codec_readBeUint32.peel (n := 72) h₀
    obtain ⟨size, bs₂, rfl, h₂⟩ := codec_readBeUint32.peel (n := 68) h₁
    obtain ⟨roomKey, bs₃, rfl, h₃⟩ := codec_readBeUint32.peel (n := 64) h₂
    obtain ⟨prob100cc, bs₄, rfl, h₄⟩ := codec_readBeUint32.peel (n := 60) h₃
    obtain ⟨prob150cc, bs₅, rfl, h₅⟩ := codec_readBeUint32.peel (n := 56) h₄
    obtain ⟨wiimmfiRegion, bs₆, rfl, h₆⟩ := codec_readBeUint32.peel (n := 52) h₅
    obtain ⟨trackBlocking, bs₇, rfl, h₇⟩ := codec_readBeUint32.peel (n := 48) h₆
    obtain ⟨ttTrophies, bs₈, rfl, h₈⟩ := c₈.peel (n := 47) h₇
    obtain ⟨enable200cc, bs₉, rfl, h₉⟩ := c₈.peel (n := 46) h₈
    obtain ⟨umts, bs₁₀, rfl, h₁₀⟩ := c₈.peel (n := 45) h₉
    obtain ⟨feather, bs₁₁, rfl, h₁₁⟩ := c₈.peel (n := 44) h₁₀
    obtain ⟨megaTc, bs₁₂, rfl, h₁₂⟩ := c₈.peel (n := 43) h₁₁
    obtain ⟨nCupIcons, bs₁₃, rfl, h₁₃⟩ := codec_readBeUint16.peel (n := 41) h₁₂
    obtain ⟨trackTimer, bs₁₄, rfl, h₁₄⟩ := c₈.peel (n := 40) h₁₃
    obtain ⟨padding, rfl⟩ := (codec_readBytes .native 40).onto bs₁₄ h₁₄
    exact ⟨(⟨infoMagic, version, size⟩, ⟨roomKey, prob100cc, prob150cc, wiimmfiRegion, trackBlocking, ttTrophies,
      enable200cc, umts, feather, megaTc, nCupIcons, trackTimer, padding⟩), rfl, by simp [infoFields]⟩
  · have t₈ := (codec_readByte .native).takes
    have t₁₆ := codec_readBeUint16.takes
    have t₃₂ := codec_readBeUint32.takes
    exact t₃₂.bind fun _ => t₃₂.bind fun _ => t₃₂.bind fun _ => t₃₂.bind fun _ => t₃₂.bind fun _ =>
      t₃₂.bind fun _ => t₃₂.bind fun _ => t₈.bind fun _ => t₈.bind fun _ => t₈.bind fun _ => t₈.bind fun _ =>
      t₈.bind fun _ => t₁₆.bind fun _ => t₈.bind fun _ =>
      (codec_readBytes .native 40).takes.bind fun _ => Takes.pure _

theorem reader_cupsHeader : SectionReader readCupsHeader cupsMagic "Invalid data: CUPS\n"
    (fun hdr magic => { hdr with magic }) CupsHeader.magic cupsFields 24 := by
  refine FieldsOf.sectionReader ⟨?_, ?_, ?_⟩ fun _ => rfl
  · rintro ⟨magic, version, size, nCtCups, ninTrackMode, padding, ⟨⟨l⟩, hl⟩, nVariants⟩ rfl
    match l, hl with
    | [t₀, t₁, t₂, t₃], _ =>
      exact (parses32 version).cons <| (parses32 size).cons <| (parses16 nCtCups).cons <|
        (parses8 ninTrackMode).cons <| (parses8 padding).cons <| (parses16 t₀).cons <| (parses16 t₁).cons <|
        (parses16 t₂).cons <| (parses16 t₃).cons <| (parses32 nVariants).cons <| Parses.pure _
  · intro bs h₀
    have c₈ := codec_readByte .native
    obtain ⟨version, bs₁, rfl, h₁⟩ := codec_readBeUint32.peel (n := 20) h₀
    obtain ⟨size, bs₂, rfl, h₂⟩ := codec_readBeUint32.peel (n := 16) h₁
    obtain ⟨nCtCups, bs₃, rfl, h₃⟩ := codec_readBeUint16.peel (n := 14) h₂
    obtain ⟨ninTrackMode, bs₄, rfl, h₄⟩ := c₈.peel (n := 13) h₃
    obtain ⟨padding, bs₅, rfl, h₅⟩ := c₈.peel (n := 12) h₄
    obtain ⟨t₀, bs₆, rfl, h₆⟩ := codec_readBeUint16.peel (n := 10) h₅
    obtain ⟨t₁, bs₇, rfl, h₇⟩ := codec_readBeUint16.peel (n := 8) h₆
    obtain ⟨t₂, bs₈, rfl, h₈⟩ := codec_readBeUint16.peel (n := 6) h₇
    obtain ⟨t₃, bs₉, rfl, h₉⟩ := codec_readBeUint16.peel (n := 4) h₈
    obtain ⟨nVariants, rfl⟩ := codec_readBeUint32.onto bs₉ h₉
    exact ⟨⟨cupsMagic, version, size, nCtCups, ninTrackMode, padding, #v[t₀, t₁, t₂, t₃], nVariants⟩, rfl,
      by simp only [cupsFields, List.flatten_cons, List.flatten_nil, List.append_nil]; rfl⟩
  · have t₈ := (codec_readByte .native).takes
    have t₁₆ := codec_readBeUint16.takes
    have t₃₂ := codec_readBeUint32.takes
    exact t₃₂.bind fun _ => t₃₂.bind fun _ => t₁₆.bind fun _ => t₈.bind fun _ => t₈.bind fun _ =>
      t₁₆.bind fun _ => t₁₆.bind fun _ => t₁₆.bind fun _ => t₁₆.bind fun _ => t₃₂.bind fun _ => Takes.pure _

/-! ## Track entries and tables -/

theorem codec_readTrackEntry : Codec .native readTrackEntry trackBytes 8 where
  length := length_trackBytes
  parses := by
    rintro ⟨trackSlot, musicSlot, nVariants, crc32⟩
    exact (parses8 trackSlot).cons <| (parses8 musicSlot).cons <| (parses16 nVariants).cons <|
      (parses32 crc32).cons <| Parses.pure _
  onto := by
    intro bs h₀
    obtain ⟨trackSlot, bs₁, rfl, h₁⟩ := (codec_readByte .native).peel (n := 7) h₀
    obtain ⟨musicSlot, bs₂, rfl, h₂⟩ := (codec_readByte .native).peel (n := 6) h₁
    obtain ⟨nVariants, bs₃, rfl, h₃⟩ := codec_readBeUint16.peel (n := 4) h₂
    obtain ⟨crc32, rfl⟩ := codec_readBeUint32.onto bs₃ h₃
    exact ⟨⟨trackSlot, musicSlot, nVariants, crc32⟩, by simp [trackBytes]⟩
  takes := by
    have t₈ := (codec_readByte .native).takes
    exact t₈.bind fun _ => t₈.bind fun _ => codec_readBeUint16.takes.bind fun _ =>
      codec_readBeUint32.takes.bind fun _ => Takes.pure _

theorem exec_countTracks (I : Impl) (n : BitVec 16) (b : List Byte) (s : State) :
    (countTracks n).exec I b s = .ok (nTracks n, s) := by
  have hn := n.isLt
  unfold countTracks
  rw [exec_bind_ok _ _ _ (exec_int I b s (by omega) (by omega)),
    exec_bind_ok _ _ _ (exec_int I b s (by omega) (by omega)),
    exec_bind_ok _ _ _ (exec_int I b s (by omega) (by omega)), exec_pure]
  rfl

theorem exec_sizeT_tracks (I : Impl) (n : BitVec 16) {k : Nat} (hk : k ≤ 8) (b : List Byte) (s : State) :
    (sizeT (k * nTracks n)).exec I b s = .ok (k * nTracks n, s) := by
  refine exec_sizeT I b s ?_
  have := Nat.mul_le_mul hk (nTracks_le n)
  omega

theorem takes_readTables (h : CupsHeader) : Takes .native (readTables h) (10 * nTracks h.nCtCups) := by
  have hk : 10 * nTracks h.nCtCups = nTracks h.nCtCups * 8 + (nTracks h.nCtCups * 2 + 0) := by omega
  rw [hk]
  unfold readTables
  refine Takes.skip (exec_countTracks _ _) (Takes.skip (exec_sizeT_tracks _ _ (by omega)) ?_)
  refine (codec_readTrackEntry.takes.fill _).bind fun _ => ?_
  refine Takes.skip (exec_sizeT_tracks _ _ (by omega)) ?_
  exact (codec_readBeUint16.takes.fill _).bind fun _ => Takes.pure _

theorem parses_readTables (h : CupsHeader) {ts : List TrackEntry} {as : List (BitVec 16)}
    (ht : ts.length = nTracks h.nCtCups) (ha : as.length = nTracks h.nCtCups) :
    Parses .native (readTables h) (tablesBytes (ts, as)) (ts, as) := by
  unfold readTables
  refine Parses.skip (exec_countTracks _ _) (Parses.skip (exec_sizeT_tracks _ _ (by omega)) ?_)
  refine ((codec_readTrackEntry.fill _).parses ⟨ts.toArray, by simpa using ht⟩).bind ?_
  refine Parses.skip (exec_sizeT_tracks _ _ (by omega)) ?_
  exact ((codec_readBeUint16.fill _).parses ⟨as.toArray, by simpa using ha⟩).ret _

theorem onto_readTables (h : CupsHeader) {bs : List Byte} (hl : bs.length = 10 * nTracks h.nCtCups) :
    ∃ ts as, ts.length = nTracks h.nCtCups ∧ as.length = nTracks h.nCtCups ∧ tablesBytes (ts, as) = bs := by
  have hl' : bs.length = nTracks h.nCtCups * 8 + nTracks h.nCtCups * 2 := by omega
  obtain ⟨ts, rest, rfl, hr⟩ := (codec_readTrackEntry.fill (nTracks h.nCtCups)).peel hl'
  obtain ⟨as, rfl⟩ := (codec_readBeUint16.fill (nTracks h.nCtCups)).onto rest hr
  exact ⟨ts.toList, as.toList, by simp, by simp, rfl⟩

/-! ## Well-formed files -/

/-- **Decoding undoes the layout.** -/
theorem parses_readFile (pf : PulFile) {f : PulFile} (hf : f.WellFormed) :
    Parses .native (readFile pf) f.bytes f := by
  obtain ⟨fHdr, iHdr, iFld, cHdr, tArr, alphabetTable⟩ := f
  refine (reader_fileHeader.parses pf.fHdr fHdr hf.fileMagic).bind ?_
  refine (reader_fileInfo.parses (pf.iHdr, pf.iFld) (iHdr, iFld) hf.infoMagic).bind ?_
  refine (reader_cupsHeader.parses pf.cHdr cHdr hf.cupsMagic).bind ?_
  exact (parses_readTables cHdr hf.tArr hf.alphabetTable).ret _

structure ValidMagics (b : List Byte) : Prop where
  file : wordAt 32 b 0 = fileMagic
  info : wordAt 32 b 36 = infoMagic
  cups : wordAt 32 b 116 = cupsMagic

instance (b : List Byte) : Decidable (ValidMagics b) :=
  decidable_of_iff (wordAt 32 b 0 = fileMagic ∧ wordAt 32 b 36 = infoMagic ∧ wordAt 32 b 116 = cupsMagic)
    ⟨fun ⟨h₁, h₂, h₃⟩ => ⟨h₁, h₂, h₃⟩, fun ⟨h₁, h₂, h₃⟩ => ⟨h₁, h₂, h₃⟩⟩

structure IsPul (b : List Byte) : Prop where
  magics : ValidMagics b
  tables : tablesEnd (wordAt 16 b 128) ≤ b.length

theorem wordAt_nCtCups (pre post : List Byte) (h : CupsHeader) :
    wordAt 16 (pre ++ (cupsBytes h ++ post)) (pre.length + 12) = h.nCtCups := by
  have := wordAt_append 2 rfl (pre ++ (toBytes 4 h.magic ++ (toBytes 4 h.version ++ toBytes 4 h.size)))
    ([[h.ninTrackMode], [h.padding], toBytes 2 h.nTrophies[0]!, toBytes 2 h.nTrophies[1]!,
      toBytes 2 h.nTrophies[2]!, toBytes 2 h.nTrophies[3]!, toBytes 4 h.nVariants].flatten ++ post) h.nCtCups
  simpa [cupsBytes, cupsFields] using this

/-- **Every buffer with its magics and complete tables starts with the layout
of a well-formed file.** -/
theorem IsPul.exists_wellFormed {b : List Byte} (h : IsPul b) : ∃ f : PulFile, ∃ post : List Byte,
    f.WellFormed ∧ b = f.bytes ++ post ∧ f.cHdr.nCtCups = wordAt 16 b 128 := by
  obtain ⟨hv, hl⟩ := h
  have h₁ : 144 ≤ b.length := le_trans (Nat.le_add_right _ _) hl
  obtain ⟨fHdr, hf, ef⟩ := reader_fileHeader.exists_split hv.file (by omega)
  obtain ⟨⟨iHdr, iFld⟩, hi, ei⟩ := reader_fileInfo.exists_split hv.info (by omega)
  obtain ⟨cHdr, hc, ec⟩ := reader_cupsHeader.exists_split hv.cups (by omega)
  have eb : b = fileHeaderBytes fHdr ++ (infoBytes (iHdr, iFld) ++ (cupsBytes cHdr ++ b.drop 144)) := by
    rw [fileHeaderBytes, infoBytes, cupsBytes, ← ef, ← ei, ← ec]
    simp only [← List.drop_drop, List.take_append_drop, List.drop_zero,
      show (144 : Nat) = 36 + 80 + 28 from rfl, show (116 : Nat) = 36 + 80 from rfl]
  have hn : wordAt 16 b 128 = cHdr.nCtCups := by
    have := wordAt_nCtCups (fileHeaderBytes fHdr ++ infoBytes (iHdr, iFld)) (b.drop 144) cHdr
    rw [List.append_assoc, ← eb] at this
    simpa using this
  rw [hn] at hl
  have ht : ((b.drop 144).take (10 * nTracks cHdr.nCtCups)).length = 10 * nTracks cHdr.nCtCups := by
    rw [List.length_take, List.length_drop]; unfold tablesEnd at hl; omega
  obtain ⟨ts, as, ht, ha, et⟩ := onto_readTables cHdr ht
  refine ⟨⟨fHdr, iHdr, iFld, cHdr, ts, as⟩, (b.drop 144).drop (10 * nTracks cHdr.nCtCups),
    ⟨hf, hi, hc, ht, ha⟩, ?_, hn.symm⟩
  simp only [PulFile.bytes, et, List.append_assoc, List.take_append_drop]
  exact eb

theorem PulFile.WellFormed.nCtCups {f : PulFile} (_ : f.WellFormed) (post : List Byte) :
    wordAt 16 (f.bytes ++ post) 128 = f.cHdr.nCtCups := by
  have := wordAt_nCtCups (fileHeaderBytes f.fHdr ++ infoBytes (f.iHdr, f.iFld))
    (tablesBytes (f.tArr, f.alphabetTable) ++ post) f.cHdr
  simpa [PulFile.bytes] using this

theorem exec_readFile_append (pf : PulFile) {f : PulFile} (hf : f.WellFormed) (post : List Byte) :
    (readFile pf).exec .native (f.bytes ++ post) ⟨0, []⟩ = .ok (f, ⟨(tablesEnd f.cHdr.nCtCups : Nat), []⟩) := by
  have hl := tablesEnd_lt f.cHdr.nCtCups
  have h := parses_readFile pf hf [] post [] (by simpa [hf.length_bytes] using hl)
  rw [hf.length_bytes] at h
  simpa using h

theorem PulFile.WellFormed.isPul {f : PulFile} (hf : f.WellFormed) (post : List Byte) : IsPul (f.bytes ++ post) := by
  have h₁ := wordAt_append 4 rfl [] (fileFields f.fHdr ++ (infoBytes (f.iHdr, f.iFld) ++ (cupsBytes f.cHdr ++
    (tablesBytes (f.tArr, f.alphabetTable) ++ post)))) f.fHdr.magic
  have h₂ := wordAt_append 4 rfl (fileHeaderBytes f.fHdr) (infoFields (f.iHdr, f.iFld) ++ (cupsBytes f.cHdr ++
    (tablesBytes (f.tArr, f.alphabetTable) ++ post))) f.iHdr.magic
  have h₃ := wordAt_append 4 rfl (fileHeaderBytes f.fHdr ++ infoBytes (f.iHdr, f.iFld)) (cupsFields f.cHdr ++
    (tablesBytes (f.tArr, f.alphabetTable) ++ post)) f.cHdr.magic
  rw [hf.fileMagic] at h₁
  rw [hf.infoMagic] at h₂
  rw [hf.cupsMagic] at h₃
  refine ⟨⟨?_, ?_, ?_⟩, ?_⟩
  · simpa [PulFile.bytes, fileHeaderBytes, hf.fileMagic] using h₁
  · simpa [PulFile.bytes, infoBytes, hf.infoMagic] using h₂
  · simpa [PulFile.bytes, cupsBytes, hf.cupsMagic] using h₃
  · rw [hf.nCtCups, List.length_append, hf.length_bytes]
    omega

end Catapult
