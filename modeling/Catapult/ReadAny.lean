import Catapult.WriteSound

/-!
# `read_file` on arbitrary buffers

Nothing stops `read_file`: behind a wrong magic it goes on four bytes later,
with what the structure held before. `exec_readFile_ok` says what it makes of a
buffer of any content; the run ends without a fault exactly when `extent` lies
inside the buffer.
-/

namespace Catapult

open BigEndian Cursor

/-! ## The run -/

section
variable (pf : PulFile) (b : List Byte)

/-- Where the running offset is after the file header, and after the INFO and
the CUPS section. -/
def infoStart : Nat := sectionEnd fileMagic 32 b 0
def cupsStart : Nat := sectionEnd infoMagic 76 b (infoStart b)
def tablesStart : Nat := sectionEnd cupsMagic 24 b (cupsStart b)

def cupCount : BitVec 16 :=
  if wordAt 32 b (cupsStart b) = cupsMagic then wordAt 16 b (cupsStart b + 12) else pf.cHdr.nCtCups

/-- The offset behind the last byte `read_file` asks for. -/
def extent : Nat := tablesStart b + 10 * nTracks (cupCount pf b)

section
variable {b : List Byte} (h₁ : wordAt 32 b 0 = fileMagic)
include h₁

theorem infoStart_eq : infoStart b = 36 := by simp [infoStart, sectionEnd, h₁]

variable (h₂ : wordAt 32 b 36 = infoMagic)
include h₂

theorem cupsStart_eq : cupsStart b = 116 := by simp [cupsStart, sectionEnd, infoStart_eq h₁, h₂]

theorem tablesStart_eq (h₃ : wordAt 32 b 116 = cupsMagic) : tablesStart b = 144 := by
  simp [tablesStart, sectionEnd, cupsStart_eq h₁ h₂, h₃]

end

theorem starts_le : infoStart b ≤ 36 ∧ infoStart b ≤ cupsStart b ∧ cupsStart b ≤ 116 ∧
    cupsStart b + 4 ≤ tablesStart b ∧ tablesStart b ≤ 144 := by
  unfold tablesStart cupsStart infoStart sectionEnd
  split <;> split <;> split <;> omega

theorem extent_lt : extent pf b < 2 ^ 31 := by
  have h₁ := starts_le b
  have h₂ := nTracks_le (cupCount pf b)
  unfold extent
  omega

structure Decoded (f : PulFile) : Prop where
  fHdr : (wordAt 32 b 0 = fileMagic ∧ b.take 36 = fileHeaderBytes f.fHdr) ∨
    (wordAt 32 b 0 ≠ fileMagic ∧ f.fHdr = { pf.fHdr with magic := wordAt 32 b 0 })
  info : (wordAt 32 b (infoStart b) = infoMagic ∧ (b.drop (infoStart b)).take 80 = infoBytes (f.iHdr, f.iFld)) ∨
    (wordAt 32 b (infoStart b) ≠ infoMagic ∧
      f.iHdr = { pf.iHdr with magic := wordAt 32 b (infoStart b) } ∧ f.iFld = pf.iFld)
  cHdr : (wordAt 32 b (cupsStart b) = cupsMagic ∧ (b.drop (cupsStart b)).take 28 = cupsBytes f.cHdr) ∨
    (wordAt 32 b (cupsStart b) ≠ cupsMagic ∧ f.cHdr = { pf.cHdr with magic := wordAt 32 b (cupsStart b) })
  tables : (b.drop (tablesStart b)).take (10 * nTracks f.cHdr.nCtCups) = tablesBytes (f.tArr, f.alphabetTable)
  tArr : f.tArr.length = nTracks f.cHdr.nCtCups
  alphabetTable : f.alphabetTable.length = nTracks f.cHdr.nCtCups
  nCtCups : f.cHdr.nCtCups = cupCount pf b

section
variable {pf : PulFile} {b : List Byte} {f : PulFile} (d : Decoded pf b f)
include d

theorem Decoded.tablesComplete : f.TablesComplete := ⟨d.tArr, d.alphabetTable⟩

theorem Decoded.fHdr_kept (hM : wordAt 32 b 0 ≠ fileMagic) :
    f.fHdr = { pf.fHdr with magic := wordAt 32 b 0 } := by
  cases d.fHdr with
  | inl h => exact absurd h.1 hM
  | inr h => exact h.2

theorem Decoded.info_kept (hM : wordAt 32 b (infoStart b) ≠ infoMagic) :
    f.iHdr = { pf.iHdr with magic := wordAt 32 b (infoStart b) } ∧ f.iFld = pf.iFld := by
  cases d.info with
  | inl h => exact absurd h.1 hM
  | inr h => exact h.2

theorem Decoded.cHdr_kept (hM : wordAt 32 b (cupsStart b) ≠ cupsMagic) :
    f.cHdr = { pf.cHdr with magic := wordAt 32 b (cupsStart b) } := by
  cases d.cHdr with
  | inl h => exact absurd h.1 hM
  | inr h => exact h.2

/-- A section with the right magic in the result was there to be read. -/
theorem Decoded.info_read (hM : f.iHdr.magic = infoMagic) : wordAt 32 b (infoStart b) = infoMagic ∧
    (b.drop (infoStart b)).take 80 = infoBytes (f.iHdr, f.iFld) := by
  cases d.info with
  | inl h => exact h
  | inr h =>
    rw [h.2.1] at hM
    exact absurd hM h.1

theorem Decoded.cHdr_read (hM : f.cHdr.magic = cupsMagic) : wordAt 32 b (cupsStart b) = cupsMagic ∧
    (b.drop (cupsStart b)).take 28 = cupsBytes f.cHdr := by
  cases d.cHdr with
  | inl h => exact h
  | inr h =>
    rw [h.2] at hM
    exact absurd hM h.1

end

theorem cupsHeader_nCtCups {b : List Byte} {o : Nat} {h : CupsHeader} (ho : o + 28 ≤ b.length)
    (hs : (b.drop o).take 28 = cupsBytes h) : wordAt 16 b (o + 12) = h.nCtCups := by
  have e : b.take o ++ (cupsBytes h ++ b.drop (o + 28)) = b := by
    rw [← hs, ← List.drop_drop, List.take_append_drop, List.take_append_drop]
  have := wordAt_nCtCups (b.take o) (b.drop (o + 28)) h
  rwa [e, List.length_take, Nat.min_eq_left (by omega)] at this

theorem nCtCups_eq_cupCount {h : CupsHeader} (hl : tablesStart b ≤ b.length)
    (hc : (wordAt 32 b (cupsStart b) = cupsMagic ∧ (b.drop (cupsStart b)).take 28 = cupsBytes h) ∨
      (wordAt 32 b (cupsStart b) ≠ cupsMagic ∧ h = { pf.cHdr with magic := wordAt 32 b (cupsStart b) })) :
    h.nCtCups = cupCount pf b := by
  unfold cupCount
  rcases hc with ⟨hM, hb⟩ | ⟨hM, rfl⟩
  · have ht : tablesStart b = cupsStart b + 28 := by simp [tablesStart, sectionEnd, hM]
    rw [if_pos hM, cupsHeader_nCtCups (by omega) hb]
  · rw [if_neg hM]

theorem exec_readFile_ok (log : List String) (hl : extent pf b ≤ b.length) :
    ∃ f log', (readFile pf).exec .native b ⟨0, log⟩ = .ok (f, ⟨extent pf b, log'⟩) ∧ Decoded pf b f := by
  have hs := starts_le b
  have he : tablesStart b + 10 * nTracks (cupCount pf b) ≤ b.length := hl
  have hi := extent_lt pf b
  obtain ⟨fHdr, log₁, e₁, h₁⟩ := reader_fileHeader.run pf.fHdr log (show infoStart b ≤ b.length by omega) (by omega)
  obtain ⟨info, log₂, e₂, h₂⟩ := reader_fileInfo.run (pf.iHdr, pf.iFld) log₁
    (show cupsStart b ≤ b.length by omega) (by omega)
  obtain ⟨cHdr, log₃, e₃, h₃⟩ := reader_cupsHeader.run pf.cHdr log₂ (show tablesStart b ≤ b.length by omega) (by omega)
  have hn := nCtCups_eq_cupCount pf b (by omega) (h₃.imp (fun h => ⟨h.1, h.2.2⟩) id)
  have hk : ((b.drop (tablesStart b)).take (10 * nTracks cHdr.nCtCups)).length = 10 * nTracks cHdr.nCtCups := by
    rw [List.length_take, List.length_drop, hn]; omega
  obtain ⟨ts, as, ht, ha, et⟩ := onto_readTables cHdr hk
  rw [← et] at hk
  have e₄ := (parses_readTables cHdr ht ha).exec_slice (b := b) (o := tablesStart b) (by rw [hk, et])
    (by rw [hk, hn]; omega) (by rw [hk, hn]; exact hi) log₃
  refine ⟨⟨fHdr, info.1, info.2, cHdr, ts, as⟩, log₃, ?_, ?_⟩
  · refine (exec_bind_ok _ _ _ e₁ _).trans <| (exec_bind_ok _ _ _ e₂ _).trans <|
      (exec_bind_ok _ _ _ e₃ _).trans <| (exec_bind_ok _ _ _ e₄ _).trans ?_
    rw [exec_pure, hk, hn]
    rfl
  · refine ⟨?_, ?_, ?_, et.symm, ht, ha, hn⟩
    · rcases h₁ with ⟨hM, _, hb⟩ | h
      · exact .inl ⟨hM, hb⟩
      · exact .inr h
    · rcases h₂ with ⟨hM, _, hb⟩ | ⟨hM, rfl⟩
      · exact .inl ⟨hM, hb⟩
      · exact .inr ⟨hM, rfl, rfl⟩
    · rcases h₃ with ⟨hM, _, hb⟩ | h
      · exact .inl ⟨hM, hb⟩
      · exact .inr h

theorem exec_readFile_error (log : List String) (hl : b.length < extent pf b) :
    ∃ i, (readFile pf).exec .native b ⟨0, log⟩ = .error (.outOfBounds i) := by
  have hs := starts_le b
  have hi := extent_lt pf b
  have hx : extent pf b = tablesStart b + 10 * nTracks (cupCount pf b) := rfl
  -- the first part that does not fit faults, those before it run to their ends
  by_cases c₁ : b.length < infoStart b
  · obtain ⟨i, h⟩ := reader_fileHeader.short pf.fHdr b 0 log (by omega) c₁ (by omega)
    exact ⟨i, exec_bind_error _ _ _ h _⟩
  obtain ⟨fHdr, log₁, e₁, h₁⟩ := reader_fileHeader.run pf.fHdr log (Nat.not_lt.mp c₁) (by omega)
  by_cases c₂ : b.length < cupsStart b
  · obtain ⟨i, h⟩ := reader_fileInfo.short (pf.iHdr, pf.iFld) b (infoStart b) log₁ (by omega) c₂ (by omega)
    exact ⟨i, (exec_bind_ok _ _ _ e₁ _).trans (exec_bind_error _ _ _ h _)⟩
  obtain ⟨info, log₂, e₂, h₂⟩ := reader_fileInfo.run (pf.iHdr, pf.iFld) log₁ (Nat.not_lt.mp c₂) (by omega)
  by_cases c₃ : b.length < tablesStart b
  · obtain ⟨i, h⟩ := reader_cupsHeader.short pf.cHdr b (cupsStart b) log₂ (by omega) c₃ (by omega)
    exact ⟨i, (exec_bind_ok _ _ _ e₁ _).trans <| (exec_bind_ok _ _ _ e₂ _).trans (exec_bind_error _ _ _ h _)⟩
  obtain ⟨cHdr, log₃, e₃, h₃⟩ := reader_cupsHeader.run pf.cHdr log₂ (Nat.not_lt.mp c₃) (by omega)
  have hn := nCtCups_eq_cupCount pf b (Nat.not_lt.mp c₃) (h₃.imp (fun h => ⟨h.1, h.2.2⟩) id)
  obtain ⟨i, h⟩ := (takes_readTables cHdr).faults b (tablesStart b) log₃ (by omega) (by rw [hn]; omega)
    (by omega)
  exact ⟨i, (exec_bind_ok _ _ _ e₁ _).trans <| (exec_bind_ok _ _ _ e₂ _).trans <|
    (exec_bind_ok _ _ _ e₃ _).trans (exec_bind_error _ _ _ h _)⟩

theorem extent_le_of_ok {f : PulFile} {s : State} (h : (readFile pf).exec .native b ⟨0, []⟩ = .ok (f, s)) :
    extent pf b ≤ b.length := by
  by_contra hl
  obtain ⟨i, hi⟩ := exec_readFile_error pf b [] (Nat.not_le.mp hl)
  rw [hi] at h
  cases h

theorem decoded_of_ok {f : PulFile} {s : State} (h : (readFile pf).exec .native b ⟨0, []⟩ = .ok (f, s)) :
    Decoded pf b f ∧ s.offset = extent pf b := by
  obtain ⟨f', log, e, hd⟩ := exec_readFile_ok pf b [] (extent_le_of_ok pf b h)
  rw [e] at h
  cases h
  exact ⟨hd, rfl⟩

/-- **Which buffers are read without leaving them.** -/
theorem readFile_inBounds_iff :
    (∀ i, (readFile pf).exec .native b ⟨0, []⟩ ≠ .error (.outOfBounds i)) ↔ extent pf b ≤ b.length := by
  constructor
  · intro h
    by_contra hl
    obtain ⟨i, hi⟩ := exec_readFile_error pf b [] (Nat.not_le.mp hl)
    exact h i hi
  · intro hl i hi
    obtain ⟨f, log, e, _⟩ := exec_readFile_ok pf b [] hl
    rw [e] at hi
    cases hi

end

theorem readFile_outOfBounds : ∃ b : List Byte, b ≠ [] ∧
    (readFile samplePul).exec .native b ⟨0, []⟩ = .error (.outOfBounds 1) ∧ ¬ 1 < b.length :=
  ⟨[0x50], by decide, rfl, by decide⟩

/-! ## Magics -/

theorem validMagics_iff (b : List Byte) : ValidMagics b ↔
    wordAt 32 b 0 = fileMagic ∧ wordAt 32 b (infoStart b) = infoMagic ∧ wordAt 32 b (cupsStart b) = cupsMagic := by
  constructor
  · rintro ⟨h₁, h₂, h₃⟩
    exact ⟨h₁, by rwa [infoStart_eq h₁], by rwa [cupsStart_eq h₁ h₂]⟩
  · rintro ⟨h₁, h₂, h₃⟩
    rw [infoStart_eq h₁] at h₂
    rw [cupsStart_eq h₁ h₂] at h₃
    exact ⟨h₁, h₂, h₃⟩

theorem ValidMagics.extent {b : List Byte} (h : ValidMagics b) (pf : PulFile) :
    extent pf b = tablesEnd (wordAt 16 b 128) := by
  have hs := tablesStart_eq h.file h.info h.cups
  simp only [Catapult.extent, cupCount, hs, cupsStart_eq h.file h.info, h.cups, ite_true, tablesEnd]

/-! ## Previous contents -/

/-- Two runs on `b` that both end have the same result, whatever was in the
structure before. -/
def DependsOnBytes (b : List Byte) : Prop :=
  ∀ pf pf' f f' s s', (readFile pf).exec .native b ⟨0, []⟩ = .ok (f, s) →
    (readFile pf').exec .native b ⟨0, []⟩ = .ok (f', s') → f = f' ∧ s.offset = s'.offset

def PulFile.touch (pf : PulFile) : PulFile :=
  { pf with
    fHdr := { pf.fHdr with version := pf.fHdr.version + 1 }
    iHdr := { pf.iHdr with version := pf.iHdr.version + 1 }
    cHdr := { pf.cHdr with version := pf.cHdr.version + 1 } }

theorem ne_add_one (v : BitVec 32) : v ≠ v + 1 := by
  intro h
  have := congrArg BitVec.toNat h
  bv_omega

section
variable {b : List Byte}

theorem dependsOnBytes_of_validMagics (hv : ValidMagics b) : DependsOnBytes b := by
  intro pf pf' f f' s s' h h'
  have hp : IsPul b := ⟨hv, hv.extent pf ▸ extent_le_of_ok pf b h⟩
  obtain ⟨f₀, post, hf, rfl, _⟩ := hp.exists_wellFormed
  rw [exec_readFile_append pf hf] at h
  rw [exec_readFile_append pf' hf] at h'
  cases h
  cases h'
  exact ⟨rfl, rfl⟩

theorem validMagics_of_dependsOnBytes {pf f : PulFile} {s : State}
    (h : (readFile pf).exec .native b ⟨0, []⟩ = .ok (f, s)) (hd : DependsOnBytes b) : ValidMagics b := by
  -- a second run, on what differs from the first only in words that a skipped header keeps
  have hl : extent pf.touch b ≤ b.length := extent_le_of_ok pf b h
  obtain ⟨f', log, h', _⟩ := exec_readFile_ok pf.touch b [] hl
  obtain ⟨rfl, _⟩ := hd pf pf.touch f f' s _ h h'
  have d := (decoded_of_ok pf b h).1
  have d' := (decoded_of_ok pf.touch b h').1
  refine (validMagics_iff b).mpr ⟨?_, ?_, ?_⟩
  · by_contra hM
    have e := (d.fHdr_kept hM).symm.trans (d'.fHdr_kept hM)
    exact ne_add_one _ (congrArg FileHeader.version e)
  · by_contra hM
    have e := (d.info_kept hM).1.symm.trans (d'.info_kept hM).1
    exact ne_add_one _ (congrArg InfoHeader.version e)
  · by_contra hM
    have e := (d.cHdr_kept hM).symm.trans (d'.cHdr_kept hM)
    exact ne_add_one _ (congrArg CupsHeader.version e)

end

/-- **When the result depends on the bytes alone.** -/
theorem dependsOnBytes_iff (b : List Byte) (h : ∃ pf f s, (readFile pf).exec .native b ⟨0, []⟩ = .ok (f, s)) :
    DependsOnBytes b ↔ ValidMagics b := by
  obtain ⟨pf, f, s, h⟩ := h
  exact ⟨validMagics_of_dependsOnBytes h, dependsOnBytes_of_validMagics⟩

theorem dependsOnBytes_samplePul : DependsOnBytes (samplePul.bytes ++ []) :=
  (dependsOnBytes_iff _ ⟨samplePul, _, _, exec_readFile_append samplePul wellFormed_samplePul []⟩).mpr
    (wellFormed_samplePul.isPul []).magics

theorem not_dependsOnBytes_zeros : ∃ f f' s s',
    (readFile samplePul).exec .native (List.replicate 92 0) ⟨0, []⟩ = .ok (f, s) ∧
    (readFile { samplePul with cHdr := { samplePul.cHdr with nCtCups := 0 } }).exec .native
      (List.replicate 92 0) ⟨0, []⟩ = .ok (f', s') ∧
    (s.offset = 92 ∧ f.tArr.length = 8) ∧ (s'.offset = 12 ∧ f'.tArr.length = 0) := by
  obtain ⟨f, log, h, d⟩ := exec_readFile_ok samplePul (List.replicate 92 0) [] (by decide)
  obtain ⟨f', log', h', d'⟩ := exec_readFile_ok { samplePul with cHdr := { samplePul.cHdr with nCtCups := 0 } }
    (List.replicate 92 0) [] (by decide)
  refine ⟨f, f', _, _, h, h', ⟨rfl, ?_⟩, rfl, ?_⟩
  · rw [d.tArr, d.nCtCups]
    decide
  · rw [d'.tArr, d'.nCtCups]
    decide

/-! ## Section offsets -/

/-- An INFO section at `io` and a CUPS section with its tables at `co`, inside
the buffer. -/
structure SectionsAt (b : List Byte) (io co : Nat) : Prop where
  info : wordAt 32 b io = infoMagic
  infoEnd : io + 80 ≤ b.length
  cups : wordAt 32 b co = cupsMagic
  cupsEnd : co + (28 + 10 * nTracks (wordAt 16 b (co + 12))) ≤ b.length

def ReadsSections (pf : PulFile) (b : List Byte) (io co : Nat) : Prop :=
  ∃ f s, (readFile pf).exec .native b ⟨0, []⟩ = .ok (f, s) ∧
    infoBytes (f.iHdr, f.iFld) = (b.drop io).take 80 ∧
    cupsBytes f.cHdr ++ tablesBytes (f.tArr, f.alphabetTable) =
      (b.drop co).take (28 + 10 * nTracks (wordAt 16 b (co + 12)))

def SameSections (b : List Byte) (io co : Nat) : Prop :=
  (b.drop 36).take 80 = (b.drop io).take 80 ∧
    (b.drop 116).take (28 + 10 * nTracks (wordAt 16 b (co + 12))) =
      (b.drop co).take (28 + 10 * nTracks (wordAt 16 b (co + 12)))

theorem wordAt_infoBytes (x : InfoHeader × InfoFields) : wordAt 32 (infoBytes x) 0 = x.1.magic :=
  wordAt_append 4 rfl [] (infoFields x) x.1.magic

theorem wordAt_cupsBytes (h : CupsHeader) (post : List Byte) : wordAt 32 (cupsBytes h ++ post) 0 = h.magic := by
  have := wordAt_append 4 rfl [] (cupsFields h ++ post) h.magic
  rwa [List.nil_append, ← List.append_assoc] at this

section
variable {b : List Byte} {io co : Nat} (h : SectionsAt b io co)
include h

theorem sameSections_of_reads {pf : PulFile} (hf : wordAt 32 b 0 = fileMagic) (hr : ReadsSections pf b io co) :
    SameSections b io co := by
  obtain ⟨f, s, hx, hi, hc⟩ := hr
  have d := (decoded_of_ok pf b hx).1
  have mi : f.iHdr.magic = infoMagic := by
    have := wordAt_infoBytes (f.iHdr, f.iFld)
    rw [hi, wordAt_slice b io (by omega), Nat.add_zero, h.info] at this
    exact this.symm
  have mc : f.cHdr.magic = cupsMagic := by
    have := wordAt_cupsBytes f.cHdr (tablesBytes (f.tArr, f.alphabetTable))
    rw [hc, wordAt_slice b co (by omega), Nat.add_zero, h.cups] at this
    exact this.symm
  obtain ⟨hI, ei⟩ := d.info_read mi
  obtain ⟨hC, ec⟩ := d.cHdr_read mc
  have ht := d.tables
  rw [infoStart_eq hf] at hI ei
  rw [cupsStart_eq hf hI] at hC ec
  rw [tablesStart_eq hf hI hC] at ht
  -- the track counts agree because the two sections have one length
  have hn : 10 * nTracks (wordAt 16 b (co + 12)) = 10 * nTracks f.cHdr.nCtCups := by
    have := congrArg List.length hc
    have := h.cupsEnd
    simp only [List.length_append, length_cupsBytes, length_tablesBytes, List.length_take, List.length_drop,
      d.tArr, d.alphabetTable] at *
    omega
  constructor
  · rw [ei, hi]
  · rw [← hc, ← ec, ← ht, hn, List.take_add, List.drop_drop]

theorem reads_of_sameSections (pf : PulFile) (hf : wordAt 32 b 0 = fileMagic) (hs : SameSections b io co) :
    ReadsSections pf b io co := by
  obtain ⟨hi, hc⟩ := hs
  have hI : wordAt 32 b 36 = infoMagic := by
    rw [← h.info, ← Nat.add_zero 36, ← wordAt_slice b 36 (show 0 + 32 / 8 ≤ 80 by omega), hi,
      wordAt_slice b io (by omega), Nat.add_zero]
  have hC : wordAt 32 b 116 = cupsMagic := by
    rw [← h.cups, ← Nat.add_zero 116,
      ← wordAt_slice b 116 (show 0 + 32 / 8 ≤ 28 + 10 * nTracks (wordAt 16 b (co + 12)) by omega), hc,
      wordAt_slice b co (by omega), Nat.add_zero]
  have hN : wordAt 16 b 128 = wordAt 16 b (co + 12) := by
    rw [show 128 = 116 + 12 from rfl,
      ← wordAt_slice b 116 (show 12 + 16 / 8 ≤ 28 + 10 * nTracks (wordAt 16 b (co + 12)) by omega), hc,
      wordAt_slice b co (by omega)]
  have hp : IsPul b := by
    refine ⟨⟨hf, hI, hC⟩, ?_⟩
    have := congrArg List.length hc
    have := h.cupsEnd
    simp only [List.length_take, List.length_drop] at *
    rw [hN]
    unfold tablesEnd
    omega
  obtain ⟨f, post, hw, rfl, hn⟩ := hp.exists_wellFormed
  refine ⟨f, _, exec_readFile_append pf hw post, ?_, ?_⟩
  · rw [← hi, f.drop_fileHeader, List.take_left' (length_infoBytes _)]
  · have hk : (cupsBytes f.cHdr ++ tablesBytes (f.tArr, f.alphabetTable)).length =
        28 + 10 * nTracks f.cHdr.nCtCups := by
      simp only [List.length_append, length_cupsBytes, length_tablesBytes, hw.tArr, hw.alphabetTable]
      omega
    rw [← hc, ← hN, ← hn, f.drop_info, List.take_left' hk]

end

/-- **When the section offsets of the header are honoured.** -/
theorem readsSections_iff (pf : PulFile) (b : List Byte) (hf : wordAt 32 b 0 = fileMagic)
    (h : SectionsAt b (wordAt 32 b 8).toNat (wordAt 32 b 12).toNat) :
    ReadsSections pf b (wordAt 32 b 8).toNat (wordAt 32 b 12).toNat ↔
      SameSections b (wordAt 32 b 8).toNat (wordAt 32 b 12).toNat :=
  ⟨sameSections_of_reads h hf, reads_of_sameSections h pf hf⟩

theorem IsPul.sectionsAt {b : List Byte} (hp : IsPul b) : SectionsAt b 36 116 := by
  have h := hp.tables
  unfold tablesEnd at h
  have he : 116 + (28 + 10 * nTracks (wordAt 16 b 128)) ≤ b.length := by omega
  exact ⟨hp.magics.info, by omega, hp.magics.cups, he⟩

theorem readsSections_samplePul : ReadsSections samplePul (samplePul.bytes ++ []) 36 116 := by
  have hi : wordAt 32 (samplePul.bytes ++ []) 8 = 36 := by decide +kernel
  have hc : wordAt 32 (samplePul.bytes ++ []) 12 = 116 := by decide +kernel
  have hp := wellFormed_samplePul.isPul []
  have h := readsSections_iff samplePul (samplePul.bytes ++ []) hp.magics.file
    (by rw [hi, hc]; exact hp.sectionsAt)
  rw [hi, hc] at h
  exact h.mpr ⟨rfl, rfl⟩

/-- An INFO section of 84 bytes, announced as such, and the CUPS section behind
it. -/
def longInfo : List Byte :=
  fileHeaderBytes { samplePul.fHdr with cupsOffset := 120 } ++
    (infoBytes ({ samplePul.iHdr with size := 84 }, samplePul.iFld) ++ ([0, 0, 0, 0] ++
      cupsBytes { samplePul.cHdr with nCtCups := 0 }))

theorem not_readsSections_longInfo : wordAt 32 longInfo 0 = fileMagic ∧
    SectionsAt longInfo (wordAt 32 longInfo 8).toNat (wordAt 32 longInfo 12).toNat ∧
    ¬ ReadsSections samplePul longInfo (wordAt 32 longInfo 8).toNat (wordAt 32 longInfo 12).toNat := by
  have hi : wordAt 32 longInfo 8 = 36 := by decide +kernel
  have hc : wordAt 32 longInfo 12 = 120 := by decide +kernel
  have hf : wordAt 32 longInfo 0 = fileMagic := by decide +kernel
  have h : SectionsAt longInfo 36 120 :=
    ⟨by decide +kernel, by decide +kernel, by decide +kernel, by decide +kernel⟩
  rw [hi, hc]
  refine ⟨hf, h, fun hr => ?_⟩
  have := congrArg (wordAt 32 · 0) (sameSections_of_reads h hf hr).2
  revert this
  decide +kernel

end Catapult
