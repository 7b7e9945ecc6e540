import Catapult.Command
import Catapult.WriteSound

/-!
# The report of a file is unambiguous

Every number of the report ends in front of a newline or a tab, which no number
contains. The mod folder name is printed as it is; it ends where the heading of
the next section starts, since no shift of that heading by up to sixteen bytes
agrees with it.
-/

namespace Catapult

open BigEndian Cursor Stdio Printf

/-- What `CAT` prints with both options. -/
def report (file : PulFile) : Except Fault (List Byte) := do
  let tracks ← printTrackEntries file
  let table ← printAlphabetTable file
  return printFile file ++ (tracks ++ table)

/-! ## The headers -/

def infoHeading : List Byte := ascii "INFO HEADER\n" ++ ascii "------------\n"

theorem determines_modFolder : Determines (fun f : PulFile =>
    put "Mod folder:\t" (str modNameMax f.fHdr.modFolderName.toList) "\n\n" ++ infoHeading)
    fun f => str modNameMax f.fHdr.modFolderName.toList := by
  have ht : ∀ k : Fin 17, 0 < k.val → (ascii "\n\n" ++ infoHeading).drop k ≠
      (ascii "\n\n" ++ infoHeading).take ((ascii "\n\n" ++ infoHeading).length - k) := by decide
  have hl : ∀ f : PulFile, (str modNameMax f.fHdr.modFolderName.toList).length ≤ 16 := fun f =>
    Nat.le_trans (List.takeWhile_sublist _).length_le (List.length_take_le _ _)
  intro f f' r r' e
  simp only [put, List.append_assoc] at e
  rw [← List.append_assoc (ascii "\n\n"), ← List.append_assoc (ascii "\n\n")] at e
  exact append_inj_of_unbordered (by decide) (fun k h₀ h₁ => ht ⟨k, by omega⟩ h₀) (hl f) (hl f')
    (List.append_cancel_left e)

theorem determines_printFile : Determines printFile fun f =>
    (f.fHdr.magic, f.fHdr.version, f.fHdr.infoOffset, f.fHdr.cupsOffset, f.fHdr.bmgOffset,
      str modNameMax f.fHdr.modFolderName.toList, f.iHdr.magic, f.iHdr.version, f.iHdr.size, f.iFld.roomKey,
      f.iFld.prob100cc, f.iFld.prob150cc, f.iFld.wiimmfiRegion, f.iFld.trackBlocking, f.iFld.ttTrophies,
      f.iFld.enable200cc, f.iFld.umts, f.iFld.feather, f.iFld.megaTc, f.iFld.nCupIcons, f.iFld.trackTimer,
      f.cHdr.magic, f.cHdr.version, f.cHdr.size, f.cHdr.nCtCups, f.cHdr.ninTrackMode, f.cHdr.nTrophies[0]!,
      f.cHdr.nTrophies[1]!, f.cHdr.nTrophies[2]!, f.cHdr.nTrophies[3]!, f.cHdr.nVariants, ()) :=
  .text _ <| .text _ <|
  (determines_hex _ _ stops_newline).cons <| (determines_decInt _ _ stops_newline).cons <|
  (determines_decInt _ _ stops_newline).cons <| (determines_decInt _ _ stops_newline).cons <|
  (determines_decInt _ _ stops_newline).cons <| determines_modFolder.headed <|
  (determines_hex _ _ stops_newline).cons <| (determines_decInt _ _ stops_newline).cons <|
  (determines_decInt _ _ stops_newlines).cons <| .text _ <| .text _ <|
  (determines_decInt _ _ stops_newline).cons <| (determines_decInt _ _ stops_newline).cons <|
  (determines_decInt _ _ stops_newline).cons <| (determines_decInt _ _ stops_newline).cons <|
  (determines_decInt _ _ stops_newline).cons <| (determines_dec _ _ stops_newline).cons <|
  (determines_dec _ _ stops_newline).cons <| (determines_dec _ _ stops_newline).cons <|
  (determines_dec _ _ stops_newline).cons <| (determines_dec _ _ stops_newline).cons <|
  (determines_dec _ _ stops_newline).cons <| (determines_dec _ _ stops_newlines).cons <| .text _ <| .text _ <|
  (determines_hex _ _ stops_newline).cons <| (determines_decInt _ _ stops_newline).cons <|
  (determines_decInt _ _ stops_newline).cons <| (determines_dec _ _ stops_newline).cons <|
  (determines_dec _ _ stops_newline).cons <| (determines_dec _ _ stops_newline).cons <|
  (determines_dec _ _ stops_newline).cons <| (determines_dec _ _ stops_newline).cons <|
  (determines_dec _ _ stops_newline).cons <| (determines_decInt _ _ stops_newlines).cons .nil

/-! ## The tables -/

theorem determines_printTrackEntry (i : Nat) : Determines (fun t => printTrackEntry t i) id := by
  have h : Determines (fun t => printTrackEntry t i) fun t => (t.trackSlot, t.musicSlot, t.nVariants, t.crc32, ()) :=
    .text _ <| .text _ <| (determines_dec _ _ stops_newline).cons <| (determines_dec _ _ stops_newline).cons <|
    (determines_dec _ _ stops_newline).cons <| (determines_udec _ _ stops_newlines).cons .nil
  refine h.imp fun t t' e => ?_
  obtain ⟨trackSlot, musicSlot, nVariants, crc32⟩ := t
  cases e
  rfl

theorem determines_printAlphabetIndex (i : Nat) : Determines (fun x => printAlphabetIndex x i) id := by
  have h : Stops (if (i + 1) % numPerLine = 0 then "\n" else "\t") := by
    split
    · exact stops_newline
    · exact stops_tab
  exact determines_dec id "" h

def trackListing (f : PulFile) : List Byte := f.tArr.zipIdx.flatMap fun p => printTrackEntry p.1 p.2

def tableListing (f : PulFile) : List Byte :=
  [ascii "ALPHABET INDEX TABLE\n", ascii "---------------------\n",
    f.alphabetTable.zipIdx.flatMap fun p => printAlphabetIndex p.1 p.2, ascii "\n\n"].flatten

section
variable {f f' : PulFile}

theorem trackListing_determines (hl : f.tArr.length = f'.tArr.length) {r r' : List Byte}
    (e : trackListing f ++ r = trackListing f' ++ r') : f.tArr = f'.tArr ∧ r = r' := by
  have := Determines.loop determines_printTrackEntry hl 0 r r' e
  rwa [List.map_id, List.map_id] at this

theorem tableListing_determines (hl : f.alphabetTable.length = f'.alphabetTable.length)
    (e : tableListing f = tableListing f') : f.alphabetTable = f'.alphabetTable := by
  unfold tableListing at e
  simp only [List.flatten_cons, List.flatten_nil, List.append_nil] at e
  have e := List.append_cancel_left (List.append_cancel_left e)
  have := (Determines.loop determines_printAlphabetIndex hl 0 _ _ e).1
  rwa [List.map_id, List.map_id] at this

end

/-! ## What is shown -/

/-- What `CAT` prints of a file with complete tables. -/
def shown (state : AppState) (f : PulFile) : List Byte :=
  printFile f ++ ((if state.showTracks then trackListing f else []) ++
    if state.showAlphabetTable then tableListing f else [])

section
variable {f : PulFile} (hf : f.TablesComplete)
include hf

theorem printTrackEntries_ok : printTrackEntries f = .ok (trackListing f) := by
  have h := printLoop_ok printTrackEntry f.tArr _ (Nat.le_of_eq hf.tArr.symm)
  rwa [← hf.tArr, List.take_length, hf.tArr] at h

theorem printAlphabetTable_ok : printAlphabetTable f = .ok (tableListing f) := by
  have h := printLoop_ok printAlphabetIndex f.alphabetTable _ (Nat.le_of_eq hf.alphabetTable.symm)
  rw [← hf.alphabetTable, List.take_length, hf.alphabetTable] at h
  unfold printAlphabetTable
  rw [h]
  rfl

theorem report_ok : report f = .ok (shown ⟨true, true⟩ f) := by
  unfold report
  rw [printTrackEntries_ok hf, printAlphabetTable_ok hf]
  rfl

end

/-! ## What it tells -/

/-- The two agree on all that is printed: everything but the paddings, and the
name up to its first NUL. -/
structure SamePrinted (f f' : PulFile) : Prop where
  fHdr : { f.fHdr with modFolderName := f'.fHdr.modFolderName } = f'.fHdr
  modFolderName : f.fHdr.modFolderName.toList.takeWhile (· ≠ 0) = f'.fHdr.modFolderName.toList.takeWhile (· ≠ 0)
  iHdr : f.iHdr = f'.iHdr
  iFld : { f.iFld with padding := f'.iFld.padding } = f'.iFld
  cHdr : { f.cHdr with padding := f'.cHdr.padding } = f'.cHdr
  tArr : f.tArr = f'.tArr
  alphabetTable : f.alphabetTable = f'.alphabetTable

theorem vector_eq_quad {α : Type} [Inhabited α] (v : Vector α 4) : v = #v[v[0]!, v[1]!, v[2]!, v[3]!] := by
  obtain ⟨⟨l⟩, hl⟩ := v
  match l, hl with
  | [_, _, _, _], _ => rfl

theorem str_modFolderName (v : Vector Byte modNameMax) : str modNameMax v.toList = v.toList.takeWhile (· ≠ 0) := by
  rw [str, List.take_of_length_le (Nat.le_of_eq v.length_toList)]

def PulFile.asked (f : PulFile) (state : AppState) : PulFile :=
  { f with
    tArr := if state.showTracks then f.tArr else []
    alphabetTable := if state.showAlphabetTable then f.alphabetTable else [] }

section
variable {f f' : PulFile} {state : AppState}

theorem printFile_headers {r r' : List Byte} (e : printFile f ++ r = printFile f' ++ r') :
    SamePrinted (f.asked ⟨false, false⟩) (f'.asked ⟨false, false⟩) ∧ r = r' := by
  obtain ⟨hk, e⟩ := determines_printFile f f' r r' e
  simp only [Prod.mk.injEq] at hk
  obtain ⟨k₁, k₂, k₃, k₄, k₅, k₆, k₇, k₈, k₉, k₁₀, k₁₁, k₁₂, k₁₃, k₁₄, k₁₅, k₁₆, k₁₇, k₁₈, k₁₉, k₂₀, k₂₁, k₂₂, k₂₃, k₂₄,
    k₂₅, k₂₆, k₂₇, k₂₈, k₂₉, k₃₀, k₃₁, _⟩ := hk
  have hn : f.cHdr.nTrophies = f'.cHdr.nTrophies := by
    rw [vector_eq_quad f.cHdr.nTrophies, vector_eq_quad f'.cHdr.nTrophies, k₂₇, k₂₈, k₂₉, k₃₀]
  refine ⟨⟨?_, ?_, ?_, ?_, ?_, rfl, rfl⟩, e⟩
  · simp only [PulFile.asked, k₁, k₂, k₃, k₄, k₅]
  · rwa [str_modFolderName, str_modFolderName] at k₆
  · show InfoHeader.mk f.iHdr.magic f.iHdr.version f.iHdr.size = f'.iHdr
    simp only [k₇, k₈, k₉]
  · simp only [PulFile.asked, k₁₀, k₁₁, k₁₂, k₁₃, k₁₄, k₁₅, k₁₆, k₁₇, k₁₈, k₁₉, k₂₀, k₂₁]
  · simp only [PulFile.asked, k₂₂, k₂₃, k₂₄, k₂₅, k₂₆, k₃₁, hn]

theorem SamePrinted.printFile (h : SamePrinted f f') : printFile f = printFile f' := by
  obtain ⟨⟨magic, version, infoOffset, cupsOffset, bmgOffset, name⟩, iHdr, iFld, cHdr, tArr, table⟩ := f
  obtain ⟨⟨magic', version', infoOffset', cupsOffset', bmgOffset', name'⟩, iHdr', iFld', cHdr', tArr', table'⟩ := f'
  obtain ⟨h₁, h₂, h₃, h₄, h₅, h₆, h₇⟩ := h
  cases iFld
  cases iFld'
  cases cHdr
  cases cHdr'
  cases h₁
  cases h₃
  cases h₄
  cases h₅
  have hs : str modNameMax name.toList = str modNameMax name'.toList := by
    rw [str_modFolderName, str_modFolderName]
    exact h₂
  unfold Catapult.printFile
  rw [hs]

theorem shown_eq_iff (hf : f.TablesComplete) (hf' : f'.TablesComplete) :
    shown state f = shown state f' ↔ SamePrinted (f.asked state) (f'.asked state) := by
  constructor
  · intro e
    obtain ⟨h, e⟩ := printFile_headers e
    -- the cup counts agree, so both tables have the same number of entries
    have hc : f.cHdr.nCtCups = f'.cHdr.nCtCups := congrArg (·.nCtCups) h.cHdr
    have hl : f.tArr.length = f'.tArr.length := by rw [hf.tArr, hf'.tArr, hc]
    have hl' : f.alphabetTable.length = f'.alphabetTable.length := by rw [hf.alphabetTable, hf'.alphabetTable, hc]
    have ht : (f.asked state).tArr = (f'.asked state).tArr ∧
        (if state.showAlphabetTable then tableListing f else []) =
          if state.showAlphabetTable then tableListing f' else [] := by
      unfold PulFile.asked
      cases hs : state.showTracks with
      | false =>
        simp only [hs, Bool.false_eq_true, ite_false, List.nil_append] at e ⊢
        exact ⟨trivial, e⟩
      | true =>
        simp only [hs, ite_true] at e ⊢
        exact trackListing_determines hl e
    have ha : (f.asked state).alphabetTable = (f'.asked state).alphabetTable := by
      unfold PulFile.asked
      cases hs : state.showAlphabetTable with
      | false => rfl
      | true =>
        have e' : tableListing f = tableListing f' := by simpa only [hs, ite_true] using ht.2
        exact tableListing_determines hl' e'
    exact ⟨h.fHdr, h.modFolderName, h.iHdr, h.iFld, h.cHdr, ht.1, ha⟩
  · intro h
    have hp : printFile f = printFile f' := h.printFile
    have ht : (if state.showTracks then trackListing f else []) = if state.showTracks then trackListing f' else [] := by
      have := h.tArr
      unfold PulFile.asked at this
      cases hs : state.showTracks with
      | false => rfl
      | true =>
        simp only [hs, ite_true] at this ⊢
        unfold trackListing
        rw [this]
    have ha : (if state.showAlphabetTable then tableListing f else []) =
        if state.showAlphabetTable then tableListing f' else [] := by
      have := h.alphabetTable
      unfold PulFile.asked at this
      cases hs : state.showAlphabetTable with
      | false => rfl
      | true =>
        simp only [hs, ite_true] at this ⊢
        unfold tableListing
        rw [this]
    unfold shown
    rw [hp, ht, ha]

end

/-- **Two files with the same report are the same** up to what is not printed. -/
theorem report_unambiguous (f f' : PulFile) (hf : f.TablesComplete) (hf' : f'.TablesComplete) (out : List Byte)
    (h : report f = .ok out) (h' : report f' = .ok out) : SamePrinted f f' := by
  rw [report_ok hf] at h
  rw [report_ok hf'] at h'
  have e : shown ⟨true, true⟩ f = shown ⟨true, true⟩ f' := (Except.ok.inj h).trans (Except.ok.inj h').symm
  exact (shown_eq_iff hf hf').mp e

theorem report_unambiguous_padding :
    SamePrinted samplePul { samplePul with iFld := { samplePul.iFld with padding := Vector.replicate 40 1 } } :=
  report_unambiguous samplePul _ ⟨rfl, rfl⟩ ⟨rfl, rfl⟩ _ (report_ok ⟨rfl, rfl⟩) (report_ok ⟨rfl, rfl⟩)

end Catapult
