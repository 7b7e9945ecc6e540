import Catapult.WriteSound

/-!
# `write_file` whatever its calls return

The output is truncated before anything is known about the sub-files, a load
that fails counts as an empty sub-file, and an output that could not be opened
is written to all the same.
-/

namespace Catapult

open BigEndian Cursor Stdio

section
variable (o : WriteOutcome) (f : PulFile) (filename bmgPath txtPath : String) (w : World)

/-- What the load of the BMG hands over. Of the output itself it finds the
bytes that are in its file by then. -/
def bmgLoaded : List Byte := o.bmg.delivers ((w.setFile filename (f.bytes.take o.bmgSeen)).files bmgPath)

def txtLoaded : List Byte := o.txt.delivers
  ((w.setFile filename ((f.bytes ++ bmgLoaded o f filename bmgPath w).take o.txtSeen)).files txtPath)

/-! ## The run -/

variable {o f}

theorem writeFile_run (ho : o.opens = true) (hf : f.TablesComplete) : ∃ w',
    writeFile o f filename bmgPath txtPath w = .ok w' ∧ w'.files filename =
      some (f.bytes ++ (bmgLoaded o f filename bmgPath w ++ txtLoaded o f filename bmgPath txtPath w)) := by
  obtain ⟨buf, msgs, e, hb, _⟩ := bufferFromFile_delivers o.bmg bmgPath (w.setFile filename (f.bytes.take o.bmgSeen))
  obtain ⟨buf', msgs', e', hb', _⟩ := bufferFromFile_delivers o.txt txtPath
    ((w.setFile filename ((f.bytes ++ buf.bytes).take o.txtSeen)).report msgs)
  have hB : buf.bytes = bmgLoaded o f filename bmgPath w := hb
  rw [hB] at e'
  have hT : buf'.bytes = txtLoaded o f filename bmgPath txtPath w := by
    rw [hb', hB]
    rfl
  unfold writeFile openWrite
  rw [if_pos ho]
  simp only [appends_writeHeaders hf _, appends_fwrite _ _, bind, Except.bind, sync, setFile_setFile, List.nil_append,
    e, hB, setFile_report, e', hT, close]
  exact ⟨_, rfl, by rw [List.append_assoc, files_report, files_report, files_setFile_self]⟩

theorem writeFile_nullStream (ho : o.opens = false) :
    writeFile o f filename bmgPath txtPath w = .error .nullStream := by
  unfold writeFile openWrite
  rw [ho]
  rfl

variable (o f)

/-! ## All or nothing -/

/-- No stream is used that was not opened, and the output ends up complete or
as it was before. -/
def AllOrNothing : Prop := ∃ w', writeFile o f filename bmgPath txtPath w = .ok w' ∧
  ((∃ bmg txt, w.files bmgPath = some bmg ∧ w.files txtPath = some txt ∧
    w'.files filename = some (f.bytes ++ (bmg ++ txt))) ∨ w'.files filename = w.files filename)

/-- What the two loads hand over makes up the two sub-files. -/
def PartsLoaded : Prop := ∃ bmg txt, w.files bmgPath = some bmg ∧ w.files txtPath = some txt ∧
  bmgLoaded o f filename bmgPath w ++ txtLoaded o f filename bmgPath txtPath w = bmg ++ txt

variable {o f filename bmgPath txtPath w}

theorem delivers_eq_iff (o : LoadOutcome) (c : List Byte) : o.delivers (some c) = c ↔ o.Reads c.length ∨ c = [] := by
  by_cases h : o.Reads c.length
  · have e : o.delivers (some c) = c := if_pos h
    exact ⟨fun _ => .inl h, fun _ => e⟩
  · have e : o.delivers (some c) = [] := if_neg h
    rw [e]
    exact ⟨fun e => .inr e.symm, fun hc => (hc.resolve_left h).symm⟩

theorem length_delivers_le (o : LoadOutcome) (c : List Byte) : (o.delivers (some c)).length ≤ c.length := by
  show (if o.Reads c.length then c else []).length ≤ c.length
  split
  · exact Nat.le_refl _
  · exact Nat.zero_le _

theorem partsLoaded_iff (hb : bmgPath ≠ filename) (ht : txtPath ≠ filename) :
    PartsLoaded o f filename bmgPath txtPath w ↔ ∃ bmg txt, w.files bmgPath = some bmg ∧ w.files txtPath = some txt ∧
      (o.bmg.Reads bmg.length ∨ bmg = []) ∧ (o.txt.Reads txt.length ∨ txt = []) := by
  unfold PartsLoaded bmgLoaded txtLoaded
  rw [files_setFile_of_ne _ _ hb, files_setFile_of_ne _ _ ht]
  refine exists_congr fun bmg => exists_congr fun txt => and_congr_right fun hB => and_congr_right fun hT => ?_
  rw [hB, hT, ← delivers_eq_iff, ← delivers_eq_iff]
  constructor
  · intro h
    have hlB := length_delivers_le o.bmg bmg
    have hlT := length_delivers_le o.txt txt
    have hl := congrArg List.length h
    rw [List.length_append, List.length_append] at hl
    exact List.append_inj h (by omega)
  · rintro ⟨h, h'⟩
    rw [h, h']

/-- **When `write_file` is all or nothing.** -/
theorem writeFile_allOrNothing_iff (o : WriteOutcome) (f : PulFile) (hf : f.TablesComplete)
    (filename bmgPath txtPath : String) (w : World) :
    (AllOrNothing o f filename bmgPath txtPath w ↔ o.opens = true ∧
      (PartsLoaded o f filename bmgPath txtPath w ∨ w.files filename =
        some (f.bytes ++ (bmgLoaded o f filename bmgPath w ++ txtLoaded o f filename bmgPath txtPath w)))) ∧
    (bmgPath ≠ filename → txtPath ≠ filename → (PartsLoaded o f filename bmgPath txtPath w ↔
      ∃ bmg txt, w.files bmgPath = some bmg ∧ w.files txtPath = some txt ∧
        (o.bmg.Reads bmg.length ∨ bmg = []) ∧ (o.txt.Reads txt.length ∨ txt = []))) := by
  refine ⟨?_, partsLoaded_iff⟩
  cases ho : o.opens with
  | false =>
    refine ⟨?_, fun h => nomatch h.1⟩
    rintro ⟨w', e, _⟩
    rw [writeFile_nullStream filename bmgPath txtPath w ho] at e
    cases e
  | true =>
    obtain ⟨w', e, hw⟩ := writeFile_run filename bmgPath txtPath w ho hf
    constructor
    · rintro ⟨w'', e', h⟩
      rw [e] at e'
      cases e'
      rw [hw] at h
      refine ⟨rfl, h.imp ?_ Eq.symm⟩
      rintro ⟨bmg, txt, hB, hT, h⟩
      exact ⟨bmg, txt, hB, hT, List.append_cancel_left (Option.some.inj h)⟩
    · rintro ⟨_, h⟩
      refine ⟨w', e, h.imp ?_ fun h => hw.trans h.symm⟩
      rintro ⟨bmg, txt, hB, hT, h⟩
      exact ⟨bmg, txt, hB, hT, by rw [hw, h]⟩

theorem writeFile_allOrNothing_samplePul :
    AllOrNothing .success samplePul "out" "bmg" "txt" ⟨fun _ => some [7], [], []⟩ := by
  have h := writeFile_allOrNothing_iff .success samplePul wellFormed_samplePul.tablesComplete "out" "bmg" "txt"
    ⟨fun _ => some [7], [], []⟩
  refine h.1.mpr ⟨rfl, .inl ((h.2 (by decide) (by decide)).mpr ?_)⟩
  exact ⟨[7], [7], rfl, rfl, .inl (by decide), .inl (by decide)⟩

/-- Without the BMG the output is replaced by the tables and the text; without
an output the headers are written to a stream that does not exist. -/
theorem not_allOrNothing_missing :
    (∃ w', writeFile .success samplePul "out" "bmg" "txt"
        ⟨fun p => if p = "bmg" then none else some [7], [], []⟩ = .ok w' ∧
      w'.files "out" = some (samplePul.bytes ++ [7])) ∧
    ¬ AllOrNothing .success samplePul "out" "bmg" "txt" ⟨fun p => if p = "bmg" then none else some [7], [], []⟩ ∧
    writeFile { WriteOutcome.success with opens := false } samplePul "out" "bmg" "txt" ⟨fun _ => some [7], [], []⟩ =
      .error .nullStream := by
  obtain ⟨w', e, hw⟩ := writeFile_run "out" "bmg" "txt" ⟨fun p => if p = "bmg" then none else some [7], [], []⟩
    (o := .success) rfl wellFormed_samplePul.tablesComplete
  have hout : w'.files "out" = some (samplePul.bytes ++ [7]) := hw
  refine ⟨⟨w', e, hout⟩, ?_, writeFile_nullStream _ _ _ _ rfl⟩
  rintro ⟨w'', e', h⟩
  rw [e] at e'
  cases e'
  rcases h with ⟨bmg, _, hB, _⟩ | h
  · cases hB
  · rw [hout] at h
    have := congrArg List.length (Option.some.inj h)
    rw [List.length_append, wellFormed_samplePul.length_bytes] at this
    revert this
    decide

end

end Catapult
