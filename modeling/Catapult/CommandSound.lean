import Catapult.PrintSound
import Catapult.ReadAny

/-!
# What the commands do

`CAT` shows a file that is read to its end, and fails with one that is not. So
it prints a report of every file that is long enough, whatever its magics.
-/

namespace Catapult

open BigEndian Cursor Stdio Printf

/-! ## CAT -/

section
variable {I : Impl} {o : LoadOutcome} (state : AppState) {pf : PulFile} {b : List Byte} {filename : String} {w : World}

variable (hb : b ≠ []) (hw : w.files filename = some b) (ho : o.Reads b.length)
include hb hw ho

variable (I pf) in
/-- What is loaded is read and printed part by part. -/
theorem commandCat_loaded : commandCat I o state pf filename w = (do
    let (f, s) ← (readFile pf).exec I b ⟨0, []⟩
    let w := (w.report s.log).print (printFile f)
    let w ← if state.showTracks then w.print <$> printTrackEntries f else pure w
    if state.showAlphabetTable then w.print <$> printAlphabetTable f else pure w) := by
  have hl : ¬ b.length = 0 := fun e => hb (List.eq_nil_of_length_eq_zero e)
  unfold commandCat
  simp only [bufferFromFile_reads hw ho, hl, ite_false, Buffer.bytes, Option.getD_some, List.take_length]

variable {f : PulFile} {s : State} (hr : (readFile pf).exec I b ⟨0, []⟩ = .ok (f, s))
include hr

theorem commandCat_run {tracks table : List Byte} (ht : printTrackEntries f = .ok tracks)
    (ha : printAlphabetTable f = .ok table) : commandCat I o state pf filename w =
      .ok ((w.report s.log).print (printFile f ++ ((if state.showTracks then tracks else []) ++
        if state.showAlphabetTable then table else []))) := by
  rw [commandCat_loaded I state pf hb hw ho, hr]
  simp only [ht, ha, bind, Except.bind]
  cases state.showTracks <;> cases state.showAlphabetTable <;>
    simp [Functor.map, Except.map, print_print, pure, Except.pure]

theorem commandCat_shows (hf : f.TablesComplete) :
    commandCat I o state pf filename w = .ok ((w.report s.log).print (shown state f)) :=
  commandCat_run state hb hw ho hr (printTrackEntries_ok hf) (printAlphabetTable_ok hf)

/-- With both options `CAT` prints the report of the file it has read. -/
theorem commandCat_report {out : List Byte} (h : report f = .ok out) :
    commandCat I o ⟨true, true⟩ pf filename w = .ok ((w.report s.log).print out) := by
  obtain ⟨tracks, ht, h⟩ := bind_inv h
  obtain ⟨table, ha, h⟩ := bind_inv h
  cases h
  exact commandCat_run ⟨true, true⟩ hb hw ho hr ht ha

end

theorem printFile_ne_nil (file : PulFile) : printFile file ≠ [] := fun h => by
  have := congrArg List.head? h
  cases this

theorem stdout_print_ne (w : World) {bs : List Byte} (cs : List Byte) (h : bs ≠ []) :
    ((w.print bs).print cs).stdout ≠ w.stdout := by
  intro e
  have := congrArg List.length e
  simp only [World.print, List.length_append] at this
  exact h (List.eq_nil_of_length_eq_zero (by omega))

section
variable (state : AppState) (pf : PulFile) {b : List Byte} {filename : String} {w : World}

/-- **Every file that is long enough is reported.** -/
theorem commandCat_prints (hw : w.files filename = some b) (hl : extent pf b ≤ b.length) :
    ∃ f s tail, (readFile pf).exec .native b ⟨0, []⟩ = .ok (f, s) ∧
      commandCat .native .success state pf filename w = .ok (((w.report s.log).print (printFile f)).print tail) := by
  obtain ⟨f, log, e, d⟩ := exec_readFile_ok pf b [] hl
  have hb : b ≠ [] := by
    rintro rfl
    have := starts_le ([] : List Byte)
    unfold extent at hl
    simp at hl
    omega
  have h := commandCat_shows state (o := .success) hb hw ⟨rfl, rfl, rfl⟩ e d.tablesComplete
  rw [shown, ← print_print] at h
  exact ⟨f, _, _, e, h⟩

def firstBad (b : List Byte) : Nat :=
  if wordAt 32 b 0 ≠ fileMagic then 0 else if wordAt 32 b 36 ≠ infoMagic then 36 else 116

/-- A report is printed for valid magics only, and reading stops at the first
that is missing. -/
structure AcceptsOnlyPul (state : AppState) (pf : PulFile) (b : List Byte) (filename : String) (w : World) : Prop where
  report : ∃ w', commandCat .native .success state pf filename w = .ok w' ∧
    (w'.stdout ≠ w.stdout ↔ ValidMagics b)
  stops : ¬ ValidMagics b → ∀ f s, (readFile pf).exec .native b ⟨0, []⟩ = .ok (f, s) →
    s.offset = firstBad b + 4 ∧ f.tArr = pf.tArr ∧ f.alphabetTable = pf.alphabetTable

/-- **CAT accepts only PUL files where it is given nothing else.** -/
theorem acceptsOnlyPul_iff (hw : w.files filename = some b) (hl : extent pf b ≤ b.length) :
    AcceptsOnlyPul state pf b filename w ↔ ValidMagics b := by
  obtain ⟨f, s, tail, _, e⟩ := commandCat_prints state pf hw hl
  have hp := stdout_print_ne (w.report s.log) tail (printFile_ne_nil f)
  constructor
  · rintro ⟨⟨w', h, hv⟩, _⟩
    rw [e] at h
    cases h
    exact hv.mp hp
  · intro hv
    exact ⟨⟨_, e, fun _ => hv, fun _ => hp⟩, fun h => absurd hv h⟩

end

theorem acceptsOnlyPul_samplePul : AcceptsOnlyPul ⟨true, true⟩ samplePul (samplePul.bytes ++ []) "pul"
    ⟨fun _ => some (samplePul.bytes ++ []), [], []⟩ := by
  have hp := wellFormed_samplePul.isPul []
  exact (acceptsOnlyPul_iff ⟨true, true⟩ samplePul rfl (by rw [hp.magics.extent]; exact hp.tables)).mpr hp.magics

theorem commandCat_zeros : ∃ w' f s,
    commandCat .native .success ⟨true, true⟩ samplePul "zeros" ⟨fun _ => some (List.replicate 92 0), [], []⟩ =
      .ok w' ∧ w'.stdout ≠ [] ∧ ¬ ValidMagics (List.replicate 92 0) ∧
    (readFile samplePul).exec .native (List.replicate 92 0) ⟨0, []⟩ = .ok (f, s) ∧ s.offset = 92 := by
  have hl : extent samplePul (List.replicate 92 0) = 92 := by decide
  have hw : (⟨fun _ => some (List.replicate 92 0), [], []⟩ : World).files "zeros" = some (List.replicate 92 0) := rfl
  obtain ⟨f, s, tail, h, e⟩ := commandCat_prints ⟨true, true⟩ samplePul hw (by rw [hl]; decide)
  refine ⟨_, f, s, e, stdout_print_ne _ tail (printFile_ne_nil f), by decide, h, ?_⟩
  rw [(decoded_of_ok samplePul _ h).2, hl]
  rfl

end Catapult
