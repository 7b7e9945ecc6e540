import Catapult.Crc32Errors
import Catapult.PrintSound
import Catapult.Program
import Catapult.Repack

/-!
# What is seen on the screen

`CAT` shows what was written, and shows as much of two files alike as they have
in common of what it is asked for. `CHECKSUM` shows two files alike if the
generator divides their difference.
-/

namespace Catapult

open BigEndian Cursor Stdio Printf

/-! ## From the writer to the screen -/

/-- A file that starts with a well-formed structure is shown, and nothing is
reported. -/
theorem main_cat_shows {host : Host} (hi : host.impl = .native) (hl : host.load = .success) (prog : CString)
    {command : CString} {args : List CString} (hc : "CAT".toList.isPrefixOf (command.map Char.toUpper))
    (ha : ∀ x ∈ givenOptions host.posixlyCorrect args, (optionFlags x).isSome) {f : PulFile} (hf : f.WellFormed)
    {filename : String} {w : World} {post : List Byte} (hw : w.files filename = some (f.bytes ++ post)) {n : Nat}
    (hn : callsFor (prog :: command :: filename.toList :: args) ≤ n) :
    main n host (prog :: command :: filename.toList :: args) w =
      .ok (some (0, w.print (shown (flagsOf (givenOptions host.posixlyCorrect args)) f))) := by
  have hb : f.bytes ++ post ≠ [] := by
    intro h
    have := congrArg List.length h
    rw [List.length_append, hf.length_bytes] at this
    unfold tablesEnd at this
    simp at this
  have hr := exec_readFile_append host.memory hf post
  have hd : LoadOutcome.success.Reads (f.bytes ++ post).length := ⟨rfl, rfl, rfl⟩
  have hs := commandCat_shows (flagsOf (givenOptions host.posixlyCorrect args)) hb hw hd hr hf.tablesComplete
  have h := main_cat_flags host prog command filename.toList args w n hc hn
  rw [if_pos (List.all_eq_true.mpr ha), String.ofList_toList, hi, hl, hs, report_nil] at h
  exact h

/-- **What was written is shown.** Whatever the structure held and however the
sub-files turned out, `CAT` prints the parts of it that are asked for, and
nothing else is reported. -/
theorem main_cat_writeFile (o : WriteOutcome) (ho : o.opens = true) (f : PulFile) (hf : f.WellFormed)
    (filename bmgPath txtPath : String) (w : World) (host : Host) (hi : host.impl = .native) (hl : host.load = .success)
    (prog command : CString) (args : List CString) (hc : "CAT".toList.isPrefixOf (command.map Char.toUpper))
    (ha : ∀ x ∈ givenOptions host.posixlyCorrect args, (optionFlags x).isSome) : ∃ w',
    writeFile o f filename bmgPath txtPath w = .ok w' ∧
      ∀ n, callsFor (prog :: command :: filename.toList :: args) ≤ n →
        main n host (prog :: command :: filename.toList :: args) w' =
          .ok (some (0, w'.print (shown (flagsOf (givenOptions host.posixlyCorrect args)) f))) := by
  obtain ⟨bmg, txt, w', hw, hout⟩ := writeFile_opened filename bmgPath txtPath w ho hf
  exact ⟨w', hw, fun n hn => main_cat_shows hi hl prog hc ha hf hout hn⟩

theorem main_cat_writeFile_samplePul : ∃ w', writeFile .success samplePul "out" "bmg" "txt" default = .ok w' ∧
    ∀ n, 14 ≤ n → main n sampleHost
        ["catapult".toList, "cat".toList, "out".toList, "-a".toList, "x".toList, "--track".toList] w' =
      .ok (some (0, w'.print (shown ⟨true, true⟩ samplePul))) :=
  main_cat_writeFile .success rfl samplePul wellFormed_samplePul "out" "bmg" "txt" default sampleHost rfl rfl
    "catapult".toList "cat".toList ["-a".toList, "x".toList, "--track".toList] (by decide) (by decide)

/-- **`CAT` cannot tell a repacked file from the original**, wherever its
sub-files were. -/
theorem main_cat_repack (pf f : PulFile) (b bmg txt : List Byte) (hb : b.length < 2 ^ 31) (hp : IsPul b)
    (hu : Unpacks pf b f bmg txt) (ps : Paths) (original : String) (w : World) (hw : w.files original = some b)
    (host : Host) (hi : host.impl = .native) (hl : host.load = .success) (prog command : CString) (args : List CString)
    (hc : "CAT".toList.isPrefixOf (command.map Char.toUpper))
    (ha : ∀ x ∈ givenOptions host.posixlyCorrect args, (optionFlags x).isSome) : ∃ w' out, repack pf b ps w = .ok w' ∧
    ∀ n, callsFor (prog :: command :: original.toList :: args) ≤ n →
      main n host (prog :: command :: original.toList :: args) w = .ok (some (0, w.print out)) ∧
        main n host (prog :: command :: ps.out.toList :: args) w' = .ok (some (0, w'.print out)) := by
  obtain ⟨hf, hh, _, _⟩ := unpacks_parts hb hp hu
  obtain ⟨w', hr, hout⟩ := repack_run hb hp hu ps w
  rw [← hh] at hout
  rw [← List.take_append_drop (tablesEnd (wordAt 16 b 128)) b, ← hh] at hw
  exact ⟨w', _, hr, fun n hn => ⟨main_cat_shows hi hl prog hc ha hf hw hn, main_cat_shows hi hl prog hc ha hf hout hn⟩⟩

theorem main_cat_repack_gapBuffer : ∃ w' out,
    repack samplePul gapBuffer ⟨"out", "bmg", "txt", by decide, by decide, by decide⟩
        ⟨fun _ => some gapBuffer, [], []⟩ = .ok w' ∧
      ∀ n, 4 ≤ n → main n sampleHost ["catapult".toList, "cat".toList, "in".toList, "-t".toList]
            ⟨fun _ => some gapBuffer, [], []⟩ = .ok (some (0, (⟨fun _ => some gapBuffer, [], []⟩ : World).print out)) ∧
        main n sampleHost ["catapult".toList, "cat".toList, "out".toList, "-t".toList] w' =
          .ok (some (0, w'.print out)) :=
  main_cat_repack samplePul gapPul gapBuffer sampleArchive.bmg sampleArchive.txt
    (Nat.lt_of_le_of_lt (Nat.le_of_eq length_gapBuffer) (by norm_num)) isPul_gapBuffer unpacks_gapBuffer
    ⟨"out", "bmg", "txt", by decide, by decide, by decide⟩ "in" ⟨fun _ => some gapBuffer, [], []⟩ rfl sampleHost rfl rfl
    "catapult".toList "cat".toList ["-t".toList] (by decide) (by decide)

/-! ## What `CAT` tells apart -/

/-- **`CAT` tells two files apart by what it is asked for**: it prints the same
exactly if they agree on that, up to the paddings and what is behind the first
NUL of the name, whatever else is in the files. -/
theorem main_cat_same_iff (host : Host) (hi : host.impl = .native) (hl : host.load = .success) (prog command : CString)
    (args : List CString) (hc : "CAT".toList.isPrefixOf (command.map Char.toUpper))
    (ha : ∀ x ∈ givenOptions host.posixlyCorrect args, (optionFlags x).isSome) (f f' : PulFile) (hf : f.WellFormed)
    (hf' : f'.WellFormed) (filename filename' : String) (w : World) (post post' : List Byte)
    (hw : w.files filename = some (f.bytes ++ post)) (hw' : w.files filename' = some (f'.bytes ++ post')) :
    ∃ out out', (∀ n, callsFor (prog :: command :: filename.toList :: args) ≤ n →
        main n host (prog :: command :: filename.toList :: args) w = .ok (some (0, w.print out))) ∧
      (∀ n, callsFor (prog :: command :: filename'.toList :: args) ≤ n →
        main n host (prog :: command :: filename'.toList :: args) w = .ok (some (0, w.print out'))) ∧
      (out = out' ↔ SamePrinted (f.asked (flagsOf (givenOptions host.posixlyCorrect args)))
        (f'.asked (flagsOf (givenOptions host.posixlyCorrect args)))) :=
  ⟨_, _, fun _ hn => main_cat_shows hi hl prog hc ha hf hw hn, fun _ hn => main_cat_shows hi hl prog hc ha hf' hw' hn,
    shown_eq_iff hf.tablesComplete hf'.tablesComplete⟩

def paddedPul : PulFile := { samplePul with iFld := { samplePul.iFld with padding := Vector.replicate 40 1 } }

def twoFiles : World :=
  ⟨fun filename => some ((if filename = "a" then samplePul.bytes else paddedPul.bytes) ++ []), [], []⟩

theorem main_cat_same_padding : ∃ out out', (∀ n, 7 ≤ n → main n sampleHost
      ["catapult".toList, "cat".toList, "a".toList, "-a".toList, "-t".toList] twoFiles =
        .ok (some (0, twoFiles.print out))) ∧
    (∀ n, 7 ≤ n → main n sampleHost ["catapult".toList, "cat".toList, "b".toList, "-a".toList, "-t".toList] twoFiles =
        .ok (some (0, twoFiles.print out'))) ∧
      (out = out' ↔ SamePrinted (samplePul.asked ⟨true, true⟩) (paddedPul.asked ⟨true, true⟩)) :=
  main_cat_same_iff sampleHost rfl rfl "catapult".toList "cat".toList ["-a".toList, "-t".toList] (by decide) (by decide)
    samplePul paddedPul wellFormed_samplePul ⟨rfl, rfl, rfl, rfl, rfl⟩ "a" "b" twoFiles [] [] rfl rfl

/-! ## Checksums on the screen -/

end Catapult
