import Catapult.ExportSound

/-!
# Unpacking a file and packing it again

`repack` reads a buffer, exports its sub-files and writes the three parts as a
new file. It keeps the head of the buffer up to the end of the tables and the
tail from the BMG on, and moves the tail to the end of the head; the offset in
the header stays as it was.
-/

namespace Catapult

open BigEndian Cursor Stdio

structure Paths where
  out : String
  bmg : String
  txt : String
  bmg_ne_out : bmg ≠ out
  txt_ne_out : txt ≠ out
  bmg_ne_txt : bmg ≠ txt

def repack (pf : PulFile) (b : List Byte) (ps : Paths) (w : World) : Except Fault World := do
  let (f, s) ← (readFile pf).exec .native b ⟨0, []⟩
  let w ← exportBmg .native true f b ps.bmg (w.report s.log)
  let w ← exportTxt .native true f b b.length ps.txt w
  writeFile .success f ps.out ps.bmg ps.txt w

structure Unpacks (pf : PulFile) (b : List Byte) (f : PulFile) (bmg txt : List Byte) : Prop where
  read : ∃ s, (readFile pf).exec .native b ⟨0, []⟩ = .ok (f, s)
  bmg : ExportsBmg f b bmg
  txt : ExportsTxt f b txt

def Repacks (pf : PulFile) (b r : List Byte) : Prop :=
  ∀ ps w, ∃ w', repack pf b ps w = .ok w' ∧ w'.files ps.out = some r

/-! ## What is read -/

/-- One run of each export is enough: neither depends on its path or on other
files. -/
theorem unpacks_of_run {pf f : PulFile} {b bmg txt : List Byte} (hb : b.length < 2 ^ 31) {s : State}
    (hr : (readFile pf).exec .native b ⟨0, []⟩ = .ok (f, s)) {p q : String} {v w : World}
    (hB : exportBmg .native true f b p v = .ok (v.setFile p bmg))
    (hT : exportTxt .native true f b b.length q w = .ok (w.setFile q txt)) : Unpacks pf b f bmg txt := by
  obtain ⟨n, hn, hl, e⟩ := exportBmg_written hb p v hB
  have ht := exportTxt_written hb q w hn hl hT
  exact ⟨⟨s, hr⟩, (exportsBmg_iff hb).mpr ⟨n, hn, hl, e⟩, (exportsTxt_iff hb hn hl).mpr ht⟩

section
variable {pf f : PulFile} {b bmg txt : List Byte} (hb : b.length < 2 ^ 31) (hp : IsPul b)
  (hu : Unpacks pf b f bmg txt)
include hb hp hu

theorem unpacks_parts : f.WellFormed ∧ f.bytes = b.take (tablesEnd (wordAt 16 b 128)) ∧
    bmg ++ txt = b.drop f.fHdr.bmgOffset.toNat ∧ f.fHdr.bmgOffset.toNat ≤ b.length := by
  obtain ⟨f₀, post, hf, e, hn⟩ := hp.exists_wellFormed
  obtain ⟨s, hs⟩ := hu.read
  have hr := exec_readFile_append pf hf post
  rw [← e, hs] at hr
  have ef : f = f₀ := congrArg Prod.fst (Except.ok.inj hr)
  subst ef
  obtain ⟨n, hat, hl, hB⟩ := (exportsBmg_iff hb).mp hu.bmg
  obtain ⟨_, _, hT⟩ := (exportsTxt_iff hb hat hl).mp hu.txt
  refine ⟨hf, ?_, ?_, by omega⟩
  · have hlen := hf.length_bytes
    rw [hn] at hlen
    rw [← hlen]
    conv => rhs; rw [e]
    exact List.take_left.symm
  · rw [hB, hT, ← List.drop_drop, List.take_append_drop]

/-- The offset in the header of the output is the old one. -/
theorem repack_run : Repacks pf b (b.take (tablesEnd (wordAt 16 b 128)) ++ b.drop f.fHdr.bmgOffset.toNat) := by
  obtain ⟨hf, hh, ht, _⟩ := unpacks_parts hb hp hu
  obtain ⟨s, hs⟩ := hu.read
  intro ps w
  have hB : (((w.report s.log).setFile ps.bmg bmg).setFile ps.txt txt).files ps.bmg = some bmg := by
    rw [files_setFile_of_ne _ _ ps.bmg_ne_txt, files_setFile_self]
  have hT : (((w.report s.log).setFile ps.bmg bmg).setFile ps.txt txt).files ps.txt = some txt :=
    files_setFile_self ..
  have hw := writeFile_success (o := .success) ⟨rfl, rfl, rfl⟩ hf hB hT ps.bmg_ne_out ps.txt_ne_out
  unfold repack
  simp only [hs, bind, Except.bind, hu.bmg ps.bmg, hu.txt ps.txt]
  exact ⟨_, hw, by rw [files_setFile_self, hh, ht]⟩

theorem repack_eq_iff : b.take (tablesEnd (wordAt 16 b 128)) ++ b.drop f.fHdr.bmgOffset.toNat = b ↔
    f.fHdr.bmgOffset.toNat = tablesEnd (wordAt 16 b 128) := by
  obtain ⟨_, _, _, hs⟩ := unpacks_parts hb hp hu
  have hE := hp.tables
  constructor
  · intro h
    have := congrArg List.length h
    rw [List.length_append, List.length_take, List.length_drop, Nat.min_eq_left hE] at this
    omega
  · intro h
    rw [h, List.take_append_drop]

theorem repack_length : (b.take (tablesEnd (wordAt 16 b 128)) ++ b.drop f.fHdr.bmgOffset.toNat).length =
    tablesEnd (wordAt 16 b 128) + (bmg.length + txt.length) := by
  obtain ⟨_, _, ht, _⟩ := unpacks_parts hb hp hu
  rw [List.length_append, List.length_take, Nat.min_eq_left hp.tables, ← ht, List.length_append]

end

/-! ## Once -/

def gapPul : PulFile := { samplePul with fHdr := { samplePul.fHdr with bmgOffset := 228 } }

def gapBuffer : List Byte := gapPul.bytes ++ [1, 2, 3, 4] ++ (sampleArchive.bmg ++ sampleArchive.txt)

theorem wellFormed_gapPul : gapPul.WellFormed := ⟨rfl, rfl, rfl, rfl, rfl⟩

theorem length_gapBuffer : gapBuffer.length = 244 := by
  simp only [gapBuffer, List.length_append, wellFormed_gapPul.length_bytes]
  rfl

theorem unpacks_gapBuffer : Unpacks samplePul gapBuffer gapPul sampleArchive.bmg sampleArchive.txt := by
  have hl : (gapPul.bytes ++ ([1, 2, 3, 4] ++ (sampleArchive.bmg ++ sampleArchive.txt))).length < 2 ^ 31 := by
    rw [← List.append_assoc]
    exact length_gapBuffer ▸ by decide
  have ho : gapPul.fHdr.bmgOffset.toNat = (gapPul.bytes ++ [1, 2, 3, 4]).length := by
    rw [List.length_append, wellFormed_gapPul.length_bytes]
    rfl
  have hx := exports_append sampleArchive.isBmg sampleArchive.isText ho (by rwa [List.append_assoc])
  have hr := exec_readFile_append samplePul wellFormed_gapPul
    ([1, 2, 3, 4] ++ (sampleArchive.bmg ++ sampleArchive.txt))
  rw [← List.append_assoc] at hr
  exact ⟨⟨_, hr⟩, hx.1, hx.2⟩

theorem isPul_gapBuffer : IsPul gapBuffer := by
  have := wellFormed_gapPul.isPul ([1, 2, 3, 4] ++ (sampleArchive.bmg ++ sampleArchive.txt))
  rwa [← List.append_assoc] at this

theorem nCtCups_gapBuffer : wordAt 16 gapBuffer 128 = 1 := by
  have := wellFormed_gapPul.nCtCups ([1, 2, 3, 4] ++ (sampleArchive.bmg ++ sampleArchive.txt))
  rwa [← List.append_assoc] at this

/-- **Unpack then repack keeps the file** up to the bytes between the alphabet
table and the BMG. -/
theorem repack_keeps (pf f : PulFile) (b bmg txt : List Byte) (hb : b.length < 2 ^ 31) (hp : IsPul b)
    (hu : Unpacks pf b f bmg txt) (ps : Paths) (w : World) : ∃ w' r,
      repack pf b ps w = .ok w' ∧ w'.files ps.out = some r ∧
      r = b.take (144 + 10 * nTracks (wordAt 16 b 128)) ++ b.drop f.fHdr.bmgOffset.toNat ∧
      (r = b ↔ f.fHdr.bmgOffset.toNat = 144 + 10 * nTracks (wordAt 16 b 128)) ∧
      (∀ i < 144 + 10 * nTracks (wordAt 16 b 128), r[i]? = b[i]?) ∧
      ∀ i, f.fHdr.bmgOffset.toNat ≤ i →
        r[144 + 10 * nTracks (wordAt 16 b 128) + (i - f.fHdr.bmgOffset.toNat)]? = b[i]? := by
  obtain ⟨w', hw, hr⟩ := repack_run hb hp hu ps w
  have hlen : (b.take (tablesEnd (wordAt 16 b 128))).length = 144 + 10 * nTracks (wordAt 16 b 128) := by
    rw [List.length_take, Nat.min_eq_left hp.tables]
    rfl
  refine ⟨w', _, hw, hr, rfl, repack_eq_iff hb hp hu, fun i hi => ?_, fun i hi => ?_⟩
  · rw [List.getElem?_append_left (hlen ▸ hi)]
    exact List.getElem?_take_of_lt hi
  · rw [List.getElem?_append_right (by omega), hlen, List.getElem?_drop, Nat.add_sub_cancel_left,
      Nat.add_sub_cancel' hi]

theorem repack_keeps_gapBuffer : ∃ w' r,
    repack samplePul gapBuffer ⟨"out", "bmg", "txt", by decide, by decide, by decide⟩ default = .ok w' ∧
      w'.files "out" = some r ∧ r = gapBuffer.take 224 ++ gapBuffer.drop 228 ∧ r ≠ gapBuffer := by
  obtain ⟨w', r, hw, hr, e, h, _⟩ := repack_keeps samplePul gapPul gapBuffer _ _ (length_gapBuffer ▸ by decide)
    isPul_gapBuffer unpacks_gapBuffer ⟨"out", "bmg", "txt", by decide, by decide, by decide⟩ default
  rw [nCtCups_gapBuffer] at e h
  refine ⟨w', r, hw, hr, e, fun hb => ?_⟩
  have := h.mp hb
  revert this
  decide

/-! ## Twice -/

section
variable {pf f : PulFile} {b bmg txt : List Byte} (hb : b.length < 2 ^ 31) (hp : IsPul b)
  (hu : Unpacks pf b f bmg txt)
include hb hp hu

omit hb in
theorem unpacks_any (pf' : PulFile) : Unpacks pf' b f bmg txt := by
  obtain ⟨f₀, post, hf, e, _⟩ := hp.exists_wellFormed
  obtain ⟨s, hs⟩ := hu.read
  have hr := exec_readFile_append pf hf post
  have hr' := exec_readFile_append pf' hf post
  rw [← e] at hr hr'
  rw [hs] at hr
  exact ⟨⟨_, by rw [hr', ← hr]⟩, hu.bmg, hu.txt⟩

theorem located_of_unpacks (hE : tablesEnd (wordAt 16 b 128) ≤ f.fHdr.bmgOffset.toNat) {f' : PulFile}
    (h : Unpacks pf (b.take (tablesEnd (wordAt 16 b 128)) ++ b.drop f.fHdr.bmgOffset.toNat) f' bmg txt) :
    f.fHdr.bmgOffset.toNat = tablesEnd (wordAt 16 b 128) := by
  obtain ⟨hf, hh, ht, hs⟩ := unpacks_parts hb hp hu
  have hlen := repack_length hb hp hu
  have htl := congrArg List.length ht
  rw [List.length_append, List.length_drop] at htl
  have hr := exec_readFile_append pf hf (b.drop f.fHdr.bmgOffset.toNat)
  obtain ⟨s, e⟩ := h.read
  rw [hh, e] at hr
  -- the head is unchanged, so the output is read back as the same structure
  have ef : f' = f := congrArg Prod.fst (Except.ok.inj hr)
  subst ef
  have := start_eq (by rw [hlen]; omega) h.bmg h.txt
  omega

end

/-- **Repacking is stable exactly when nothing lies between the tables and the
BMG.** -/
theorem repack_stable_iff (pf f : PulFile) (b bmg txt : List Byte) (hb : b.length < 2 ^ 31) (hp : IsPul b)
    (hE : 144 + 10 * nTracks (wordAt 16 b 128) ≤ f.fHdr.bmgOffset.toNat) (hu : Unpacks pf b f bmg txt) :
    ∃ r, Repacks pf b r ∧
      ((∀ pf', (∃ f', Unpacks pf' r f' bmg txt) ∧ Repacks pf' r r) ↔
        f.fHdr.bmgOffset.toNat = 144 + 10 * nTracks (wordAt 16 b 128)) := by
  refine ⟨_, repack_run hb hp hu, fun h => ?_, fun h pf' => ?_⟩
  · obtain ⟨f', hf'⟩ := (h pf).1
    exact located_of_unpacks hb hp hu hE hf'
  · have hu' := unpacks_any hp hu pf'
    have hr := repack_run hb hp hu'
    have e := (repack_eq_iff hb hp hu).mpr h
    rw [e] at hr ⊢
    exact ⟨⟨f, hu'⟩, hr⟩

theorem repack_stable_gapBuffer : ∃ r, Repacks samplePul gapBuffer r ∧
    ¬ ∀ pf', (∃ f', Unpacks pf' r f' sampleArchive.bmg sampleArchive.txt) ∧ Repacks pf' r r := by
  obtain ⟨r, hr, h⟩ := repack_stable_iff samplePul gapPul gapBuffer _ _ (length_gapBuffer ▸ by decide)
    isPul_gapBuffer (by rw [nCtCups_gapBuffer]; decide) unpacks_gapBuffer
  rw [nCtCups_gapBuffer] at h
  exact ⟨r, hr, fun hs => absurd (h.mp hs) (by decide)⟩

theorem not_stable_gapBuffer : gapBuffer.length < 2 ^ 31 ∧ IsPul gapBuffer ∧
    144 + 10 * nTracks (wordAt 16 gapBuffer 128) ≤ gapPul.fHdr.bmgOffset.toNat ∧
    Unpacks samplePul gapBuffer gapPul sampleArchive.bmg sampleArchive.txt ∧
    ∃ r, Repacks samplePul gapBuffer r ∧ ¬ ∃ f', Unpacks samplePul r f' sampleArchive.bmg sampleArchive.txt := by
  have hl : gapBuffer.length < 2 ^ 31 := length_gapBuffer ▸ by decide
  have hE : tablesEnd (wordAt 16 gapBuffer 128) ≤ gapPul.fHdr.bmgOffset.toNat := by
    rw [nCtCups_gapBuffer]
    decide
  refine ⟨hl, isPul_gapBuffer, hE, unpacks_gapBuffer, _, repack_run hl isPul_gapBuffer unpacks_gapBuffer, ?_⟩
  rintro ⟨f', h⟩
  have := located_of_unpacks hl isPul_gapBuffer unpacks_gapBuffer hE h
  rw [nCtCups_gapBuffer] at this
  revert this
  decide

end Catapult
