import Catapult.WriteSound

/-!
# What the exports write

An export that writes a file writes a slice of the buffer: the BMG from its
header to the length in its size field, the text from there to the end. The
lemmas here say exactly when it does, and when a read leaves the buffer.
-/

namespace Catapult

open BigEndian Cursor Stdio

/-! ## Reads at an arbitrary offset -/

theorem toInt_cases (x : BitVec 32) :
    (x.toInt < 0 ∧ 2 ^ 31 ≤ x.toNat) ∨ (x.toInt = x.toNat ∧ x.toNat < 2 ^ 31) := by
  have := x.isLt
  by_cases h : 2 * x.toNat < 2 ^ 32
  · exact .inr ⟨BitVec.toInt_eq_toNat_of_lt h, by omega⟩
  · have := BitVec.toInt_eq_toNat_cond x
    rw [if_neg h] at this
    exact .inl ⟨by omega, by omega⟩

theorem exec_readBeUint32_error {b : List Byte} (hb : b.length < 2 ^ 31) {o : Int} (log : List String)
    (h : o < 0 ∨ b.length < o + 4) :
    ∃ i, readBeUint32.exec .native b ⟨o, log⟩ = .error (.outOfBounds i) := by
  by_cases ho : o < 0 ∨ b.length ≤ o
  · have hn : byteAt b o = none := by
      rcases ho with ho | ho
      · exact byteAt_of_neg b ho
      · exact byteAt_of_length_le b ho
    have hf := exec_fill_error .native b _ (exec_readByte_error .native log hn) 3
    exact ⟨o, (exec_bind_ok _ _ _ (exec_operandRank ..) _).trans (exec_bind_error _ _ _ hf _)⟩
  · obtain ⟨n, rfl⟩ := Int.eq_ofNat_of_zero_le (show 0 ≤ o by omega)
    exact codec_readBeUint32.takes.faults b n log (by omega) (by omega) hb

/-! ## The BMG header -/

/-- At `s` the buffer describes a BMG of `n` bytes. -/
structure BmgAt (b : List Byte) (s n : Nat) : Prop where
  header : s + 12 ≤ b.length
  magic₁ : wordAt 32 b s = bmgMagic1
  magic₂ : wordAt 32 b (s + 4) = bmgMagic2
  size : (wordAt 32 b (s + 8)).toNat = n

def HeaderReads (b : List Byte) (s : Nat) : Prop :=
  s + 4 ≤ b.length ∧ (wordAt 32 b s = bmgMagic1 →
    s + 8 ≤ b.length ∧ (wordAt 32 b (s + 4) = bmgMagic2 → s + 12 ≤ b.length))

theorem BmgAt.unique {b : List Byte} {s n k : Nat} (h : BmgAt b s n) (h' : BmgAt b s k) : n = k :=
  h.size.symm.trans h'.size

theorem BmgAt.headerReads {b : List Byte} {s n : Nat} (h : BmgAt b s n) : HeaderReads b s :=
  ⟨by have := h.header; omega, fun _ => ⟨by have := h.header; omega, fun _ => h.header⟩⟩

section
variable {b : List Byte} (hb : b.length < 2 ^ 31) (x : BitVec 32)
include hb

/-- An export that starts at an offset field faults, rejects the magics, or
finds a BMG. -/
theorem bmgSize_cases :
    (¬ HeaderReads b x.toNat ∧ ∃ i, bmgSize .native b x.toInt = .error (.outOfBounds i)) ∨
    (HeaderReads b x.toNat ∧ (∀ n, ¬ BmgAt b x.toNat n) ∧ bmgSize .native b x.toInt = .ok none) ∨
    (∃ n, BmgAt b x.toNat n ∧ bmgSize .native b x.toInt = .ok (some n)) := by
  have hx := toInt_cases x
  -- one split for each read and each check, in the order the exports make them
  by_cases h₁ : x.toNat + 4 ≤ b.length
  · have e : x.toInt = x.toNat := by omega
    have r₁ := exec_readBeUint32 [] h₁ (by omega)
    rw [e]
    unfold bmgSize
    simp only [r₁, bind, Except.bind]
    by_cases m₁ : wordAt 32 b x.toNat = bmgMagic1
    · rw [if_neg (not_not.mpr m₁)]
      by_cases h₂ : x.toNat + 4 + 4 ≤ b.length
      · simp only [exec_readBeUint32 [] h₂ (by omega)]
        by_cases m₂ : wordAt 32 b (x.toNat + 4) = bmgMagic2
        · rw [if_neg (not_not.mpr m₂)]
          by_cases h₃ : x.toNat + 4 + 4 + 4 ≤ b.length
          · simp only [exec_readBeUint32 [] h₃ (by omega)]
            exact .inr (.inr ⟨_, ⟨by omega, m₁, m₂, rfl⟩, rfl⟩)
          · obtain ⟨i, h⟩ := exec_readBeUint32_error hb [] (o := (x.toNat + 4 + 4 : Nat)) (by omega)
            simp only [h]
            exact .inl ⟨fun hr => h₃ ((hr.2 m₁).2 m₂), i, rfl⟩
        · rw [if_pos m₂]
          exact .inr (.inl ⟨⟨h₁, fun _ => ⟨h₂, fun h => absurd h m₂⟩⟩, fun n h => m₂ h.magic₂, rfl⟩)
      · obtain ⟨i, h⟩ := exec_readBeUint32_error hb [] (o := (x.toNat + 4 : Nat)) (by omega)
        simp only [h]
        exact .inl ⟨fun hr => h₂ (hr.2 m₁).1, i, rfl⟩
    · rw [if_pos m₁]
      exact .inr (.inl ⟨⟨h₁, fun h => absurd h m₁⟩, fun n h => m₁ h.magic₁, rfl⟩)
  · obtain ⟨i, h⟩ := exec_readBeUint32_error hb [] (o := x.toInt) (by omega)
    refine .inl ⟨fun hr => h₁ hr.1, i, ?_⟩
    unfold bmgSize
    simp only [h, bind, Except.bind]

theorem bmgSize_ok {n : Nat} (h : BmgAt b x.toNat n) : bmgSize .native b x.toInt = .ok (some n) := by
  rcases bmgSize_cases hb x with ⟨hr, _⟩ | ⟨_, hn, _⟩ | ⟨k, hk, e⟩
  · exact absurd h.headerReads hr
  · exact absurd h (hn n)
  · rw [e, hk.unique h]

end

/-! ## The bulk copy -/

theorem dump_ok (opens : Bool) {b : List Byte} {s n : Nat} (h : s + n ≤ b.length) (path : String) (w : World) :
    dump opens b s n path w =
      if opens then .ok (w.setFile path ((b.drop s).take n)) else .error .nullStream := by
  have hc : copyFrom b s n = .ok ((b.drop s).take n) := by
    unfold copyFrom
    by_cases hn : n = 0
    · simp [hn]
    · rw [if_neg hn, if_neg (by omega), if_neg (by simpa using h)]
      rfl
  unfold dump openWrite
  cases opens with
  | true => simp only [hc, ite_true, appends_fwrite _ _, bind, Except.bind, close, setFile_setFile,
      List.nil_append]
  | false =>
    simp only [hc, bind, Except.bind]
    rfl

theorem dump_error (opens : Bool) {b : List Byte} {s n : Nat} (hs : s ≤ b.length) (h : b.length < s + n)
    (path : String) (w : World) : ∃ i, dump opens b s n path w = .error (.outOfBounds i) := by
  have hc : copyFrom b s n = .error (.outOfBounds (max s b.length)) := by
    unfold copyFrom
    rw [if_neg (by omega), if_neg (by omega), if_pos (by simpa using h)]
  refine ⟨max s b.length, ?_⟩
  unfold dump
  simp only [hc, bind, Except.bind]

/-! ## The two exports -/

theorem textOffset_eq {s n : Nat} (h : s + n < 2 ^ 31) : textOffset s n = (s + n : Nat) := by
  unfold textOffset
  rw [Int.emod_eq_of_lt (by omega) (by omega), Int.bmod_eq_of_le (by omega) (by omega)]
  rfl

theorem textSize_eq {size o : Nat} (ho : o ≤ size) (h : size < 2 ^ 64) : textSize size o = size - o := by
  unfold textSize
  rw [Int.emod_eq_of_lt (by omega) (by omega)]
  omega

section
variable (I : Impl) (opens : Bool) {f : PulFile} {b : List Byte} (size : Nat) (path : String) (w : World)

theorem exportTxt_error {e : Fault} (h : bmgSize I b f.fHdr.bmgOffset.toInt = .error e) :
    exportTxt I opens f b size path w = .error e := by
  unfold exportTxt
  simp only [h, bind, Except.bind]

theorem exportTxt_none (h : bmgSize I b f.fHdr.bmgOffset.toInt = .ok none) :
    exportTxt I opens f b size path w = .ok (w.report ["BMG magic invalid: export txt\n"]) := by
  unfold exportTxt
  simp only [h, bind, Except.bind]
  rfl

theorem exportTxt_some {n : Nat} (h : bmgSize I b f.fHdr.bmgOffset.toInt = .ok (some n)) :
    exportTxt I opens f b size path w =
      (readBeUint32.exec I b ⟨textOffset f.fHdr.bmgOffset.toInt n, []⟩).bind fun p =>
        if p.1 ≠ textMagic then .ok (w.report ["FILE magic invalid\n"])
        else dump opens b (textOffset f.fHdr.bmgOffset.toInt n)
          (textSize size (textOffset f.fHdr.bmgOffset.toInt n)) path w := by
  unfold exportTxt
  simp only [h, bind, Except.bind]
  rfl

end

section
variable {f : PulFile} {b : List Byte} (hb : b.length < 2 ^ 31) (opens : Bool) (path : String) (w : World)
include hb

theorem toInt_of_bmgAt {n : Nat} (h : BmgAt b f.fHdr.bmgOffset.toNat n) :
    f.fHdr.bmgOffset.toInt = f.fHdr.bmgOffset.toNat := by
  have := toInt_cases f.fHdr.bmgOffset
  have := h.header
  omega

/-- At a described BMG the two exports are their bulk copies. -/
theorem exportBmg_eq {n : Nat} (h : BmgAt b f.fHdr.bmgOffset.toNat n) :
    exportBmg .native opens f b path w = dump opens b f.fHdr.bmgOffset.toNat n path w := by
  unfold exportBmg
  simp only [bmgSize_ok hb _ h, bind, Except.bind]
  rw [toInt_of_bmgAt hb h]

theorem exportTxt_eq {n : Nat} (h : BmgAt b f.fHdr.bmgOffset.toNat n) (hs : f.fHdr.bmgOffset.toNat + n ≤ b.length) :
    exportTxt .native opens f b b.length path w =
      (readBeUint32.exec .native b ⟨(f.fHdr.bmgOffset.toNat + n : Nat), []⟩).bind fun p =>
        if p.1 ≠ textMagic then .ok (w.report ["FILE magic invalid\n"])
        else dump opens b (f.fHdr.bmgOffset.toNat + n : Nat) (b.length - (f.fHdr.bmgOffset.toNat + n)) path w := by
  rw [exportTxt_some _ opens _ path w (bmgSize_ok hb _ h), toInt_of_bmgAt hb h, textOffset_eq (by omega),
    textSize_eq hs (by omega)]

theorem exportBmg_ok {n : Nat} (h : BmgAt b f.fHdr.bmgOffset.toNat n) (hl : f.fHdr.bmgOffset.toNat + n ≤ b.length) :
    exportBmg .native opens f b path w =
      if opens then .ok (w.setFile path ((b.drop f.fHdr.bmgOffset.toNat).take n)) else .error .nullStream := by
  rw [exportBmg_eq hb opens path w h, dump_ok opens hl]

theorem exportBmg_short {n : Nat} (h : BmgAt b f.fHdr.bmgOffset.toNat n)
    (hl : b.length < f.fHdr.bmgOffset.toNat + n) :
    ∃ i, exportBmg .native opens f b path w = .error (.outOfBounds i) := by
  have hs : f.fHdr.bmgOffset.toNat ≤ b.length := by
    have := h.header
    omega
  rw [exportBmg_eq hb opens path w h]
  exact dump_error opens hs hl path w

section
variable {n : Nat} (h : BmgAt b f.fHdr.bmgOffset.toNat n) (hl : f.fHdr.bmgOffset.toNat + n + 4 ≤ b.length)
include h hl

theorem exportTxt_ok (hm : wordAt 32 b (f.fHdr.bmgOffset.toNat + n) = textMagic) :
    exportTxt .native opens f b b.length path w =
      if opens then .ok (w.setFile path (b.drop (f.fHdr.bmgOffset.toNat + n))) else .error .nullStream := by
  rw [exportTxt_eq hb opens path w h (by omega), exec_readBeUint32 [] hl (by omega)]
  show (if wordAt 32 b (f.fHdr.bmgOffset.toNat + n) ≠ textMagic then _ else _) = _
  rw [if_neg (not_not.mpr hm), dump_ok opens (by omega), List.take_of_length_le (by rw [List.length_drop])]

theorem exportTxt_wrong (hm : wordAt 32 b (f.fHdr.bmgOffset.toNat + n) ≠ textMagic) :
    exportTxt .native opens f b b.length path w = .ok (w.report ["FILE magic invalid\n"]) := by
  rw [exportTxt_eq hb opens path w h (by omega), exec_readBeUint32 [] hl (by omega)]
  exact if_pos hm

end

theorem exportTxt_short {n : Nat} (h : BmgAt b f.fHdr.bmgOffset.toNat n)
    (hs : f.fHdr.bmgOffset.toNat + n ≤ b.length) (hl : b.length < f.fHdr.bmgOffset.toNat + n + 4) :
    ∃ i, exportTxt .native opens f b b.length path w = .error (.outOfBounds i) := by
  obtain ⟨i, hi⟩ := exec_readBeUint32_error hb [] (o := (f.fHdr.bmgOffset.toNat + n : Nat)) (by omega)
  rw [exportTxt_eq hb opens path w h hs, hi]
  exact ⟨i, rfl⟩

omit hb in
theorem exports_error {e : Fault} (h : bmgSize .native b f.fHdr.bmgOffset.toInt = .error e) :
    exportBmg .native opens f b path w = .error e ∧ exportTxt .native opens f b b.length path w = .error e := by
  refine ⟨?_, exportTxt_error _ opens _ path w h⟩
  unfold exportBmg
  simp only [h, bind, Except.bind]

omit hb in
theorem exports_none (h : bmgSize .native b f.fHdr.bmgOffset.toInt = .ok none) :
    exportBmg .native opens f b path w = .ok (w.report ["BMG magic invalid\n"]) ∧
      exportTxt .native opens f b b.length path w = .ok (w.report ["BMG magic invalid: export txt\n"]) := by
  refine ⟨?_, exportTxt_none _ opens _ path w h⟩
  unfold exportBmg
  simp only [h, bind, Except.bind]
  rfl

theorem exportBmg_written {bmg : List Byte} (h : exportBmg .native true f b path w = .ok (w.setFile path bmg)) :
    ∃ n, BmgAt b f.fHdr.bmgOffset.toNat n ∧ f.fHdr.bmgOffset.toNat + n ≤ b.length ∧
      bmg = (b.drop f.fHdr.bmgOffset.toNat).take n := by
  rcases bmgSize_cases hb f.fHdr.bmgOffset with ⟨_, i, e⟩ | ⟨_, _, e⟩ | ⟨n, hn, _⟩
  · rw [(exports_error true path w e).1] at h
    cases h
  · rw [(exports_none true path w e).1] at h
    exact absurd (Except.ok.inj h) (report_ne_setFile w path bmg _)
  · by_cases hl : f.fHdr.bmgOffset.toNat + n ≤ b.length
    · rw [exportBmg_ok hb true path w hn hl, if_pos rfl] at h
      have := congrArg (·.files path) (Except.ok.inj h)
      simp only [files_setFile_self, Option.some.injEq] at this
      exact ⟨n, hn, hl, this.symm⟩
    · obtain ⟨i, hi⟩ := exportBmg_short hb true path w hn (Nat.not_le.mp hl)
      rw [hi] at h
      cases h

theorem exportTxt_written {n : Nat} (hn : BmgAt b f.fHdr.bmgOffset.toNat n)
    (hs : f.fHdr.bmgOffset.toNat + n ≤ b.length) {txt : List Byte}
    (h : exportTxt .native true f b b.length path w = .ok (w.setFile path txt)) :
    f.fHdr.bmgOffset.toNat + n + 4 ≤ b.length ∧ wordAt 32 b (f.fHdr.bmgOffset.toNat + n) = textMagic ∧
      txt = b.drop (f.fHdr.bmgOffset.toNat + n) := by
  by_cases hl : f.fHdr.bmgOffset.toNat + n + 4 ≤ b.length
  · by_cases hm : wordAt 32 b (f.fHdr.bmgOffset.toNat + n) = textMagic
    · rw [exportTxt_ok hb true path w hn hl hm, if_pos rfl] at h
      have := congrArg (·.files path) (Except.ok.inj h)
      simp only [files_setFile_self, Option.some.injEq] at this
      exact ⟨hl, hm, this.symm⟩
    · rw [exportTxt_wrong hb true path w hn hl hm] at h
      exact absurd (Except.ok.inj h) (report_ne_setFile w path txt _)
  · obtain ⟨i, hi⟩ := exportTxt_short hb true path w hn hs (Nat.not_le.mp hl)
    rw [hi] at h
    cases h

end

/-! ## Rebuilt files -/

def ExportsBmg (f : PulFile) (b bmg : List Byte) : Prop :=
  ∀ path w, exportBmg .native true f b path w = .ok (w.setFile path bmg)

def ExportsTxt (f : PulFile) (b txt : List Byte) : Prop :=
  ∀ path w, exportTxt .native true f b b.length path w = .ok (w.setFile path txt)

section
variable {f : PulFile} {b : List Byte} (hb : b.length < 2 ^ 31)
include hb

theorem exportsBmg_iff {bmg : List Byte} : ExportsBmg f b bmg ↔
    ∃ n, BmgAt b f.fHdr.bmgOffset.toNat n ∧ f.fHdr.bmgOffset.toNat + n ≤ b.length ∧
      bmg = (b.drop f.fHdr.bmgOffset.toNat).take n := by
  constructor
  · intro h
    exact exportBmg_written hb "" default (h "" default)
  · intro h path w
    obtain ⟨n, hn, hl, rfl⟩ := h
    rw [exportBmg_ok hb true path w hn hl, if_pos rfl]

theorem exportsTxt_iff {n : Nat} (hn : BmgAt b f.fHdr.bmgOffset.toNat n)
    (hs : f.fHdr.bmgOffset.toNat + n ≤ b.length) {txt : List Byte} : ExportsTxt f b txt ↔
    f.fHdr.bmgOffset.toNat + n + 4 ≤ b.length ∧ wordAt 32 b (f.fHdr.bmgOffset.toNat + n) = textMagic ∧
      txt = b.drop (f.fHdr.bmgOffset.toNat + n) := by
  constructor
  · intro h
    exact exportTxt_written hb "" default hn hs (h "" default)
  · intro h path w
    obtain ⟨hl, hm, rfl⟩ := h
    rw [exportTxt_ok hb true path w hn hl hm, if_pos rfl]

end

theorem bmgAt_of_isBmg {bmg : List Byte} (h : IsBmg bmg) (pre post : List Byte) :
    BmgAt (pre ++ (bmg ++ post)) pre.length bmg.length := by
  have hw : ∀ o, o + 4 ≤ bmg.length → wordAt 32 (pre ++ (bmg ++ post)) (pre.length + o) = wordAt 32 bmg o := by
    intro o ho
    simp only [wordAt]
    rw [List.drop_append, List.drop_eq_nil_of_le (by omega), List.nil_append, Nat.add_sub_cancel_left,
      List.drop_append_of_le_length (by omega), List.take_append_of_le_length (by rw [List.length_drop]; omega)]
  have h₁₂ := h.header
  refine ⟨?_, ?_, ?_, ?_⟩
  · simp only [List.length_append]
    omega
  · rw [← h.magic₁, ← hw 0 (by omega), Nat.add_zero]
  · rw [← h.magic₂, ← hw 4 (by omega)]
  · rw [← h.size, ← hw 8 (by omega)]

theorem start_eq {f : PulFile} {b bmg txt : List Byte} (hb : b.length < 2 ^ 31) (h : ExportsBmg f b bmg)
    (ht : ExportsTxt f b txt) : f.fHdr.bmgOffset.toNat + (bmg.length + txt.length) = b.length := by
  obtain ⟨n, hn, hs, rfl⟩ := (exportsBmg_iff hb).mp h
  obtain ⟨hl, _, rfl⟩ := (exportsTxt_iff hb hn hs).mp ht
  simp only [List.length_take, List.length_drop]
  omega

theorem exports_append {f : PulFile} {pre bmg txt : List Byte} (hB : IsBmg bmg) (hT : IsText txt)
    (ho : f.fHdr.bmgOffset.toNat = pre.length) (hl : (pre ++ (bmg ++ txt)).length < 2 ^ 31) :
    ExportsBmg f (pre ++ (bmg ++ txt)) bmg ∧ ExportsTxt f (pre ++ (bmg ++ txt)) txt := by
  have hat : BmgAt (pre ++ (bmg ++ txt)) f.fHdr.bmgOffset.toNat bmg.length := by
    rw [ho]
    exact bmgAt_of_isBmg hB _ _
  have hend : (pre ++ (bmg ++ txt)).length = f.fHdr.bmgOffset.toNat + bmg.length + txt.length := by
    simp only [List.length_append]
    omega
  have hs : (pre ++ (bmg ++ txt)).drop f.fHdr.bmgOffset.toNat = bmg ++ txt := by
    rw [ho]
    exact List.drop_left
  have ht : (pre ++ (bmg ++ txt)).drop (f.fHdr.bmgOffset.toNat + bmg.length) = txt := by
    rw [← List.drop_drop, hs, List.drop_left]
  have h₄ := hT.header
  constructor
  · exact (exportsBmg_iff hl).mpr ⟨bmg.length, hat, by omega, by rw [hs, List.take_left]⟩
  · refine (exportsTxt_iff hl hat (by omega)).mpr ⟨by omega, ?_, ht.symm⟩
    rw [← hT.magic, wordAt, wordAt, ht]
    rfl

theorem exports_iff_located (a : Archive) (hl : a.bytes.length < 2 ^ 31) :
    (ExportsBmg a.pul a.bytes a.bmg ∧ ExportsTxt a.pul a.bytes a.txt) ↔ a.Located := by
  constructor
  · rintro ⟨h, h'⟩
    -- a BMG that a wrapped or another offset finds leaves a text of another length
    have := start_eq hl h h'
    simp only [Archive.bytes, List.length_append] at this
    unfold Archive.Located
    omega
  · exact fun ha => exports_append a.isBmg a.isText ha hl

/-- **Replacing the sub-files.** What `write_file` makes of a structure and two
sub-files exports these sub-files again exactly when the offset in the header
is the end of the tables. -/
theorem exports_writeFile_iff (a : Archive) (filename bmgPath txtPath : String) (w : World)
    (hbmg : w.files bmgPath = some a.bmg) (htxt : w.files txtPath = some a.txt) (hbmg' : bmgPath ≠ filename)
    (htxt' : txtPath ≠ filename) (hl : 144 + 10 * nTracks a.pul.cHdr.nCtCups + a.bmg.length + a.txt.length < 2 ^ 31)
    (pf : PulFile) : ∃ w' out f' s',
      writeFile .success a.pul filename bmgPath txtPath w = .ok w' ∧ w'.files filename = some out ∧
      (readFile pf).exec .native out ⟨0, []⟩ = .ok (f', s') ∧
      ((ExportsBmg f' out a.bmg ∧ ExportsTxt f' out a.txt) ↔
        a.pul.fHdr.bmgOffset.toNat = 144 + 10 * nTracks a.pul.cHdr.nCtCups) := by
  have hp := a.wellFormed.length_bytes
  have hlen : a.bytes.length < 2 ^ 31 := by rw [a.length_bytes]; exact hl
  have hr := parses_readFile pf a.wellFormed [] (a.bmg ++ a.txt) [] (by
    simp only [List.length_nil, hp, tablesEnd]
    omega)
  refine ⟨_, a.bytes, a.pul, _, writeFile_success ⟨rfl, rfl, rfl⟩ a.wellFormed hbmg htxt hbmg' htxt',
    files_setFile_self .., hr, ?_⟩
  rw [exports_iff_located a hlen, Archive.Located, hp]
  rfl

def sampleArchive : Archive where
  pul := samplePul
  bmg := toBytes 4 bmgMagic1 ++ (toBytes 4 bmgMagic2 ++ toBytes 4 (12 : BitVec 32))
  txt := toBytes 4 textMagic
  wellFormed := wellFormed_samplePul
  isBmg := ⟨by decide, by decide, by decide, by decide⟩
  isText := ⟨by decide, by decide⟩

theorem located_sampleArchive : sampleArchive.Located := wellFormed_samplePul.length_bytes.symm

theorem exports_writeFile_sampleArchive : ∃ w' out f' s',
    writeFile .success samplePul "out" "bmg" "txt" ⟨fun p => if p = "bmg" then some sampleArchive.bmg else
      if p = "txt" then some sampleArchive.txt else none, [], []⟩ = .ok w' ∧ w'.files "out" = some out ∧
    (readFile samplePul).exec .native out ⟨0, []⟩ = .ok (f', s') ∧
    ExportsBmg f' out sampleArchive.bmg ∧ ExportsTxt f' out sampleArchive.txt := by
  obtain ⟨w', out, f', s', h₁, h₂, h₃, h⟩ := exports_writeFile_iff sampleArchive "out" "bmg" "txt"
    ⟨fun p => if p = "bmg" then some sampleArchive.bmg else if p = "txt" then some sampleArchive.txt else none, [], []⟩
    rfl rfl (by decide) (by decide) (by decide) samplePul
  exact ⟨w', out, f', s', h₁, h₂, h₃, h.mpr (by decide)⟩

/-! ## Reads and writes of the exports -/

section
variable (f : PulFile) (b : List Byte)

/-- The header of the BMG is inside the buffer, as far as its magics lead, and
so are the BMG it describes and the magic of the text behind it. -/
def Described : Prop :=
  HeaderReads b f.fHdr.bmgOffset.toNat ∧
    ∀ n, BmgAt b f.fHdr.bmgOffset.toNat n → f.fHdr.bmgOffset.toNat + n + 4 ≤ b.length

structure ExportsSafe : Prop where
  bmgReads : ∀ opens path w i, exportBmg .native opens f b path w ≠ .error (.outOfBounds i)
  txtReads : ∀ opens path w i, exportTxt .native opens f b b.length path w ≠ .error (.outOfBounds i)
  bmgFits : ∀ opens path w w', exportBmg .native opens f b path w = .ok w' →
    (∃ n, BmgAt b f.fHdr.bmgOffset.toNat n ∧ f.fHdr.bmgOffset.toNat + n ≤ b.length) ∨ w'.files = w.files
  txtFits : ∀ opens path w w', exportTxt .native opens f b b.length path w = .ok w' →
    (∃ n, BmgAt b f.fHdr.bmgOffset.toNat n ∧ f.fHdr.bmgOffset.toNat + n + 4 ≤ b.length) ∨ w'.files = w.files

variable {f b}

theorem described_of_exportsSafe (hb : b.length < 2 ^ 31) (h : ExportsSafe f b) : Described f b := by
  let w : World := default
  constructor
  · rcases bmgSize_cases hb f.fHdr.bmgOffset with ⟨_, i, e⟩ | ⟨hr, _⟩ | ⟨n, hn, _⟩
    · exact absurd (exports_error true "" w e).1 (h.bmgReads true "" w i)
    · exact hr
    · exact hn.headerReads
  · intro n hn
    by_contra hl
    by_cases hs : f.fHdr.bmgOffset.toNat + n ≤ b.length
    · obtain ⟨i, e⟩ := exportTxt_short hb true "" w hn hs (Nat.not_le.mp hl)
      exact h.txtReads true "" w i e
    · obtain ⟨i, e⟩ := exportBmg_short hb true "" w hn (Nat.not_le.mp hs)
      exact h.bmgReads true "" w i e

theorem exportsSafe_of_described (hb : b.length < 2 ^ 31) (h : Described f b) : ExportsSafe f b := by
  rcases bmgSize_cases hb f.fHdr.bmgOffset with ⟨hr, _⟩ | ⟨_, _, e⟩ | ⟨n, hn, _⟩
  · exact absurd h.1 hr
  · refine ⟨fun o p w i => ?_, fun o p w i => ?_, fun o p w w' hw => ?_, fun o p w w' hw => ?_⟩
    · rw [(exports_none o p w e).1]
      exact fun h => nomatch h
    · rw [(exports_none o p w e).2]
      exact fun h => nomatch h
    · rw [(exports_none o p w e).1] at hw
      exact .inr (by rw [← Except.ok.inj hw, files_report])
    · rw [(exports_none o p w e).2] at hw
      exact .inr (by rw [← Except.ok.inj hw, files_report])
  · have hl := h.2 n hn
    refine ⟨fun o p w i => ?_, fun o p w i => ?_, fun _ _ _ _ _ => .inl ⟨n, hn, by omega⟩,
      fun _ _ _ _ _ => .inl ⟨n, hn, hl⟩⟩
    · rw [exportBmg_ok hb o p w hn (by omega)]
      cases o <;> exact fun h => nomatch h
    · by_cases hm : wordAt 32 b (f.fHdr.bmgOffset.toNat + n) = textMagic
      · rw [exportTxt_ok hb o p w hn hl hm]
        cases o <;> exact fun h => nomatch h
      · rw [exportTxt_wrong hb o p w hn hl hm]
        exact fun h => nomatch h

theorem described_of_located (a : Archive) (ha : a.Located) : Described a.pul a.bytes := by
  have hat : BmgAt a.bytes a.pul.fHdr.bmgOffset.toNat a.bmg.length := by
    rw [ha]
    exact bmgAt_of_isBmg a.isBmg _ _
  refine ⟨hat.headerReads, fun n hn => ?_⟩
  have := a.isText.header
  rw [hn.unique hat, ha]
  simp only [Archive.bytes, List.length_append]
  omega

/-- **When the exports stay inside the buffer.** -/
theorem exportsSafe_iff (f : PulFile) (b : List Byte) (hb : b.length < 2 ^ 31) :
    ExportsSafe f b ↔ Described f b :=
  ⟨described_of_exportsSafe hb, exportsSafe_of_described hb⟩

theorem exportsSafe_sampleArchive : ExportsSafe samplePul sampleArchive.bytes :=
  (exportsSafe_iff samplePul sampleArchive.bytes (by rw [sampleArchive.length_bytes]; decide)).mpr
    (described_of_located sampleArchive located_sampleArchive)

end

/-- A complete configuration without cups, whose BMG offset is the least one
that is negative as an `int`. -/
def negativeOffset : PulFile :=
  { samplePul with
    fHdr := { samplePul.fHdr with bmgOffset := 0x80000000 }
    cHdr := { samplePul.cHdr with nCtCups := 0 }
    tArr := []
    alphabetTable := [] }

theorem not_exportsSafe_negativeOffset : ∃ s,
    (readFile samplePul).exec .native negativeOffset.bytes ⟨0, []⟩ = .ok (negativeOffset, s) ∧
      negativeOffset.bytes.length < 2 ^ 31 ∧ ¬ ExportsSafe negativeOffset negativeOffset.bytes := by
  have hf : negativeOffset.WellFormed := ⟨rfl, rfl, rfl, rfl, rfl⟩
  have hl : negativeOffset.bytes.length < 2 ^ 31 := by rw [hf.length_bytes]; exact tablesEnd_lt _
  have hr := parses_readFile samplePul hf [] [] [] (by simpa using hl)
  rw [List.append_nil] at hr
  refine ⟨_, hr, hl, fun h => ?_⟩
  have hd := (described_of_exportsSafe hl h).1.1
  rw [hf.length_bytes] at hd
  revert hd
  decide

end Catapult
