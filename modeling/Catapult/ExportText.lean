import Catapult.ExportSound

/-!
# Where the exported text starts

`export_txt` adds the size of the BMG to its offset in a `size_t` and cuts the
sum down to an `int`. An export that ends has not left the buffer, so the sum
is either small enough for both, or it has wrapped once around and the text
starts before the BMG.
-/

namespace Catapult

open BigEndian Cursor Stdio

/-- The end of the BMG by the offset in the header and the BMG's own size
field, in unbounded integers. -/
def bmgEnd (f : PulFile) (b : List Byte) : Nat :=
  f.fHdr.bmgOffset.toNat + (wordAt 32 b (f.fHdr.bmgOffset.toNat + 8)).toNat

/-! ## Exports that end -/

theorem bmgSize_inv {b : List Byte} {start : Int} {n : Nat} (hs : start < 2 ^ 31)
    (h : bmgSize .native b start = .ok (some n)) :
    0 ≤ start ∧ start + 12 ≤ b.length ∧ n = (wordAt 32 b (start.toNat + 8)).toNat := by
  obtain ⟨⟨m₁, s₁⟩, r₁, h⟩ := bind_inv h
  obtain ⟨h₁, l₁, _, t₁, e₁⟩ := exec_readBeUint32_inv hs r₁
  dsimp only at h
  by_cases c₁ : m₁ ≠ bmgMagic1
  · rw [if_pos c₁] at h; cases h
  rw [if_neg c₁] at h
  obtain ⟨⟨m₂, s₂⟩, r₂, h⟩ := bind_inv h
  obtain ⟨h₂, l₂, _, t₂, e₂⟩ := exec_readBeUint32_inv t₁ r₂
  dsimp only at h
  by_cases c₂ : m₂ ≠ bmgMagic2
  · rw [if_pos c₂] at h; cases h
  rw [if_neg c₂] at h
  obtain ⟨⟨x, s₃⟩, r₃, h⟩ := bind_inv h
  obtain ⟨h₃, l₃, w₃, _, _⟩ := exec_readBeUint32_inv t₂ r₃
  cases h
  have a₁ := e₁ h₂
  have a₂ := e₂ h₃
  have e : s₂.offset.toNat = start.toNat + 8 := by omega
  rw [w₃, e]
  exact ⟨h₁, by omega, rfl⟩

theorem copyFrom_inv {b bs : List Byte} {start : Int} {n : Nat} (h : copyFrom b start n = .ok bs) :
    (n = 0 ∧ bs = []) ∨ (0 ≤ start ∧ start + n ≤ b.length ∧ bs = (b.drop start.toNat).take n) := by
  unfold copyFrom at h
  by_cases hn : n = 0
  · rw [if_pos hn] at h
    cases h
    exact .inl ⟨hn, rfl⟩
  · rw [if_neg hn] at h
    by_cases h₀ : start < 0
    · rw [if_pos h₀] at h; cases h
    rw [if_neg h₀] at h
    by_cases hl : b.length < start.toNat + n
    · rw [if_pos hl] at h; cases h
    rw [if_neg hl] at h
    cases h
    exact .inr ⟨by omega, by omega, rfl⟩

theorem dump_inv {b bs : List Byte} {start : Int} {n : Nat} {path : String} {w : World}
    (h : dump true b start n path w = .ok (w.setFile path bs)) : copyFrom b start n = .ok bs := by
  unfold dump openWrite at h
  obtain ⟨cs, hc, h⟩ := bind_inv h
  simp only [appends_fwrite _ _, bind, Except.bind, close, setFile_setFile, List.nil_append] at h
  have := congrArg (·.files path) (Except.ok.inj h)
  simp only [files_setFile_self, Option.some.injEq] at this
  rw [hc, this]

theorem textOffset_cases {s n : Nat} (hs : s < 2 ^ 31) (hn : n < 2 ^ 32) :
    (s + n < 2 ^ 31 ∧ textOffset s n = (s + n : Nat)) ∨ textOffset s n < 0 ∨
      (2 ^ 32 ≤ s + n ∧ textOffset s n + 2 ^ 32 = (s + n : Nat)) := by
  unfold textOffset
  rw [Int.emod_eq_of_lt (by omega) (by omega)]
  by_cases h₁ : s + n < 2 ^ 31
  · rw [Int.bmod_eq_of_le (by omega) (by omega)]
    exact .inl ⟨h₁, rfl⟩
  · -- the sum less one turn is back in the range of an `int`
    rw [← Int.sub_bmod_right, Int.bmod_eq_of_le (by omega) (by omega)]
    omega

/-- What an export that writes a text has read. -/
theorem exportTxt_inv {f : PulFile} {b : List Byte} {size : Nat} {path : String} {w : World} {txt : List Byte}
    (h : exportTxt .native true f b size path w = .ok (w.setFile path txt)) :
    f.fHdr.bmgOffset.toNat < 2 ^ 31 ∧ ∃ o : Nat,
      textOffset f.fHdr.bmgOffset.toNat (wordAt 32 b (f.fHdr.bmgOffset.toNat + 8)).toNat = o ∧ o + 4 ≤ b.length ∧
      copyFrom b o (textSize size o) = .ok txt := by
  have hx := toInt_cases f.fHdr.bmgOffset
  obtain ⟨p, r, h⟩ := bind_inv h
  cases p with
  | none => exact absurd (Except.ok.inj h) (report_ne_setFile w path txt _)
  | some n =>
    obtain ⟨h₀, _, hn⟩ := bmgSize_inv (by omega) r
    have e : f.fHdr.bmgOffset.toInt = f.fHdr.bmgOffset.toNat := by omega
    have hlt : n < 2 ^ 32 := hn ▸ (wordAt 32 b _).isLt
    have ho : textOffset f.fHdr.bmgOffset.toInt n < 2 ^ 31 := by
      rw [e]
      rcases textOffset_cases (s := f.fHdr.bmgOffset.toNat) (by omega) hlt with h | h | h <;> omega
    obtain ⟨⟨magic, s⟩, rt, h⟩ := bind_inv h
    obtain ⟨ho₀, hol, _⟩ := exec_readBeUint32_inv ho rt
    obtain ⟨o, hoo⟩ := Int.eq_ofNat_of_zero_le ho₀
    dsimp only at h
    by_cases hm : magic ≠ textMagic
    · rw [if_pos hm] at h
      exact absurd (Except.ok.inj h) (report_ne_setFile w path txt _)
    · rw [if_neg hm, hoo] at h
      rw [hoo] at hol
      rw [e, Int.toNat_natCast] at hn
      rw [e, hn] at hoo
      exact ⟨by omega, o, hoo, by omega, dump_inv h⟩

/-! ## The start of the text -/

theorem textSize_cases {size o : Nat} (hs : size < 2 ^ 64) (ho : o < 2 ^ 64) :
    (o ≤ size ∧ textSize size o + o = size) ∨ (size < o ∧ textSize size o + o = size + 2 ^ 64) := by
  unfold textSize
  by_cases h : o ≤ size
  · rw [Int.emod_eq_of_lt (by omega) (by omega)]
    exact .inl ⟨h, by omega⟩
  · rw [← Int.add_emod_right, Int.emod_eq_of_lt (by omega) (by omega)]
    exact .inr ⟨by omega, by omega⟩

/-- **When an exported text starts behind the BMG.** -/
theorem exportTxt_afterBmg_iff (f : PulFile) (b : List Byte) (size : Nat) (path : String) (w : World)
    (txt : List Byte) (hb : b.length < 2 ^ 64) (hs : size < 2 ^ 64)
    (h : exportTxt .native true f b size path w = .ok (w.setFile path txt)) :
    (bmgEnd f b ≤ size ∧ txt = (b.take size).drop (bmgEnd f b)) ↔ bmgEnd f b < 2 ^ 32 := by
  obtain ⟨hlt, o, ho, hl, hc⟩ := exportTxt_inv h
  have hS : bmgEnd f b = f.fHdr.bmgOffset.toNat + (wordAt 32 b (f.fHdr.bmgOffset.toNat + 8)).toNat := rfl
  have hn := textSize_cases hs (show o < 2 ^ 64 by omega)
  rcases textOffset_cases hlt (wordAt 32 b (f.fHdr.bmgOffset.toNat + 8)).isLt with ⟨hw, e⟩ | hw | ⟨hw, e⟩
  · have eo : o = bmgEnd f b := by omega
    refine ⟨fun _ => by omega, fun _ => ?_⟩
    rcases copyFrom_inv hc with ⟨hz, rfl⟩ | ⟨_, hlen, rfl⟩
    · refine ⟨by omega, ?_⟩
      rw [List.drop_eq_nil_of_le (by rw [List.length_take]; omega)]
    · refine ⟨by omega, ?_⟩
      rw [List.drop_take, ← eo, Int.toNat_natCast, show textSize size o = size - o by omega]
  · omega
  · -- the offset is 2^32 less than the end of the BMG, and the copy longer by as much
    refine ⟨fun ⟨hle, ht⟩ => ?_, fun h => by omega⟩
    have hlen := congrArg List.length ht
    rw [List.length_drop, List.length_take] at hlen
    rcases copyFrom_inv hc with ⟨hz, rfl⟩ | ⟨_, hl', rfl⟩
    · omega
    · rw [List.length_take, List.length_drop] at hlen
      omega

theorem exportTxt_afterBmg_sampleArchive : bmgEnd samplePul sampleArchive.bytes ≤ 240 ∧
    sampleArchive.txt = (sampleArchive.bytes.take 240).drop (bmgEnd samplePul sampleArchive.bytes) := by
  have hl : sampleArchive.bytes.length = 240 := sampleArchive.length_bytes
  have hx := (exports_append sampleArchive.isBmg sampleArchive.isText located_sampleArchive
    (show sampleArchive.bytes.length < 2 ^ 31 by rw [hl]; decide)).2 "txt" default
  change exportTxt .native true samplePul sampleArchive.bytes sampleArchive.bytes.length "txt" default = _ at hx
  rw [hl] at hx
  exact (exportTxt_afterBmg_iff samplePul sampleArchive.bytes 240 "txt" default sampleArchive.txt
    (by rw [hl]; decide) (by decide) hx).mpr (by decide +kernel)

/-- A configuration whose mod folder is called `FILE`, and behind it the header
of a BMG whose size field leads once around to this name. -/
def wrappedPul : PulFile :=
  { samplePul with fHdr := { samplePul.fHdr with modFolderName :=
      #v[0x46, 0x49, 0x4C, 0x45, 0, 0, 0, 0, 0, 0, 0, 0, 0, 0, 0, 0] } }

def wrappedBuffer : List Byte :=
  wrappedPul.bytes ++ (toBytes 4 bmgMagic1 ++ (toBytes 4 bmgMagic2 ++ toBytes 4 (0xFFFFFF34 : BitVec 32)))

theorem exportTxt_wrappedBuffer : ∃ s,
    (readFile samplePul).exec .native wrappedBuffer ⟨0, []⟩ = .ok (wrappedPul, s) ∧ wrappedBuffer.length = 236 ∧
    (∀ path w, exportTxt .native true wrappedPul wrappedBuffer 236 path w =
      .ok (w.setFile path (wrappedBuffer.drop 20))) ∧
    wrappedPul.fHdr.bmgOffset = 224 ∧
    ¬ (bmgEnd wrappedPul wrappedBuffer ≤ 236 ∧
      wrappedBuffer.drop 20 = (wrappedBuffer.take 236).drop (bmgEnd wrappedPul wrappedBuffer)) := by
  have hf : wrappedPul.WellFormed := ⟨rfl, rfl, rfl, rfl, rfl⟩
  have hl : wrappedBuffer.length = 236 := by
    simp only [wrappedBuffer, List.length_append, hf.length_bytes]
    rfl
  have hr := exec_readFile_append samplePul hf
    (toBytes 4 bmgMagic1 ++ (toBytes 4 bmgMagic2 ++ toBytes 4 (0xFFFFFF34 : BitVec 32)))
  have hat : BmgAt wrappedBuffer wrappedPul.fHdr.bmgOffset.toNat 0xFFFFFF34 :=
    ⟨hl ▸ by decide, by decide +kernel, by decide +kernel, by decide +kernel⟩
  refine ⟨_, hr, hl, fun path w => ?_, rfl, fun h => ?_⟩
  · rw [exportTxt_some _ true _ path w (bmgSize_ok (by rw [hl]; decide) _ hat)]
    show (readBeUint32.exec .native wrappedBuffer ⟨(20 : Nat), []⟩).bind _ = _
    rw [exec_readBeUint32 [] (by rw [hl]; decide) (by decide), Except.bind,
      if_neg (not_not.mpr (by decide +kernel))]
    exact (dump_ok true (s := 20) (n := 216) (by rw [hl]) path w).trans <| by
      rw [if_pos rfl, List.take_of_length_le (by rw [List.length_drop, hl])]
  · have hS : bmgEnd wrappedPul wrappedBuffer = 4294967316 := by decide +kernel
    have := h.1
    omega

end Catapult
