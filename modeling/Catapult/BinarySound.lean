import Catapult.Binary

/-!
# Bytes and big-endian integers are read back

With operands evaluated left to right and wrapping integers, each integer
reader of `binary.c` is a codec whose inverse is what the matching writer
appends.
-/

namespace Catapult

open BigEndian Cursor Stdio

/-! ## Single bytes -/

section
variable (I : Impl) {b : List Byte} (log : List String)

theorem exec_readByte_ok {o : Int} {x : Byte} (h : byteAt b o = some x) (h₀ : 0 ≤ o) (h₁ : o + 1 < 2 ^ 31) :
    readByte.exec I b ⟨o, log⟩ = .ok (x, ⟨o + 1, log⟩) := by
  have hi := exec_index_ok I b ⟨o, log⟩ h
  have hn := exec_int I b ⟨o, log⟩ (z := o + 1) (by omega) h₁
  unfold readByte
  rw [exec_bind_ok _ _ _ (exec_get I b _), exec_bind_ok _ _ _ hi, exec_bind_ok _ _ _ hn,
    exec_bind_ok _ _ _ (exec_modify I b _ _)]
  rfl

theorem exec_readByte_error {o : Int} (h : byteAt b o = none) :
    readByte.exec I b ⟨o, log⟩ = .error (.outOfBounds o) := by
  unfold readByte
  rw [exec_bind_ok _ _ _ (exec_get I b _), exec_bind_error _ _ _ (exec_index_error I b ⟨o, log⟩ h)]

theorem codec_readByte : Codec I readByte (fun x => [x]) 1 where
  length _ := rfl
  parses x pre post log hl := by
    have h := exec_readByte_ok I log (byteAt_append pre x post) (by omega) (by simp at hl; omega)
    simpa using h
  onto bs hl := by
    obtain ⟨x, rfl⟩ := List.length_eq_one_iff.mp hl
    exact ⟨x, rfl⟩
  takes := {
    fits := fun b o log hl hi => by
      have h : byteAt b o = some b[o] := by simp [byteAt, List.getElem?_eq_getElem (show o < b.length by omega)]
      exact ⟨b[o], by rw [exec_readByte_ok I log h (by omega) (by omega)]; rfl⟩
    faults := fun b o log ho hl hi => ⟨o, exec_readByte_error I log (byteAt_of_length_le b (by omega))⟩ }

theorem codec_readBytes (n : Nat) : Codec I (readBytes n) (fun v => v.toList) n := by
  have h := (codec_readByte I).fill n
  unfold readBytes
  simpa using h

end

/-! ## Integers -/

theorem ofInt_shift (x : Byte) (k : Nat) : BitVec.ofInt 32 (x.toNat * 2 ^ k : Nat) = x.setWidth 32 <<< k := by
  apply BitVec.eq_of_toNat_eq
  have hx : x.toNat % 2 ^ 32 = x.toNat := Nat.mod_eq_of_lt (by have := x.isLt; omega)
  rw [BitVec.ofInt_natCast, BitVec.toNat_ofNat, BitVec.toNat_shiftLeft, BitVec.toNat_setWidth,
    Nat.shiftLeft_eq, hx]

theorem exec_shiftPromoted_of {I : Impl} {x : Byte} {k : Nat} (h : I.traps = false ∨ x.toNat * 2 ^ k < 2 ^ 31)
    (b : List Byte) (s : State) : (shiftPromoted x k).exec I b s = .ok (x.setWidth 32 <<< k, s) := by
  -- a shift into the sign bit wraps, which the word the operand is stored in does not notice
  obtain ⟨z, hz, he⟩ : ∃ z, (int (x.toNat * 2 ^ k : Nat)).exec I b s = .ok (z, s) ∧
      BitVec.ofInt 32 z = BitVec.ofInt 32 (x.toNat * 2 ^ k : Nat) := by
    cases h with
    | inl hI => exact exec_int_wraps I b s hI _
    | inr hx => exact ⟨_, exec_int I b s (by omega) (by exact_mod_cast hx), rfl⟩
  unfold shiftPromoted
  rw [exec_bind_ok _ _ _ (by push_cast at hz; exact hz), exec_pure, he, ofInt_shift]

theorem exec_shiftPromoted (x : Byte) (k : Nat) (b : List Byte) (s : State) :
    (shiftPromoted x k).exec .native b s = .ok (x.setWidth 32 <<< k, s) :=
  exec_shiftPromoted_of (.inl rfl) b s

theorem exec_shiftPromoted_traps {I : Impl} (hI : I.traps = true) {x : Byte} {k : Nat}
    (h : 2 ^ 31 ≤ x.toNat * 2 ^ k) (b : List Byte) (s : State) :
    (shiftPromoted x k).exec I b s = .error .overflow := by
  unfold shiftPromoted
  exact exec_bind_error _ _ _ (exec_int_traps I b s hI (by exact_mod_cast h)) _

theorem ofBytes_pair (x₀ x₁ : Byte) :
    ((x₀.setWidth 32 <<< 8) ||| (x₁.setWidth 32 <<< 0)).setWidth 16 = ofBytes 16 [x₀, x₁] := by
  show _ = ofBytes 16 (([] ++ [x₀]) ++ [x₁])
  simp only [ofBytes_concat, BitVec.setWidth_or]
  apply BitVec.eq_of_getLsbD_eq
  intro i hi
  simp [ofBytes, hi]

theorem ofBytes_quad (x₀ x₁ x₂ x₃ : Byte) :
    (x₀.setWidth 32 <<< 24) ||| (x₁.setWidth 32 <<< 16) ||| (x₂.setWidth 32 <<< 8) ||| (x₃.setWidth 32 <<< 0) =
      ofBytes 32 [x₀, x₁, x₂, x₃] := by
  show _ = ofBytes 32 (([] ++ [x₀]) ++ [x₁] ++ [x₂] ++ [x₃])
  simp only [ofBytes_concat, BitVec.shiftLeft_or_distrib, ← BitVec.shiftLeft_add]
  simp [ofBytes]

theorem codec_word {w k : Nat} (hw : w = 8 * k) (f : Vector Byte k → Read (BitVec w))
    (hf : ∀ v b s, (f v).exec .native b s = .ok (ofBytes w v.toList, s)) :
    Codec .native (fill readByte k >>= f) (toBytes k) k := by
  have h := (codec_readByte .native).fill k
  rw [Nat.mul_one] at h
  refine h.map (fun v => ofBytes w v.toList) (fun x => ⟨(toBytes k x).toArray, by simp⟩) hf ?_ ?_ ?_
  · intro x
    exact ofBytes_toBytes k hw x
  · intro v
    apply Vector.toList_inj.mp
    exact toBytes_ofBytes k hw v.length_toList
  · intro x
    simp [Vector.toList]

theorem vector_toList_pair (v : Vector Byte 2) : v.toList = [v.get 0, v.get 1] := by
  obtain ⟨⟨l⟩, hl⟩ := v
  match l, hl with
  | [_, _], _ => rfl

theorem vector_toList_quad (v : Vector Byte 4) : v.toList = [v.get 0, v.get 1, v.get 2, v.get 3] := by
  obtain ⟨⟨l⟩, hl⟩ := v
  match l, hl with
  | [_, _, _, _], _ => rfl

theorem codec_readBeUint16 : Codec .native readBeUint16 (toBytes 2) 2 := by
  unfold readBeUint16
  refine Codec.skip (y := Equiv.refl _) (fun _ _ => rfl) (codec_word rfl _ fun v b s => ?_)
  simp only [exec_bind_ok _ _ _ (exec_shiftPromoted _ _ b s), exec_pure, Equiv.refl_apply]
  rw [ofBytes_pair, vector_toList_pair]

theorem codec_readBeUint32 : Codec .native readBeUint32 (toBytes 4) 4 := by
  unfold readBeUint32
  refine Codec.skip (y := Equiv.refl _) (fun _ _ => rfl) (codec_word rfl _ fun v b s => ?_)
  simp only [exec_bind_ok _ _ _ (exec_shiftPromoted _ _ b s), exec_pure, Equiv.refl_apply]
  rw [ofBytes_quad, vector_toList_quad]

/-! ## Reads that end -/

section
variable {b : List Byte} {log : List String}

theorem exec_readByte_inv {o : Int} {x : Byte} {s : State} (ho : o < 2 ^ 31)
    (h : readByte.exec .native b ⟨o, log⟩ = .ok (x, s)) :
    byteAt b o = some x ∧ s.log = log ∧ s.offset < 2 ^ 31 ∧ (0 ≤ s.offset → s.offset = o + 1) := by
  cases hx : byteAt b o with
  | none =>
    rw [exec_readByte_error .native log hx] at h
    cases h
  | some y =>
    have h₀ := (byteAt_eq_some hx).1
    by_cases h₁ : o + 1 < 2 ^ 31
    · rw [exec_readByte_ok .native log hx h₀ h₁] at h
      cases h
      exact ⟨rfl, rfl, h₁, fun _ => rfl⟩
    · -- the last offset an `int` holds: the increment wraps to a negative one
      have e : o = 2 ^ 31 - 1 := by omega
      subst e
      have hw : (int ((2 ^ 31 - 1 : Int) + 1)).exec .native b ⟨2 ^ 31 - 1, log⟩ =
          .ok (-2 ^ 31, ⟨2 ^ 31 - 1, log⟩) := rfl
      unfold readByte at h
      rw [exec_bind_ok _ _ _ (exec_get .native b _), exec_bind_ok _ _ _ (exec_index_ok .native b _ hx),
        exec_bind_ok _ _ _ hw, exec_bind_ok _ _ _ (exec_modify .native b _ _)] at h
      cases h
      refine ⟨rfl, rfl, by simp, fun h => ?_⟩
      simp at h

theorem exec_fill_readByte_inv : ∀ {n : Nat} {o : Int} {v : Vector Byte n} {s : State}, o < 2 ^ 31 →
    (fill readByte n).exec .native b ⟨o, log⟩ = .ok (v, s) →
    s.log = log ∧ s.offset < 2 ^ 31 ∧ (0 ≤ s.offset → s.offset = o + n) ∧
      (0 < n → 0 ≤ o ∧ o + n ≤ b.length) ∧ (0 ≤ o → v.toList = (b.drop o.toNat).take n) := by
  intro n
  induction n with
  | zero =>
    intro o v s ho h
    cases h
    exact ⟨rfl, ho, fun _ => by simp, fun h => absurd h (by omega), fun _ => by simp⟩
  | succ n ih =>
    intro o v s ho h
    obtain ⟨v', s', h', h⟩ := exec_bind_inv h
    obtain ⟨x, s'', hx, h⟩ := exec_bind_inv h
    cases h
    obtain ⟨rfl, hs, he, hb, hv⟩ := ih ho h'
    obtain ⟨hi, hl, hs', he'⟩ := exec_readByte_inv hs hx
    obtain ⟨h₀, h₁, h₂⟩ := byteAt_eq_some hi
    have e := he h₀
    have ho' : 0 ≤ o := by
      cases n with
      | zero => omega
      | succ n => exact (hb (Nat.succ_pos n)).1
    refine ⟨hl, hs', fun h => by rw [he' h, e]; push_cast; omega, fun _ => ⟨ho', by push_cast; omega⟩, fun _ => ?_⟩
    have hn : s'.offset.toNat = o.toNat + n := by omega
    rw [hn] at h₂
    rw [Vector.toList_push, hv ho', List.take_add_one, List.getElem?_drop, h₂]
    rfl

/-- A word that could be read was inside the buffer, wherever the offset pointed. -/
theorem exec_readBeUint32_inv {o : Int} {x : BitVec 32} {s : State} (ho : o < 2 ^ 31)
    (h : readBeUint32.exec .native b ⟨o, log⟩ = .ok (x, s)) :
    0 ≤ o ∧ o + 4 ≤ b.length ∧ x = wordAt 32 b o.toNat ∧ s.offset < 2 ^ 31 ∧ (0 ≤ s.offset → s.offset = o + 4) := by
  obtain ⟨t, s₀, ht, h⟩ := exec_bind_inv h
  cases ht
  obtain ⟨v, s₁, hv, h⟩ := exec_bind_inv h
  obtain ⟨hlog, hs, he, hb, hl⟩ := exec_fill_readByte_inv ho hv
  obtain ⟨h₀, h₁⟩ := hb (by omega)
  simp only [exec_bind_ok _ _ _ (exec_shiftPromoted _ _ b s₁), exec_pure] at h
  cases h
  refine ⟨h₀, h₁, ?_, hs, he⟩
  have hw := hl h₀
  rw [vector_toList_quad] at hw
  simp only [Impl.native, Equiv.refl_apply]
  rw [ofBytes_quad, hw]
  rfl
end

/-! ## Writers -/

theorem appends_writeByte (x : Byte) : Appends (writeByte x) [x] := appends_fwrite [x]

theorem appends_writeBeUint16 (x : BitVec 16) : Appends (writeBeUint16 x) (toBytes 2 x) :=
  (appends_writeByte _).cons (appends_writeByte _).last

theorem appends_writeBeUint32 (x : BitVec 32) : Appends (writeBeUint32 x) (toBytes 4 x) :=
  (appends_writeByte _).cons ((appends_writeByte _).cons ((appends_writeByte _).cons (appends_writeByte _).last))

/-! ## Loading a file -/

/-- A load that opens its file, gets its memory and reads all `n` bytes. -/
def LoadOutcome.Reads (o : LoadOutcome) (n : Nat) : Prop :=
  o.opens = true ∧ o.allocs = true ∧ n - o.missing = n

instance (o : LoadOutcome) (n : Nat) : Decidable (o.Reads n) :=
  inferInstanceAs (Decidable (_ ∧ _ ∧ _))

section
variable {o : LoadOutcome} {filename : String} {w : World} {content : List Byte}

theorem bufferFromFile_reads (hw : w.files filename = some content) (ho : o.Reads content.length) :
    bufferFromFile o filename w = (⟨some content, content.length⟩, w) := by
  unfold bufferFromFile openRead
  rw [if_pos ho.1, hw]
  dsimp only
  rw [if_neg (by simp [ho.2.1]), if_neg (not_not.mpr ho.2.2)]

theorem bufferFromFile_success (h : w.files filename = some content) :
    bufferFromFile .success filename w = (⟨some content, content.length⟩, w) :=
  bufferFromFile_reads h ⟨rfl, rfl, rfl⟩

/-- What a load hands over: the whole file or nothing. -/
def LoadOutcome.delivers (o : LoadOutcome) : Option (List Byte) → List Byte
  | none => []
  | some content => if o.Reads content.length then content else []

end

theorem bufferFromFile_delivers (o : LoadOutcome) (filename : String) (w : World) : ∃ buf msgs,
    bufferFromFile o filename w = (buf, w.report msgs) ∧ buf.bytes = o.delivers (w.files filename) ∧
      buf.size = (o.delivers (w.files filename)).length ∧ buf.size ≤ (buf.ptr.getD []).length := by
  unfold bufferFromFile openRead
  by_cases ho : o.opens = true
  · rw [if_pos ho]
    cases hf : w.files filename with
    | none => exact ⟨_, _, rfl, rfl, rfl, Nat.le_refl _⟩
    | some content =>
      by_cases ha : o.allocs = true
      · by_cases hm : content.length - o.missing = content.length
        · have hd : o.delivers (some content) = content := if_pos ⟨ho, ha, hm⟩
          dsimp only
          rw [if_neg (by simp [ha]), if_neg (not_not.mpr hm), hd]
          exact ⟨⟨some content, content.length⟩, [], by rw [report_nil], List.take_length, rfl, Nat.le_refl _⟩
        · have hd : o.delivers (some content) = [] := if_neg fun h => hm h.2.2
          dsimp only
          rw [if_neg (by simp [ha]), if_pos hm, hd]
          exact ⟨_, _, rfl, rfl, rfl, Nat.zero_le _⟩
      · have hd : o.delivers (some content) = [] := if_neg fun h => ha h.2.1
        dsimp only
        rw [if_pos (by simp [ha]), hd]
        exact ⟨_, _, rfl, rfl, rfl, Nat.le_refl _⟩
  · rw [if_neg ho]
    have hd : o.delivers (w.files filename) = [] := by
      cases w.files filename with
      | none => rfl
      | some content => exact if_neg fun h => ho h.1
    rw [hd]
    exact ⟨_, _, rfl, rfl, rfl, Nat.le_refl _⟩

end Catapult
