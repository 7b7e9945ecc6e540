import Mathlib.Data.List.OfFn
import Catapult.ReadAny

/-!
# Evaluation order and overflow in `read_file`

The calls of `read_byte` inside one integer read run in an order the compiler
picks, anew at each read. `pulIn` is the file a run in given orders returns. Two
orders give the same file where they only exchange equal bytes. The first
operand of a 32-bit read is shifted into the sign bit of an `int`, and apart
from that nothing overflows.
-/

namespace Catapult

open BigEndian Cursor

/-! ## Integers -/

section
variable (r : Order) (b : List Byte)

def u8In (o : Nat) : Byte := b.getD o 0
def u16In (o : Nat) : BitVec 16 := ofBytes 16 (operands r 2 b o)
def u32In (o : Nat) : BitVec 32 := ofBytes 32 (operands r 4 b o)

end

section
variable (I : Impl) (b : List Byte)

/-- Where signed overflow is an error, the first operand of the integer at `o`
leaves the sign bit clear. -/
def Fits (o : Nat) : Prop := I.traps = true → ((operands I.rank 4 b o).headD 0).toNat < 0x80

theorem fits_iff (o : Nat) : Fits I b o ↔ (I.traps = true → (operand I.rank 4 b o 0).toNat < 0x80) := by
  rw [Fits, operands, List.ofFn_succ]
  rfl

theorem take_drop_eq_ofFn {n o : Nat} (hl : o + n ≤ b.length) :
    (b.drop o).take n = List.ofFn fun i : Fin n => u8In b (o + i) := by
  apply List.ext_getElem
  · rw [List.length_take, List.length_drop, List.length_ofFn]; omega
  · intro i h₁ h₂
    rw [List.length_take, List.length_drop] at h₁
    simp [u8In, List.getD_eq_getElem?_getD, List.getElem?_eq_getElem (show o + i < b.length by omega)]

theorem exec_fill_readByte {n o : Nat} (hl : o + n ≤ b.length) (hi : o + n < 2 ^ 31) (log : List String) :
    (fill readByte n).exec I b ⟨o, log⟩ =
      .ok (Vector.ofFn fun i : Fin n => u8In b (o + i), ⟨(o + n : Nat), log⟩) := by
  have hv : (b.drop o).take n = (Vector.ofFn fun i : Fin n => u8In b (o + i)).toList := by
    rw [take_drop_eq_ofFn b hl, Vector.toList_ofFn]
  have h := ((codec_readBytes I n).parses (Vector.ofFn fun i : Fin n => u8In b (o + i))).exec_slice (b := b) (o := o)
  rw [Vector.length_toList] at h
  exact h hv hl hi log

theorem get_operand {n o : Nat} (i : Fin n) :
    (Vector.ofFn fun i : Fin n => u8In b (o + i)).get (I.rank n o i) = operand I.rank n b o i := by
  simp only [Vector.get, u8In, operand, Vector.toArray_ofFn, Array.getElem_ofFn]
  rfl

end

section
variable {I : Impl} {b : List Byte} {o : Nat}

theorem yields_readByte (hl : o + 1 ≤ b.length) (hi : o + 1 < 2 ^ 31) :
    Yields I b (Fits I b) readByte o 1 [] (u8In b o) := by
  refine .of_exec fun log => ?_
  have hx : byteAt b o = some (u8In b o) := by
    simp [byteAt, u8In, List.getD_eq_getElem?_getD, List.getElem?_eq_getElem (show o < b.length by omega)]
  exact exec_readByte_ok I log hx (by omega) (by omega)

theorem yields_readBytes {n : Nat} (hl : o + n ≤ b.length) (hi : o + n < 2 ^ 31) :
    Yields I b (Fits I b) (readBytes n) o n [] (Vector.ofFn fun i : Fin n => u8In b (o + i)) :=
  .of_exec (exec_fill_readByte I b hl hi)

theorem yields_readBeUint16 (hl : o + 2 ≤ b.length) (hi : o + 2 < 2 ^ 31) :
    Yields I b (Fits I b) readBeUint16 o 2 [] (u16In I.rank b o) := by
  refine .of_exec fun log => ?_
  have hx : ∀ x : Byte, x.toNat * 2 ^ 8 < 2 ^ 31 ∧ x.toNat * 2 ^ 0 < 2 ^ 31 := by
    intro x
    have := x.isLt
    omega
  unfold readBeUint16
  rw [exec_bind_ok _ _ _ (exec_operandRank I b _ 2), exec_bind_ok _ _ _ (exec_fill_readByte I b hl hi log),
    exec_bind_ok _ _ _ (exec_shiftPromoted_of (.inr (hx _).1) b _),
    exec_bind_ok _ _ _ (exec_shiftPromoted_of (.inr (hx _).2) b _), exec_pure, ofBytes_pair]
  simp only [get_operand, u16In, operands, List.ofFn_succ, List.ofFn_zero]
  rfl

theorem yields_readBeUint32 (hl : o + 4 ≤ b.length) (hi : o + 4 < 2 ^ 31) :
    Yields I b (Fits I b) readBeUint32 o 4 [o] (u32In I.rank b o) := by
  have hx : ∀ x : Byte, x.toNat * 2 ^ 16 < 2 ^ 31 ∧ x.toNat * 2 ^ 8 < 2 ^ 31 ∧ x.toNat * 2 ^ 0 < 2 ^ 31 := by
    intro x
    have := x.isLt
    omega
  constructor
  · intro h log
    have hf := (fits_iff I b o).mp (h o (List.mem_singleton_self o))
    have h₃ : I.traps = false ∨ (operand I.rank 4 b o 0).toNat * 2 ^ 24 < 2 ^ 31 := by
      cases ht : I.traps with
      | false => exact .inl rfl
      | true => exact .inr (by have := hf ht; omega)
    unfold readBeUint32
    rw [exec_bind_ok _ _ _ (exec_operandRank I b _ 4), exec_bind_ok _ _ _ (exec_fill_readByte I b hl hi log)]
    rw [exec_bind_ok _ _ _ (exec_shiftPromoted_of (by rwa [get_operand]) b _),
      exec_bind_ok _ _ _ (exec_shiftPromoted_of (.inr (hx _).1) b _),
      exec_bind_ok _ _ _ (exec_shiftPromoted_of (.inr (hx _).2.1) b _),
      exec_bind_ok _ _ _ (exec_shiftPromoted_of (.inr (hx _).2.2) b _), exec_pure, ofBytes_quad]
    simp only [get_operand, u32In, operands, List.ofFn_succ, List.ofFn_zero]
    rfl
  · intro h log
    simp only [List.mem_singleton, forall_eq, fits_iff, Classical.not_imp, not_lt] at h
    unfold readBeUint32
    rw [exec_bind_ok _ _ _ (exec_operandRank I b _ 4), exec_bind_ok _ _ _ (exec_fill_readByte I b hl hi log)]
    exact exec_bind_error _ _ _ (exec_shiftPromoted_traps h.1 (by rw [get_operand]; omega) b _) _

end

/-! ## Sections -/

section
variable (r : Order) (b : List Byte)

def fileHeaderIn : FileHeader where
  magic := u32In r b 0
  version := u32In r b 4
  infoOffset := u32In r b 8
  cupsOffset := u32In r b 12
  bmgOffset := u32In r b 16
  modFolderName := Vector.ofFn fun i => u8In b (20 + i)

def infoHeaderIn : InfoHeader where
  magic := u32In r b 36
  version := u32In r b 40
  size := u32In r b 44

def infoFieldsIn : InfoFields where
  roomKey := u32In r b 48
  prob100cc := u32In r b 52
  prob150cc := u32In r b 56
  wiimmfiRegion := u32In r b 60
  trackBlocking := u32In r b 64
  ttTrophies := u8In b 68
  enable200cc := u8In b 69
  umts := u8In b 70
  feather := u8In b 71
  megaTc := u8In b 72
  nCupIcons := u16In r b 73
  trackTimer := u8In b 75
  padding := Vector.ofFn fun i => u8In b (76 + i)

def cupsHeaderIn : CupsHeader where
  magic := u32In r b 116
  version := u32In r b 120
  size := u32In r b 124
  nCtCups := u16In r b 128
  ninTrackMode := u8In b 130
  padding := u8In b 131
  nTrophies := #v[u16In r b 132, u16In r b 134, u16In r b 136, u16In r b 138]
  nVariants := u32In r b 140

def trackEntryIn (o : Nat) : TrackEntry where
  trackSlot := u8In b o
  musicSlot := u8In b (o + 1)
  nVariants := u16In r b (o + 2)
  crc32 := u32In r b (o + 4)

def trackCount : Nat := nTracks (u16In r b 128)

def pulIn : PulFile where
  fHdr := fileHeaderIn r b
  iHdr := infoHeaderIn r b
  iFld := infoFieldsIn r b
  cHdr := cupsHeaderIn r b
  tArr := (List.range (trackCount r b)).map fun i => trackEntryIn r b (144 + i * 8)
  alphabetTable := (List.range (trackCount r b)).map fun i => u16In r b (144 + trackCount r b * 8 + i * 2)

end

/-- Where the 32-bit integers of a file with `n` tracks start. -/
def offsets32 (n : Nat) : List Nat :=
  [0, 4, 8, 12, 16] ++ ([36, 40, 44, 48, 52, 56, 60, 64] ++ ([116, 120, 124, 140] ++
    (List.range n).map fun i => 144 + i * 8 + 4))

def offsets16 (n : Nat) : List Nat :=
  [73] ++ ([128, 132, 134, 136, 138] ++ ((List.range n).map (fun i => 144 + i * 8 + 2) ++
    (List.range n).map fun i => 144 + n * 8 + i * 2))

/-- `b` is a PUL file as it is read in the given order. -/
structure IsPulIn (r : Order) (b : List Byte) : Prop where
  file : u32In r b 0 = fileMagic
  info : u32In r b 36 = infoMagic
  cups : u32In r b 116 = cupsMagic
  tables : tablesEnd (u16In r b 128) ≤ b.length

section
variable {I : Impl} {b : List Byte}

theorem yields_readSection {α : Type} {M : BitVec 32} {msg : String} {bad : BitVec 32 → α}
    {fields : BitVec 32 → Read α} {o k k' : Nat} {ps ps' : List Nat} {x x' : α} (hl : o + 4 ≤ b.length)
    (hi : o + 4 < 2 ^ 31) (hM : u32In I.rank b o = M) (hf : Yields I b (Fits I b) (fields M) (o + 4) k' ps' x')
    (hk : 4 + k' = k) (hp : [o] ++ ps' = ps) (hx : x' = x) :
    Yields I b (Fits I b) (readSection M msg bad fields) o k ps x := by
  subst hk hp hx
  refine (yields_readBeUint32 hl hi).bind ?_
  rw [hM, if_neg (not_not.mpr rfl)]
  exact hf

section
variable (hl : 144 ≤ b.length)
include hl

theorem yields_header32 {o : Nat} (ho : o + 4 ≤ 144) : Yields I b (Fits I b) readBeUint32 o 4 [o] (u32In I.rank b o) :=
  yields_readBeUint32 (by omega) (by omega)

theorem yields_header16 {o : Nat} (ho : o + 2 ≤ 144) : Yields I b (Fits I b) readBeUint16 o 2 [] (u16In I.rank b o) :=
  yields_readBeUint16 (by omega) (by omega)

theorem yields_header8 {o : Nat} (ho : o + 1 ≤ 144) : Yields I b (Fits I b) readByte o 1 [] (u8In b o) :=
  yields_readByte (by omega) (by omega)

theorem yields_readFileHeader (hdr : FileHeader) (hM : u32In I.rank b 0 = fileMagic) :
    Yields I b (Fits I b) (readFileHeader hdr) 0 36 [0, 4, 8, 12, 16] (fileHeaderIn I.rank b) := by
  have w {o : Nat} (h : o + 4 ≤ 144) := yields_header32 (I := I) hl h
  have name := yields_readBytes (I := I) (b := b) (o := 20) (n := modNameMax) (by unfold modNameMax; omega) (by decide)
  apply yields_readSection (by omega) (by decide) hM
  · exact (w (o := 4) (by decide)).bind <| (w (o := 8) (by decide)).bind <| (w (o := 12) (by decide)).bind <|
      (w (o := 16) (by decide)).bind <| name.bind <| Yields.pure _
  · rfl
  · rfl
  · rw [← hM]; rfl

theorem yields_readFileInfo (hdr : InfoHeader) (fld : InfoFields) (hM : u32In I.rank b 36 = infoMagic) :
    Yields I b (Fits I b) (readFileInfo hdr fld) 36 80 [36, 40, 44, 48, 52, 56, 60, 64]
      (infoHeaderIn I.rank b, infoFieldsIn I.rank b) := by
  have w {o : Nat} (h : o + 4 ≤ 144) := yields_header32 (I := I) hl h
  have c {o : Nat} (h : o + 1 ≤ 144) := yields_header8 (I := I) hl h
  have icons := yields_header16 (I := I) hl (o := 73) (by decide)
  have padding := yields_readBytes (I := I) (b := b) (o := 76) (n := 40) (by omega) (by decide)
  apply yields_readSection (by omega) (by decide) hM
  · exact (w (o := 40) (by decide)).bind <| (w (o := 44) (by decide)).bind <| (w (o := 48) (by decide)).bind <|
      (w (o := 52) (by decide)).bind <| (w (o := 56) (by decide)).bind <| (w (o := 60) (by decide)).bind <|
      (w (o := 64) (by decide)).bind <| (c (o := 68) (by decide)).bind <| (c (o := 69) (by decide)).bind <|
      (c (o := 70) (by decide)).bind <| (c (o := 71) (by decide)).bind <| (c (o := 72) (by decide)).bind <|
      icons.bind <| (c (o := 75) (by decide)).bind <| padding.bind <| Yields.pure _
  · rfl
  · rfl
  · rw [← hM]; rfl

theorem yields_readCupsHeader (hdr : CupsHeader) (hM : u32In I.rank b 116 = cupsMagic) :
    Yields I b (Fits I b) (readCupsHeader hdr) 116 28 [116, 120, 124, 140] (cupsHeaderIn I.rank b) := by
  have w {o : Nat} (h : o + 4 ≤ 144) := yields_header32 (I := I) hl h
  have d {o : Nat} (h : o + 2 ≤ 144) := yields_header16 (I := I) hl h
  have c {o : Nat} (h : o + 1 ≤ 144) := yields_header8 (I := I) hl h
  apply yields_readSection (by omega) (by decide) hM
  · exact (w (o := 120) (by decide)).bind <| (w (o := 124) (by decide)).bind <| (d (o := 128) (by decide)).bind <|
      (c (o := 130) (by decide)).bind <| (c (o := 131) (by decide)).bind <| (d (o := 132) (by decide)).bind <|
      (d (o := 134) (by decide)).bind <| (d (o := 136) (by decide)).bind <| (d (o := 138) (by decide)).bind <|
      (w (o := 140) (by decide)).bind <| Yields.pure _
  · rfl
  · rfl
  · rw [← hM]; rfl

end

theorem yields_readTrackEntry {o : Nat} (hl : o + 8 ≤ b.length) (hi : o + 8 < 2 ^ 31) :
    Yields I b (Fits I b) readTrackEntry o 8 [o + 4] (trackEntryIn I.rank b o) := by
  apply Yields.cast
  · exact (yields_readByte (by omega) (by omega)).bind <| (yields_readByte (o := o + 1) (by omega) (by omega)).bind <|
      (yields_readBeUint16 (o := o + 2) (by omega) (by omega)).bind <|
      (yields_readBeUint32 (o := o + 4) (by omega) (by omega)).bind <| Yields.pure _
  · rfl
  · rfl
  · rfl

theorem toList_ofFn_range {α : Type} (n : Nat) (f : Nat → α) :
    (Vector.ofFn fun i : Fin n => f i).toList = (List.range n).map f := by
  apply List.ext_getElem <;> simp

theorem yields_readTables (hl : tablesEnd (u16In I.rank b 128) ≤ b.length) :
    Yields I b (Fits I b) (readTables (cupsHeaderIn I.rank b)) 144 (10 * trackCount I.rank b)
      ((List.range (trackCount I.rank b)).map fun i => 144 + i * 8 + 4)
      ((pulIn I.rank b).tArr, (pulIn I.rank b).alphabetTable) := by
  have hi := tablesEnd_lt (u16In I.rank b 128)
  unfold tablesEnd at hl hi
  have tracks := Yields.fill (n := trackCount I.rank b) fun i hin =>
    yields_readTrackEntry (I := I) (b := b) (o := 144 + i * 8) (by unfold trackCount at hin; omega)
      (by unfold trackCount at hin; omega)
  have alphabet := Yields.fill (n := trackCount I.rank b) fun i hin =>
    yields_readBeUint16 (I := I) (b := b) (o := 144 + trackCount I.rank b * 8 + i * 2)
      (by unfold trackCount at hin ⊢; omega) (by unfold trackCount at hin ⊢; omega)
  apply Yields.cast
  · exact Yields.skip (exec_countTracks I _) <| Yields.skip (exec_sizeT_tracks I _ (by decide)) <|
      tracks.bind <| Yields.skip (exec_sizeT_tracks I _ (by decide)) <| alphabet.bind <| Yields.pure _
  · omega
  · simp [List.map_eq_flatMap]
  · exact Prod.ext (toList_ofFn_range _ fun i => trackEntryIn I.rank b (144 + i * 8))
      (toList_ofFn_range _ fun i => u16In I.rank b (144 + trackCount I.rank b * 8 + i * 2))

/-- **What a run returns in given orders, and where it may overflow.** -/
theorem IsPulIn.yields (h : IsPulIn I.rank b) (pf : PulFile) :
    Yields I b (Fits I b) (readFile pf) 0 (tablesEnd (u16In I.rank b 128)) (offsets32 (trackCount I.rank b))
      (pulIn I.rank b) := by
  have hl : 144 ≤ b.length := le_trans (Nat.le_add_right _ _) h.tables
  apply Yields.cast
  · exact (yields_readFileHeader hl pf.fHdr h.file).bind <| (yields_readFileInfo hl pf.iHdr pf.iFld h.info).bind <|
      (yields_readCupsHeader hl pf.cHdr h.cups).bind <| (yields_readTables h.tables).bind <| Yields.pure _
  · unfold tablesEnd trackCount; omega
  · unfold offsets32; simp only [List.append_nil]
  · rfl

end

/-! ## Two orders -/

theorem ofBytes_operands_inj {w n : Nat} (hw : 8 * n ≤ w) {r r' : Order} {b : List Byte} {o : Nat} :
    ofBytes w (operands r n b o) = ofBytes w (operands r' n b o) ↔ ∀ i, operand r n b o i = operand r' n b o i := by
  have hl : ∀ r : Order, (operands r n b o).length = n := fun _ => List.length_ofFn
  rw [← funext_iff, ← List.ofFn_inj]
  exact ⟨ofBytes_inj ((hl r).trans (hl r').symm) ((hl r').symm ▸ hw), congrArg (ofBytes w)⟩

theorem u16In_inj {r r' : Order} {b : List Byte} {o : Nat} :
    u16In r b o = u16In r' b o ↔ ∀ i, operand r 2 b o i = operand r' 2 b o i := ofBytes_operands_inj (by decide)

theorem u32In_inj {r r' : Order} {b : List Byte} {o : Nat} :
    u32In r b o = u32In r' b o ↔ ∀ i, operand r 4 b o i = operand r' 4 b o i := ofBytes_operands_inj (by decide)

section
variable (r r' : Order) (b : List Byte)

def Same16 (o : Nat) : Prop := u16In r b o = u16In r' b o
def Same32 (o : Nat) : Prop := u32In r b o = u32In r' b o

theorem fileHeaderIn_inj :
    fileHeaderIn r b = fileHeaderIn r' b ↔ ∀ o ∈ [0, 4, 8, 12, 16], Same32 r r' b o := by
  simp [fileHeaderIn, Same32]

theorem infoIn_inj : infoHeaderIn r b = infoHeaderIn r' b ∧ infoFieldsIn r b = infoFieldsIn r' b ↔
    (∀ o ∈ [73], Same16 r r' b o) ∧ ∀ o ∈ [36, 40, 44, 48, 52, 56, 60, 64], Same32 r r' b o := by
  simp only [infoHeaderIn, InfoHeader.mk.injEq, infoFieldsIn, InfoFields.mk.injEq, true_and, List.mem_cons,
    List.not_mem_nil, or_false, forall_eq, forall_eq_or_imp, Same16, Same32]
  grind

theorem cupsHeaderIn_inj : cupsHeaderIn r b = cupsHeaderIn r' b ↔
    (∀ o ∈ [128, 132, 134, 136, 138], Same16 r r' b o) ∧ ∀ o ∈ [116, 120, 124, 140], Same32 r r' b o := by
  simp only [cupsHeaderIn, CupsHeader.mk.injEq, Vector.eq_mk, Array.mk.injEq, List.cons.injEq, true_and,
    List.mem_cons, List.not_mem_nil, or_false, forall_eq, forall_eq_or_imp, Same16, Same32]
  grind

theorem trackEntryIn_inj (o : Nat) :
    trackEntryIn r b o = trackEntryIn r' b o ↔ Same16 r r' b (o + 2) ∧ Same32 r r' b (o + 4) := by
  simp [trackEntryIn, Same16, Same32]

/-- **Two orders give the same file exactly when they give the same integers.** -/
theorem pulIn_inj : pulIn r b = pulIn r' b ↔
    (∀ o ∈ offsets16 (trackCount r' b), Same16 r r' b o) ∧ ∀ o ∈ offsets32 (trackCount r' b), Same32 r r' b o := by
  have key (hn : trackCount r b = trackCount r' b) : pulIn r b = pulIn r' b ↔
      (∀ o ∈ offsets16 (trackCount r' b), Same16 r r' b o) ∧
        ∀ o ∈ offsets32 (trackCount r' b), Same32 r r' b o := by
    simp only [pulIn, PulFile.mk.injEq, hn, fileHeaderIn_inj, cupsHeaderIn_inj, List.map_inj_left, List.mem_range,
      trackEntryIn_inj, offsets16, offsets32, List.forall_mem_append, List.forall_mem_map, imp_and, forall_and]
    constructor
    · rintro ⟨hf, h₁, h₂, ⟨hc, hc'⟩, ⟨ht, ht'⟩, ha⟩
      obtain ⟨hi, hi'⟩ := (infoIn_inj r r' b).mp ⟨h₁, h₂⟩
      exact ⟨⟨hi, hc, ht, ha⟩, hf, hi', hc', ht'⟩
    · rintro ⟨⟨hi, hc, ht, ha⟩, hf, hi', hc', ht'⟩
      obtain ⟨h₁, h₂⟩ := (infoIn_inj r r' b).mpr ⟨hi, hi'⟩
      exact ⟨hf, h₁, h₂, ⟨hc, hc'⟩, ⟨ht, ht'⟩, ha⟩
  constructor
  · intro h
    exact (key (congrArg (fun f : PulFile => nTracks f.cHdr.nCtCups) h)).mp h
  · intro h
    have hc : Same16 r r' b 128 := h.1 128 (by simp [offsets16])
    exact (key (congrArg nTracks hc)).mpr h

end

/-! ## Left to right -/

/-- At each integer of the file `b`, the order only exchanges equal bytes. -/
def InOrder (r : Order) (b : List Byte) : Prop :=
  (∀ o ∈ offsets16 (nTracks (wordAt 16 b 128)), ∀ i, operand r 2 b o i = u8In b (o + i)) ∧
    ∀ o ∈ offsets32 (nTracks (wordAt 16 b 128)), ∀ i, operand r 4 b o i = u8In b (o + i)

section
variable {r : Order} {b : List Byte}

theorem u16In_leftToRight {o : Nat} (h : o + 2 ≤ b.length) : u16In .leftToRight b o = wordAt 16 b o :=
  congrArg (ofBytes 16) (take_drop_eq_ofFn b h).symm

theorem u32In_leftToRight {o : Nat} (h : o + 4 ≤ b.length) : u32In .leftToRight b o = wordAt 32 b o :=
  congrArg (ofBytes 32) (take_drop_eq_ofFn b h).symm

theorem isPulIn_leftToRight : IsPulIn .leftToRight b ↔ IsPul b := by
  by_cases hl : 144 ≤ b.length
  · constructor
    · rintro ⟨h₁, h₂, h₃, ht⟩
      rw [u32In_leftToRight (by omega)] at h₁ h₂ h₃
      rw [u16In_leftToRight (by omega)] at ht
      exact ⟨⟨h₁, h₂, h₃⟩, ht⟩
    · rintro ⟨⟨h₁, h₂, h₃⟩, ht⟩
      refine ⟨?_, ?_, ?_, ?_⟩
      · rwa [u32In_leftToRight (by omega)]
      · rwa [u32In_leftToRight (by omega)]
      · rwa [u32In_leftToRight (by omega)]
      · rwa [u16In_leftToRight (by omega)]
  · have hn : ∀ n, ¬ tablesEnd n ≤ b.length := fun n => by unfold tablesEnd; omega
    exact ⟨fun h => absurd h.tables (hn _), fun h => absurd h.tables (hn _)⟩

theorem fits_wraps (b : List Byte) (o : Nat) : Fits r.wraps b o := fun h => absurd h Bool.false_ne_true

theorem exec_wraps {α : Type} {m : Read α} {o k : Nat} {ps : List Nat} {x : α}
    (h : Yields r.wraps b (Fits r.wraps b) m o k ps x) (log : List String) :
    m.exec r.wraps b ⟨o, log⟩ = .ok (x, ⟨(o + k : Nat), log⟩) := h.ends (fun o _ => fits_wraps b o) log

/-- What the run in given orders returns on a file, as it is read in them. -/
theorem IsPulIn.exec_readFile (h : IsPulIn r b) (pf : PulFile) :
    (readFile pf).exec r.wraps b ⟨0, []⟩ = .ok (pulIn r b, ⟨tablesEnd (u16In r b 128), []⟩) := by
  have := exec_wraps (IsPulIn.yields (I := r.wraps) h pf) []
  rwa [Nat.zero_add] at this

theorem pulIn_leftToRight {f : PulFile} (hf : f.WellFormed) (post : List Byte) :
    pulIn .leftToRight (f.bytes ++ post) = f := by
  have h := (isPulIn_leftToRight.mpr (hf.isPul post)).exec_readFile f
  have h' := exec_readFile_append f hf post
  exact congrArg Prod.fst (Except.ok.inj (h.symm.trans h'))

end

/-! ## Magics in any order -/

section
variable {r : Order} {b : List Byte}

theorem magic_of_ok {α : Type} {M : BitVec 32} {msg : String} {bad : BitVec 32 → α} {fields : BitVec 32 → Read α}
    (magic : α → BitVec 32) (hbad : ∀ m, magic (bad m) = m) {o : Nat} {log : List String} {x : α} {s : State}
    (hl : o + 4 ≤ b.length) (hi : o + 4 < 2 ^ 31)
    (h : (readSection M msg bad fields).exec r.wraps b ⟨o, log⟩ = .ok (x, s)) (hx : magic x = M) :
    u32In r b o = M := by
  by_contra hM
  have hw : readBeUint32.exec r.wraps b ⟨o, log⟩ = .ok (u32In r b o, ⟨(o + 4 : Nat), log⟩) :=
    exec_wraps (yields_readBeUint32 hl hi) log
  rw [readSection, exec_bind_ok _ _ _ hw, if_pos hM, exec_bind_ok _ _ _ (exec_say _ _ _ _), exec_pure] at h
  cases h
  exact hM ((hbad _).symm.trans hx)

/-- A run that returns a well-formed file has met its magics. -/
theorem isPulIn_of_ok {pf f : PulFile} {s : State} (hf : f.WellFormed) (hl : tablesEnd f.cHdr.nCtCups ≤ b.length)
    (h : (readFile pf).exec r.wraps b ⟨0, []⟩ = .ok (f, s)) : IsPulIn r b := by
  have h₁₄₄ : 144 ≤ b.length := le_trans (Nat.le_add_right _ _) hl
  obtain ⟨fHdr, s₁, e₁, h⟩ := exec_bind_inv h
  obtain ⟨info, s₂, e₂, h⟩ := exec_bind_inv h
  obtain ⟨cHdr, s₃, e₃, h⟩ := exec_bind_inv h
  obtain ⟨tables, s₄, e₄, h⟩ := exec_bind_inv h
  cases h
  -- each magic is what the section has, and lets the run go on as in `IsPulIn.yields`
  have m₁ := magic_of_ok (o := 0) FileHeader.magic (fun _ => rfl) (by omega) (by decide) e₁ hf.fileMagic
  cases (exec_wraps (yields_readFileHeader h₁₄₄ pf.fHdr m₁) []).symm.trans e₁
  have m₂ := magic_of_ok (o := 36) (fun x => x.1.magic) (fun _ => rfl) (by omega) (by decide) e₂ hf.infoMagic
  cases (exec_wraps (yields_readFileInfo h₁₄₄ pf.iHdr pf.iFld m₂) []).symm.trans e₂
  have m₃ := magic_of_ok (o := 116) CupsHeader.magic (fun _ => rfl) (by omega) (by decide) e₃ hf.cupsMagic
  cases (exec_wraps (yields_readCupsHeader h₁₄₄ pf.cHdr m₃) []).symm.trans e₃
  exact ⟨m₁, m₂, m₃, hl⟩

end

/-! ## Any order -/

/-- The run in the orders `r` returns `f` and stops behind its tables. -/
def Returns (r : Order) (pf : PulFile) (b : List Byte) (f : PulFile) : Prop :=
  ∃ log, (readFile pf).exec r.wraps b ⟨0, []⟩ = .ok (f, ⟨tablesEnd f.cHdr.nCtCups, log⟩)

theorem returns_iff (r : Order) (pf : PulFile) {f : PulFile} (hf : f.WellFormed) (post : List Byte) :
    Returns r pf (f.bytes ++ post) f ↔ InOrder r (f.bytes ++ post) := by
  have hl : f.bytes.length ≤ (f.bytes ++ post).length := by rw [List.length_append]; omega
  rw [hf.length_bytes] at hl
  have hn : trackCount .leftToRight (f.bytes ++ post) = nTracks (wordAt 16 (f.bytes ++ post) 128) := by
    have : 144 ≤ tablesEnd f.cHdr.nCtCups := Nat.le_add_right _ _
    rw [trackCount, u16In_leftToRight (by omega)]
  have key := pulIn_inj r .leftToRight (f.bytes ++ post)
  simp only [pulIn_leftToRight hf, hn, Same16, Same32, u16In_inj, u32In_inj] at key
  change _ ↔ InOrder r (f.bytes ++ post) at key
  rw [← key]
  constructor
  · rintro ⟨log, h⟩
    rw [(isPulIn_of_ok hf hl h).exec_readFile pf] at h
    exact congrArg Prod.fst (Except.ok.inj h)
  · intro h
    have hc : u16In r (f.bytes ++ post) 128 = f.cHdr.nCtCups := congrArg (fun g : PulFile => g.cHdr.nCtCups) h
    have hp : IsPulIn r (f.bytes ++ post) :=
      ⟨(congrArg (fun g : PulFile => g.fHdr.magic) h).trans hf.fileMagic,
        (congrArg (fun g : PulFile => g.iHdr.magic) h).trans hf.infoMagic,
        (congrArg (fun g : PulFile => g.cHdr.magic) h).trans hf.cupsMagic, by rw [hc]; exact hl⟩
    exact ⟨[], by rw [hp.exec_readFile pf, h, hc]⟩

/-- **When the order of evaluation does not matter.** -/
theorem readFile_anyOrder_iff (r r' : Order) (pf : PulFile) (b : List Byte) (h : IsPul b) :
    (∃ f post, f.WellFormed ∧ b = f.bytes ++ post ∧ Returns r pf b f ∧ Returns r' pf b f) ↔
      InOrder r b ∧ InOrder r' b := by
  constructor
  · rintro ⟨f, post, hf, rfl, h₁, h₂⟩
    exact ⟨(returns_iff r pf hf post).mp h₁, (returns_iff r' pf hf post).mp h₂⟩
  · rintro ⟨h₁, h₂⟩
    obtain ⟨f, post, hf, rfl, _⟩ := h.exists_wellFormed
    exact ⟨f, post, hf, rfl, (returns_iff r pf hf post).mpr h₁, (returns_iff r' pf hf post).mpr h₂⟩

/-- Left to right, except for the integer at 140. -/
def reversedAt140 : Order := fun _ o => if o = 140 then Fin.revPerm else Equiv.refl _

theorem readFile_anyOrder_samplePul : ∃ f post, f.WellFormed ∧ samplePul.bytes ++ [] = f.bytes ++ post ∧
    Returns .leftToRight samplePul (samplePul.bytes ++ []) f ∧
    Returns reversedAt140 samplePul (samplePul.bytes ++ []) f :=
  (readFile_anyOrder_iff .leftToRight reversedAt140 samplePul _ (wellFormed_samplePul.isPul [])).mpr
    ⟨⟨fun _ _ _ => rfl, fun _ _ _ => rfl⟩, by unfold InOrder; decide +kernel⟩

def rightToLeft : Order := fun _ _ => Fin.revPerm

theorem not_anyOrder_samplePul : IsPul (samplePul.bytes ++ []) ∧
    ¬ ∃ f post, f.WellFormed ∧ samplePul.bytes ++ [] = f.bytes ++ post ∧
      Returns .leftToRight samplePul (samplePul.bytes ++ []) f ∧
      Returns rightToLeft samplePul (samplePul.bytes ++ []) f := by
  refine ⟨wellFormed_samplePul.isPul [], ?_⟩
  rintro ⟨f, post, hf, hb, -, h⟩
  rw [hb, returns_iff _ _ hf, ← hb] at h
  have h₀ := h.2 0 (List.mem_append_left _ (by decide)) 0
  revert h₀
  decide +kernel

/-! ## Overflow -/

/-- **When no intermediate result leaves its type.** -/
theorem readFile_noOverflow_iff (r : Order) (pf : PulFile) (b : List Byte) (h : IsPulIn r b) :
    (readFile pf).exec r.traps b ⟨0, []⟩ ≠ .error .overflow ↔
      ∀ o ∈ offsets32 (trackCount r b), (operand r 4 b o 0).toNat < 0x80 := by
  have hy := IsPulIn.yields (I := r.traps) h pf
  have ho : (readFile pf).exec r.traps b ⟨0, []⟩ = .error .overflow ↔
      ¬ ∀ o ∈ offsets32 (trackCount r b), Fits r.traps b o := hy.overflow_iff []
  have hf : ∀ o, Fits r.traps b o ↔ (operand r 4 b o 0).toNat < 0x80 :=
    fun o => (fits_iff r.traps b o).trans ⟨fun h => h rfl, fun h _ => h⟩
  rw [ne_eq, ho, not_not]
  simp only [hf]

/-- A file without a set top bit. -/
def lowPul : PulFile :=
  { samplePul with
    iFld := { samplePul.iFld with roomKey := 0x5EADBEEF }
    tArr := List.replicate 8 ⟨8, 8, 1, 0x4AFEBABE⟩ }

theorem wellFormed_lowPul : lowPul.WellFormed := ⟨rfl, rfl, rfl, rfl, rfl⟩

theorem readFile_noOverflow_lowPul :
    (readFile samplePul).exec Order.leftToRight.traps (lowPul.bytes ++ []) ⟨0, []⟩ ≠ .error .overflow :=
  (readFile_noOverflow_iff .leftToRight samplePul _ (isPulIn_leftToRight.mpr (wellFormed_lowPul.isPul []))).mpr
    (by decide +kernel)

theorem readFile_overflow_samplePul : IsPul (samplePul.bytes ++ []) ∧
    (readFile samplePul).exec Order.leftToRight.traps (samplePul.bytes ++ []) ⟨0, []⟩ = .error .overflow := by
  have hp := wellFormed_samplePul.isPul []
  have hy := IsPulIn.yields (I := Order.leftToRight.traps) (isPulIn_leftToRight.mpr hp) samplePul
  refine ⟨hp, hy.traps (fun h => ?_) []⟩
  -- the room key at 48
  have h₄₈ := h 48 (List.mem_append_right _ (List.mem_append_left _ (by decide))) rfl
  revert h₄₈
  decide +kernel

end Catapult
