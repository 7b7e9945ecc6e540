import Catapult.BinarySound
import Catapult.Command
import Catapult.Crc32Code

/-!
# What `CHECKSUM` reports

`crc32_from_file` never fails: whatever its calls return, it is the checksum of
some initial part of what was loaded. That part is the whole file if every call
succeeds and the size of the file survives the casts.
-/

namespace Catapult

open BigEndian Cursor Stdio Printf

/-! ## The casts of the length -/

/-- The lengths that come through the casts of a build. -/
def Build.limit : Build → Nat
  | .fast => 2 ^ 32
  | .bitwise => 2 ^ 31

/-- How many bytes a build looks at when it is given `n`. -/
def Build.covers (build : Build) (n : Nat) : Nat :=
  match build with
  | .fast => n % 2 ^ 32
  | .bitwise => if n % 2 ^ 32 < 2 ^ 31 then n % 2 ^ 32 else 0

theorem Build.covers_le (build : Build) (n : Nat) : build.covers n ≤ n := by
  have := Nat.mod_le n (2 ^ 32)
  cases build with
  | fast => exact this
  | bitwise =>
    unfold Build.covers
    dsimp only
    split <;> omega

theorem Build.covers_eq {build : Build} {n : Nat} (h : n < build.limit) : build.covers n = n := by
  cases build with
  | fast => exact Nat.mod_eq_of_lt h
  | bitwise =>
    have h' : n < 2 ^ 31 := h
    unfold Build.covers
    dsimp only
    rw [Nat.mod_eq_of_lt (by omega), if_pos h']

theorem Build.covers_lt {build : Build} {n : Nat} (h : build.limit ≤ n) : build.covers n < n := by
  cases build with
  | fast =>
    have h' : 2 ^ 32 ≤ n := h
    exact Nat.lt_of_lt_of_le (Nat.mod_lt n (by decide)) h'
  | bitwise =>
    have h' : 2 ^ 31 ≤ n := h
    unfold Build.covers
    dsimp only
    split <;> omega

theorem crc32_ok (build : Build) {message : List Byte} {n : Nat} (h : n ≤ message.length) :
    crc32 build message (BitVec.ofNat 32 n) = .ok (crc ((message.take n).take (build.covers n))) := by
  have hn := build.covers_le n
  rw [List.take_take, Nat.min_eq_left hn]
  cases build with
  | fast => exact crc32Fast_ok (Nat.le_trans hn h)
  | bitwise =>
    have e : (BitVec.ofNat 32 n).toInt.toNat = Build.covers .bitwise n := by
      unfold Build.covers
      dsimp only
      rw [BitVec.toInt_eq_toNat_cond, BitVec.toNat_ofNat]
      split <;> split <;> omega
    show crc32Bitwise message (BitVec.ofNat 32 n) = _
    rw [crc32Bitwise_ok (by rw [e]; exact Nat.le_trans hn h), e]
    rfl

/-! ## The file -/

def ChecksumOutcome.Reads (o : ChecksumOutcome) (n : Nat) : Prop := o.opens = true ∧ o.load.Reads n

def ChecksumOutcome.delivers (o : ChecksumOutcome) (file : Option (List Byte)) : List Byte :=
  if o.opens then o.load.delivers file else []

theorem ChecksumOutcome.delivers_of_reads {o : ChecksumOutcome} {content : List Byte} (h : o.Reads content.length) :
    o.delivers (some content) = content :=
  (if_pos h.1).trans (if_pos h.2)

theorem crc32FromFile_ok (build : Build) (o : ChecksumOutcome) (filename : String) (w : World) : ∃ msgs,
    crc32FromFile build o filename w = .ok (crc ((o.delivers (w.files filename)).take
      (build.covers (o.delivers (w.files filename)).length)), w.report msgs) := by
  unfold crc32FromFile openRead ChecksumOutcome.delivers
  by_cases ho : o.opens = true
  · rw [if_pos ho, if_pos ho]
    cases hf : w.files filename with
    | none =>
      rw [show o.load.delivers none = [] from rfl, List.take_nil, crc_nil]
      exact ⟨_, rfl⟩
    | some content =>
      obtain ⟨buf, msgs, e, hb, hs, hl⟩ := bufferFromFile_delivers o.load filename w
      rw [hf] at hb hs
      have hr := crc32_ok build hl
      refine ⟨msgs, ?_⟩
      simp only [e, hr, bind, Except.bind]
      rw [← hs, ← hb]
      rfl
  · rw [if_neg ho, if_neg ho, List.take_nil, crc_nil]
    exact ⟨_, rfl⟩

structure DifferOnlyAt (k : Nat) (m m' : List Byte) : Prop where
  at_k : m[k]? ≠ m'[k]?
  elsewhere : ∀ i, i ≠ k → m[i]? = m'[i]?

/-- Two contents that differ in their last byte only: a build that does not
reach it cannot tell them apart. -/
theorem covers_collide (build : Build) {n : Nat} (h : build.limit ≤ n) : ∃ m m' : List Byte,
    m.length = n ∧ m'.length = n ∧ DifferOnlyAt (n - 1) m m' ∧
      m.take (build.covers n) = m'.take (build.covers n) := by
  have hn := Build.covers_lt h
  have hl : ∀ x : Byte, (List.replicate (n - 1) 0 ++ [x]).length = n := by
    intro x
    rw [List.length_append, List.length_replicate, List.length_singleton]
    omega
  have ht : ∀ x : Byte, (List.replicate (n - 1) 0 ++ [x]).take (build.covers n) =
      (List.replicate (n - 1) 0).take (build.covers n) := fun x =>
    List.take_append_of_le_length (by rw [List.length_replicate]; omega)
  refine ⟨List.replicate (n - 1) 0 ++ [0], List.replicate (n - 1) 0 ++ [1], hl 0, hl 1, ⟨?_, fun i hi => ?_⟩, ?_⟩
  · rw [List.getElem?_append_right (by rw [List.length_replicate]),
      List.getElem?_append_right (by rw [List.length_replicate]), List.length_replicate, Nat.sub_self]
    decide
  · by_cases hlt : i < n - 1
    · rw [List.getElem?_append_left (by rwa [List.length_replicate]),
        List.getElem?_append_left (by rwa [List.length_replicate])]
    · rw [List.getElem?_eq_none (by rw [hl]; omega), List.getElem?_eq_none (by rw [hl]; omega)]
  · rw [ht, ht]

theorem crc_ne_of_byte {m m' : List Byte} (hl : m.length = m'.length) {k : Nat} (h : DifferOnlyAt k m m') :
    crc m ≠ crc m' := by
  intro e
  have := crc_inj_local hl (p := k) (fun i hi => h.elsewhere i (by omega)) e
  exact h.at_k (by rw [this])

/-- For the files of length `n`: if every call succeeds the checksum is that of
the whole content, and it tells apart any two that differ in one byte. -/
structure ChecksumsWhole (build : Build) (n : Nat) : Prop where
  value : ∀ filename content w, content.length = n → w.files filename = some content →
    crc32FromFile build .success filename w = .ok (crc content, w)
  distinct : ∀ filename (m m' : List Byte) w w', m.length = n → m'.length = n → w.files filename = some m →
    w'.files filename = some m' → (∃ k, DifferOnlyAt k m m') →
    ∀ v v' u u', crc32FromFile build .success filename w = .ok (v, u) →
      crc32FromFile build .success filename w' = .ok (v', u') → v ≠ v'

theorem crc32FromFile_success (build : Build) (filename : String) {content : List Byte} {w : World}
    (h : w.files filename = some content) : crc32FromFile build .success filename w =
      .ok (crc (content.take (build.covers content.length)), w) := by
  unfold crc32FromFile openRead ChecksumOutcome.success
  simp only [h, ite_true, bufferFromFile_success h, Option.getD_some, bind, Except.bind,
    crc32_ok build (Nat.le_refl content.length), List.take_length]
  rfl

/-- **Which lengths are checksummed whole.** -/
theorem checksumsWhole_iff (build : Build) (n : Nat) : ChecksumsWhole build n ↔ n < build.limit := by
  constructor
  · intro h
    by_contra hn
    obtain ⟨m, m', hm, hm', hd, ht⟩ := covers_collide build (Nat.not_lt.mp hn)
    have e := crc32FromFile_success build "" (w := ⟨fun _ => some m, [], []⟩) rfl
    have e' := crc32FromFile_success build "" (w := ⟨fun _ => some m', [], []⟩) rfl
    rw [hm, ht] at e
    rw [hm'] at e'
    exact h.distinct "" m m' _ _ hm hm' rfl rfl ⟨_, hd⟩ _ _ _ _ e e' rfl
  · intro hn
    have value : ∀ filename (content : List Byte) (w : World), content.length = n →
        w.files filename = some content → crc32FromFile build .success filename w = .ok (crc content, w) := by
      intro filename content w hl hw
      rw [crc32FromFile_success build filename hw, hl, Build.covers_eq hn, ← hl, List.take_length]
    refine ⟨value, fun filename m m' w w' hm hm' hw hw' ⟨k, hd⟩ v v' u u' e e' => ?_⟩
    rw [value filename m w hm hw] at e
    rw [value filename m' w' hm' hw'] at e'
    cases e
    cases e'
    exact crc_ne_of_byte (hm.trans hm'.symm) hd

/-- At 4 GiB the shipped build gives one checksum to two files that differ in
their last byte. -/
theorem crc32FromFile_collides : ∃ (m m' : List Byte) (v : BitVec 32), m.length = 2 ^ 32 ∧ m'.length = 2 ^ 32 ∧
    (∃ k, DifferOnlyAt k m m') ∧
    crc32FromFile .fast .success "big" ⟨fun _ => some m, [], []⟩ = .ok (v, ⟨fun _ => some m, [], []⟩) ∧
    crc32FromFile .fast .success "big" ⟨fun _ => some m', [], []⟩ = .ok (v, ⟨fun _ => some m', [], []⟩) ∧
    ¬ (v = crc m ∧ v = crc m') := by
  obtain ⟨m, m', hm, hm', hd, ht⟩ := covers_collide .fast (n := 2 ^ 32) (Nat.le_refl _)
  have e := crc32FromFile_success .fast "big" (w := ⟨fun _ => some m, [], []⟩) rfl
  have e' := crc32FromFile_success .fast "big" (w := ⟨fun _ => some m', [], []⟩) rfl
  rw [hm] at e
  rw [hm', ← ht] at e'
  exact ⟨m, m', _, hm, hm', ⟨_, hd⟩, e, e', fun h =>
    crc_ne_of_byte (hm.trans hm'.symm) hd (h.1.symm.trans h.2)⟩

/-! ## The report -/

/-- A checksum that is printed is that of the whole file, all of which was
read. -/
def HonestChecksum (build : Build) (o : ChecksumOutcome) (file : String) (w : World) : Prop :=
  ∃ w', commandChecksum build o file w = .ok w' ∧ ∀ v, w'.stdout = w.stdout ++ printChecksum v →
    ∃ content, w.files file = some content ∧ o.Reads content.length ∧ v = crc content

theorem printChecksum_inj {v v' : BitVec 32} (h : printChecksum v = printChecksum v') : v = v' := by
  have hd : Determines printChecksum (fun v => (v, ())) :=
    .text _ <| .text _ <| (determines_udec id _ stops_newlines).cons .nil
  have := (hd v v' [] [] (by rw [h])).1
  exact congrArg Prod.fst this

theorem commandChecksum_prints (build : Build) (o : ChecksumOutcome) (file : String) (w : World) : ∃ w',
    commandChecksum build o file w = .ok w' ∧ w'.stdout = w.stdout ++ printChecksum
      (crc ((o.delivers (w.files file)).take (build.covers (o.delivers (w.files file)).length))) := by
  obtain ⟨msgs, e⟩ := crc32FromFile_ok build o file w
  unfold commandChecksum
  rw [e]
  exact ⟨_, rfl, rfl⟩

theorem honestChecksum_iff {build : Build} {o : ChecksumOutcome} {file : String} {w : World} :
    HonestChecksum build o file w ↔ ∃ content, w.files file = some content ∧ o.Reads content.length ∧
      crc (content.take (build.covers content.length)) = crc content := by
  obtain ⟨w', e, hp⟩ := commandChecksum_prints build o file w
  constructor
  · rintro ⟨w'', e', h⟩
    rw [e] at e'
    cases e'
    obtain ⟨content, hw, hr, hv⟩ := h _ hp
    rw [hw, ChecksumOutcome.delivers_of_reads hr] at hv
    exact ⟨content, hw, hr, hv⟩
  · rintro ⟨content, hw, hr, hv⟩
    refine ⟨w', e, fun v h => ⟨content, hw, hr, ?_⟩⟩
    rw [hp, hw, ChecksumOutcome.delivers_of_reads hr, hv] at h
    exact (printChecksum_inj (List.append_cancel_left h)).symm

/-- **When a reported checksum can be relied on**, for the files of a length:
the file is there, every call succeeds, and the length fits the build. -/
theorem checksum_honest_iff (build : Build) (o : ChecksumOutcome) (len : Option Nat) :
    (∀ file w, (w.files file).map List.length = len → HonestChecksum build o file w) ↔
      ∃ n, len = some n ∧ o.Reads n ∧ n < build.limit := by
  constructor
  · intro h
    cases len with
    | none =>
      obtain ⟨_, hw, _⟩ := honestChecksum_iff.mp (h "" default rfl)
      cases hw
    | some n =>
      have run : ∀ m : List Byte, m.length = n → o.Reads n ∧ crc (m.take (build.covers n)) = crc m := by
        intro m hm
        have hlen : some m.length = some n := by rw [hm]
        obtain ⟨content, hw, hr, hv⟩ := honestChecksum_iff.mp (h "" ⟨fun _ => some m, [], []⟩ hlen)
        cases hw
        rw [hm] at hr hv
        exact ⟨hr, hv⟩
      refine ⟨n, rfl, (run (List.replicate n 0) List.length_replicate).1, ?_⟩
      by_contra hn
      obtain ⟨m, m', hm, hm', hd, ht⟩ := covers_collide build (Nat.not_lt.mp hn)
      refine crc_ne_of_byte (hm.trans hm'.symm) hd ?_
      rw [← (run m hm).2, ← (run m' hm').2, ht]
  · rintro ⟨n, rfl, hr, hn⟩ file w hw
    obtain ⟨content, hf, hl⟩ := Option.map_eq_some_iff.mp hw
    subst hl
    exact honestChecksum_iff.mpr ⟨content, hf, hr, by rw [Build.covers_eq hn, List.take_length]⟩

/-- Of a file that is not there a checksum of 0 is reported. -/
theorem commandChecksum_missing : ∃ w', commandChecksum .fast .success "missing" default = .ok w' ∧
    w'.stdout = (default : World).stdout ++ printChecksum 0 ∧ ¬ HonestChecksum .fast .success "missing" default := by
  obtain ⟨w', e, hp⟩ := commandChecksum_prints .fast .success "missing" default
  refine ⟨w', e, hp, fun h => ?_⟩
  obtain ⟨_, hw, _⟩ := honestChecksum_iff.mp h
  cases hw

end Catapult
