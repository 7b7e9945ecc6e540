import Mathlib.Logic.Function.Basic
import Catapult.Lib.Cursor

/-!
# Files and output streams

A world maps paths to file contents and collects what is printed. A path stands
for the file it denotes: two names of one file are equal paths. An output
stream is opened on a path, which truncates the file, and its bytes are in the
file for certain only once it is closed: what another reader sees before that
is some initial part of them, given by `sync`. `none` is the stream of a
failed `fopen`; using it is a fault.
-/

namespace Stdio

open BigEndian Cursor

structure World where
  files : String → Option (List Byte)
  stdout : List Byte
  stderr : List String

instance : Inhabited World := ⟨fun _ => none, [], []⟩

def World.setFile (w : World) (path : String) (bs : List Byte) : World :=
  { w with files := Function.update w.files path (some bs) }

def World.report (w : World) (msgs : List String) : World := { w with stderr := w.stderr ++ msgs }

def World.print (w : World) (bs : List Byte) : World := { w with stdout := w.stdout ++ bs }

structure Stream where
  path : String
  written : List Byte

abbrev Write := StateT (Option Stream) (Except Fault)

def openRead (opens : Bool) (path : String) (w : World) : Option (List Byte) :=
  if opens then w.files path else none

def openWrite (opens : Bool) (path : String) (w : World) : Option Stream × World :=
  if opens then (some ⟨path, []⟩, w.setFile path []) else (none, w)

def fwrite (bs : List Byte) : Write Unit := do
  match ← get with
  | some s => set (some { s with written := s.written ++ bs })
  | none => throw .nullStream

/-- The first `n` bytes written to an open stream have reached its file. -/
def sync (fp : Option Stream) (n : Nat) (w : World) : World :=
  match fp with
  | some s => w.setFile s.path (s.written.take n)
  | none => w

def close (fp : Option Stream) (w : World) : Except Fault World :=
  match fp with
  | some s => .ok (w.setFile s.path s.written)
  | none => .error .nullStream

def element {m : Type → Type} [Monad m] [MonadExcept Fault m] {α : Type} (xs : List α) (i : Nat) : m α :=
  match xs[i]? with
  | some x => pure x
  | none => throw (.outOfBounds i)

def count (body : Nat → Write Unit) : Nat → Write Unit
  | 0 => pure ()
  | n + 1 => do
    count body n
    body n

theorem element_ok {α : Type} {xs : List α} {i : Nat} (h : i < xs.length) :
    (element xs i : Except Fault α) = .ok xs[i] := by
  unfold element
  rw [List.getElem?_eq_getElem h]
  rfl

/-! ## Files -/

section
variable (w : World) (p q : String) (as bs : List Byte)

@[simp] theorem files_setFile_self : (w.setFile p bs).files p = some bs := Function.update_self ..

theorem files_setFile_of_ne {p q : String} (h : q ≠ p) : (w.setFile p bs).files q = w.files q :=
  Function.update_of_ne h ..

@[simp] theorem setFile_setFile : (w.setFile p as).setFile p bs = w.setFile p bs := by
  simp [World.setFile]

@[simp] theorem stderr_setFile : (w.setFile p bs).stderr = w.stderr := rfl

@[simp] theorem files_report (msgs : List String) : (w.report msgs).files = w.files := rfl

theorem setFile_report (msgs : List String) : (w.report msgs).setFile p bs = (w.setFile p bs).report msgs := rfl

theorem report_nil : w.report [] = w := by simp [World.report]

theorem print_nil : w.print [] = w := by simp [World.print]

theorem print_print : (w.print as).print bs = w.print (as ++ bs) := by simp [World.print, List.append_assoc]

theorem report_ne_setFile (msg : String) : w.report [msg] ≠ w.setFile p bs := by
  intro h
  have := congrArg (·.stderr.length) h
  simp [World.report] at this

end

/-! ## What a writer appends -/

/-- On an open stream `m` appends exactly `bs`. -/
def Appends (m : Write Unit) (bs : List Byte) : Prop :=
  ∀ s : Stream, m.run (some s) = .ok ((), some { s with written := s.written ++ bs })

section
variable {m m' : Write Unit} {as bs : List Byte}

theorem Appends.pure : Appends (pure ()) [] := fun s => by
  simp only [StateT.run_pure, List.append_nil]; rfl

theorem appends_fwrite (bs : List Byte) : Appends (fwrite bs) bs := fun _ => rfl

theorem Appends.seq (h : Appends m as) (h' : Appends m' bs) : Appends (m >>= fun _ => m') (as ++ bs) := by
  intro s
  rw [StateT.run_bind, h s]
  show m'.run _ = _
  rw [h' _, List.append_assoc]

theorem Appends.last (h : Appends m bs) : Appends m [bs].flatten := by simpa using h

theorem Appends.cons {bss : List (List Byte)} (h : Appends m as) (h' : Appends m' bss.flatten) :
    Appends (m >>= fun _ => m') (as :: bss).flatten := h.seq h'

theorem Appends.count {body : Nat → Write Unit} {f : Nat → List Byte} :
    ∀ {n : Nat}, (∀ i < n, Appends (body i) (f i)) → Appends (count body n) ((List.range n).flatMap f)
  | 0, _ => Appends.pure
  | n + 1, h => by
    rw [List.range_succ, List.flatMap_append]
    refine (Appends.count fun i hi => h i (Nat.lt_succ_of_lt hi)).seq ?_
    simpa using h n (Nat.lt_succ_self n)

theorem Appends.each {α : Type} {write : α → Write Unit} {bytes : α → List Byte} (xs : List α)
    (h : ∀ x, Appends (write x) (bytes x)) :
    Appends (Stdio.count (fun i => element xs i >>= write) xs.length) (xs.flatMap bytes) := by
  have hf : ∀ i < xs.length, Appends (element xs i >>= write) ((xs[i]?.map bytes).getD []) := by
    intro i hi s
    simp only [element, List.getElem?_eq_getElem hi, Option.map_some, Option.getD_some]
    exact h xs[i] s
  have hx : (List.range xs.length).flatMap (fun i => (xs[i]?.map bytes).getD []) = xs.flatMap bytes := by
    rw [List.flatMap_def, List.flatMap_def]
    congr 1
    apply List.ext_getElem <;> simp +contextual
  exact hx ▸ Appends.count hf

end

/-! ## What a program prints -/

/-- The files decide whether `m` fails and what it prints and reports, and `m`
does nothing else. -/
def Outputs (files : String → Option (List Byte)) (m : World → Except Fault World) : Prop :=
  (∃ e, ∀ w, w.files = files → m w = .error e) ∨
    ∃ out msgs, ∀ w, w.files = files → m w = .ok ((w.print out).report msgs)

section
variable {files : String → Option (List Byte)} {m m' : World → Except Fault World}

theorem Outputs.congr (h : Outputs files m') (e : ∀ w, w.files = files → m w = m' w) : Outputs files m :=
  h.imp (fun ⟨f, hf⟩ => ⟨f, fun w hw => (e w hw).trans (hf w hw)⟩)
    fun ⟨out, msgs, ho⟩ => ⟨out, msgs, fun w hw => (e w hw).trans (ho w hw)⟩

theorem Outputs.bind (h : Outputs files m) (h' : Outputs files m') : Outputs files fun w => m w >>= m' := by
  rcases h with ⟨e, h⟩ | ⟨out, msgs, h⟩
  · exact .inl ⟨e, fun w hw => congrArg (· >>= m') (h w hw)⟩
  · rcases h' with ⟨e, h'⟩ | ⟨out', msgs', h'⟩
    · exact .inl ⟨e, fun w hw => (congrArg (· >>= m') (h w hw)).trans (h' _ hw)⟩
    · refine .inr ⟨out ++ out', msgs ++ msgs', fun w hw => (congrArg (· >>= m') (h w hw)).trans ?_⟩
      refine (h' ((w.print out).report msgs) hw).trans (congrArg Except.ok ?_)
      simp [World.print, World.report]

theorem outputs_pure : Outputs files pure := .inr ⟨[], [], fun w _ => by rw [print_nil, report_nil]; rfl⟩

theorem outputs_report (msgs : List String) : Outputs files fun w => .ok (w.report msgs) :=
  .inr ⟨[], msgs, fun w _ => by rw [print_nil]⟩

theorem outputs_print (bytes : Except Fault (List Byte)) : Outputs files fun w => w.print <$> bytes :=
  match bytes with
  | .error e => .inl ⟨e, fun _ _ => rfl⟩
  | .ok out => .inr ⟨out, [], fun w _ => by rw [report_nil]; rfl⟩

theorem Outputs.guard (h : Outputs files m) (p : Bool) : Outputs files fun w => if p then m w else pure w :=
  match p with
  | true => h
  | false => outputs_pure

end

end Stdio
