import Mathlib.Data.List.Basic
import Catapult.Lib.Stdio

/-!
# Segments of an array: swapping and interleaving

Two runs of equal length are exchanged element by element; what stands between
and around them stays. `Shuffle as bs cs` says that `cs` consists of `as` and
`bs`, each in its own order.
-/

namespace Segments

open Cursor Stdio

section
variable {α : Type}

/-! ## Two runs of equal length -/

def swap (xs : List α) (i j : Nat) : Except Fault (List α) := do
  let x ← element xs i
  let y ← element xs j
  return (xs.set i y).set j x

def swapRuns (i j : Nat) (xs : List α) : Nat → Except Fault (List α)
  | 0 => return xs
  | n + 1 => do
    let xs ← swapRuns i j xs n
    swap xs (i + n) (j + n)

theorem element_append (pre : List α) (x : α) (post : List α) :
    (element (pre ++ x :: post) pre.length : Except Fault α) = .ok x := by
  rw [element_ok (by simp), List.getElem_append_right (Nat.le_refl _)]
  simp

theorem swap_append (pre mid post : List α) (x y : α) :
    swap (pre ++ x :: (mid ++ y :: post)) pre.length (pre.length + (mid.length + 1)) =
      .ok (pre ++ y :: (mid ++ x :: post)) := by
  have hx := element_append pre x (mid ++ y :: post)
  have hy := element_append (pre ++ x :: mid) y post
  simp only [List.append_assoc, List.cons_append, List.length_append, List.length_cons] at hy
  unfold swap
  simp only [hx, hy, bind, Except.bind, pure, Except.pure]
  rw [List.set_append_right _ _ (Nat.le_refl _), List.set_append_right _ _ (by omega)]
  simp

theorem swapRuns_append : ∀ (n : Nat) (pre as mid bs post : List α), as.length = n → bs.length = n →
    swapRuns pre.length (pre.length + (n + mid.length)) (pre ++ (as ++ (mid ++ (bs ++ post)))) n =
      .ok (pre ++ (bs ++ (mid ++ (as ++ post)))) := by
  intro n
  induction n with
  | zero =>
    intro pre as mid bs post ha hb
    rw [List.eq_nil_of_length_eq_zero ha, List.eq_nil_of_length_eq_zero hb]
    rfl
  | succ n ih =>
    intro pre as mid bs post ha hb
    obtain ⟨as, a, rfl⟩ := List.eq_nil_or_concat as |>.resolve_left (by rintro rfl; cases ha)
    obtain ⟨bs, b, rfl⟩ := List.eq_nil_or_concat bs |>.resolve_left (by rintro rfl; cases hb)
    simp only [List.concat_eq_append, List.length_append, List.length_singleton, Nat.add_right_cancel_iff] at ha hb
    -- the last elements of the two runs are swapped last
    have h := ih pre as (a :: mid) bs (b :: post) ha hb
    have hl := swap_append (pre ++ bs) (mid ++ as) post a b
    simp only [List.length_cons, List.length_append, ha, hb] at h hl
    simp only [List.concat_eq_append, List.append_assoc, List.cons_append, List.nil_append, swapRuns] at h hl ⊢
    rw [show pre.length + (n + 1 + mid.length) = pre.length + (n + (mid.length + 1)) by omega, h]
    show swap _ _ _ = _
    rw [show pre.length + (n + (mid.length + 1)) + n = pre.length + n + (mid.length + n + 1) by omega, hl]

/-! ## Interleaving -/

inductive Shuffle : List α → List α → List α → Prop
  | nil : Shuffle [] [] []
  | left (x : α) {as bs cs : List α} (h : Shuffle as bs cs) : Shuffle (x :: as) bs (x :: cs)
  | right (x : α) {as bs cs : List α} (h : Shuffle as bs cs) : Shuffle as (x :: bs) (x :: cs)

namespace Shuffle

variable {as bs cs as' bs' cs' : List α}

theorem append (h : Shuffle as bs cs) (h' : Shuffle as' bs' cs') :
    Shuffle (as ++ as') (bs ++ bs') (cs ++ cs') := by
  induction h with
  | nil => exact h'
  | left x _ ih => exact .left x ih
  | right x _ ih => exact .right x ih

theorem all_left : ∀ as : List α, Shuffle as [] as
  | [] => .nil
  | x :: as => .left x (all_left as)

theorem all_right : ∀ bs : List α, Shuffle [] bs bs
  | [] => .nil
  | x :: bs => .right x (all_right bs)

theorem perm (h : Shuffle as bs cs) : (as ++ bs).Perm cs := by
  induction h with
  | nil => exact .refl _
  | left x _ ih => exact ih.cons x
  | right x _ ih => exact List.perm_middle.trans (ih.cons x)

end Shuffle

end

end Segments
