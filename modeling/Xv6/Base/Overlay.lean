import Mathlib

/-!
# Lists of writes

A memory is a function from places to values, and `overlay f l` is the memory `f` after the writes
of `l`, the first one first. A place that is not written keeps its value. The value of a place that
is written does not depend on the memory before.
-/

namespace Base

open Function

variable {α β : Type*} [DecidableEq α] {f g : α → β} {l : List (α × β)} {a : α}

/-- The memory after a list of writes. -/
def overlay (f : α → β) (l : List (α × β)) : α → β :=
  l.foldl (fun f w => update f w.1 w.2) f

theorem overlay_cons (f : α → β) (w : α × β) (l : List (α × β)) :
    overlay f (w :: l) = overlay (update f w.1 w.2) l := rfl

theorem overlay_append (f : α → β) (l m : List (α × β)) :
    overlay f (l ++ m) = overlay (overlay f l) m := List.foldl_append

theorem overlay_of_not_mem (h : ∀ w ∈ l, w.1 ≠ a) : overlay f l a = f a := by
  induction l generalizing f with
  | nil => rfl
  | cons w l ih =>
    rw [overlay_cons, ih fun v hv => h v (List.mem_cons_of_mem _ hv)]
    exact update_of_ne (h w (List.mem_cons_self ..)).symm ..

/-- A place that only the first write can reach. -/
theorem head_of_mem {w : α × β} (h : ∃ v ∈ w :: l, v.1 = a) (hnot : ∀ v ∈ l, v.1 ≠ a) : w.1 = a := by
  obtain ⟨v, hv, he⟩ := h
  rcases List.mem_cons.mp hv with rfl | hv
  · exact he
  · exact absurd he (hnot v hv)

theorem overlay_of_mem (h : ∃ w ∈ l, w.1 = a) : overlay f l a = overlay g l a := by
  induction l generalizing f g with
  | nil =>
    obtain ⟨w, hw, -⟩ := h
    cases hw
  | cons w l ih =>
    rw [overlay_cons, overlay_cons]
    by_cases hlater : ∃ v ∈ l, v.1 = a
    · exact ih hlater
    · have hnot : ∀ v ∈ l, v.1 ≠ a := fun v hv he => hlater ⟨v, hv, he⟩
      have hfirst := head_of_mem h hnot
      rw [overlay_of_not_mem hnot, overlay_of_not_mem hnot, ← hfirst, update_self,
        update_self]

/-- A place that is written, always with the same value, holds it. -/
theorem overlay_eq {b : β} (h : ∃ w ∈ l, w.1 = a) (hall : ∀ w ∈ l, w.1 = a → w.2 = b) :
    overlay f l a = b := by
  induction l generalizing f with
  | nil =>
    obtain ⟨w, hw, -⟩ := h
    cases hw
  | cons w l ih =>
    rw [overlay_cons]
    by_cases hlater : ∃ v ∈ l, v.1 = a
    · exact ih hlater fun v hv => hall v (List.mem_cons_of_mem _ hv)
    · have hnot : ∀ v ∈ l, v.1 ≠ a := fun v hv he => hlater ⟨v, hv, he⟩
      have hfirst := head_of_mem h hnot
      rw [overlay_of_not_mem hnot, ← hfirst, update_self]
      exact hall w (List.mem_cons_self ..) hfirst

end Base
