import Mathlib

/-!
# Counting along a history

A history is a list of observations with the newest first. `countSince reset count h` is the
number of observations that pass `count` since the last one that passed `reset`. `Always P h`
says that `P` has held at every moment of the history, a moment being a suffix of the list.
-/

namespace Base

variable {α : Type} {reset count : α → Bool} {P : List α → Prop} {a : α} {h l : List α}

/-- How many observations pass `count` since the last one that passed `reset`. -/
def countSince (reset count : α → Bool) (h : List α) : Nat :=
  (h.takeWhile fun a => !reset a).countP count

/-- A reset starts the count again. -/
theorem countSince_reset (ha : reset a = true) (h : List α) :
    countSince reset count (a :: h) = 0 := by
  simp [countSince, ha]

theorem countSince_cons (ha : reset a = false) (h : List α) :
    countSince reset count (a :: h) = countSince reset count h + if count a then 1 else 0 := by
  simp [countSince, ha, List.countP_cons]

/-- Observations that do not reset add to the count. -/
theorem countSince_append_count (hl : ∀ a ∈ l, reset a = false) (h : List α) :
    countSince reset count (l ++ h) = countSince reset count h + l.countP count := by
  induction l with
  | nil => rfl
  | cons a l ih =>
    rw [List.cons_append, countSince_cons (hl a (List.mem_cons_self ..)),
      ih fun b hb => hl b (List.mem_cons_of_mem _ hb), List.countP_cons, Nat.add_assoc]

/-- Observations that neither reset nor count make no difference. -/
theorem countSince_append (hl : ∀ a ∈ l, reset a = false ∧ count a = false) (h : List α) :
    countSince reset count (l ++ h) = countSince reset count h := by
  have hnone : l.countP count = 0 := List.countP_eq_zero.mpr fun a ha => by simp [(hl a ha).2]
  rw [countSince_append_count (fun a ha => (hl a ha).1), hnone, Nat.add_zero]

/-- `P` has held at every moment. -/
def Always (P : List α → Prop) (h : List α) : Prop := ∀ h', h' <:+ h → P h'

theorem Always.nil (h0 : P []) : Always P [] := by
  intro h' hs
  rw [List.suffix_nil.mp hs]
  exact h0

theorem Always.now (hP : Always P h) : P h := hP h (List.suffix_refl h)

theorem Always.cons (hP : Always P h) (ha : P (a :: h)) : Always P (a :: h) := by
  intro h' hs
  rcases List.suffix_cons_iff.mp hs with rfl | hs
  · exact ha
  · exact hP h' hs

/-- Several more observations, none of which can make `P` fail. -/
theorem Always.append (hP : Always P h) (hl : ∀ a ∈ l, ∀ h', P h' → P (a :: h')) :
    Always P (l ++ h) := by
  induction l with
  | nil => exact hP
  | cons a l ih =>
    have hrest := ih fun b hb => hl b (List.mem_cons_of_mem _ hb)
    exact hrest.cons (hl a (List.mem_cons_self ..) _ hrest.now)

end Base
