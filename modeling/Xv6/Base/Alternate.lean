import Mathlib

/-!
# Every other entry of a list

`evens l` are the entries at the even places and `odds l` those at the odd places. They are what
a loop over an array meets and misses when its body removes the entry at the index and the index
then moves on: the entry that slid into the freed place is passed over.
-/

namespace Base

variable {α : Type}

/-- The entries at places 0, 2, 4, … -/
def evens : List α → List α
  | [] => []
  | [x] => [x]
  | x :: _ :: l => x :: evens l

/-- The entries at places 1, 3, 5, … -/
def odds : List α → List α
  | [] => []
  | [_] => []
  | _ :: y :: l => y :: odds l

theorem evens_sublist (l : List α) : (evens l).Sublist l := by
  induction l using evens.induct with
  | case1 | case2 x => exact .refl _
  | case3 x y l ih => exact (ih.cons y).cons_cons x

/-- Nothing is at an odd place exactly when the list has at most one entry. -/
theorem odds_eq_nil {l : List α} : odds l = [] ↔ l.length ≤ 1 := by
  rcases l with _ | ⟨x, _ | ⟨y, l⟩⟩ <;> simp [odds]

/-- A list of at most one entry is all at even places. -/
theorem evens_eq_self {l : List α} (h : l.length ≤ 1) : evens l = l := by
  rcases l with _ | ⟨x, _ | ⟨y, l⟩⟩
  · rfl
  · rfl
  · simp at h

/-- In a list without repetition the odd places are what is left without the even ones. -/
theorem odds_eq_filter [DecidableEq α] {l : List α} (h : l.Nodup) :
    odds l = l.filter (· ∉ evens l) := by
  induction l using evens.induct with
  | case1 => rfl
  | case2 x => simp [odds, evens]
  | case3 x y l ih =>
    obtain ⟨hx, hy, hl⟩ : x ∉ y :: l ∧ y ∉ l ∧ l.Nodup := by simpa using h
    have hye : y ∉ evens l := fun hmem => hy ((evens_sublist l).subset hmem)
    have hyx : y ≠ x := fun he => hx (he ▸ List.mem_cons_self ..)
    have hrest : l.filter (· ∉ x :: evens l) = l.filter (· ∉ evens l) :=
      List.filter_congr fun z hz => by
        have hzx : z ≠ x := fun he => hx (he ▸ List.mem_cons_of_mem _ hz)
        simp [hzx]
    rw [odds, evens, List.filter_cons_of_neg (by simp), List.filter_cons_of_pos (by simp [hyx, hye]),
      hrest, ih hl]

end Base
