import Mathlib

/-!
# Tables of slots

A table is a list of slots. A slot is free, or holds a value under a key. Entries are added in any
free slot or at the end, and removed by freeing their slot, so the order of the entries says
nothing. While no key is in two slots the table is a finite map: `find` answers what is stored
under a key wherever that is, and `find_put` and `find_clear` say what one change does to it.
-/

namespace Base

/-- A list of slots, each free or with a key and a value. -/
abbrev SlotTable (κ ν : Type) := List (Option (κ × ν))

namespace SlotTable

variable {κ ν : Type}

/-- No key is in two slots. -/
def Distinct (t : SlotTable κ ν) : Prop :=
  ∀ (i j : Nat) (k : κ) (v w : ν), t[i]? = some (some (k, v)) → t[j]? = some (some (k, w)) → i = j

/-- Set a slot, or add one behind the last. -/
def put (t : SlotTable κ ν) (i : Nat) (x : Option (κ × ν)) : SlotTable κ ν :=
  if i < t.length then t.set i x else t ++ [x]

/-- The slot is free. The one behind the last slot is. -/
def Free (t : SlotTable κ ν) (i : Nat) : Prop := t[i]? = some none ∨ i = t.length

section Lookup

variable [DecidableEq κ]

/-- The slot holds this key. -/
def keyed (k : κ) : Option (κ × ν) → Bool
  | none => false
  | some e => decide (e.1 = k)

/-- The value under the key. -/
def find (t : SlotTable κ ν) (k : κ) : Option ν := (t.find? (keyed k)).join.map Prod.snd

end Lookup

section Laws

variable {t : SlotTable κ ν} {i j : Nat} {k k' : κ} {v w : ν} {x : Option (κ × ν)}

theorem getElem?_put (hi : i ≤ t.length) (x : Option (κ × ν)) (j : Nat) :
    (t.put i x)[j]? = if j = i then some x else t[j]? := by
  unfold put
  by_cases hlt : i < t.length
  · rw [if_pos hlt, List.getElem?_set]
    by_cases he : i = j
    · subst he
      rw [if_pos rfl, if_pos hlt, if_pos rfl]
    · rw [if_neg he, if_neg fun h => he h.symm]
  · obtain rfl : i = t.length := by omega
    rw [if_neg hlt]
    by_cases he : j = t.length
    · subst he
      rw [if_pos rfl, List.getElem?_append_right (Nat.le_refl _), Nat.sub_self]
      rfl
    · rw [if_neg he]
      by_cases hj : j < t.length
      · exact List.getElem?_append_left hj
      · have hlen : (t ++ [x]).length = t.length + 1 := List.length_append
        rw [List.getElem?_eq_none (by omega : t.length ≤ j),
          List.getElem?_eq_none (by omega : (t ++ [x]).length ≤ j)]

theorem Free.le (h : t.Free i) : i ≤ t.length := by
  rcases h with h | h
  · exact Nat.le_of_lt (List.getElem?_eq_some_iff.mp h).1
  · exact Nat.le_of_eq h

/-- A free slot holds no entry. -/
theorem Free.not_entry (h : t.Free i) (e : κ × ν) : t[i]? ≠ some (some e) := by
  rcases h with h | rfl
  · rw [h]
    exact fun he => (by cases he)
  · rw [List.getElem?_eq_none (Nat.le_refl _)]
    exact fun he => (by cases he)

/-- Filling or freeing one slot leaves the keys distinct, if the new one is in no other slot. -/
theorem Distinct.put (h : t.Distinct) (hi : i ≤ t.length)
    (hnew : ∀ k v, x = some (k, v) → ∀ (j : Nat) (w : ν), j ≠ i → t[j]? ≠ some (some (k, w))) :
    (t.put i x).Distinct := by
  intro a b k v w ha hb
  rw [getElem?_put hi] at ha hb
  by_cases hai : a = i
  · by_cases hbi : b = i
    · exact hai.trans hbi.symm
    · rw [if_pos hai] at ha
      rw [if_neg hbi] at hb
      exact absurd hb (hnew k v (Option.some.inj ha) b w hbi)
  · by_cases hbi : b = i
    · rw [if_neg hai] at ha
      rw [if_pos hbi] at hb
      exact absurd ha (hnew k w (Option.some.inj hb) a v hai)
    · rw [if_neg hai] at ha
      rw [if_neg hbi] at hb
      exact h a b k v w ha hb

/-- Freeing a slot keeps the keys distinct. -/
theorem Distinct.clear (h : t.Distinct) (hi : i ≤ t.length) : (t.put i none).Distinct :=
  h.put hi fun _ _ he => (by cases he)

variable [DecidableEq κ]

theorem keyed_some {e : κ × ν} : keyed k (some e) = true ↔ e.1 = k := decide_eq_true_iff

/-- In a table with distinct keys `find` answers what is stored, wherever it is. -/
theorem find_eq_some_iff (h : t.Distinct) :
    t.find k = some v ↔ ∃ i : Nat, t[i]? = some (some (k, v)) := by
  have hget : ∀ e, t.find? (keyed k) = some (some e) →
      e.1 = k ∧ ∃ i : Nat, t[i]? = some (some e) := by
    intro e he
    exact ⟨keyed_some.mp (List.find?_some he),
      List.mem_iff_getElem?.mp (List.mem_of_find?_eq_some he)⟩
  unfold find
  constructor
  · intro hfind
    cases hf : t.find? (keyed k) with
    | none =>
      rw [hf] at hfind
      cases hfind
    | some o =>
      cases o with
      | none =>
        rw [hf] at hfind
        cases hfind
      | some e =>
        rw [hf] at hfind
        obtain ⟨rfl, i, hi⟩ := hget e hf
        obtain rfl : e.2 = v := Option.some.inj hfind
        exact ⟨i, hi⟩
  · rintro ⟨i, hi⟩
    have hmem : some (k, v) ∈ t := List.mem_of_getElem? hi
    cases hf : t.find? (keyed k) with
    | none => exact absurd (keyed_some.mpr rfl) (List.find?_eq_none.mp hf _ hmem)
    | some o =>
      cases o with
      | none =>
        have hkeyed := List.find?_some hf
        cases hkeyed
      | some e =>
        obtain ⟨rfl, j, hj⟩ := hget e hf
        obtain rfl := h i j e.1 v e.2 hi hj
        rw [hi] at hj
        have he : (e.1, v) = e := Option.some.inj (Option.some.inj hj)
        rw [← he]
        rfl

theorem find_eq_none_iff (h : t.Distinct) :
    t.find k = none ↔ ∀ (i : Nat) (v : ν), t[i]? ≠ some (some (k, v)) := by
  constructor
  · intro hnone i v hi
    have hsome := (find_eq_some_iff h).mpr ⟨i, hi⟩
    rw [hnone] at hsome
    cases hsome
  · intro hall
    cases hf : t.find k with
    | none => rfl
    | some v =>
      obtain ⟨i, hi⟩ := (find_eq_some_iff h).mp hf
      exact absurd hi (hall i v)

/-- Two tables with distinct keys are the same map when they hold the same entries. -/
theorem find_congr {t' : SlotTable κ ν} (h : t.Distinct) (h' : t'.Distinct)
    (hsame : ∀ v, (∃ i : Nat, t'[i]? = some (some (k, v))) ↔
      ∃ i : Nat, t[i]? = some (some (k, v))) :
    t'.find k = t.find k := by
  cases hf : t.find k with
  | none =>
    refine (find_eq_none_iff h').mpr fun i v hi => ?_
    obtain ⟨j, hj⟩ := (hsame v).mp ⟨i, hi⟩
    exact (find_eq_none_iff h).mp hf j v hj
  | some v => exact (find_eq_some_iff h').mpr ((hsame v).mpr ((find_eq_some_iff h).mp hf))

/-- A new key in a free slot. -/
theorem Distinct.add (h : t.Distinct) (hfree : t.Free i) (hnew : t.find k = none) (v : ν) :
    (t.put i (some (k, v))).Distinct := by
  refine h.put hfree.le fun k' v' he j w _ hj => ?_
  obtain rfl : k = k' := congrArg Prod.fst (Option.some.inj he)
  exact (find_eq_none_iff h).mp hnew j w hj

theorem find_put (h : t.Distinct) (hfree : t.Free i) (hnew : t.find k = none) (v : ν) (k' : κ) :
    (t.put i (some (k, v))).find k' = if k' = k then some v else t.find k' := by
  have hd := h.add hfree hnew v
  by_cases he : k' = k
  · subst he
    rw [if_pos rfl]
    exact (find_eq_some_iff hd).mpr ⟨i, by rw [getElem?_put hfree.le, if_pos rfl]⟩
  · rw [if_neg he]
    refine find_congr h hd fun w => exists_congr fun j => ?_
    rw [getElem?_put hfree.le]
    by_cases hj : j = i
    · subst hj
      rw [if_pos rfl]
      refine ⟨fun hx => ?_, fun hx => absurd hx (hfree.not_entry _)⟩
      exact absurd (congrArg Prod.fst (Option.some.inj (Option.some.inj hx))).symm he
    · rw [if_neg hj]

theorem find_clear (h : t.Distinct) (hi : t[i]? = some (some (k, v))) (k' : κ) :
    (t.put i none).find k' = if k' = k then none else t.find k' := by
  have hle : i ≤ t.length := Nat.le_of_lt (List.getElem?_eq_some_iff.mp hi).1
  have hd := h.clear hle
  by_cases he : k' = k
  · subst he
    rw [if_pos rfl]
    refine (find_eq_none_iff hd).mpr fun j w hj => ?_
    rw [getElem?_put hle] at hj
    by_cases hji : j = i
    · rw [if_pos hji] at hj
      cases hj
    · rw [if_neg hji] at hj
      exact hji (h j i k' w v hj hi)
  · rw [if_neg he]
    refine find_congr h hd fun w => exists_congr fun j => ?_
    rw [getElem?_put hle]
    by_cases hj : j = i
    · subst hj
      rw [if_pos rfl, hi]
      refine ⟨fun hx => (by cases hx), fun hx => ?_⟩
      exact absurd (congrArg Prod.fst (Option.some.inj (Option.some.inj hx))).symm he
    · rw [if_neg hj]

end Laws

end SlotTable

end Base
