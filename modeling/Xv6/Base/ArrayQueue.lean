import Xv6.Base.Fault

/-!
# A queue kept at the front of an array of pointers

The C idiom this module is about: a fixed array of pointers and a counter, with the live entries
in the cells below the counter. Appending writes at the counter and advances it. Removing scans
for an entry, moves every later entry one cell to the left, and clears the last cell.

`ArrayQueue` is that pair, and its operations are the C loops, bounds and null pointers included.
`ofList cap l` is the array of `cap` cells that holds the list `l` at its front and nulls behind
it. The laws say what the loops compute on such arrays: the scan is the list's own search
(`findIdx_ofList`), appending is appending (`push_ofList`) while there is room, and removal is
`List.eraseP` (`removeFirst_ofList`). So a client reads a queue as a list and never looks at a
cell again.
-/

namespace Base

/-- An array of pointers, and how many of its cells are in use. -/
structure ArrayQueue (α : Type) where
  cells : List (Option α)
  size : Nat
deriving Repr

namespace ArrayQueue

variable {α : Type} {l : List α} {cap : Nat}

/-- Follow the pointer in cell `i`. -/
def deref (a : ArrayQueue α) (i : Nat) : Except Fault α :=
  match a.cells[i]? with
  | none => .error .bounds
  | some none => .error (.null "array cell")
  | some (some x) => .ok x

/-- The scan from cell `i`, with `m` cells to go: the first cell whose entry passes `f`. -/
def findFrom (a : ArrayQueue α) (f : α → Bool) : Nat → Nat → Except Fault (Option Nat)
  | 0, _ => .ok none
  | m + 1, i => do
    let x ← a.deref i
    if f x then .ok (some i) else a.findFrom f m (i + 1)

/-- The scan over the cells in use. -/
def findIdx (a : ArrayQueue α) (f : α → Bool) : Except Fault (Option Nat) :=
  a.findFrom f a.size 0

/-- Write at the counter and advance it. -/
def push (a : ArrayQueue α) (x : α) : Except Fault (ArrayQueue α) :=
  if a.size < a.cells.length then
    .ok ⟨a.cells.set a.size (some x), a.size + 1⟩
  else .error .bounds

/-- The shift loop from cell `j`, with `m` moves to go: each cell takes its right neighbour. -/
def shiftFrom (cells : List (Option α)) : Nat → Nat → Except Fault (List (Option α))
  | 0, _ => .ok cells
  | m + 1, j =>
    match cells[j + 1]? with
    | none => .error .bounds
    | some x => shiftFrom (cells.set j x) m (j + 1)

/-- Remove the entry in cell `i`: shift, step the counter back, clear the freed cell. -/
def removeAt (a : ArrayQueue α) (i : Nat) : Except Fault (ArrayQueue α) := do
  let cells ← shiftFrom a.cells (a.size - 1 - i) i
  if a.size - 1 < cells.length then
    .ok ⟨cells.set (a.size - 1) none, a.size - 1⟩
  else .error .bounds

/-- Remove the first entry that passes `f`, if there is one. -/
def removeFirst (a : ArrayQueue α) (f : α → Bool) : Except Fault (ArrayQueue α) := do
  match ← a.findIdx f with
  | none => .ok a
  | some i => a.removeAt i

/-- The entries in use, front first. -/
def toList (a : ArrayQueue α) : List α := (a.cells.take a.size).filterMap id

/-- The array of `cap` cells that holds `l` at its front. -/
def ofList (cap : Nat) (l : List α) : ArrayQueue α :=
  ⟨l.map some ++ List.replicate (cap - l.length) none, l.length⟩

@[simp] theorem ofList_size (cap : Nat) (l : List α) : (ofList cap l).size = l.length := rfl

@[simp] theorem toList_ofList (cap : Nat) (l : List α) : (ofList cap l).toList = l := by
  have htake : (ofList cap l).cells.take (ofList cap l).size = l.map some := by
    simp only [ofList]
    rw [List.take_append_of_le_length (Nat.le_of_eq (List.length_map ..).symm),
      List.take_of_length_le (Nat.le_of_eq (List.length_map ..))]
  rw [toList, htake, List.filterMap_map]
  simp only [Function.comp_def, id_eq, List.filterMap_some]

/-- A cell in use holds the list's entry at the same place. -/
theorem deref_ofList (cap : Nat) (pre suf : List α) (x : α) :
    (ofList cap (pre ++ x :: suf)).deref pre.length = .ok x := by
  have hcell : (ofList cap (pre ++ x :: suf)).cells[pre.length]? = some (some x) := by
    simp only [ofList, List.map_append, List.map_cons, List.append_assoc]
    rw [List.getElem?_append_right (Nat.le_of_eq (List.length_map ..))]
    simp only [List.length_map, Nat.sub_self, List.cons_append, List.getElem?_cons_zero]
  simp only [deref, hcell]

/-- The scan from the end of a prefix searches the rest of the list. -/
theorem findFrom_ofList (cap : Nat) (f : α → Bool) (pre suf : List α) :
    (ofList cap (pre ++ suf)).findFrom f suf.length pre.length =
      .ok ((suf.findIdx? f).map (pre.length + ·)) := by
  induction suf generalizing pre with
  | nil => rfl
  | cons x suf ih =>
    rw [List.length_cons, findFrom, deref_ofList, List.findIdx?_cons]
    cases hf : f x with
    | true => simp [hf, bind, Except.bind]
    | false =>
      have hrest := ih (pre ++ [x])
      rw [List.append_assoc, List.singleton_append, List.length_append, List.length_singleton]
        at hrest
      simp only [bind, Except.bind, hf, Bool.false_eq_true, if_false, hrest, Option.map_map,
        Function.comp_def]
      congr 2
      funext i
      omega

/-- On the array of a list, the scan is the list's search. -/
theorem findIdx_ofList (cap : Nat) (f : α → Bool) (l : List α) :
    (ofList cap l).findIdx f = .ok (l.findIdx? f) := by
  have h := findFrom_ofList cap f [] l
  simp only [List.nil_append, List.length_nil, Nat.zero_add, Option.map_id'] at h
  exact h

theorem deref_getElem (cap : Nat) (l : List α) {i : Nat} (hi : i < l.length) :
    (ofList cap l).deref i = .ok l[i] := by
  have hsplit : l = l.take i ++ l[i] :: l.drop (i + 1) := by
    rw [List.getElem_cons_drop, List.take_append_drop]
  have hread := deref_ofList cap (l.take i) (l.drop (i + 1)) l[i]
  rw [← hsplit, List.length_take, Nat.min_eq_left (Nat.le_of_lt hi)] at hread
  exact hread

/-- The cell the scan stops at holds the entry the list's search finds. -/
theorem deref_of_findIdx (cap : Nat) {f : α → Bool} {i : Nat} (h : l.findIdx? f = some i) :
    ∃ x, l.find? f = some x ∧ (ofList cap l).deref i = .ok x := by
  obtain ⟨hi, hfi, hbefore⟩ := List.findIdx?_eq_some_iff_getElem.mp h
  have hsplit : l = l.take i ++ l[i] :: l.drop (i + 1) := by
    rw [List.getElem_cons_drop, List.take_append_drop]
  refine ⟨l[i], ?_, deref_getElem cap l hi⟩
  refine List.find?_eq_some_iff_append.mpr ⟨hfi, _, _, hsplit, fun x hx => ?_⟩
  obtain ⟨j, hj, rfl⟩ := List.mem_iff_getElem.mp hx
  rw [List.length_take] at hj
  rw [List.getElem_take]
  simpa using hbefore j (by omega)

/-- While there is room, appending to the array appends to the list. -/
theorem push_ofList (h : l.length < cap) (x : α) :
    (ofList cap l).push x = .ok (ofList cap (l ++ [x])) := by
  have hlen : (ofList cap l).cells.length = cap := by
    simp only [ofList, List.length_append, List.length_map, List.length_replicate]
    omega
  rw [push, if_pos (by rw [hlen]; exact h)]
  obtain ⟨d, hd⟩ : ∃ d, cap - l.length = d + 1 := ⟨cap - l.length - 1, by omega⟩
  have hd' : cap - (l.length + 1) = d := by omega
  simp only [ofList, List.length_append, List.length_singleton, hd, hd', List.map_append,
    List.map_cons, List.map_nil]
  rw [List.set_append_right _ _ (Nat.le_of_eq (List.length_map ..))]
  simp [List.replicate_succ]

/-- A full array takes no further entry. -/
theorem push_full (h : cap ≤ l.length) (x : α) :
    (ofList cap l).push x = .error .bounds := by
  have hlen : (ofList cap l).cells.length = l.length := by
    simp only [ofList, List.length_append, List.length_map, List.length_replicate]
    omega
  rw [push, if_neg (by rw [hlen]; exact Nat.lt_irrefl _)]

/-- The shift loop drops the entry it starts at and leaves the last one twice. -/
theorem shiftFrom_eq (pre : List (Option α)) (x : Option α) (suf post : List (Option α)) :
    shiftFrom (pre ++ x :: suf ++ post) suf.length pre.length =
      .ok (pre ++ suf ++ [(x :: suf).getLast (List.cons_ne_nil _ _)] ++ post) := by
  induction suf generalizing pre x with
  | nil => simp [shiftFrom]
  | cons y suf ih =>
    have hread : (pre ++ x :: (y :: suf) ++ post)[pre.length + 1]? = some y := by
      rw [List.append_assoc, List.getElem?_append_right (Nat.le_add_right _ _),
        Nat.add_sub_cancel_left]
      rfl
    have hset : (pre ++ x :: (y :: suf) ++ post).set pre.length y =
        (pre ++ [y]) ++ y :: suf ++ post := by
      rw [List.append_assoc, List.set_append_right _ _ (Nat.le_refl _), Nat.sub_self]
      simp
    have hrest := ih (pre ++ [y]) y
    rw [List.length_append, List.length_singleton] at hrest
    simp only [List.length_cons, shiftFrom, hread, hset, hrest]
    simp

/-- Removing a cell in use removes the list's entry at that place. -/
theorem removeAt_ofList {pre suf : List α} {x : α} (h : (pre ++ x :: suf).length ≤ cap) :
    (ofList cap (pre ++ x :: suf)).removeAt pre.length = .ok (ofList cap (pre ++ suf)) := by
  obtain ⟨d, hd⟩ : ∃ d, cap = (pre ++ x :: suf).length + d := ⟨_, (Nat.add_sub_of_le h).symm⟩
  have hcells : (ofList cap (pre ++ x :: suf)).cells =
      pre.map some ++ some x :: suf.map some ++ List.replicate d none := by
    simp only [ofList, hd, Nat.add_sub_cancel_left, List.map_append, List.map_cons]
  have hsize : (ofList cap (pre ++ x :: suf)).size = pre.length + suf.length + 1 := by
    simp only [ofList_size, List.length_append, List.length_cons]
    omega
  have hshift := shiftFrom_eq (pre.map some) (some x) (suf.map some)
    (List.replicate d (none : Option α))
  rw [List.length_map, List.length_map] at hshift
  have hmoves : pre.length + suf.length + 1 - 1 - pre.length = suf.length := by omega
  have hlast : pre.length + suf.length + 1 - 1 = (pre.map some ++ suf.map some).length := by
    simp only [List.length_append, List.length_map]
    omega
  simp only [removeAt, hcells, hsize, hmoves, hshift, bind, Except.bind]
  rw [if_pos (by simp only [List.length_append, List.length_map, List.length_singleton]; omega),
    hlast, List.append_assoc, List.set_append_right _ _ (Nat.le_refl _), Nat.sub_self]
  have hcap : cap - (pre.length + suf.length) = d + 1 := by
    simp only [List.length_append, List.length_cons] at hd
    omega
  simp only [ofList, hcap, List.replicate_succ, List.map_append, List.length_append,
    List.length_map, List.singleton_append, List.set_cons_zero]

/-- On the array of a list, removal is the list's own. -/
theorem removeFirst_ofList (h : l.length ≤ cap) (f : α → Bool) :
    (ofList cap l).removeFirst f = .ok (ofList cap (l.eraseP f)) := by
  rw [removeFirst, findIdx_ofList]
  cases hf : l.findIdx? f with
  | none =>
    have hnone : ∀ x ∈ l, ¬ f x = true := fun x hx => by
      simpa using List.findIdx?_eq_none_iff.mp hf x hx
    rw [List.eraseP_of_forall_not hnone]
    rfl
  | some i =>
    obtain ⟨hi, hfi, hbefore⟩ := List.findIdx?_eq_some_iff_getElem.mp hf
    have hsplit : l = l.take i ++ l[i] :: l.drop (i + 1) := by
      rw [List.getElem_cons_drop, List.take_append_drop]
    have hlen : (l.take i).length = i := by
      rw [List.length_take]
      omega
    have hpre : ∀ x ∈ l.take i, ¬ f x = true := by
      intro x hx
      obtain ⟨j, hj, rfl⟩ := List.mem_iff_getElem.mp hx
      rw [List.length_take] at hj
      rw [List.getElem_take]
      exact hbefore j (by omega)
    have herase : l.eraseP f = l.take i ++ l.drop (i + 1) := by
      conv_lhs => rw [hsplit]
      rw [List.eraseP_append_right _ hpre, List.eraseP_cons_of_pos hfi]
    have hlen' : (l.take i ++ l[i] :: l.drop (i + 1)).length ≤ cap := by rw [← hsplit]; exact h
    have hremove := removeAt_ofList hlen'
    rw [← hsplit, hlen] at hremove
    rw [herase]
    exact hremove

end ArrayQueue

end Base
