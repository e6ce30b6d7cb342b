import Mathlib

/-!
# Circular doubly linked lists

Nodes have a `next` and a `prev` link. One node, `none`, is the head, which carries no element. A
`Ring` is a cycle from the head through the elements of a list and back, in both directions. The two
operations are those of a list kept in order of use: unlinking an element, and linking one in behind
the head.
-/

namespace Base

open Function

/-- The links of the nodes. The head is `none`. -/
structure Links (ν : Type) where
  next : Option ν → Option ν
  prev : Option ν → Option ν

namespace Links

variable {ν : Type}

/-- The links lead from `a` through the elements to `b`, and back. -/
def Path (k : Links ν) : Option ν → List ν → Option ν → Prop
  | a, [], b => k.next a = b ∧ k.prev b = a
  | a, x :: xs, b => k.next a = some x ∧ k.prev (some x) = a ∧ k.Path (some x) xs b

/-- The cycle through the head. -/
structure Ring (k : Links ν) (xs : List ν) : Prop where
  path : k.Path none xs none
  nodup : xs.Nodup

/-- The last node of a path before its end. -/
def lastOf : Option ν → List ν → Option ν
  | a, [] => a
  | _, x :: xs => lastOf (some x) xs

/-- The first node of a path behind its start. -/
def firstOf : List ν → Option ν → Option ν
  | [], b => b
  | x :: _, _ => some x

section Operations

variable [DecidableEq ν]

/-- Unlink an element. -/
def unlink (k : Links ν) (b : ν) : Links ν where
  prev := update k.prev (k.next (some b)) (k.prev (some b))
  next := update k.next (k.prev (some b)) (k.next (some b))

/-- Link an element in behind the head. -/
def linkFront (k : Links ν) (b : ν) : Links ν where
  prev := update (update k.prev (some b) none) (k.next none) (some b)
  next := update (update k.next (some b) (k.next none)) none (some b)

end Operations

/-! ## Paths -/

section Paths

variable {k k' : Links ν} {a b : Option ν} {x : ν} {xs ys : List ν}

theorem Path.next_eq (h : k.Path a xs b) : k.next a = firstOf xs b := by
  cases xs with
  | nil => exact h.1
  | cons x xs => exact h.1

theorem Path.prev_eq (h : k.Path a xs b) : k.prev b = lastOf a xs := by
  induction xs generalizing a with
  | nil => exact h.2
  | cons x xs ih => exact ih h.2.2

theorem path_append : k.Path a (xs ++ x :: ys) b ↔ k.Path a xs (some x) ∧ k.Path (some x) ys b := by
  induction xs generalizing a with
  | nil => exact ⟨fun h => ⟨⟨h.1, h.2.1⟩, h.2.2⟩, fun h => ⟨h.1.1, h.1.2, h.2⟩⟩
  | cons y xs ih =>
    constructor
    · rintro ⟨hn, hp, hrest⟩
      obtain ⟨hfirst, hsecond⟩ := ih.mp hrest
      exact ⟨⟨hn, hp, hfirst⟩, hsecond⟩
    · rintro ⟨⟨hn, hp, hfirst⟩, hsecond⟩
      exact ⟨hn, hp, ih.mpr ⟨hfirst, hsecond⟩⟩

/-- A path only looks at its own links. -/
theorem Path.congr (h : k.Path a xs b) (hnext : k'.next a = k.next a)
    (hprev : k'.prev b = k.prev b)
    (hxs : ∀ x ∈ xs, k'.next (some x) = k.next (some x) ∧ k'.prev (some x) = k.prev (some x)) :
    k'.Path a xs b := by
  induction xs generalizing a with
  | nil => exact ⟨hnext.trans h.1, hprev.trans h.2⟩
  | cons x xs ih =>
    obtain ⟨hn, hp, hrest⟩ := h
    obtain ⟨hxn, hxp⟩ := hxs x (List.mem_cons_self ..)
    exact ⟨hnext.trans hn, hxp.trans hp,
      ih hrest hxn fun y hy => hxs y (List.mem_cons_of_mem _ hy)⟩

theorem lastOf_mem (a : Option ν) (xs : List ν) :
    lastOf a xs = a ∨ ∃ x ∈ xs, lastOf a xs = some x := by
  induction xs generalizing a with
  | nil => exact .inl rfl
  | cons x xs ih =>
    right
    rcases ih (some x) with h | ⟨y, hy, h⟩
    · exact ⟨x, List.mem_cons_self .., h⟩
    · exact ⟨y, List.mem_cons_of_mem _ hy, h⟩

variable [DecidableEq ν]

/-- A path that is made to end at another node. -/
theorem Path.retarget (h : k.Path a xs b) (c : Option ν) (hnodup : xs.Nodup)
    (ha : ∀ x ∈ xs, a ≠ some x) (hc : ∀ x ∈ xs, c ≠ some x) :
    Path ⟨update k.next (lastOf a xs) c, update k.prev c (lastOf a xs)⟩
      a xs c := by
  induction xs generalizing a with
  | nil => exact ⟨update_self .., update_self ..⟩
  | cons x xs ih =>
    obtain ⟨hn, hp, hrest⟩ := h
    obtain ⟨hx, hxs⟩ := List.nodup_cons.mp hnodup
    have hlast : a ≠ lastOf (some x) xs := by
      rcases lastOf_mem (some x) xs with hl | ⟨y, hy, hl⟩
      · rw [hl]
        exact ha x (List.mem_cons_self ..)
      · rw [hl]
        exact ha y (List.mem_cons_of_mem _ hy)
    refine ⟨?_, ?_, ih hrest hxs ?_ fun y hy => hc y (List.mem_cons_of_mem _ hy)⟩
    · show update k.next (lastOf (some x) xs) c a = some x
      rw [update_of_ne hlast, hn]
    · show update k.prev c (lastOf (some x) xs) (some x) = a
      rw [update_of_ne (hc x (List.mem_cons_self ..)).symm, hp]
    · intro y hy he
      exact hx (Option.some.inj he ▸ hy)

end Paths

/-! ## Rings -/

section Rings

variable {k : Links ν} {x : ν} {xs ys : List ν}

/-- In a ring with every element in it, `prev` is the inverse of `next`. -/
theorem Ring.inverse (h : k.Ring xs) (hall : ∀ x, x ∈ xs) (a : Option ν) :
    k.prev (k.next a) = a ∧ k.next (k.prev a) = a := by
  cases a with
  | none =>
    constructor
    · cases xs with
      | nil => rw [h.path.1, h.path.2]
      | cons x xs => rw [h.path.1, h.path.2.1]
    · -- the last node leads back to the head
      rcases List.eq_nil_or_concat xs with rfl | ⟨ys, y, rfl⟩
      · rw [h.path.2, h.path.1]
      · have hend := (path_append.mp (List.concat_eq_append ▸ h.path)).2
        rw [hend.2, hend.1]
  | some x =>
    obtain ⟨ys, zs, rfl⟩ := List.append_of_mem (hall x)
    obtain ⟨hbefore, hafter⟩ := path_append.mp h.path
    constructor
    · cases zs with
      | nil => rw [hafter.1, hafter.2]
      | cons z zs => rw [hafter.1, hafter.2.1]
    · rcases List.eq_nil_or_concat ys with rfl | ⟨ws, w, rfl⟩
      · rw [hbefore.2, hbefore.1]
      · have hend := (path_append.mp (List.concat_eq_append ▸ hbefore)).2
        rw [hend.2, hend.1]

variable [DecidableEq ν]

theorem Ring.unlink (h : k.Ring (xs ++ x :: ys)) : (k.unlink x).Ring (xs ++ ys) := by
  obtain ⟨hbefore, hafter⟩ := path_append.mp h.path
  obtain ⟨hxs, hrest, hdisj⟩ := List.nodup_append.mp h.nodup
  obtain ⟨hx, hys⟩ := List.nodup_cons.mp hrest
  have hp := hbefore.prev_eq
  have hn := hafter.next_eq
  have hne : ∀ y ∈ xs, ∀ z ∈ ys, y ≠ z := fun y hy z hz =>
    hdisj y hy z (List.mem_cons_of_mem _ hz)
  refine ⟨?_, List.nodup_append.mpr ⟨hxs, hys, hne⟩⟩
  unfold Links.unlink
  rw [hp, hn]
  cases ys with
  | nil =>
    rw [List.append_nil]
    exact hbefore.retarget none hxs (fun _ _ he => by cases he) fun _ _ he => by cases he
  | cons y ys =>
    obtain ⟨hy, -⟩ := List.nodup_cons.mp hys
    obtain ⟨-, -, htail⟩ := hafter
    refine path_append.mpr ⟨?_, ?_⟩
    · refine hbefore.retarget (some y) hxs (fun _ _ he => by cases he) fun z hz he => ?_
      exact hne z hz y (List.mem_cons_self ..) (Option.some.inj he).symm
    · -- the rest of the ring keeps its links
      have hlast : ∀ z ∈ y :: ys, some z ≠ lastOf none xs := by
        intro z hz he
        rcases lastOf_mem none xs with hl | ⟨w, hw, hl⟩
        · rw [hl] at he
          cases he
        · rw [hl] at he
          exact hne w hw z hz (Option.some.inj he).symm
      refine htail.congr ?_ ?_ fun z hz => ⟨?_, ?_⟩
      · exact update_of_ne (hlast y (List.mem_cons_self ..)) ..
      · have hhead : (none : Option ν) ≠ some y := fun he => by cases he
        exact update_of_ne hhead (lastOf none xs) k.prev
      · exact update_of_ne (hlast z (List.mem_cons_of_mem _ hz)) ..
      · refine update_of_ne (fun he => hy ?_) ..
        exact Option.some.inj he ▸ hz

theorem Ring.linkFront (h : k.Ring xs) (hx : x ∉ xs) : (k.linkFront x).Ring (x :: xs) := by
  have hn := h.path.next_eq
  have hne : ∀ y ∈ xs, some y ≠ some x := fun y hy he => hx (Option.some.inj he ▸ hy)
  have hfirst : some x ≠ k.next none := by
    rw [hn]
    cases xs with
    | nil => exact fun he => by cases he
    | cons y ys => exact (hne y (List.mem_cons_self ..)).symm
  refine ⟨⟨?_, ?_, ?_⟩, List.nodup_cons.mpr ⟨hx, h.nodup⟩⟩
  · show update (update k.next (some x) (k.next none)) none (some x) none = _
    exact update_self ..
  · show update (update k.prev (some x) none) (k.next none) (some x) (some x) = none
    rw [update_of_ne hfirst, update_self]
  · have hnext : (k.linkFront x).next (some x) = k.next none := by
      show update (update k.next (some x) (k.next none)) none (some x) (some x) = _
      rw [update_of_ne (fun he => by cases he), update_self]
    have hprev : (k.linkFront x).prev (k.next none) = some x := update_self ..
    cases xs with
    | nil =>
      rw [hn] at hnext hprev
      exact ⟨hnext, hprev⟩
    | cons y ys =>
      obtain ⟨hy, -⟩ := List.nodup_cons.mp h.nodup
      obtain ⟨-, -, htail⟩ := h.path
      have hkeep : ∀ z ∈ y :: ys, (k.linkFront x).next (some z) = k.next (some z) := by
        intro z hz
        show update (update k.next (some x) (k.next none)) none (some x)
          (some z) = _
        rw [update_of_ne (fun he => by cases he), update_of_ne (hne z hz)]
      rw [hn] at hnext hprev
      refine ⟨hnext, hprev, htail.congr (hkeep y (List.mem_cons_self ..)) ?_ fun z hz => ⟨hkeep z
        (List.mem_cons_of_mem _ hz), ?_⟩⟩
      · show update (update k.prev (some x) none) (k.next none) (some x) none = _
        rw [hn, update_of_ne (fun he => by cases he),
          update_of_ne (fun he => by cases he)]
      · show update (update k.prev (some x) none) (k.next none) (some x)
          (some z) = _
        have hzy : some z ≠ firstOf (y :: ys) none := fun he => hy (Option.some.inj he ▸ hz)
        rw [hn, update_of_ne hzy,
          update_of_ne (hne z (List.mem_cons_of_mem _ hz))]

end Rings

/-! ## Walking a ring -/

/-- Walk along a link from a node, to the first element that is accepted. The walk ends at the
head. -/
def walk (link : Option ν → Option ν) (accept : ν → Bool) : Nat → Option ν → Option ν
  | 0, _ => none
  | fuel + 1, a =>
    match a with
    | none => none
    | some x => if accept x then some x else walk link accept fuel (link (some x))

section Walk

variable {k : Links ν} {accept : ν → Bool} {xs : List ν} {a : Option ν} {fuel : Nat}

theorem walk_none (link : Option ν → Option ν) (fuel : Nat) : walk link accept fuel none = none := by
  cases fuel with
  | zero => rfl
  | succ fuel => rfl

theorem walk_next (h : k.Path a xs none) (hfuel : xs.length ≤ fuel) :
    walk k.next accept fuel (k.next a) = xs.find? accept := by
  induction xs generalizing a fuel with
  | nil =>
    rw [h.1]
    exact walk_none ..
  | cons x xs ih =>
    obtain ⟨hn, -, hrest⟩ := h
    cases fuel with
    | zero => exact absurd hfuel (by simp)
    | succ fuel =>
      rw [hn, List.find?_cons]
      show (if accept x = true then some x else walk k.next accept fuel (k.next (some x))) = _
      by_cases hx : accept x = true
      · rw [if_pos hx, hx]
      · rw [if_neg hx, ih hrest (Nat.le_of_succ_le_succ hfuel), Bool.eq_false_iff.mpr hx]

/-- Walking the other way. -/
theorem walk_prev {b : Option ν} (h : k.Path none xs b) (hfuel : xs.length ≤ fuel) :
    walk k.prev accept fuel (k.prev b) = xs.reverse.find? accept := by
  induction xs using List.reverseRecOn generalizing b fuel with
  | nil =>
    rw [h.2]
    exact walk_none ..
  | append_singleton ys y ih =>
    obtain ⟨hbefore, hend⟩ := path_append.mp h
    rw [List.length_append, List.length_singleton] at hfuel
    cases fuel with
    | zero => exact absurd hfuel (by omega)
    | succ fuel =>
      rw [hend.2, List.reverse_append, List.reverse_singleton, List.singleton_append,
        List.find?_cons]
      show (if accept y = true then some y else walk k.prev accept fuel (k.prev (some y))) = _
      by_cases hy : accept y = true
      · rw [if_pos hy, hy]
      · rw [if_neg hy, ih hbefore (Nat.le_of_succ_le_succ hfuel), Bool.eq_false_iff.mpr hy]

end Walk

end Links

end Base
