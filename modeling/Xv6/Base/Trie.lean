import Mathlib

/-!
# Trees of nodes in a memory

Nodes are addresses. `child a i` is the node that entry `i` of node `a` leads to, if it leads
anywhere. A path is a list of indices, followed from a root. The nodes within a distance of the root
form a tree when no two paths within that distance lead to the same node (`Tree`).

A memory that holds such a tree changes in two ways: an entry that led nowhere is made to lead to a
fresh node whose entries lead nowhere (`Grafted`), or nothing the paths look at changes (`follow_congr`).
`nodes` lists the nodes of the tree, children before parents, which is the order in which they can
be given back.
-/

namespace Base

namespace Trie

variable {α : Type} {k : Nat}

/-- The node at the end of a path. -/
def follow (child : α → Fin k → Option α) : α → List (Fin k) → Option α
  | a, [] => some a
  | a, i :: path => (child a i).bind fun b => follow child b path

/-- No two paths of at most this length lead to the same node. -/
def Tree (child : α → Fin k → Option α) (root : α) (depth : Nat) : Prop :=
  ∀ p q a, p.length ≤ depth → q.length ≤ depth → follow child root p = some a →
    follow child root q = some a → p = q

/-- The nodes within a distance, children before parents. -/
def nodes (child : α → Fin k → Option α) : Nat → α → List α
  | 0, a => [a]
  | n + 1, a =>
    ((List.finRange k).flatMap fun i => ((child a i).map (nodes child n)).getD []) ++ [a]

variable {child child' : α → Fin k → Option α} {root a b : α} {depth n : Nat} {i : Fin k}
  {p q : List (Fin k)}

theorem follow_cons : follow child root (i :: p) = (child root i).bind fun b => follow child b p :=
  rfl

theorem follow_append :
    follow child root (p ++ q) = (follow child root p).bind fun b => follow child b q := by
  induction p generalizing root with
  | nil => rfl
  | cons i p ih =>
    rw [List.cons_append, follow_cons, follow_cons, Option.bind_assoc]
    exact Option.bind_congr fun b _ => ih

theorem follow_snoc :
    follow child root (p ++ [i]) = (follow child root p).bind fun b => child b i := by
  rw [follow_append]
  refine Option.bind_congr fun b _ => ?_
  rw [follow_cons]
  cases child b i with
  | none => rfl
  | some c => rfl

/-- A path depends only on the nodes on the way. -/
theorem follow_congr
    (h : ∀ q a, q.length < depth → follow child root q = some a → child' a = child a)
    (hp : p.length ≤ depth) : follow child' root p = follow child root p := by
  induction p using List.reverseRecOn with
  | nil => rfl
  | append_singleton p i ih =>
    rw [List.length_append, List.length_singleton] at hp
    rw [follow_snoc, follow_snoc, ih (Nat.le_of_succ_le hp)]
    refine Option.bind_congr fun a ha => ?_
    rw [h p a hp ha]

namespace Tree

/-- The tree below an entry of the root. -/
theorem sub (h : Tree child root (depth + 1)) (hb : child root i = some b) :
    Tree child b depth := by
  intro p q a hp hq hpa hqa
  have hcons : ∀ {r : List (Fin k)}, follow child b r = some a →
      follow child root (i :: r) = some a := by
    intro r hr
    rw [follow_cons, hb]
    exact hr
  have heq := h (i :: p) (i :: q) a (Nat.succ_le_succ hp) (Nat.succ_le_succ hq) (hcons hpa)
    (hcons hqa)
  exact (List.cons.inj heq).2

theorem congr (h : Tree child root depth)
    (hsame : ∀ q a, q.length < depth → follow child root q = some a → child' a = child a) :
    Tree child' root depth := by
  intro p q a hp hq hpa hqa
  rw [follow_congr hsame hp] at hpa
  rw [follow_congr hsame hq] at hqa
  exact h p q a hp hq hpa hqa

end Tree

/-! ## The list of the nodes -/

theorem mem_nodes :
    a ∈ nodes child n root ↔ ∃ p : List (Fin k), p.length ≤ n ∧ follow child root p = some a := by
  induction n generalizing root with
  | zero =>
    refine ⟨fun h => ⟨[], Nat.le_refl _, ?_⟩, ?_⟩
    · rw [List.mem_singleton.mp h]
      rfl
    · rintro ⟨p, hp, ha⟩
      rw [List.length_eq_zero_iff.mp (Nat.le_zero.mp hp)] at ha
      cases ha
      exact List.mem_singleton_self _
  | succ n ih =>
    unfold nodes
    rw [List.mem_append, List.mem_flatMap]
    constructor
    · rintro (⟨i, -, hi⟩ | h)
      · cases hb : child root i with
        | none =>
          rw [hb] at hi
          cases hi
        | some b =>
          rw [hb] at hi
          obtain ⟨p, hp, ha⟩ := ih.mp hi
          refine ⟨i :: p, Nat.succ_le_succ hp, ?_⟩
          rw [follow_cons, hb]
          exact ha
      · rw [List.mem_singleton.mp h]
        exact ⟨[], Nat.zero_le _, rfl⟩
    · rintro ⟨p, hp, ha⟩
      cases p with
      | nil =>
        cases ha
        exact .inr (List.mem_singleton_self _)
      | cons i p =>
        rw [follow_cons, Option.bind_eq_some_iff] at ha
        obtain ⟨b, hb, ha⟩ := ha
        refine .inl ⟨i, List.mem_finRange i, ?_⟩
        rw [hb]
        exact ih.mpr ⟨p, Nat.le_of_succ_le_succ hp, ha⟩

/-- The list depends only on the nodes that have nodes below them. -/
theorem nodes_congr
    (h : ∀ (q : List (Fin k)) a, q.length < n → follow child root q = some a → child' a = child a) :
    nodes child' n root = nodes child n root := by
  induction n generalizing root with
  | zero => rfl
  | succ n ih =>
    unfold nodes
    rw [h [] root (Nat.succ_pos n) rfl]
    refine congrArg (· ++ [root]) (List.flatMap_congr fun i _ => ?_)
    cases hb : child root i with
    | none => rfl
    | some b =>
      refine congrArg (fun l => (some l).getD []) (ih fun q a hq ha => ?_)
      refine h (i :: q) a (Nat.succ_lt_succ hq) ?_
      rw [follow_cons, hb]
      exact ha

/-- In a tree each node is listed once. -/
theorem Tree.nodup_nodes (h : Tree child root n) : (nodes child n root).Nodup := by
  induction n generalizing root with
  | zero => exact List.nodup_singleton _
  | succ n ih =>
    have hbelow : ∀ i a, a ∈ ((child root i).map (nodes child n)).getD [] →
        ∃ p : List (Fin k), p.length ≤ n ∧ follow child root (i :: p) = some a := by
      intro i a ha
      cases hb : child root i with
      | none =>
        rw [hb] at ha
        cases ha
      | some b =>
        rw [hb] at ha
        obtain ⟨p, hp, hpa⟩ := mem_nodes.mp ha
        refine ⟨p, hp, ?_⟩
        rw [follow_cons, hb]
        exact hpa
    unfold nodes
    refine List.nodup_append.mpr ⟨List.nodup_flatMap.mpr ⟨fun i _ => ?_, ?_⟩,
      List.nodup_singleton _, ?_⟩
    · cases hb : child root i with
      | none => exact List.nodup_nil
      | some b => exact ih (h.sub hb)
    · -- two entries have no node in common below them
      refine (List.nodup_finRange k).imp ?_
      intro i j hij a hi hj
      obtain ⟨p, hp, hpa⟩ := hbelow i a hi
      obtain ⟨q, hq, hqa⟩ := hbelow j a hj
      have heq := h (i :: p) (j :: q) a (Nat.succ_le_succ hp) (Nat.succ_le_succ hq) hpa hqa
      exact hij (List.cons.inj heq).1
    · intro a ha b hb heq
      rw [List.mem_singleton.mp hb] at heq
      obtain ⟨i, -, hi⟩ := List.mem_flatMap.mp ha
      obtain ⟨p, hp, hpa⟩ := hbelow i a hi
      rw [heq] at hpa
      have hnil := h (i :: p) [] root (Nat.succ_le_succ hp) (Nat.zero_le _) hpa rfl
      cases hnil

/-! ## A new node -/

/-- Entry `i` of the node at the end of `p` is made to lead to the fresh node `b`, whose entries
lead nowhere. -/
structure Grafted (child child' : α → Fin k → Option α) (root : α) (depth : Nat)
    (p : List (Fin k)) (i : Fin k) (b : α) : Prop where
  short : p.length < depth
  node : ∃ a, follow child root p = some a ∧ child a i = none ∧ child' a i = some b ∧
    (∀ j, j ≠ i → child' a j = child a j) ∧ ∀ x, x ≠ a → x ≠ b → child' x = child x
  fresh : ∀ q, q.length ≤ depth → follow child root q ≠ some b
  empty : ∀ j, child' b j = none

namespace Grafted

/-- Only the new path has changed. -/
theorem follow_eq (h : Grafted child child' root depth p i b) (htree : Tree child root depth)
    (hq : q.length ≤ depth) :
    follow child' root q = if q = p ++ [i] then some b else follow child root q := by
  obtain ⟨a, ha, hnone, hsome, hothers, houtside⟩ := h.node
  induction q using List.reverseRecOn with
  | nil =>
    have hne : [] ≠ p ++ [i] := fun he => by simp at he
    rw [if_neg hne]
    rfl
  | append_singleton q j ih =>
    rw [List.length_append, List.length_singleton] at hq
    have hqd : q.length ≤ depth := Nat.le_of_succ_le hq
    rw [follow_snoc, follow_snoc, ih hqd]
    by_cases hqp : q = p ++ [i]
    · -- below the new node there is nothing, and there was nothing before
      have hne : q ++ [j] ≠ p ++ [i] := by
        intro he
        have hlen := congrArg List.length he
        rw [hqp] at hlen
        simp at hlen
      have hbefore : follow child root q = none := by
        rw [hqp, follow_snoc, ha]
        exact hnone
      rw [if_pos hqp, if_neg hne, hbefore]
      exact h.empty j
    · rw [if_neg hqp]
      cases hx : follow child root q with
      | none =>
        have hne : q ++ [j] ≠ p ++ [i] := by
          intro he
          rw [(List.append_inj_left' he rfl : q = p), ha] at hx
          cases hx
        rw [if_neg hne]
        rfl
      | some x =>
        have hxb : x ≠ b := fun he => h.fresh q hqd (he ▸ hx)
        by_cases hxa : x = a
        · have hpq : q = p := htree q p a hqd (Nat.le_of_lt h.short) (hxa ▸ hx) ha
          show child' x j = if q ++ [j] = p ++ [i] then some b else child x j
          rw [hxa, hpq]
          by_cases hj : j = i
          · rw [if_pos (by rw [hj]), hj, hsome]
          · have hne : p ++ [j] ≠ p ++ [i] := by
              intro he
              exact hj (List.cons.inj (List.append_cancel_left he)).1
            rw [if_neg hne, hothers j hj]
        · have hne : q ++ [j] ≠ p ++ [i] := by
            intro he
            rw [(List.append_inj_left' he rfl : q = p), ha] at hx
            exact hxa (Option.some.inj hx).symm
          show child' x j = if q ++ [j] = p ++ [i] then some b else child x j
          rw [if_neg hne, houtside x hxa hxb]

theorem follow_self (h : Grafted child child' root depth p i b) (htree : Tree child root depth) :
    follow child' root (p ++ [i]) = some b := by
  have hlen : (p ++ [i]).length ≤ depth := by
    rw [List.length_append, List.length_singleton]
    exact h.short
  rw [h.follow_eq htree hlen, if_pos rfl]

theorem tree (h : Grafted child child' root depth p i b) (htree : Tree child root depth) :
    Tree child' root depth := by
  intro q r a hq hr hqa hra
  rw [h.follow_eq htree hq] at hqa
  rw [h.follow_eq htree hr] at hra
  by_cases hqp : q = p ++ [i]
  · by_cases hrp : r = p ++ [i]
    · rw [hqp, hrp]
    · rw [if_pos hqp] at hqa
      rw [if_neg hrp] at hra
      exact absurd (hra.trans hqa.symm) (h.fresh r hr)
  · rw [if_neg hqp] at hqa
    by_cases hrp : r = p ++ [i]
    · rw [if_pos hrp] at hra
      exact absurd (hqa.trans hra.symm) (h.fresh q hq)
    · rw [if_neg hrp] at hra
      exact htree q r a hq hr hqa hra

/-- The new node is the only one that was not there before. -/
theorem mem_nodes_iff (h : Grafted child child' root depth p i b) (htree : Tree child root depth)
    (x : α) : x ∈ nodes child' depth root ↔ x = b ∨ x ∈ nodes child depth root := by
  rw [mem_nodes, mem_nodes]
  constructor
  · rintro ⟨q, hq, hx⟩
    rw [h.follow_eq htree hq] at hx
    by_cases hqp : q = p ++ [i]
    · rw [if_pos hqp] at hx
      exact .inl (Option.some.inj hx).symm
    · rw [if_neg hqp] at hx
      exact .inr ⟨q, hq, hx⟩
  · rintro (rfl | ⟨q, hq, hx⟩)
    · refine ⟨p ++ [i], ?_, h.follow_self htree⟩
      rw [List.length_append, List.length_singleton]
      exact h.short
    · refine ⟨q, hq, ?_⟩
      have hqp : q ≠ p ++ [i] := by
        obtain ⟨a, ha, hnone, -⟩ := h.node
        rintro rfl
        rw [follow_snoc, ha] at hx
        exact absurd (hnone.symm.trans hx) nofun
      rw [h.follow_eq htree hq, if_neg hqp, hx]

end Grafted

end Trie

end Base
