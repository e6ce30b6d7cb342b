import Mathlib

/-!
# Blocks on a stack

Blocks of given lengths are put one below the other, from a top on downwards. The lengths are rounded
up to multiples of the alignment, so every block starts at a multiple of it when the top is one.
-/

namespace Base

/-- A piece of an address space. -/
structure Extent where
  start : Nat
  len : Nat
deriving DecidableEq, Repr

namespace Extent

/-- The end of an extent. -/
def stop (e : Extent) : Nat := e.start + e.len

/-- One extent ends before the other one starts. -/
def Apart (a b : Extent) : Prop := a.stop ≤ b.start ∨ b.stop ≤ a.start

instance : Std.Symm Apart := ⟨fun _ _ => Or.symm⟩

end Extent

open Extent

/-- The least multiple of `a` that is not below `n`. -/
def roundUp (a n : Nat) : Nat := (n + (a - 1)) / a * a

/-- The room that blocks of these lengths take. -/
def depth (a : Nat) (ns : List Nat) : Nat := (ns.map (roundUp a)).sum

/-- The blocks, below `top`. -/
def blocksBelow (a : Nat) : Nat → List Nat → List Extent
  | _, [] => []
  | top, n :: ns => ⟨top - roundUp a n, n⟩ :: blocksBelow a (top - roundUp a n) ns

variable {a n top : Nat} {ns ms : List Nat} {e : Extent}

theorem le_roundUp (ha : 0 < a) (n : Nat) : n ≤ roundUp a n := by
  have hdiv := Nat.div_add_mod (n + (a - 1)) a
  have hmod := Nat.mod_lt (n + (a - 1)) ha
  unfold roundUp
  rw [Nat.mul_comm]
  omega

theorem roundUp_mod (a n : Nat) : roundUp a n % a = 0 := Nat.mul_mod_left ..

/-- Going down by a length and then to a multiple is going down by the rounded length. -/
theorem sub_div_mul (ha : 0 < a) (htop : top % a = 0) (hn : n ≤ top) :
    (top - n) / a * a = top - roundUp a n := by
  obtain ⟨k, rfl⟩ := Nat.dvd_of_mod_eq_zero htop
  unfold roundUp
  obtain ⟨q, hq⟩ : ∃ q, q = (n + (a - 1)) / a := ⟨_, rfl⟩
  have hlow : a * q ≤ n + (a - 1) := hq ▸ Nat.mul_div_le _ a
  have hhigh : n + (a - 1) < a * q + a := by
    have hdiv := Nat.div_add_mod (n + (a - 1)) a
    have hmod := Nat.mod_lt (n + (a - 1)) ha
    rw [← hq] at hdiv
    omega
  have hle : q ≤ k := by
    by_contra hlt
    have hmul := Nat.mul_le_mul_left a (Nat.succ_le_of_lt (Nat.not_le.mp hlt))
    rw [Nat.mul_succ] at hmul
    omega
  have hquot : (a * k - n) / a = k - q := by
    apply Nat.div_eq_of_lt_le
    · rw [Nat.sub_mul, Nat.mul_comm k, Nat.mul_comm q]
      omega
    · rw [Nat.succ_mul, Nat.sub_mul, Nat.mul_comm k, Nat.mul_comm q]
      have hmul := Nat.mul_le_mul_left a hle
      omega
  rw [hquot, ← hq, Nat.sub_mul, Nat.mul_comm k]

@[simp] theorem depth_cons (a n : Nat) (ns : List Nat) : depth a (n :: ns) = roundUp a n + depth a ns := rfl

theorem depth_append (a : Nat) (ns ms : List Nat) : depth a (ns ++ ms) = depth a ns + depth a ms := by
  unfold depth
  rw [List.map_append, List.sum_append]

theorem depth_mod (a : Nat) (ns : List Nat) : depth a ns % a = 0 := by
  induction ns with
  | nil => rfl
  | cons n ns ih =>
    rw [depth_cons, Nat.add_mod, roundUp_mod, ih]
    rfl

theorem length_blocksBelow (a top : Nat) (ns : List Nat) : (blocksBelow a top ns).length = ns.length := by
  induction ns generalizing top with
  | nil => rfl
  | cons n ns ih => rw [blocksBelow, List.length_cons, ih, List.length_cons]

theorem blocksBelow_append (a top : Nat) (ns ms : List Nat) :
    blocksBelow a top (ns ++ ms) = blocksBelow a top ns ++ blocksBelow a (top - depth a ns) ms := by
  induction ns generalizing top with
  | nil => rfl
  | cons n ns ih => rw [List.cons_append, blocksBelow, ih, blocksBelow, List.cons_append, depth_cons, Nat.sub_sub]

/-- The blocks lie below the top, in the room they take. -/
theorem blocksBelow_inside (ha : 0 < a) (htop : depth a ns ≤ top) (he : e ∈ blocksBelow a top ns) :
    top - depth a ns ≤ e.start ∧ e.stop ≤ top := by
  induction ns generalizing top with
  | nil => cases he
  | cons n ns ih =>
    rw [depth_cons] at htop ⊢
    rcases List.mem_cons.mp he with rfl | he
    · have hle := le_roundUp ha n
      show top - (roundUp a n + depth a ns) ≤ top - roundUp a n ∧ top - roundUp a n + n ≤ top
      omega
    · obtain ⟨hlow, hhigh⟩ := ih (by omega) he
      omega

theorem blocksBelow_apart (ha : 0 < a) (htop : depth a ns ≤ top) : (blocksBelow a top ns).Pairwise Apart := by
  induction ns generalizing top with
  | nil => exact .nil
  | cons n ns ih =>
    rw [depth_cons] at htop
    refine List.pairwise_cons.mpr ⟨fun e he => .inr ?_, ih (by omega)⟩
    exact (blocksBelow_inside ha (by omega) he).2

end Base
