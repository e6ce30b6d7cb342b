import Mathlib

/-!
# Linear congruential generators modulo a power of two

The generator `x ↦ a x + c` modulo `2 ^ w` with `a` one more than a multiple of 4 and `c` odd has
full period: in `2 ^ k` consecutive steps the low `k` bits take every value once. The `m`-th iterate
differs from the start by `(1 + a + … + a ^ (m - 1)) ((a - 1) x + c)`, whose second factor is odd,
and the geometric sum has as many factors of two as `m` itself.
-/

namespace Base

open Finset

/-- The geometric sum is divisible by the same powers of two as the number of its terms. -/
theorem two_pow_dvd_geom_sum {a : Int} (ha : 4 ∣ a - 1) (k m : Nat) :
    (2 : Int) ^ k ∣ ∑ i ∈ range m, a ^ i ↔ 2 ^ k ∣ m := by
  have hodd : ¬ (2 : Int) ∣ a := by omega
  by_cases hone : a = 1
  · simp only [hone, one_pow, sum_const, card_range, nsmul_eq_mul, mul_one]
    exact_mod_cast Iff.rfl
  · -- lifting the exponent, with the factor `a - 1` cancelled
    have hfin : FiniteMultiplicity 2 (a - 1) :=
      Int.finiteMultiplicity_iff.mpr ⟨by decide, sub_ne_zero.mpr hone⟩
    have hmul : emultiplicity 2 (∑ i ∈ range m, a ^ i) + emultiplicity 2 (a - 1) =
        emultiplicity (2 : Int) m + emultiplicity 2 (a - 1) := by
      rw [← emultiplicity_mul Int.prime_two, geom_sum_mul, add_comm]
      have hlift := Int.two_pow_sub_pow' (y := 1) m ha hodd
      rwa [one_pow] at hlift
    have hsame : emultiplicity 2 (∑ i ∈ range m, a ^ i) = emultiplicity (2 : Int) m :=
      WithTop.add_right_cancel (finiteMultiplicity_iff_emultiplicity_ne_top.mp hfin) hmul
    rw [pow_dvd_iff_le_emultiplicity, hsame, ← pow_dvd_iff_le_emultiplicity]
    exact_mod_cast Iff.rfl

/-- The exact iterates of `x ↦ a x + c`. -/
theorem iterate_sub (a c x : Int) (m : Nat) :
    (fun x => a * x + c)^[m] x - x = (∑ i ∈ range m, a ^ i) * ((a - 1) * x + c) := by
  induction m with
  | zero => simp
  | succ m ih =>
    rw [Function.iterate_succ_apply', geom_sum_succ]
    have : (fun x => a * x + c)^[m] x = x + (∑ i ∈ range m, a ^ i) * ((a - 1) * x + c) := by
      rw [← ih]; ring
    rw [this]
    ring

/-- Two exact iterates agree modulo a power of two exactly when their numbers do. -/
theorem two_pow_dvd_iterate_sub {a c : Int} (ha : 4 ∣ a - 1) (hc : Odd c) (x : Int) (k m : Nat) :
    (2 : Int) ^ k ∣ (fun x => a * x + c)^[m] x - x ↔ 2 ^ k ∣ m := by
  rw [iterate_sub, ← two_pow_dvd_geom_sum ha]
  have hodd : ¬ (2 : Int) ∣ (a - 1) * x + c := by
    obtain ⟨b, hb⟩ := ha
    obtain ⟨d, rfl⟩ := hc
    rw [hb, show 4 * b * x + (2 * d + 1) = 2 * (2 * b * x + d) + 1 by ring]
    omega
  exact ⟨Int.prime_two.pow_dvd_of_dvd_mul_right k hodd, fun h => dvd_mul_of_dvd_left h _⟩

section Generator

variable {a c w k : Nat}

/-- One step of the generator on words of `w` bits. -/
def generate (a c w x : Nat) : Nat := (a * x + c) % 2 ^ w

theorem generate_iterate_emod (m x : Nat) :
    (((generate a c w)^[m] x : Nat) : Int) % 2 ^ w =
      (fun x : Int => a * x + c)^[m] x % 2 ^ w := by
  induction m with
  | zero => rfl
  | succ m ih =>
    rw [Function.iterate_succ_apply', Function.iterate_succ_apply', generate]
    push_cast
    rw [Int.emod_emod_of_dvd _ (dvd_refl _), Int.add_emod, Int.mul_emod, ih, ← Int.mul_emod,
      ← Int.add_emod]

/-- The low `k` bits come back exactly after the multiples of `2 ^ k`. -/
theorem generate_iterate_eq_iff (ha : 4 ∣ (a : Int) - 1) (hc : Odd c) (hk : k ≤ w) (x m j : Nat) :
    (generate a c w)^[m] x % 2 ^ k = (generate a c w)^[j] x % 2 ^ k ↔ m % 2 ^ k = j % 2 ^ k := by
  wlog hmj : j ≤ m generalizing m j
  · rw [eq_comm, this j m (by omega), eq_comm]
  obtain ⟨d, rfl⟩ := Nat.exists_eq_add_of_le' hmj
  let f : Int → Int := fun x => a * x + c
  have hmod : ∀ i, (((generate a c w)^[i] x : Nat) : Int) % 2 ^ k = f^[i] x % 2 ^ k := fun i => by
    have hpow : (2 : Int) ^ k ∣ 2 ^ w := pow_dvd_pow 2 hk
    rw [← Int.emod_emod_of_dvd _ hpow, generate_iterate_emod, Int.emod_emod_of_dvd _ hpow]
  have hcast : (generate a c w)^[d + j] x % 2 ^ k = (generate a c w)^[j] x % 2 ^ k ↔
      f^[d + j] x % 2 ^ k = f^[j] x % 2 ^ k := by
    rw [← hmod, ← hmod]
    exact_mod_cast Iff.rfl
  have hodd : Odd (c : Int) := by exact_mod_cast hc
  have hsteps : (d + j) % 2 ^ k = j % 2 ^ k ↔ 2 ^ k ∣ d := by
    rw [← Nat.ModEq, Nat.ModEq.comm, Nat.modEq_iff_dvd' (by omega), Nat.add_sub_cancel]
  rw [hcast, Function.iterate_add_apply, hsteps, Int.emod_eq_emod_iff_emod_sub_eq_zero,
    ← Int.dvd_iff_emod_eq_zero]
  exact two_pow_dvd_iterate_sub ha hodd (f^[j] x) k d

/-- In any `2 ^ k` consecutive steps the low `k` bits take every value. -/
theorem exists_generate_iterate (ha : 4 ∣ (a : Int) - 1) (hc : Odd c) (hk : k ≤ w) (x : Nat)
    {y : Nat} (hy : y < 2 ^ k) : ∃ m < 2 ^ k, (generate a c w)^[m] x % 2 ^ k = y := by
  let g : Fin (2 ^ k) → Fin (2 ^ k) := fun m =>
    ⟨(generate a c w)^[m] x % 2 ^ k, Nat.mod_lt _ (Nat.two_pow_pos k)⟩
  have hinj : Function.Injective g := by
    intro m j hmj
    have hmod := (generate_iterate_eq_iff ha hc hk x m j).mp (congrArg Fin.val hmj)
    rw [Nat.mod_eq_of_lt m.isLt, Nat.mod_eq_of_lt j.isLt] at hmod
    exact Fin.ext hmod
  obtain ⟨m, hm⟩ := Finite.injective_iff_surjective.mp hinj ⟨y, hy⟩
  exact ⟨m, m.isLt, congrArg Fin.val hm⟩

end Generator

end Base
