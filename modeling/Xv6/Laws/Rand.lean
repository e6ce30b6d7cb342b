import Xv6.Base.Lcg
import Xv6.Laws.Lottery

/-!
# The generator of `rand`

`rand` is the linear congruential generator with multiplier 1664525 and increment 1013904223 on
words of 32 bits. The multiplier is one more than a multiple of 4 and the increment is odd, so the
low `k` bits of its answers have period `2 ^ k`, and in any `2 ^ k` consecutive calls they take every
value once. `rand_at_max` answers the low bits when its modulus is a power of two. The modulus is
computed as an `int`, and for the largest parameter it wraps to the value of the same bits.
-/

namespace Xv6

open Base

variable {k : Nat}

/-- The answers of the calls of `rand` from a seed on. -/
def rands (seed i : Nat) : Nat := lcg^[i + 1] seed

theorem lcg_eq_generate : lcg = generate 1664525 1013904223 32 := rfl

theorem four_dvd_multiplier : 4 ∣ ((1664525 : Nat) : Int) - 1 := by norm_num

theorem odd_increment : Odd 1013904223 := ⟨506952111, by norm_num⟩

theorem rands_lt (seed i : Nat) : rands seed i < 2 ^ 32 := by
  unfold rands
  rw [Function.iterate_succ_apply']
  exact Nat.mod_lt _ (Nat.two_pow_pos 32)

theorem rands_add (seed i j : Nat) : rands seed (i + j) = lcg^[j] (rands seed i) := by
  unfold rands
  rw [← Function.iterate_add_apply]
  congr 1
  omega

/-- Two answers agree in their low bits exactly when their numbers do. -/
theorem rands_eq_iff (hk : k ≤ 32) (seed i p : Nat) :
    rands seed (i + p) % 2 ^ k = rands seed i % 2 ^ k ↔ 2 ^ k ∣ p := by
  have hsame := generate_iterate_eq_iff four_dvd_multiplier odd_increment hk (rands seed i) p 0
  rw [← lcg_eq_generate, ← rands_add, Nat.zero_mod, ← Nat.dvd_iff_mod_eq_zero] at hsame
  exact hsame

/-- In `2 ^ k` consecutive calls the low bits take every value once. -/
theorem rands_exists_unique (hk : k ≤ 32) (seed i : Nat) {y : Nat} (hy : y < 2 ^ k) :
    ∃! j, j < 2 ^ k ∧ rands seed (i + j) % 2 ^ k = y := by
  obtain ⟨j, hj, hval⟩ :=
    exists_generate_iterate four_dvd_multiplier odd_increment hk (rands seed i) hy
  rw [← lcg_eq_generate, ← rands_add] at hval
  refine ⟨j, ⟨hj, hval⟩, ?_⟩
  rintro j' ⟨hj', hval'⟩
  have hsame := hval'.trans hval.symm
  rw [rands_add, rands_add, lcg_eq_generate,
    generate_iterate_eq_iff four_dvd_multiplier odd_increment hk, Nat.mod_eq_of_lt hj',
    Nat.mod_eq_of_lt hj] at hsame
  exact hsame

/-- With a power of two as its modulus, `rand_at_max` answers the low bits. -/
theorem randAtMax_two_pow {total : Int} (hint : total < 2 ^ 31) (hpow : total + 1 = 2 ^ k) (r : Nat) :
    k ≤ 31 ∧ randAtMax r total = ((r % 2 ^ k : Nat) : Int) := by
  have hk : k ≤ 31 := by
    by_contra hbig
    have hle : (2 : Int) ^ 32 ≤ 2 ^ k := pow_le_pow_right₀ (by norm_num) (by omega)
    omega
  have hpos : (0 : Int) < 2 ^ k := by positivity
  have hle : (2 : Int) ^ k ≤ 2 ^ 31 := pow_le_pow_right₀ (by norm_num) hk
  have hmod : toUnsigned (int32 (total + 1)) = 2 ^ k := by
    have hcast : (((2 : Nat) ^ k : Nat) : Int) = 2 ^ k := by push_cast; rfl
    have hword : (2 : Int) ^ 32 = ((2 ^ 32 : Nat) : Int) := by norm_cast
    rw [toUnsigned, int32, hword, Int.bmod_emod, hpow, Int.emod_eq_of_lt (by omega) (by omega), ← hcast]
    exact Int.toNat_natCast _
  have hlt : r % 2 ^ k < 2 ^ 31 :=
    Nat.lt_of_lt_of_le (Nat.mod_lt _ (Nat.two_pow_pos k)) (by exact_mod_cast hle)
  refine ⟨hk, ?_⟩
  rw [randAtMax, hmod]
  exact int32_bounded.exact _ (by omega) (by exact_mod_cast hlt)

/-- From every seed, the answers of `rand` modulo `2 ^ k` have period exactly `2 ^ k`, and take every
residue once in `2 ^ k` consecutive calls, for `k` up to 32. As long as one more than the parameter
is a power of two, that many consecutive calls of `rand_at_max` answer every value up to it once. -/
theorem rand_full_period (seed : Nat) :
    (∀ k, k ≤ 32 →
      (∀ i p, rands seed (i + p) % 2 ^ k = rands seed i % 2 ^ k ↔ 2 ^ k ∣ p) ∧
        ∀ i y, y < 2 ^ k → ∃! j, j < 2 ^ k ∧ rands seed (i + j) % 2 ^ k = y) ∧
      ∀ (total : Int) (k : Nat), total < 2 ^ 31 → total + 1 = 2 ^ k → ∀ (i : Nat) (v : Int),
        0 ≤ v → v ≤ total →
          ∃! j : Nat, (j : Int) < total + 1 ∧ randAtMax (rands seed (i + j)) total = v := by
  refine ⟨fun k hk => ⟨rands_eq_iff hk seed, fun i y hy => rands_exists_unique hk seed i hy⟩, ?_⟩
  intro total k hint hpow i v hv hle
  obtain ⟨y, rfl⟩ := Int.eq_ofNat_of_zero_le hv
  have hy : y < 2 ^ k := by
    have hlt : (y : Int) < 2 ^ k := by omega
    exact_mod_cast hlt
  have hk := (randAtMax_two_pow hint hpow 0).1
  obtain ⟨j, ⟨hj, hval⟩, hunique⟩ := rands_exists_unique (by omega : k ≤ 32) seed i hy
  refine ⟨j, ⟨?_, ?_⟩, ?_⟩
  · rw [hpow]
    exact_mod_cast hj
  · rw [(randAtMax_two_pow hint hpow _).2, hval]
  · rintro j' ⟨hj', hval'⟩
    rw [(randAtMax_two_pow hint hpow _).2] at hval'
    rw [hpow] at hj'
    exact hunique j' ⟨by exact_mod_cast hj', by exact_mod_cast hval'⟩

/-- The last bit of the answers alternates from the seed of the source on, and two calls of
`rand_at_max` with the parameter 1 answer 0 and 1. -/
theorem rand_full_period_bit :
    (∀ i p, rands 123456789 (i + p) % 2 ^ 1 = rands 123456789 i % 2 ^ 1 ↔ 2 ^ 1 ∣ p) ∧
      ∀ (i : Nat) (v : Int), 0 ≤ v → v ≤ 1 →
        ∃! j : Nat, (j : Int) < 1 + 1 ∧ randAtMax (rands 123456789 (i + j)) 1 = v :=
  ⟨((rand_full_period 123456789).1 1 (by decide)).1,
    (rand_full_period 123456789).2 1 1 (by decide) (by decide)⟩

end Xv6
