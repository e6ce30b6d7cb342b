import Xv6.Laws.Rand
import Xv6.Laws.Shares

/-!
# The lottery over a period of `rand`

While the table stays as it is, the passes draw from consecutive answers of `rand`. In `2 ^ 32` of
them every answer comes once, so every ticket number comes up as often as another, or once more.
-/

namespace Xv6

open Base Finset

/-- How often a remainder comes up in a period. -/
theorem card_rands (seed i : Nat) {m v : Nat} (hv : v < m) :
    ((range (2 ^ 32)).filter fun j => rands seed (i + j) % m = v).card =
      2 ^ 32 / m + if v < 2 ^ 32 % m then 1 else 0 := by
  have hword : ∀ j, rands seed (i + j) % 2 ^ 32 = rands seed (i + j) := fun j =>
    Nat.mod_eq_of_lt (rands_lt seed (i + j))
  have hcount := Nat.count_modEq_card (2 ^ 32) (Nat.zero_lt_of_lt hv) v
  rw [Nat.mod_eq_of_lt hv, Nat.count_eq_card_filter_range] at hcount
  rw [← hcount]
  refine card_bij (fun j _ => rands seed (i + j)) ?_ ?_ ?_
  · intro j hj
    rw [mem_filter, mem_range, Nat.ModEq, Nat.mod_eq_of_lt hv]
    exact ⟨rands_lt .., (mem_filter.mp hj).2⟩
  · intro j hj j' hj' he
    refine (rands_exists_unique (le_refl 32) seed i (rands_lt seed (i + j))).unique ?_ ?_
    · exact ⟨mem_range.mp (mem_filter.mp hj).1, hword j⟩
    · exact ⟨mem_range.mp (mem_filter.mp hj').1, (hword j').trans he.symm⟩
  · intro r hr
    rw [mem_filter, mem_range, Nat.ModEq, Nat.mod_eq_of_lt hv] at hr
    obtain ⟨j, ⟨hj, hval⟩, -⟩ := rands_exists_unique (le_refl 32) seed i hr.1
    rw [hword] at hval
    exact ⟨j, mem_filter.mpr ⟨mem_range.mpr hj, hval ▸ hr.2⟩, hval⟩

theorem drawValue_natCast {m : Nat} (h0 : 0 < (m : Int)) (h1 : (m : Int) < 2 ^ 31 - 1) (r : Nat) :
    drawValue r m = ((r % (m + 1) : Nat) : Int) + 1 := by
  rw [drawValue_eq h0 h1, Int.natCast_emod]
  rfl

/-- How often a ticket number comes up in a period. -/
theorem card_drawValue (seed i : Nat) {m : Nat} {v : Int} (h1 : (m : Int) < 2 ^ 31 - 1) (hv : 1 ≤ v)
    (hle : v ≤ m) :
    2 ^ 32 / (m + 1) ≤ ((range (2 ^ 32)).filter fun j => drawValue (rands seed (i + j)) m = v).card ∧
      ((range (2 ^ 32)).filter fun j => drawValue (rands seed (i + j)) m = v).card ≤
        2 ^ 32 / (m + 1) + 1 := by
  have hiff : ∀ r : Nat, drawValue r m = v ↔ r % (m + 1) = (v - 1).toNat := by
    intro r
    rw [drawValue_natCast (by omega) h1]
    omega
  simp only [hiff]
  rw [card_rands seed i (show (v - 1).toNat < m + 1 by omega)]
  split <;> omega

/-- While the table stays as it is, a process wins in `2 ^ 32` consecutive passes as often as the
processes it stands in for have tickets, times the passes for each ticket number, of which there is
one more than tickets. Rounding gives at most one win more for each ticket. -/
theorem lottery_period (proc : Slot → Proc) (seed i : Nat)
    (hpos : ∀ p, (proc p).state = .runnable → 0 < (proc p).tickets)
    (hsum : ticketSum proc < 2 ^ 31 - 1) (w : Slot) (hw : (proc w).state = .runnable) :
    let passes : Int := 2 ^ 32 / (ticketSum proc + 1)
    let share := ∑ j with (proc j).state = .runnable ∧ tieBreak proc j = w, (proc j).tickets
    let wins : Int := ((range (2 ^ 32)).filter fun j =>
      chosen proc (drawValue (rands seed (i + j)) (totalTickets proc)) = some w).card
    passes * share ≤ wins ∧ wins ≤ (passes + 1) * share := by
  have h : Tickets proc := ⟨hpos, by omega⟩
  have h0 := h.sum_pos hw
  have hshare := h.card_chosen w
  have hnone := @Tickets.drawScan_eq_none proc h
  rw [h.total, ← hshare]
  obtain ⟨m, hm⟩ := Int.eq_ofNat_of_zero_le h0.le
  rw [hm] at hnone h0 hsum ⊢
  have hmaps : ∀ j ∈ (range (2 ^ 32)).filter fun j =>
      chosen proc (drawValue (rands seed (i + j)) m) = some w,
      drawValue (rands seed (i + j)) m ∈ (Icc 1 (m : Int)).filter fun v => chosen proc v = some w := by
    intro j hj
    have hwon := (mem_filter.mp hj).2
    have hlow : 1 ≤ drawValue (rands seed (i + j)) m := by
      rw [drawValue_natCast h0 hsum]
      omega
    refine mem_filter.mpr ⟨mem_Icc.mpr ⟨hlow, not_lt.mp fun hgt => ?_⟩, hwon⟩
    -- nobody holds the ticket number above the total
    rw [chosen, (hnone hlow).mpr hgt] at hwon
    cases hwon
  have hfiber : ∀ v ∈ (Icc 1 (m : Int)).filter fun v => chosen proc v = some w,
      ((range (2 ^ 32)).filter fun j =>
        chosen proc (drawValue (rands seed (i + j)) m) = some w).filter
          (fun j => drawValue (rands seed (i + j)) m = v) =
        (range (2 ^ 32)).filter fun j => drawValue (rands seed (i + j)) m = v := by
    intro v hv
    rw [filter_filter]
    exact filter_congr fun j _ => and_iff_right_of_imp fun hj => hj ▸ (mem_filter.mp hv).2
  have hbounds : ∀ v ∈ (Icc 1 (m : Int)).filter fun v => chosen proc v = some w, 1 ≤ v ∧ v ≤ m :=
    fun v hv => mem_Icc.mp (mem_filter.mp hv).1
  have hleast := mul_card_image_le_card_of_maps_to hmaps (2 ^ 32 / (m + 1)) fun v hv => by
    rw [hfiber v hv]
    exact (card_drawValue seed i hsum (hbounds v hv).1 (hbounds v hv).2).1
  have hmost := card_le_mul_card_image_of_maps_to hmaps (2 ^ 32 / (m + 1) + 1) fun v hv => by
    rw [hfiber v hv]
    exact (card_drawValue seed i hsum (hbounds v hv).1 (hbounds v hv).2).2
  exact ⟨by exact_mod_cast hleast, by exact_mod_cast hmost⟩

/-- The earlier of two processes with one ticket each wins two passes out of three. -/
theorem lottery_period_two : ∃ wins : Int,
    wins = ((range (2 ^ 32)).filter fun j => chosen (twoTickets 0 1)
      (drawValue (rands 123456789 j) (totalTickets (twoTickets 0 1))) = some 1).card ∧
      2863311530 ≤ wins ∧ wins ≤ 2863311532 := by
  have hsum : ticketSum (twoTickets 0 1) = 2 := by decide +kernel
  have hshare : ∑ j with (twoTickets 0 1 j).state = .runnable ∧ tieBreak (twoTickets 0 1) j = 1,
      (twoTickets 0 1 j).tickets = 2 := by decide +kernel
  have h := lottery_period (twoTickets 0 1) 123456789 0 (by decide +kernel) (by rw [hsum]; decide) 1 rfl
  simp only [hsum, hshare, Nat.zero_add] at h
  exact ⟨_, rfl, by omega, by omega⟩

end Xv6
