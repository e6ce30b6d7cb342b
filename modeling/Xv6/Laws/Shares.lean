import Xv6.Laws.Lottery

/-!
# Shares of the lottery

How many of the ticket numbers from 1 to the total each process wins. The first scan gives a process
as many of them as it has tickets. The second scan then hands the win to the earliest arrival among
the runnable processes with as many tickets as the one drawn. So a process wins for itself and for
those that it stands in for. The comparison value of the second scan changes while it runs, but only
to a process with as many tickets and an earlier arrival.
-/

namespace Xv6

open Base

variable {proc : Slot → Proc} {p j w : Slot} {v : Int}

/-- The process that a ticket number makes an LBS pass choose. -/
def chosen (proc : Slot → Proc) (v : Int) : Option Slot :=
  (drawScan proc v slots 0).map (tieBreak proc)

/-- A pass makes the process chosen run on its hart. -/
theorem lbsPass_chosen {n : Nat} {k : Kernel n} (htotal : 0 < totalTickets k.proc) (c : Fin n)
    (r : Nat) :
    (k.lbsPass c r).myproc c =
        (chosen k.proc (drawValue r (totalTickets k.proc))).or (k.myproc c) ∧
      ∀ w, chosen k.proc (drawValue r (totalTickets k.proc)) = some w →
        ((k.lbsPass c r).proc w).state = .running := by
  rw [lbsPass_eq htotal, chosen]
  cases hdraw : drawScan k.proc (drawValue r (totalTickets k.proc)) slots 0 with
  | none => exact ⟨rfl, nofun⟩
  | some j =>
    obtain ⟨hcpu, hstate⟩ := dispatch_running (k := { k with seed := r }) (c := c)
      (tieBreak_runnable (drawScan_runnable hdraw))
    refine ⟨hcpu, fun w hw => ?_⟩
    cases hw
    exact hstate

/-- One turn of the second scan. -/
def earlier (proc : Slot → Proc) (w p : Slot) : Slot :=
  if (proc p).state ≠ .runnable ∨ (proc p).tickets ≠ (proc w).tickets then w
  else if (proc p).arrivalTime < (proc w).arrivalTime then p else w

theorem tieBreak_eq (proc : Slot → Proc) (w : Slot) :
    tieBreak proc w = slots.foldl (earlier proc) w := rfl

/-- What the second scan has made of `j` after the processes `l`. -/
structure StandsIn (proc : Slot → Proc) (l : List Slot) (j w : Slot) : Prop where
  tickets : (proc w).tickets = (proc j).tickets
  runnable : (proc j).state = .runnable → (proc w).state = .runnable
  least : ∀ p ∈ l, (proc p).state = .runnable → (proc p).tickets = (proc j).tickets →
    (proc w).arrivalTime ≤ (proc p).arrivalTime
  /-- another process takes the place of `j` only with an earlier arrival -/
  earlier : w ≠ j → (proc w).arrivalTime < (proc j).arrivalTime

theorem StandsIn.step {l : List Slot} (h : StandsIn proc l j w) (p : Slot) :
    StandsIn proc (l ++ [p]) j (Xv6.earlier proc w p) := by
  have hextend : ∀ {w' : Slot}, (proc w').arrivalTime ≤ (proc w).arrivalTime →
      ((proc p).state = .runnable → (proc p).tickets = (proc j).tickets →
        (proc w').arrivalTime ≤ (proc p).arrivalTime) →
      ∀ q ∈ l ++ [p], (proc q).state = .runnable → (proc q).tickets = (proc j).tickets →
        (proc w').arrivalTime ≤ (proc q).arrivalTime := by
    intro w' hle hp q hq hrun htickets
    rcases List.mem_append.mp hq with hq | hq
    · exact Nat.le_trans hle (h.least q hq hrun htickets)
    · rw [List.mem_singleton.mp hq] at hrun htickets ⊢
      exact hp hrun htickets
  unfold Xv6.earlier
  split
  · next hskip =>
    refine ⟨h.tickets, h.runnable, hextend (Nat.le_refl _) fun hrun htickets => ?_, h.earlier⟩
    exact absurd hskip (not_or.mpr ⟨not_not.mpr hrun, not_not.mpr (htickets.trans h.tickets.symm)⟩)
  · next hsame =>
    obtain ⟨hrun, htickets⟩ := not_or.mp hsame
    split
    · next hlt =>
      refine ⟨(not_not.mp htickets).trans h.tickets, fun _ => not_not.mp hrun,
        hextend (Nat.le_of_lt hlt) fun _ _ => Nat.le_refl _, fun _ => ?_⟩
      by_cases hw : w = j
      · rw [← hw]
        exact hlt
      · exact Nat.lt_trans hlt (h.earlier hw)
    · next hge =>
      exact ⟨h.tickets, h.runnable, hextend (Nat.le_refl _) fun _ _ => Nat.not_lt.mp hge, h.earlier⟩

theorem tieBreak_standsIn (proc : Slot → Proc) (j : Slot) :
    StandsIn proc slots j (tieBreak proc j) := by
  have hscan : ∀ (l m : List Slot) (w : Slot), StandsIn proc m j w →
      StandsIn proc (m ++ l) j (l.foldl (earlier proc) w) := by
    intro l
    induction l with
    | nil =>
      intro m w h
      rw [List.append_nil]
      exact h
    | cons p l ih =>
      intro m w h
      have hnext := ih (m ++ [p]) (earlier proc w p) (h.step p)
      rw [List.append_assoc] at hnext
      exact hnext
  rw [tieBreak_eq]
  exact hscan slots [] j ⟨rfl, id, fun p hp => absurd hp List.not_mem_nil, fun hne => absurd rfl hne⟩

theorem mem_slots (p : Slot) : p ∈ slots := List.mem_finRange p

/-! ## Counting -/

/-- As many of the ticket numbers draw a process as it has tickets. -/
theorem Tickets.card_draws (h : Tickets proc) (hp : (proc p).state = .runnable) :
    (((Finset.Icc 1 (ticketSum proc)).filter fun v => drawScan proc v slots 0 = some p).card : Int) =
      (proc p).tickets := by
  obtain ⟨lo, hlow, hhigh, hiff⟩ :=
    h.fits.draw_eq_some_iff int32_bounded (runnables_nodup proc) (mem_runnables.mpr hp)
  have hset : (Finset.Icc 1 (ticketSum proc)).filter (fun v => drawScan proc v slots 0 = some p) =
      Finset.Ioc lo (lo + (proc p).tickets) := by
    ext v
    have hsum : (0 : Int) + ((runnables proc).map fun p => (proc p).tickets).sum = ticketSum proc :=
      zero_add _
    rw [hsum] at hhigh
    rw [Finset.mem_filter, Finset.mem_Icc, Finset.mem_Ioc, drawScan_eq]
    constructor
    · rintro ⟨⟨hv, -⟩, hdraw⟩
      exact (hiff v (by omega)).mp hdraw
    · rintro ⟨hv, hle⟩
      exact ⟨⟨by omega, by omega⟩, (hiff v (by omega)).mpr ⟨hv, hle⟩⟩
  have hpos := h.pos p hp
  rw [hset, Int.card_Ioc]
  omega

/-- A ticket number from 1 to the total draws a runnable process. -/
theorem Tickets.exists_drawScan (h : Tickets proc) (hv : v ∈ Finset.Icc 1 (ticketSum proc)) :
    ∃ j, drawScan proc v slots 0 = some j ∧ (proc j).state = .runnable := by
  obtain ⟨hlow, hhigh⟩ := Finset.mem_Icc.mp hv
  have hsome : drawScan proc v slots 0 ≠ none := by
    rw [Ne, h.drawScan_eq_none (by omega)]
    omega
  obtain ⟨j, hj⟩ := Option.ne_none_iff_exists'.mp hsome
  exact ⟨j, hj, drawScan_runnable hj⟩

/-- The ticket numbers that a process wins are those that draw the processes it stands in for. -/
theorem Tickets.card_chosen (h : Tickets proc) (w : Slot) :
    (((Finset.Icc 1 (ticketSum proc)).filter fun v => chosen proc v = some w).card : Int) =
      ∑ j with (proc j).state = .runnable ∧ tieBreak proc j = w, (proc j).tickets := by
  have hunion : (Finset.Icc 1 (ticketSum proc)).filter (fun v => chosen proc v = some w) =
      (Finset.univ.filter fun j => (proc j).state = .runnable ∧ tieBreak proc j = w).biUnion fun j =>
        (Finset.Icc 1 (ticketSum proc)).filter fun v => drawScan proc v slots 0 = some j := by
    ext v
    simp only [Finset.mem_filter, Finset.mem_biUnion, Finset.mem_univ, true_and]
    constructor
    · rintro ⟨hv, hchosen⟩
      obtain ⟨j, hj, hrun⟩ := h.exists_drawScan hv
      rw [chosen, hj] at hchosen
      exact ⟨j, ⟨hrun, Option.some.inj hchosen⟩, hv, hj⟩
    · rintro ⟨j, ⟨-, hw⟩, hv, hj⟩
      refine ⟨hv, ?_⟩
      rw [chosen, hj, Option.map_some, hw]
  have hdisjoint : ∀ i ∈ Finset.univ.filter (fun j => (proc j).state = .runnable ∧ tieBreak proc j = w),
      ∀ j ∈ Finset.univ.filter (fun j => (proc j).state = .runnable ∧ tieBreak proc j = w), i ≠ j →
      Disjoint ((Finset.Icc 1 (ticketSum proc)).filter fun v => drawScan proc v slots 0 = some i)
        ((Finset.Icc 1 (ticketSum proc)).filter fun v => drawScan proc v slots 0 = some j) := by
    intro i _ j _ hne
    rw [Finset.disjoint_left]
    intro v hi hj
    have hi := (Finset.mem_filter.mp hi).2
    have hj := (Finset.mem_filter.mp hj).2
    exact hne (Option.some.inj (hi.symm.trans hj))
  rw [hunion, Finset.card_biUnion hdisjoint, Nat.cast_sum]
  refine Finset.sum_congr rfl fun j hj => ?_
  exact h.card_draws (Finset.mem_filter.mp hj).2.1

/-- For every table whose runnable processes have positive tickets with a total below the largest
`int`: each process is drawn by as many of the ticket numbers as it has tickets. The tie break hands
the win to a runnable process with as many tickets and the least arrival time among those, which is
the one drawn when none is earlier. So a process wins as many ticket numbers as those it stands in
for have tickets, and with equal tickets every draw picks a process of least arrival time. -/
theorem lottery_shares (proc : Slot → Proc)
    (hpos : ∀ p, (proc p).state = .runnable → 0 < (proc p).tickets)
    (hsum : ticketSum proc < 2 ^ 31 - 1) :
    (∀ p, (proc p).state = .runnable →
      (((Finset.Icc 1 (ticketSum proc)).filter fun v => drawScan proc v slots 0 = some p).card : Int) =
        (proc p).tickets) ∧
    (∀ j, (proc j).state = .runnable →
      (proc (tieBreak proc j)).state = .runnable ∧
      (proc (tieBreak proc j)).tickets = (proc j).tickets ∧
      (∀ p, (proc p).state = .runnable → (proc p).tickets = (proc j).tickets →
        (proc (tieBreak proc j)).arrivalTime ≤ (proc p).arrivalTime) ∧
      ((∀ p, (proc p).state = .runnable → (proc p).tickets = (proc j).tickets →
        (proc j).arrivalTime ≤ (proc p).arrivalTime) → tieBreak proc j = j)) ∧
    (∀ w, (((Finset.Icc 1 (ticketSum proc)).filter fun v => chosen proc v = some w).card : Int) =
      ∑ j with (proc j).state = .runnable ∧ tieBreak proc j = w, (proc j).tickets) ∧
    ((∀ i j, (proc i).state = .runnable → (proc j).state = .runnable →
        (proc i).tickets = (proc j).tickets) →
      ∀ v ∈ Finset.Icc 1 (ticketSum proc), ∃ w, chosen proc v = some w ∧
        (proc w).state = .runnable ∧
        ∀ p, (proc p).state = .runnable → (proc w).arrivalTime ≤ (proc p).arrivalTime) := by
  have h : Tickets proc := ⟨hpos, by omega⟩
  refine ⟨fun p hp => h.card_draws hp, fun j hj => ?_, h.card_chosen, fun hequal v hv => ?_⟩
  · have hstands := tieBreak_standsIn proc j
    refine ⟨hstands.runnable hj, hstands.tickets, fun p hp => hstands.least p (mem_slots p) hp,
      fun hfirst => ?_⟩
    by_contra hne
    have hlt := hstands.earlier hne
    have hge := hfirst _ (hstands.runnable hj) hstands.tickets
    omega
  · obtain ⟨j, hj, hrun⟩ := h.exists_drawScan hv
    have hstands := tieBreak_standsIn proc j
    refine ⟨tieBreak proc j, ?_, hstands.runnable hrun, fun p hp => ?_⟩
    · rw [chosen, hj, Option.map_some]
    · exact hstands.least p (mem_slots p) hp (hequal p j hp hrun)

/-- Two runnable processes with one ticket each, of which `q` arrived first. -/
def twoTickets (p q x : Slot) : Proc :=
  if x = p then { state := .runnable, tickets := 1, arrivalTime := 5 }
  else if x = q then { state := .runnable, tickets := 1, arrivalTime := 3 }
  else {}

/-- The second process wins both draws. -/
theorem lottery_shares_two :
    ticketSum (twoTickets 0 1) = 2 ∧
      ∀ v ∈ Finset.Icc 1 (ticketSum (twoTickets 0 1)), ∃ w, chosen (twoTickets 0 1) v = some w ∧
        (twoTickets 0 1 w).state = .runnable ∧
        ∀ p, (twoTickets 0 1 p).state = .runnable →
          (twoTickets 0 1 w).arrivalTime ≤ (twoTickets 0 1 p).arrivalTime := by
  have hpos : ∀ p, (twoTickets 0 1 p).state = .runnable → 0 < (twoTickets 0 1 p).tickets := by
    decide +kernel
  have hsum : ticketSum (twoTickets 0 1) = 2 := by decide +kernel
  have hequal : ∀ i j, (twoTickets 0 1 i).state = .runnable →
      (twoTickets 0 1 j).state = .runnable →
      (twoTickets 0 1 i).tickets = (twoTickets 0 1 j).tickets := by
    decide +kernel
  refine ⟨hsum, (lottery_shares (twoTickets 0 1) hpos ?_).2.2.2 hequal⟩
  rw [hsum]
  decide

end Xv6
