import Xv6.Base.Lottery
import Xv6.Laws.System

/-!
# The lottery

The LBS pass adds up the tickets of the runnable processes, draws a ticket, and looks for the
process that holds it. Both loops are the lottery of `Base` over the list of runnable processes in
`int` arithmetic. The ticket drawn lies between 1 and one more than the total, because `rand_at_max`
takes the remainder by `total + 1` and one is added to the result; the extra ticket is nobody's, and
a pass that draws it dispatches nobody.
-/

namespace Xv6

open Base Base.Machine

variable {n : Nat} {k k' : Kernel n} {p : Slot} {c : Fin n} {proc : Slot → Proc} {r : Nat}

/-! ## The two loops -/

/-- The runnable processes in table order. -/
def runnables (proc : Slot → Proc) : List Slot :=
  slots.filter fun p => (proc p).state = .runnable

/-- Their tickets added up without overflow. -/
def ticketSum (proc : Slot → Proc) : Int := ((runnables proc).map fun p => (proc p).tickets).sum

theorem mem_runnables : p ∈ runnables proc ↔ (proc p).state = .runnable := by
  simp [runnables, slots]

theorem runnables_nodup (proc : Slot → Proc) : (runnables proc).Nodup :=
  (List.nodup_finRange NPROC).filter _

/-- The C type `int`. -/
theorem int32_bounded : Bounded int32 (2 ^ 31) := by
  refine ⟨fun x hlow hhigh => ?_, fun x hlow hhigh => ?_⟩
  all_goals
    rw [int32, Int.bmod_def]
    split <;> omega

theorem totalTickets_eq (proc : Slot → Proc) :
    totalTickets proc = tally int32 (fun p => (proc p).tickets) (runnables proc) 0 := by
  have hloop : ∀ (l : List Slot) (s : Int), l.foldl (fun total p =>
      if (proc p).state = .runnable then int32 (total + (proc p).tickets) else total) s =
      tally int32 (fun p => (proc p).tickets)
        (l.filter fun p => (proc p).state = .runnable) s := by
    intro l
    induction l with
    | nil => intro s; rfl
    | cons p l ih =>
      intro s
      rw [List.foldl_cons, ih, List.filter_cons]
      by_cases hp : (proc p).state = .runnable
      · rw [if_pos hp, if_pos (decide_eq_true hp)]
        rfl
      · rw [if_neg hp, if_neg (by simpa using hp)]
  exact hloop slots 0

theorem drawScan_eq (proc : Slot → Proc) (v : Int) :
    drawScan proc v slots 0 =
      draw int32 (fun p => (proc p).tickets) v (runnables proc) 0 := by
  have hloop : ∀ (l : List Slot) (s : Int), drawScan proc v l s =
      draw int32 (fun p => (proc p).tickets) v
        (l.filter fun p => (proc p).state = .runnable) s := by
    intro l
    induction l with
    | nil => intro s; rfl
    | cons p l ih =>
      intro s
      rw [drawScan, List.filter_cons]
      by_cases hp : (proc p).state = .runnable
      · rw [if_pos hp, if_pos (decide_eq_true hp), draw, ih]
      · rw [if_neg hp, if_neg (by simpa using hp), ih]
  exact hloop slots 0

theorem tieBreak_runnable {w : Slot} (hw : (proc w).state = .runnable) :
    (proc (tieBreak proc w)).state = .runnable := by
  have hloop : ∀ (l : List Slot) (w : Slot), (proc w).state = .runnable →
      (proc (l.foldl (fun w p =>
        if (proc p).state ≠ .runnable ∨ (proc p).tickets ≠ (proc w).tickets then w
        else if (proc p).arrivalTime < (proc w).arrivalTime then p else w) w)).state =
        .runnable := by
    intro l
    induction l with
    | nil => intro w hw; exact hw
    | cons p l ih =>
      intro w hw
      rw [List.foldl_cons]
      refine ih _ ?_
      split
      · exact hw
      · next hp =>
        split
        · exact not_not.mp (not_or.mp hp).1
        · exact hw
  exact hloop slots w hw

/-! ## Tickets in order -/

/-- Every runnable process has a positive number of tickets, and their sum is an `int`. -/
structure Tickets (proc : Slot → Proc) : Prop where
  pos : ∀ p, (proc p).state = .runnable → 0 < (proc p).tickets
  sum : ticketSum proc < 2 ^ 31

theorem Tickets.fits (h : Tickets proc) :
    Fits (2 ^ 31) (fun p => (proc p).tickets) (runnables proc) 0 :=
  ⟨le_refl 0, fun p hp => h.pos p (mem_runnables.mp hp), by rw [zero_add]; exact h.sum⟩

theorem Tickets.total (h : Tickets proc) : totalTickets proc = ticketSum proc := by
  rw [totalTickets_eq, h.fits.tally int32_bounded, zero_add]
  rfl

theorem Tickets.sum_pos (h : Tickets proc) (hp : (proc p).state = .runnable) :
    0 < ticketSum proc := by
  have hmem : (proc p).tickets ∈ (runnables proc).map fun p => (proc p).tickets :=
    List.mem_map.mpr ⟨p, mem_runnables.mpr hp, rfl⟩
  refine lt_of_lt_of_le (h.pos p hp) (List.single_le_sum ?_ _ hmem)
  intro x hx
  obtain ⟨q, hq, rfl⟩ := List.mem_map.mp hx
  exact (h.pos q (mem_runnables.mp hq)).le

/-- A positive ticket number draws nobody exactly when it is above the sum. -/
theorem Tickets.drawScan_eq_none (h : Tickets proc) {v : Int} (hv : 0 < v) :
    drawScan proc v slots 0 = none ↔ ticketSum proc < v := by
  rw [drawScan_eq, h.fits.draw_eq_none int32_bounded hv, zero_add]
  rfl

/-- A ticket number draws a runnable process. -/
theorem drawScan_runnable {v : Int} (h : drawScan proc v slots 0 = some p) :
    (proc p).state = .runnable := by
  rw [drawScan_eq] at h
  exact mem_runnables.mp (mem_of_draw h)

/-- The ticket drawn out of a total in range. -/
theorem drawValue_eq {total : Int} (h0 : 0 < total) (h1 : total < 2 ^ 31 - 1) (r : Nat) :
    drawValue r total = (r : Int) % (total + 1) + 1 := by
  have hmod : int32 (total + 1) = total + 1 := int32_bounded.exact _ (by omega) (by omega)
  have hunsigned : toUnsigned (total + 1) = (total + 1).toNat := by
    rw [toUnsigned, Int.emod_eq_of_lt (by omega) (by omega)]
  have hlt : (r : Int) % (total + 1) < total + 1 := Int.emod_lt_of_pos _ (by omega)
  have hnonneg : 0 ≤ (r : Int) % (total + 1) := Int.emod_nonneg _ (by omega)
  have hcast : ((r % (total + 1).toNat : Nat) : Int) = (r : Int) % (total + 1) := by
    rw [Int.natCast_emod, Int.toNat_of_nonneg (by omega)]
  have hremainder : int32 ((r : Int) % (total + 1)) = (r : Int) % (total + 1) :=
    int32_bounded.exact _ (by omega) (by omega)
  rw [drawValue, randAtMax, hmod, hunsigned, hcast, hremainder]
  exact int32_bounded.exact _ (by omega) (by omega)

/-! ## One pass -/

/-- The pass draws a ticket somebody holds, and dispatches a runnable process. -/
structure Dispatches (k : Kernel n) (c : Fin n) (r : Nat) : Prop where
  /-- the ticket is one of those sold -/
  value : 1 ≤ drawValue r (totalTickets k.proc) ∧
    drawValue r (totalTickets k.proc) ≤ totalTickets k.proc
  /-- its holder is runnable, and so is the process the tie break puts in its place, which is
  then the one running on the hart -/
  winner : ∃ w, drawScan k.proc (drawValue r (totalTickets k.proc)) slots 0 = some w ∧
    (k.proc w).state = .runnable ∧ (k.proc (tieBreak k.proc w)).state = .runnable ∧
    (k.lbsPass c r).myproc c = some (tieBreak k.proc w) ∧
    ((k.lbsPass c r).proc (tieBreak k.proc w)).state = .running

/-- A pass with a total in range either dispatches the process drawn, or draws nobody. -/
theorem lbsPass_eq (h0 : 0 < totalTickets k.proc) (r : Nat) :
    k.lbsPass c r = match drawScan k.proc (drawValue r (totalTickets k.proc)) slots 0 with
      | none => { k with seed := r }
      | some w => { k with seed := r }.dispatch c (tieBreak k.proc w) := by
  rw [Kernel.lbsPass, if_pos h0]
  rfl

theorem dispatch_running (h : (k.proc p).state = .runnable) :
    (k.dispatch c p).myproc c = some p ∧ ((k.dispatch c p).proc p).state = .running := by
  rw [Kernel.dispatch, if_pos h]
  simp [Kernel.myproc, Kernel.setCpu_cpu]

/-- Whatever the table with positive tickets, a pass dispatches exactly when the number `rand`
answers is not the last one before a multiple of `total + 1`. -/
theorem lbs_dispatches_iff (k : Kernel n) (c : Fin n) (r : Nat)
    (hsome : ∃ p, (k.proc p).state = .runnable)
    (hpos : ∀ p, (k.proc p).state = .runnable → 0 < (k.proc p).tickets)
    (hsum : ticketSum k.proc < 2 ^ 31 - 1) :
    Dispatches k c r ↔ (r : Int) % (ticketSum k.proc + 1) ≠ ticketSum k.proc := by
  have hgood : Tickets k.proc := ⟨hpos, by omega⟩
  obtain ⟨p, hp⟩ := hsome
  have h0 : 0 < ticketSum k.proc := hgood.sum_pos hp
  have htotal := hgood.total
  have hvalue : drawValue r (totalTickets k.proc) = (r : Int) % (ticketSum k.proc + 1) + 1 := by
    rw [htotal]
    exact drawValue_eq h0 hsum r
  have hlt : (r : Int) % (ticketSum k.proc + 1) < ticketSum k.proc + 1 :=
    Int.emod_lt_of_pos _ (by omega)
  have hnonneg : 0 ≤ (r : Int) % (ticketSum k.proc + 1) := Int.emod_nonneg _ (by omega)
  constructor
  · intro h
    have := h.value.2
    rw [hvalue, htotal] at this
    omega
  · intro hne
    have hdraw : drawScan k.proc (drawValue r (totalTickets k.proc)) slots 0 ≠ none := by
      rw [Ne, hgood.drawScan_eq_none (by omega)]
      omega
    obtain ⟨w, hw⟩ := Option.ne_none_iff_exists'.mp hdraw
    have hrun := drawScan_runnable hw
    have htie := tieBreak_runnable hrun
    refine ⟨⟨by omega, by omega⟩, w, hw, hrun, htie, ?_⟩
    rw [lbsPass_eq (by omega), hw]
    exact dispatch_running htie

/-- The LBS build, for the runs that are computed. -/
def lbsConfig : Config := { build := .lbs }

/-- One hart and one runnable process with a single ticket. -/
def Kernel.oneTicket : Kernel 1 :=
  (Kernel.boot 1).modify 0 fun x => { x with state := .runnable, tickets := 1 }

/-- With one ticket sold, an even number dispatches. -/
theorem lbs_dispatches_even : Dispatches Kernel.oneTicket 0 4 := by
  refine (lbs_dispatches_iff Kernel.oneTicket 0 4 ⟨0, by decide +kernel⟩ ?_ ?_).mpr ?_
  all_goals decide +kernel

/-- With one ticket sold, an odd number draws ticket 2 and dispatches nobody. -/
theorem lbs_idle_odd : drawValue 5 (totalTickets Kernel.oneTicket.proc) = 2 ∧
    drawScan Kernel.oneTicket.proc 2 slots 0 = none ∧
    (Kernel.oneTicket.lbsPass 0 5).myproc 0 = none ∧ ¬ Dispatches Kernel.oneTicket 0 5 := by
  have hvalue : drawValue 5 (totalTickets Kernel.oneTicket.proc) = 2 := by decide +kernel
  refine ⟨hvalue, by decide +kernel, by decide +kernel, fun h => ?_⟩
  have htotal : totalTickets Kernel.oneTicket.proc = 1 := by decide +kernel
  have := h.value.2
  rw [hvalue, htotal] at this
  omega

end Xv6
