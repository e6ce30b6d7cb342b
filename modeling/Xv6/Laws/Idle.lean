import Xv6.Laws.Fields
import Xv6.Laws.Rand

/-!
# Tickets of any value, and a CPU that idles

`settickets` stores any `int`. The total and the running sums of the LBS pass are right, and every
runnable process can win, exactly when the runnable processes have positive tickets whose sum is an
`int`. As long as that is so, the CPU does not stay idle while a process is runnable. A single pass
may draw the ticket that nobody holds, but the generator has full period and comes to 0, which draws
ticket 1.
-/

namespace Xv6

open Base Base.Machine

variable {n : Nat} {k k' : Kernel n} {p : Slot} {c : Fin n} {proc : Slot → Proc} {cfg : Config}

/-! ## Tickets are `int`s -/

/-- Every process's tickets are an `int`. -/
def TicketRange (k : Kernel n) : Prop :=
  ∀ p, -2 ^ 31 ≤ (k.proc p).tickets ∧ (k.proc p).tickets < 2 ^ 31

theorem TicketRange.inherited (h : TicketRange k) (p : Slot) :
    -2 ^ 31 ≤ k.inherited p ∧ k.inherited p < 2 ^ 31 := by
  rw [Kernel.inherited]
  split
  · exact h _
  · exact ⟨by decide, by decide⟩

theorem TicketRange.step {e : Event n} (h : TicketRange k) (hs : (system cfg n).Step k e k') :
    TicketRange k' := by
  intro x
  obtain ⟨o, ho, hstep⟩ := own_step hs x
  show -2 ^ 31 ≤ (k'.proc x).own.tickets ∧ (k'.proc x).own.tickets < 2 ^ 31
  rw [ho]
  cases hstep with
  | fresh t _ ht =>
    rcases ht with rfl | rfl
    · show -2 ^ 31 ≤ (1 : Int) ∧ (1 : Int) < 2 ^ 31
      exact ⟨by decide, by decide⟩
    · exact h.inherited x
  | wrote hw _ _ =>
    cases hw with
    | settickets c tickets _ => exact int32_range tickets
    | _ => exact h x
  | _ => exact h x

theorem ticketRange_reachable (h : (system cfg n).Reachable k) : TicketRange k := by
  refine h.invariant (fun p => ?_) fun _ _ _ hs hstep => hs.step hstep
  show -2 ^ 31 ≤ (0 : Int) ∧ (0 : Int) < 2 ^ 31
  exact ⟨by decide, by decide⟩

/-! ## When the sums are right -/

/-- The total is the sum of the tickets and positive, and every runnable process holds a ticket
that can be drawn. -/
structure Tallied (proc : Slot → Proc) : Prop where
  total : totalTickets proc = ticketSum proc
  pos : 0 < totalTickets proc
  wins : ∀ p, (proc p).state = .runnable →
    ∃ v, 1 ≤ v ∧ v ≤ totalTickets proc ∧ drawScan proc v slots 0 = some p

theorem Tickets.tallied (h : Tickets proc) (hp : (proc p).state = .runnable) : Tallied proc := by
  have hpos := h.sum_pos hp
  refine ⟨h.total, by rw [h.total]; exact hpos, fun q hq => ?_⟩
  obtain ⟨v, hlow, hhigh, hdraw⟩ := h.fits.exists_draw int32_bounded (mem_runnables.mpr hq)
  rw [zero_add] at hhigh
  refine ⟨v, hlow, ?_, ?_⟩
  · rw [h.total]
    exact hhigh
  · rw [drawScan_eq]
    exact hdraw

theorem Tallied.tickets (h : Tallied proc)
    (hrange : ∀ p, -2 ^ 31 ≤ (proc p).tickets ∧ (proc p).tickets < 2 ^ 31) : Tickets proc := by
  have hfits : Fits (2 ^ 31) (fun p => (proc p).tickets) (runnables proc) 0 := by
    refine fits_of_draw int32_bounded (le_refl 0) (by decide) (fun p _ => hrange p)
      (runnables_nodup proc) fun p hp => ?_
    obtain ⟨v, hv, -, hdraw⟩ := h.wins p (mem_runnables.mp hp)
    rw [drawScan_eq] at hdraw
    exact ⟨v, hv, hdraw⟩
  refine ⟨fun p hp => hfits.pos p (mem_runnables.mpr hp), ?_⟩
  have hsum := hfits.sum
  rw [zero_add] at hsum
  exact hsum

/-! ## Idle stretches -/

/-- The generator comes to 0 from every seed. -/
theorem lcg_hits_zero (s : Nat) : ∃ m, lcg^[m + 1] s = 0 := by
  obtain ⟨m, ⟨-, hm⟩, -⟩ := rands_exists_unique (le_refl 32) s 0 (Nat.two_pow_pos 32)
  rw [Nat.zero_add, Nat.mod_eq_of_lt (rands_lt s m)] at hm
  exact ⟨m, hm⟩

theorem lbsPass_zero (h : Tickets k.proc) (hp : (k.proc p).state = .runnable) (c : Fin n) :
    (k.lbsPass c 0).myproc c ≠ none := by
  have hpos := h.sum_pos hp
  have hvalue : drawValue 0 (totalTickets k.proc) = 1 := by
    have hzero : int32 ((0 : Nat) : Int) = 0 := int32_bounded.exact _ (by norm_num) (by norm_num)
    rw [drawValue, randAtMax, Nat.zero_mod, hzero]
    exact int32_bounded.exact _ (by norm_num) (by norm_num)
  have hdraw : drawScan k.proc 1 slots 0 ≠ none := by
    rw [Ne, h.drawScan_eq_none Int.zero_lt_one]
    omega
  obtain ⟨w, hw⟩ := Option.ne_none_iff_exists'.mp hdraw
  have htie : (Kernel.proc { k with seed := 0 } (tieBreak k.proc w)).state = .runnable :=
    tieBreak_runnable (drawScan_runnable hw)
  rw [lbsPass_eq (by rw [h.total]; exact hpos), hvalue, hw]
  simp [(dispatch_running htie).1]

/-- No hart has a process. -/
def Kernel.idle (k : Kernel n) : Prop := ∀ c, k.myproc c = none

/-- Over a step that leaves the harts idle, runnable processes stay runnable. -/
theorem runnable_stays {e : Event n} (hinv : Inv k) (hidle : k.idle) (hidle' : k'.idle)
    (hs : (system cfg n).Step k e k') (hp : (k.proc p).state = .runnable) :
    (k'.proc p).state = .runnable := by
  cases (step_spec hinv hs).2 with
  | calm _ hcalm => exact (hcalm.slot p).stay hp
  | passed c hpass =>
    cases hpass with
    | idle hcalm => exact (hcalm.slot p).stay hp
    | @dispatched k₁ q _ hproc hrun =>
      have hbusy := (dispatch_running (k := k₁) (c := c) (by rw [hproc]; exact hrun)).1
      rw [hidle' c] at hbusy
      cases hbusy
  | spared => exact hp
  | killed c pid q _ hk =>
    by_cases hq : p = q
    · rw [← hq] at hk
      rcases hk.self with ⟨-, he⟩ | ⟨-, he⟩
      · rw [he]; exact hp
      · rw [he]
    · rw [hk.other hq]
      exact hp
  | booted a q hpub _ | forked c q hpub _ =>
    by_cases hq : p = q
    · rw [hq]; exact hpub.new
    · exact (hpub.other p hq).stay hp
  | userTick c u page q _ hc _ _ =>
    rw [hidle c] at hc
    cases hc
  | kernelTick c u page _ _ _ htick hcalm => exact (hcalm.slot p).stay ((htick.slot p).stay hp)

/-- Only scheduler passes move the seed. -/
theorem seed_stays {e : Event n} (hs : (system cfg n).Step k e k')
    (he : ∀ c, e ≠ .scheduler c) : k'.seed = k.seed := by
  cases owned_step hs with
  | keeps _ h | exited c status p _ h | booted a p h | alarm c u page p tf a _ _ _ _ h
  | counted c p _ _ h | sigalarm c ticks handler p _ h | sigreturn c p _ h
  | settickets c tickets p _ h => exact h.seed
  | passed c _ => exact absurd rfl (he c)
  | forked c a uvmcopy h =>
    cases h with
    | failed hk _ => exact hk.seed
    | undone p ha _ _ | made p ha _ _ => exact ha.seed

theorem dispatch_seed (k : Kernel n) (c : Fin n) (p : Slot) : (k.dispatch c p).seed = k.seed := by
  rw [Kernel.dispatch]
  split <;> rfl

/-- A pass that leaves the harts idle has moved the seed, and not to 0. -/
theorem seed_moves (hb : cfg.build = .lbs) (hgood : Tickets k.proc)
    (hp : (k.proc p).state = .runnable) (hidle' : k'.idle)
    (hs : (system cfg n).Step k (.scheduler c) k') : k'.seed = lcg k.seed ∧ lcg k.seed ≠ 0 := by
  have hk' : k.lbsPass c (lcg k.seed) = k' := by
    have hexec : k.scheduler cfg.build c = .ok k' := hs.2
    rw [hb] at hexec
    exact Except.ok.inj hexec
  have htotal : 0 < totalTickets k.proc := by
    rw [hgood.total]
    exact hgood.sum_pos hp
  constructor
  · rw [← hk', lbsPass_eq htotal]
    split
    · rfl
    · exact dispatch_seed _ c _
  · intro hzero
    rw [hzero] at hk'
    refine lbsPass_zero hgood hp c ?_
    rw [hk']
    exact hidle' c

/-- An endless run from `k` in which some scheduler passes again and again. -/
structure Endless (cfg : Config) (k : Kernel n) (σ : Nat → Kernel n) (e : Nat → Event n) :
    Prop where
  start : σ 0 = k
  steps : ∀ i, (system cfg n).Step (σ i) (e i) (σ (i + 1))
  passes : ∀ i, ∃ j, i ≤ j ∧ ∃ c, e j = .scheduler c

section Endless

variable {σ : Nat → Kernel n} {e : Nat → Event n}

theorem Endless.reachable (h : Endless cfg k σ e) (hk : (system cfg n).Reachable k) (i : Nat) :
    (system cfg n).Reachable (σ i) := by
  induction i with
  | zero => rw [h.start]; exact hk
  | succ i ih => exact ih.step (h.steps i)

theorem Endless.next_pass (h : Endless cfg k σ e) (i : Nat) :
    ∃ j, i ≤ j ∧ (∃ c, e j = .scheduler c) ∧ ∀ l, i ≤ l → l < j → ∀ c, e l ≠ .scheduler c := by
  classical
  obtain ⟨hij, hj⟩ := Nat.find_spec (h.passes i)
  refine ⟨Nat.find (h.passes i), hij, hj, fun l hil hl c he => ?_⟩
  exact Nat.find_min (h.passes i) hl ⟨hil, c, he⟩

/-- As long as the harts stay idle, the generator goes on from any state to its next value, which
is not 0. -/
theorem Endless.seed_next (h : Endless cfg k σ e) (hb : cfg.build = .lbs)
    (hgood : ∀ i, Tickets (σ i).proc) (hidle : ∀ i, (σ i).idle)
    (hrunnable : ∀ i, ((σ i).proc p).state = .runnable) (i : Nat) :
    lcg (σ i).seed ≠ 0 ∧ ∃ j, (σ j).seed = lcg (σ i).seed := by
  obtain ⟨j, hij, ⟨c, hc⟩, hfirst⟩ := h.next_pass i
  have hsame : ∀ l, i ≤ l → l ≤ j → (σ l).seed = (σ i).seed := by
    intro l hil
    induction l, hil using Nat.le_induction with
    | base => intro _; rfl
    | succ l hil ih =>
      intro hlj
      exact (seed_stays (h.steps l) (hfirst l hil hlj)).trans (ih (Nat.le_of_succ_le hlj))
  have hstep := h.steps j
  rw [hc] at hstep
  have hmoves := seed_moves hb (hgood j) (hrunnable j) (hidle (j + 1)) hstep
  rw [hsame j hij (le_refl j)] at hmoves
  exact ⟨hmoves.2, j + 1, hmoves.1⟩

/-- The harts are not idle for ever. -/
theorem Endless.not_idle (h : Endless cfg k σ e) (hb : cfg.build = .lbs)
    (hk : (system cfg n).Reachable k) (hp : (k.proc p).state = .runnable)
    (hgood : ∀ i, Tickets (σ i).proc) : ∃ i, ¬ (σ i).idle := by
  by_contra hnever
  have hidle : ∀ i, (σ i).idle := fun i => not_not.mp fun hi => hnever ⟨i, hi⟩
  have hrunnable : ∀ i, ((σ i).proc p).state = .runnable := by
    intro i
    induction i with
    | zero => rw [h.start]; exact hp
    | succ i ih =>
      exact runnable_stays (inv_reachable (h.reachable hk i)) (hidle i) (hidle (i + 1)) (h.steps i) ih
  have hnext := h.seed_next hb hgood hidle hrunnable
  -- the seeds run through the generator's whole orbit
  have horbit : ∀ m, ∃ i, (σ i).seed = lcg^[m] (σ 0).seed := by
    intro m
    induction m with
    | zero => exact ⟨0, rfl⟩
    | succ m ih =>
      obtain ⟨i, hi⟩ := ih
      rw [Function.iterate_succ_apply', ← hi]
      exact (hnext i).2
  obtain ⟨m, hm⟩ := lcg_hits_zero (σ 0).seed
  obtain ⟨i, hi⟩ := horbit m
  rw [Function.iterate_succ_apply', ← hi] at hm
  exact (hnext i).1 hm

end Endless

/-- In every state of the LBS build with a runnable process, the sums are right and everybody can
win exactly when the tickets of the runnable processes are positive and add up to an `int`; and
while that is so the CPU is not idle for ever. -/
theorem lottery_sound (hb : cfg.build = .lbs) (h : (system cfg n).Reachable k)
    (hsome : ∃ p, (k.proc p).state = .runnable) :
    (Tallied k.proc ↔ Tickets k.proc) ∧
    ∀ σ e, Endless cfg k σ e → (∀ i, Tickets (σ i).proc) → ∃ i, ¬ (σ i).idle := by
  obtain ⟨p, hp⟩ := hsome
  refine ⟨⟨fun ht => ht.tickets (ticketRange_reachable h), fun ht => ht.tallied hp⟩, ?_⟩
  intro σ e hrun hgood
  exact hrun.not_idle hb h hp hgood

/-- The first process, with two tickets, and its child, with one, are both runnable. -/
theorem lottery_sound_two : ∃ k : Kernel 1, (system lbsConfig 1).Reachable k ∧
    (k.proc 0).state = .runnable ∧ (k.proc 0).tickets = 2 ∧ (k.proc 1).state = .runnable ∧
    (k.proc 1).tickets = 1 ∧ totalTickets k.proc = 3 ∧ (Tallied k.proc ↔ Tickets k.proc) := by
  obtain ⟨steps, k, hrun, htest⟩ := exists_run (M := system lbsConfig 1)
    [.userinit ⟨true, true⟩, .scheduler 0, .forkret 0, .fork 0 ⟨true, true⟩ true, .forkEnd 0,
      .settickets 0 2, .timer 0 zeroRegs true]
    (fun _ k => (k.proc 0).state == .runnable && (k.proc 0).tickets == 2 &&
      (k.proc 1).state == .runnable && (k.proc 1).tickets == 1 && totalTickets k.proc == 3)
    (by decide +kernel)
  simp only [Bool.and_eq_true, beq_iff_eq] at htest
  obtain ⟨⟨⟨⟨hfirst, htwo⟩, hsecond⟩, hone⟩, htotal⟩ := htest
  exact ⟨k, ⟨steps, hrun⟩, hfirst, htwo, hsecond, hone, htotal,
    (lottery_sound rfl ⟨steps, hrun⟩ ⟨0, hfirst⟩).1⟩

/-- The first process calls `settickets(0)` and gives the CPU up: it is runnable, the total is 0,
and every pass leaves the CPU idle and the state as it is. -/
theorem settickets_zero_idles : ∃ k : Kernel 1, (system lbsConfig 1).Reachable k ∧
    (k.proc 0).state = .runnable ∧ totalTickets k.proc = 0 ∧
    (system lbsConfig 1).Step k (.scheduler 0) k ∧ k.myproc 0 = none := by
  obtain ⟨steps, k, hrun, htest⟩ := exists_run (M := system lbsConfig 1)
    [.userinit ⟨true, true⟩, .scheduler 0, .forkret 0, .settickets 0 0, .timer 0 zeroRegs true]
    (fun _ k => (k.proc 0).state == .runnable && totalTickets k.proc == 0 &&
      k.enabled (.scheduler 0) && k.myproc 0 == none) (by decide +kernel)
  simp only [Bool.and_eq_true, beq_iff_eq] at htest
  obtain ⟨⟨⟨hrunnable, htotal⟩, henabled⟩, hidle⟩ := htest
  refine ⟨k, ⟨steps, hrun⟩, hrunnable, htotal, ⟨henabled, ?_⟩, hidle⟩
  show Except.ok (k.lbsPass 0 (lcg k.seed)) = .ok k
  rw [Kernel.lbsPass, if_neg (by rw [htotal]; decide)]

end Xv6
