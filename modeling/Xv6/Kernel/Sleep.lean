import Xv6.Base.Machine

/-!
# Sleeping for a number of ticks

`sys_sleep` of `kernel/sysproc.c`, with what `clockintr`, `kill`, `sleep` and `wakeup` do to the
caller. The machine follows one call from where it has read the counter, with `tickslock` held. A step
of the caller is what it does between two points where others can act: one evaluation of the loop
condition, the question whether it was killed, falling asleep, taking the lock again. The clock needs
`tickslock`; a kill may come at any time, and so may a wakeup that is not the clock's.

The counter is a 32-bit number, and the difference in the loop condition is one as well, so the
argument is compared as an unsigned number. The machine also counts the clock interrupts since the
call.
-/

namespace Xv6

open Base

/-- Where a call of `sys_sleep` stands. -/
inductive SleepPc
  /-- at the loop condition, with `tickslock` held -/
  | checking
  /-- the loop goes on; about to ask whether it was killed -/
  | asking
  /-- about to sleep -/
  | drowsy
  | asleep
  /-- woken; about to take `tickslock` -/
  | awake
  | returned (r : Int)
deriving DecidableEq

/-- A call of `sys_sleep`, the tick counter, and the clock interrupts since the call. -/
structure Sleeper where
  ticks : UInt32
  ticks0 : UInt32
  killed : Bool
  pc : SleepPc
  passed : Nat
deriving DecidableEq

/-- The caller runs, the clock ticks, and others kill the caller or wake it. -/
inductive SleepEvent
  | run
  | clock
  | kill
  | wake
deriving DecidableEq

namespace Sleeper

/-- `wakeup(&ticks)`, and what `kill` does to a sleeping process. -/
def wakeup (s : Sleeper) : Sleeper :=
  match s.pc with
  | .asleep => { s with pc := .awake }
  | _ => s

/-- The caller's next step. -/
def run (n : Int32) (s : Sleeper) : Sleeper :=
  match s.pc with
  | .checking => { s with pc := if s.ticks - s.ticks0 < n.toUInt32 then .asking else .returned 0 }
  | .asking => { s with pc := if s.killed then .returned (-1) else .drowsy }
  | .drowsy => { s with pc := .asleep }
  | .awake => { s with pc := .checking }
  | _ => s

/-- What the event does. -/
def exec (n : Int32) (s : Sleeper) : SleepEvent → Sleeper
  | .run => s.run n
  | .clock => { s with ticks := s.ticks + 1, passed := s.passed + 1 }.wakeup
  | .kill => { s with killed := true }.wakeup
  | .wake => s.wakeup

/-- The caller holds `tickslock`. -/
def locked (s : Sleeper) : Bool :=
  match s.pc with
  | .checking | .asking | .drowsy => true
  | _ => false

/-- The event can happen. -/
def enabled (s : Sleeper) : SleepEvent → Bool
  | .run =>
    match s.pc with
    | .asleep | .returned _ => false
    | _ => true
  | .clock => !s.locked
  | _ => true

end Sleeper

/-- `sys_sleep(n)`, called when the counter is at `ticks0`. -/
def sysSleep (n : Int32) (ticks0 : UInt32) (killed : Bool) : Machine Sleeper SleepEvent Fault where
  init := ⟨ticks0, ticks0, killed, .checking, 0⟩
  enabled e s := s.enabled e
  exec e s := .ok (s.exec n e)

/-! ## The law -/

namespace Sleeper

@[simp] theorem wakeup_ticks (s : Sleeper) : s.wakeup.ticks = s.ticks := by
  unfold wakeup
  split <;> rfl

@[simp] theorem wakeup_ticks0 (s : Sleeper) : s.wakeup.ticks0 = s.ticks0 := by
  unfold wakeup
  split <;> rfl

@[simp] theorem wakeup_killed (s : Sleeper) : s.wakeup.killed = s.killed := by
  unfold wakeup
  split <;> rfl

@[simp] theorem wakeup_passed (s : Sleeper) : s.wakeup.passed = s.passed := by
  unfold wakeup
  split <;> rfl

theorem wakeup_pc (s : Sleeper) {pc : SleepPc} (h : pc ≠ .asleep) (h' : pc ≠ .awake) :
    s.wakeup.pc = pc ↔ s.pc = pc := by
  unfold wakeup
  split
  next hasleep =>
    rw [hasleep]
    exact iff_of_false h'.symm h.symm
  next => exact Iff.rfl

/-- The step is a check of the loop condition. -/
def Check (x : Sleeper × SleepEvent) : Prop := x.2 = .run ∧ x.1.pc = .checking

/-- A check has found that at least `max n 0` ticks have been counted since the call. -/
def Due (n : Int32) (steps : List (Sleeper × SleepEvent)) : Prop :=
  ∃ x ∈ steps, Check x ∧ max n.toInt 0 ≤ x.1.passed

/-- The call has returned 0 exactly when a check has found it due, and -1 only when it was killed and
no check has found it due. -/
def Punctual (n : Int32) (steps : List (Sleeper × SleepEvent)) (s : Sleeper) : Prop :=
  (s.pc = .returned 0 ↔ Due n steps) ∧ (s.pc = .returned (-1) → s.killed = true ∧ ¬ Due n steps)

/-- What a check needs: the argument is not negative, and the ticks counted modulo `2 ^ 32` are not
below it when there are `2 ^ 32` of them or more. -/
def Timely (n : Int32) (s : Sleeper) (e : SleepEvent) : Prop :=
  Check (s, e) → 0 ≤ n.toInt ∧ (2 ^ 32 ≤ s.passed → n.toInt ≤ (s.passed % 2 ^ 32 : Nat))

end Sleeper

section Law

variable {n : Int32} {ticks0 : UInt32} {killed : Bool} {s t : Sleeper} {e : SleepEvent}
  {steps : List (Sleeper × SleepEvent)}

/-- The argument as it is compared: a negative number is a large one. -/
theorem toNat_toUInt32 (n : Int32) :
    (n.toUInt32.toNat : Int) = if 0 ≤ n.toInt then n.toInt else n.toInt + 2 ^ 32 := by
  have hlt : n.toUInt32.toNat < 2 ^ 32 := n.toUInt32.toNat_lt
  have hcond : n.toInt = if 2 * n.toUInt32.toNat < 2 ^ 32 then (n.toUInt32.toNat : Int)
      else n.toUInt32.toNat - (2 ^ 32 : Nat) := n.toUInt32.toBitVec.toInt_eq_toNat_cond
  split at hcond <;> split <;> omega

/-- The two counters differ by the ticks counted, modulo `2 ^ 32`. -/
theorem elapsed_eq (h : (sysSleep n ticks0 killed).Reachable s) :
    (s.ticks - s.ticks0).toNat = s.passed % 2 ^ 32 := by
  refine h.invariant (I := fun s => (s.ticks - s.ticks0).toNat = s.passed % 2 ^ 32) ?_ ?_
  · show (ticks0 - ticks0).toNat = 0
    rw [sub_self]
    rfl
  · rintro s e t hs ⟨-, hexec⟩
    cases hexec
    cases e with
    | run =>
      show ((s.run n).ticks - (s.run n).ticks0).toNat = (s.run n).passed % 2 ^ 32
      unfold Sleeper.run
      split <;> exact hs
    | clock =>
      simp only [Sleeper.exec, Sleeper.wakeup_ticks, Sleeper.wakeup_ticks0, Sleeper.wakeup_passed]
      rw [UInt32.toNat_sub] at hs ⊢
      rw [UInt32.toNat_add, UInt32.toNat_one]
      omega
    | kill | wake => simpa [Sleeper.exec] using hs

open Sleeper

theorem due_cons {x : Sleeper × SleepEvent} :
    Due n (x :: steps) ↔ (Check x ∧ max n.toInt 0 ≤ x.1.passed) ∨ Due n steps := by
  unfold Due
  simp only [List.mem_cons, exists_eq_or_imp]

/-- A call with a negative argument is due at its first check. -/
theorem due_of_neg (hn : n.toInt < 0) (hrun : (sysSleep n ticks0 killed).Run steps s) :
    Due n steps ∨ (s.pc = .checking ∧ s.passed = 0) := by
  induction hrun with
  | nil => exact .inr ⟨rfl, rfl⟩
  | @snoc steps s t e _ hstep ih =>
    rw [due_cons]
    rcases ih with hdue | ⟨hpc, hpassed⟩
    · exact .inl (.inr hdue)
    · obtain ⟨henabled, hexec⟩ := hstep
      cases hexec
      cases e with
      | run =>
        refine .inl (.inl ⟨⟨rfl, hpc⟩, ?_⟩)
        rw [hpassed, max_eq_right hn.le]
        exact Int.le_refl 0
      | clock =>
        -- the caller holds the lock
        change (!s.locked) = true at henabled
        unfold Sleeper.locked at henabled
        rw [hpc] at henabled
        cases henabled
      | kill =>
        refine .inr ⟨?_, ?_⟩
        · exact (wakeup_pc { s with killed := true } (by decide) (by decide)).mpr hpc
        · simpa [Sleeper.exec] using hpassed
      | wake =>
        refine .inr ⟨?_, ?_⟩
        · exact (s.wakeup_pc (by decide) (by decide)).mpr hpc
        · simpa [Sleeper.exec] using hpassed

theorem punctual_other (h : Punctual n steps s) (hcheck : ¬ Check (s, e))
    (hzero : t.pc = .returned 0 ↔ s.pc = .returned 0)
    (hkilled : t.pc = .returned (-1) → t.killed = true ∧ (s.pc = .returned (-1) ∨ s.pc = .asking)) :
    Punctual n ((s, e) :: steps) t := by
  have hdue : Due n ((s, e) :: steps) ↔ Due n steps := by
    rw [due_cons]
    exact or_iff_right fun hc => hcheck hc.1
  unfold Punctual
  rw [hdue, hzero]
  refine ⟨h.1, fun ht => ⟨(hkilled ht).1, fun hd => ?_⟩⟩
  have hreturned := h.1.mpr hd
  rcases (hkilled ht).2 with hs | hs
  · rw [hs] at hreturned
    cases hreturned
  · rw [hs] at hreturned
    cases hreturned

theorem punctual_check (hreach : (sysSleep n ticks0 killed).Run steps s)
    (h : Punctual n steps s) (hpc : s.pc = .checking) :
    Punctual n ((s, .run) :: steps) (s.run n) ↔ Timely n s .run := by
  have hnot : ¬ Due n steps := by
    intro hdue
    have hreturned := h.1.mpr hdue
    rw [hpc] at hreturned
    cases hreturned
  have helapsed := elapsed_eq ⟨_, hreach⟩
  have hcheck : Check (s, .run) := ⟨rfl, hpc⟩
  have harg := toNat_toUInt32 n
  have hlow := n.le_toInt
  have hhigh := n.toInt_lt
  have hneg : n.toInt < 0 → s.passed = 0 := fun hn => ((due_of_neg hn hreach).resolve_left hnot).2
  have hrun : s.run n =
      { s with pc := if s.ticks - s.ticks0 < n.toUInt32 then .asking else .returned 0 } := by
    unfold Sleeper.run
    rw [hpc]
  unfold Punctual Timely
  rw [due_cons, or_iff_left hnot, hrun]
  simp only [hcheck, true_and, forall_const]
  by_cases hlt : s.ticks - s.ticks0 < n.toUInt32
  · simp only [if_pos hlt, reduceCtorEq, false_iff, false_implies, and_true]
    rw [UInt32.lt_iff_toNat_lt, helapsed] at hlt
    split at harg
    · omega
    · have hzero := hneg (by omega)
      omega
  · simp only [if_neg hlt, true_iff, SleepPc.returned.injEq]
    rw [UInt32.lt_iff_toNat_lt, helapsed] at hlt
    split at harg
    · omega
    · have hzero := hneg (by omega)
      omega

/-- An event of the others, which leaves the caller where it is or wakes it. -/
theorem punctual_wakeup (h : Punctual n steps s) (he : e ≠ .run) (u : Sleeper) (hpc : u.pc = s.pc)
    (hkilled : s.killed = true → u.killed = true) :
    Punctual n ((s, e) :: steps) u.wakeup ↔ Timely n s e := by
  have hcheck : ¬ Check (s, e) := fun hc => he hc.1
  refine iff_of_true (punctual_other h hcheck ?_ fun ht => ?_) fun hc => absurd hc hcheck
  · rw [u.wakeup_pc (by decide) (by decide), hpc]
  · rw [u.wakeup_pc (by decide) (by decide), hpc] at ht
    exact ⟨(u.wakeup_killed).trans (hkilled (h.2 ht).1), .inl ht⟩

theorem punctual_step (hrun : (sysSleep n ticks0 killed).Run steps s) (h : Punctual n steps s)
    (hstep : (sysSleep n ticks0 killed).Step s e t) :
    Punctual n ((s, e) :: steps) t ↔ Timely n s e := by
  obtain ⟨-, hexec⟩ := hstep
  cases hexec
  cases e with
  | clock =>
    exact punctual_wakeup h (by decide) { s with ticks := s.ticks + 1, passed := s.passed + 1 } rfl id
  | kill => exact punctual_wakeup h (by decide) { s with killed := true } rfl fun _ => rfl
  | wake => exact punctual_wakeup h (by decide) s rfl id
  | run =>
    by_cases hpc : s.pc = .checking
    · exact punctual_check hrun h hpc
    · have hcheck : ¬ Check (s, .run) := fun hc => hpc hc.2
      refine iff_of_true (punctual_other h hcheck ?_ ?_) fun hc => absurd hc hcheck
      · show (s.run n).pc = _ ↔ _
        unfold Sleeper.run
        cases hcase : s.pc with
        | checking => exact absurd hcase hpc
        | asking => cases s.killed <;> simp
        | drowsy => simp
        | awake => simp
        | asleep => simp [hcase]
        | returned r => simp [hcase]
      · show (s.run n).pc = _ → (s.run n).killed = true ∧ _
        unfold Sleeper.run
        cases hcase : s.pc with
        | checking => exact absurd hcase hpc
        | asking => cases s.killed <;> simp
        | drowsy => simp
        | awake => simp
        | asleep => simp [hcase]
        | returned r =>
          intro hr
          exact ⟨(h.2 hr).1, .inl (hcase.symm.trans hr)⟩

/-- Sleeping for a number of ticks, in every run of the call: it returns 0 at its first check at which
at least `max n 0` ticks have been counted since the call, and -1 only when it was killed before that,
throughout the run exactly when `n` is not negative and no check comes `2 ^ 32` ticks or more after the
call with a count that is below `n` again modulo `2 ^ 32`. -/
theorem sys_sleep_iff (hrun : (sysSleep n ticks0 killed).Run steps s) :
    Machine.Throughout (Punctual n) steps s ↔ ∀ x ∈ steps, Timely n x.1 x.2 := by
  refine hrun.always_run_iff ?_ fun steps s e t hrun h hstep => punctual_step hrun h hstep
  refine ⟨iff_of_false nofun ?_, nofun⟩
  rintro ⟨x, hx, -⟩
  cases hx

/-- `sleep(1)` when the counter is about to wrap around. -/
theorem sys_sleep_one : ∃ steps s, (sysSleep 1 0xffffffff false).Run steps s ∧
    s.pc = .returned 0 ∧ Machine.Throughout (Punctual 1) steps s := by
  obtain ⟨steps, s, hrun, htest⟩ := Machine.exists_run
    (M := sysSleep 1 0xffffffff false) [.run, .run, .run, .clock, .run, .run]
    (fun steps s => s.pc == .returned 0 &&
      steps.all fun x : Sleeper × SleepEvent => x.1.passed < 2) (by decide)
  rw [Bool.and_eq_true, beq_iff_eq, List.all_eq_true] at htest
  refine ⟨steps, s, hrun, htest.1, (sys_sleep_iff hrun).mpr fun x hx _ => ⟨by decide, fun hge => ?_⟩⟩
  have hlt : x.1.passed < 2 := of_decide_eq_true (htest.2 x hx)
  omega

/-- `sleep(-1)` falls asleep at its first check. -/
theorem sys_sleep_negative : ∃ steps s, (sysSleep (-1) 0 false).Run steps s ∧
    s.pc = .asleep ∧ Due (-1) steps := by
  obtain ⟨steps, s, hrun, htest⟩ := Machine.exists_run (M := sysSleep (-1) 0 false)
    [.run, .run, .run]
    (fun steps s => s.pc == .asleep && steps.any fun x : Sleeper × SleepEvent =>
      x.2 == .run && (x.1.pc == .checking)) (by decide)
  rw [Bool.and_eq_true, beq_iff_eq, List.any_eq_true] at htest
  obtain ⟨hpc, x, hx, hcheck⟩ := htest
  rw [Bool.and_eq_true, beq_iff_eq, beq_iff_eq] at hcheck
  refine ⟨steps, s, hrun, hpc, x, hx, hcheck, ?_⟩
  rw [max_eq_right (by decide)]
  exact Int.natCast_nonneg _

end Law

end Xv6
