import Xv6.Laws.Charges

/-!
# The boost and the clock

The clock advances wherever a timer interrupt arrives; the boost is tested only in the timer branch
of `usertrap`, and only for an exact multiple of 48. On one hart a multiple is followed by its boost
in the same interrupt exactly when that interrupt arrives in user mode, in a process that has not
been killed. Any other multiple is passed over: the next process in user mode runs without the
boost, and the boost stays away at least until the next multiple.
-/

namespace Xv6

open Base Base.Machine

variable {k k' : Kernel 1} {p : Slot} {c : Fin 1} {cfg : Config} {k₁ : Kernel 1}
  {steps : List (Kernel 1 × Event 1)}

/-! ## Multiples passed over -/

/-- The clock reached a multiple of 48. -/
def Obs.due : Obs → Bool
  | .tick t => t % 48 = 0
  | _ => false

/-- The multiples of 48 the clock has reached since the last boost. -/
def missed (h : List Obs) : Nat := countSince (· == .boost) Obs.due h

theorem missed_cons {o : Obs} (ho : o ≠ .boost) (h : List Obs) :
    missed (o :: h) = missed h + if o.due then 1 else 0 :=
  countSince_cons (by simpa using ho) h

/-- Observations that are neither boosts nor multiples make no difference. -/
theorem missed_append {l : List Obs} (hl : ∀ o ∈ l, o ≠ .boost ∧ o.due = false) (h : List Obs) :
    missed (l ++ h) = missed h :=
  countSince_append (fun o ho => ⟨by simpa using (hl o ho).1, (hl o ho).2⟩) h

/-- How an event changes the number of multiples passed over. -/
theorem Clocked.missed {me : Option Slot} (h : Clocked me k k') :
    missed k'.hist = Xv6.missed k.hist + if k'.ticks % 48 = 0 then 1 else 0 := by
  rw [h.hist, missed_append, missed_cons (by simp), ← h.ticks]
  · simp only [Obs.due, decide_eq_true_eq]
  · intro o ho
    obtain ⟨y, -, rfl⟩ := List.mem_map.mp (List.mem_reverse.mp ho)
    exact ⟨by simp, rfl⟩

theorem Charged.missed (h : Charged k p k') :
    missed k'.hist = if k.ticks % 48 = 0 then 0 else Xv6.missed k.hist := by
  cases h with
  | plain hticks =>
    rw [if_neg hticks]
    exact missed_cons (by simp) k.hist
  | boost hticks _ =>
    rw [if_pos hticks]
    exact countSince_reset (by simp) _

theorem Settled.missed (h : Settled cfg k c p k') : missed k'.hist = Xv6.missed k.hist := by
  cases h with
  | demoted => exact missed_cons (by simp) k.hist
  | stayed q _ _ hp => cases hp <;> rfl

/-! ## Steps -/

/-- A tick that reaches a multiple of 48 arrives in user mode, in a process not killed. -/
def OnTime (k : Kernel 1) : Event 1 → Prop
  | .timer c _ _ => uint32 (k.ticks + 1) % 48 = 0 →
      ∃ p, k.myproc c = some p ∧ (k.proc p).context = .user ∧ (k.proc p).killed = false
  | _ => True

theorem onTime_of_quiet {e : Event 1} (he : e.quiet = true) : OnTime k e := by
  cases e with
  | timer => cases he
  | _ => trivial

/-- What an event other than a timer interrupt adds to the history is beside the point. -/
theorem missed_of_hist {l : List Obs} (hhist : k'.hist = l ++ k.hist)
    (hl : ∀ o ∈ l, o ≠ .boost ∧ o.due = false) : missed k'.hist = missed k.hist := by
  rw [hhist]
  exact missed_append hl k.hist

/-- A timer interrupt in user mode passes a multiple over only when the process was killed. -/
theorem UserTick.missed (hb : cfg.build = .mlfq) (htick : Ticked c (some p) k k₁)
    (hu : UserTick cfg k₁ c p k') :
    missed k'.hist = if uint32 (k.ticks + 1) % 48 = 0 then
      (if (k.proc p).killed then Xv6.missed k.hist + 1 else 0) else Xv6.missed k.hist := by
  have hclock := htick.clocked
  have hmissed := hclock.missed
  rw [← htick.self.2, ← hclock.ticks]
  cases hu with
  | exits hkilled =>
    rw [Kernel.modify_hist, hmissed, hkilled]
    split <;> rfl
  | @mlfq k₂ k₃ _ hkilled _ halarm hcharge hsettle =>
    rw [hsettle.missed, hcharge.missed, halarm.calm.ticks, halarm.calm.hist, hmissed, hkilled]
    split <;> rfl
  | yields _ hbuild _ => exact absurd hb hbuild

/-- A timer interrupt in the kernel passes every multiple over. -/
theorem missed_kernelTick (htick : Ticked c (k.myproc c) k k₁) (hcalm : Calm k₁ k') :
    missed k'.hist = missed k.hist + if uint32 (k.ticks + 1) % 48 = 0 then 1 else 0 := by
  have hclock := htick.clocked
  rw [hcalm.hist, hclock.missed, hclock.ticks]

/-- What an event does to the number of multiples passed over. -/
inductive Passing (k : Kernel 1) (e : Event 1) (k' : Kernel 1) : Prop
  | same (hmissed : missed k'.hist = missed k.hist) (htime : OnTime k e)
  | boosted (huser : k.thread 0 = some .user) (hmissed : missed k'.hist = 0) (htime : OnTime k e)
  | skipped (hmissed : missed k'.hist = missed k.hist + 1) (htime : ¬ OnTime k e)

theorem passing_userTick (hb : cfg.build = .mlfq) (u : UserRegs) (page : Bool)
    (huser : k.thread c = some .user) (hc : k.myproc c = some p) (htick : Ticked c (some p) k k₁)
    (hu : UserTick cfg k₁ c p k') :
    Passing k (.timer c u page) k' := by
  have hmissed := hu.missed hb htick
  have hctx : (k.proc p).context = .user := by
    rw [Kernel.thread, hc] at huser
    exact Option.some.inj huser
  by_cases hdue : uint32 (k.ticks + 1) % 48 = 0
  · rw [if_pos hdue] at hmissed
    cases hkilled : (k.proc p).killed with
    | true =>
      rw [if_pos hkilled] at hmissed
      refine .skipped hmissed fun htime => ?_
      obtain ⟨y, hy, -, hnot⟩ := htime hdue
      obtain rfl : p = y := Option.some.inj (hc.symm.trans hy)
      rw [hkilled] at hnot
      cases hnot
    | false =>
      rw [if_neg (by rw [hkilled]; simp)] at hmissed
      rw [Fin.fin_one_eq_zero c] at huser
      exact .boosted huser hmissed fun _ => ⟨p, hc, hctx, hkilled⟩
  · rw [if_neg hdue] at hmissed
    exact .same hmissed fun h => absurd h hdue

theorem passing_kernelTick (u : UserRegs) (page : Bool) (huser : k.thread c ≠ some .user)
    (htick : Ticked c (k.myproc c) k k₁) (hcalm : Calm k₁ k') :
    Passing k (.timer c u page) k' := by
  have hmissed := missed_kernelTick htick hcalm
  by_cases hdue : uint32 (k.ticks + 1) % 48 = 0
  · rw [if_pos hdue] at hmissed
    refine .skipped hmissed fun htime => ?_
    obtain ⟨p, hp, hctx, -⟩ := htime hdue
    refine huser ?_
    rw [Kernel.thread, hp]
    exact congrArg some hctx
  · rw [if_neg hdue] at hmissed
    exact .same hmissed fun h => absurd h hdue

theorem passing_step {e : Event 1} (hb : cfg.build = .mlfq) (hinv : Inv k)
    (hs : (system cfg 1).Step k e k') : Passing k e k' := by
  cases (step_spec hinv hs).2 with
  | calm he hcalm =>
    exact .same (missed_of_hist (l := []) hcalm.hist (by simp)) (onTime_of_quiet he)
  | passed c hp => exact .same (missed_of_hist (l := []) hp.steady.hist (by simp)) trivial
  | spared => exact .same rfl trivial
  | killed c pid p _ hk => exact .same (missed_of_hist (l := []) hk.hist (by simp)) trivial
  | booted a p hp _ | forked c p hp _ =>
    exact .same (missed_of_hist (l := [.entered p 0]) hp.hist (by simp [Obs.due])) trivial
  | userTick c u page p huser hc htick hu =>
    exact passing_userTick hb u page huser hc htick hu
  | kernelTick c u page huser _ _ htick hcalm =>
    exact passing_kernelTick u page huser htick hcalm

/-! ## Runs -/

/-- In every state of the run a process in user mode has seen the boost of every multiple, and
there are never two multiples without a boost between them. -/
structure Prompt (steps : List (Kernel 1 × Event 1)) (k : Kernel 1) : Prop where
  user : ∀ s ∈ k :: steps.map Prod.fst, s.thread 0 = some .user → missed s.hist = 0
  bound : ∀ s ∈ k :: steps.map Prod.fst, missed s.hist ≤ 1

/-- No multiple is passed over along the runs whose steps are all on time, and no others. -/
theorem missed_run_iff (hb : cfg.build = .mlfq) (hrun : (system cfg 1).Run steps k) :
    (missed k.hist = 0 ∧ ∀ s ∈ steps, missed s.1.hist = 0) ↔ ∀ s ∈ steps, OnTime s.1 s.2 := by
  refine hrun.always_iff (I := fun k => missed k.hist = 0) rfl fun s e t hreach hz hstep => ?_
  cases passing_step hb (inv_reachable hreach) hstep with
  | same hmissed htime => exact iff_of_true (hmissed.trans hz) htime
  | boosted _ hmissed htime => exact iff_of_true hmissed htime
  | skipped hmissed htime => exact iff_of_false (by rw [hmissed]; simp) htime

/-- A run whose states in user mode have missed nothing, and which ends with nothing missed, was on
time: a boost that made up for a multiple would have left from a state in user mode. -/
theorem onTime_of_user (hb : cfg.build = .mlfq) (hrun : (system cfg 1).Run steps k)
    (huser : ∀ s ∈ steps, s.1.thread 0 = some .user → missed s.1.hist = 0) (hz : missed k.hist = 0)
    : ∀ s ∈ steps, OnTime s.1 s.2 := by
  induction hrun with
  | nil => intro s hs; cases hs
  | @snoc steps s t e hrun hstep ih =>
    rw [List.forall_mem_cons] at huser
    -- no boost could have come from `s` unless nothing was missing there
    have hs : missed s.hist = 0 ∧ OnTime s e := by
      cases passing_step hb (inv_reachable ⟨_, hrun⟩) hstep with
      | same hmissed htime => exact ⟨hmissed.symm.trans hz, htime⟩
      | boosted hmode _ htime => exact ⟨huser.1 hmode, htime⟩
      | skipped hmissed _ => rw [hz] at hmissed; cases hmissed
    rw [List.forall_mem_cons]
    exact ⟨hs.2, ih huser.2 hs.1⟩

/-- A run of the MLFQ build on one hart is prompt when all its steps are on time; and a prompt run
that ends in user mode has no other steps. -/
theorem boost_prompt (hb : cfg.build = .mlfq) {steps : List (Kernel 1 × Event 1)}
    (hrun : (system cfg 1).Run steps k) :
    ((∀ s ∈ steps, OnTime s.1 s.2) → Prompt steps k) ∧
    (k.thread 0 = some .user → Prompt steps k → ∀ s ∈ steps, OnTime s.1 s.2) := by
  constructor
  · intro htime
    have hz : ∀ s ∈ k :: steps.map Prod.fst, missed s.hist = 0 := by
      rw [List.forall_mem_cons, List.forall_mem_map]
      exact (missed_run_iff hb hrun).mpr htime
    exact ⟨fun s hs _ => hz s hs, fun s hs => by rw [hz s hs]; exact Nat.zero_le 1⟩
  · intro hmode hprompt
    have huser := hprompt.user
    rw [List.forall_mem_cons, List.forall_mem_map] at huser
    exact onTime_of_user hb hrun huser.2 (huser.1 hmode)

/-- Timer interrupts in user mode that use a slice up, and the dispatch that follows. -/
def burst (c : Fin n) (slice : Nat) : List (Event n) :=
  List.replicate slice (.timer c zeroRegs true) ++ [.scheduler c, .resume c]

/-- The first process computes for 48 ticks, through all four levels, and is boosted. -/
theorem boost_prompt_user : ∃ (steps : List (Kernel 1 × Event 1)) (k : Kernel 1),
    (system mlfqConfig 1).Run steps k ∧ k.ticks = 48 ∧ (k.proc 0).queueNumber = 0 ∧
      Prompt steps k := by
  obtain ⟨steps, k, hrun, htest⟩ := exists_run (M := system mlfqConfig 1)
    (firstRun 0 ++ burst 0 1 ++ burst 0 4 ++
      burst 0 8 ++ burst 0 16 ++ burst 0 16 ++ List.replicate 3 (.timer 0 zeroRegs true))
    (fun steps k => k.ticks == 48 && (k.proc 0).queueNumber == 0 && steps.all fun s =>
      match s.2 with
      | .timer c _ _ => s.1.myproc c = some 0 ∧ (s.1.proc 0).context = .user ∧
          (s.1.proc 0).killed = false
      | _ => true) (by decide +kernel)
  simp only [Bool.and_eq_true, beq_iff_eq, List.all_eq_true] at htest
  refine ⟨steps, k, hrun, htest.1.1, htest.1.2, (boost_prompt rfl hrun).1 fun s hs => ?_⟩
  have hok := htest.2 s hs
  cases he : s.2 with
  | timer =>
    rw [he] at hok
    exact fun _ => ⟨0, of_decide_eq_true hok⟩
  | _ => trivial

/-- The first process sleeps while the clock goes on to 96, is woken by a device, and comes to user
mode with two multiples passed over. -/
theorem idle_multiples_passed : ∃ k : Kernel 1, (system mlfqConfig 1).Reachable k ∧
    k.thread 0 = some .user ∧ missed k.hist = 2 := by
  obtain ⟨steps, k, hrun, htest⟩ := exists_run (M := system mlfqConfig 1)
    ([.userinit ⟨true, true⟩, .scheduler 0, .forkret 0, .sleep 0 (.object 0)] ++
      List.replicate 96 (.timer 0 zeroRegs true) ++
      [.device 0 zeroRegs [.object 0], .scheduler 0, .resume 0, .ret 0 0])
    (fun _ k => k.thread 0 == some .user && missed k.hist == 2) (by decide +kernel)
  simp only [Bool.and_eq_true, beq_iff_eq] at htest
  exact ⟨k, ⟨steps, hrun⟩, htest.1, htest.2⟩

end Xv6
