import Xv6.Laws.System

/-!
# Priorities on one hart

In the MLFQ build a scheduler pass runs the first runnable process of the highest level that has
one, and a process that goes back to user mode after a timer interrupt has nobody runnable above
it. The second part spans context switches: `usertrap` may yield inside its preemption loop, and
when the process comes back the loop goes on from where it stood. What carries it over is
`Deserved`: while a process stands in that loop on a hart, it is there because a pass has just
chosen it, and nothing can have happened since.
-/

namespace Xv6

open Base Base.Machine

variable {n : Nat} {k k' : Kernel n} {p : Slot} {c : Fin n} {cfg : Config} {x : Slot}

/-! ## Before the first process -/

/-- Until `userinit` has run, no hart has a process. -/
def Waiting (k : Kernel n) : Prop := k.initproc = none → ∀ c, k.myproc c = none

/-- Before the first process only `userinit` is possible. -/
theorem enabled_waiting (h : Waiting k) (hinit : k.initproc = none) {e : Event n}
    (he : k.enabled e = true) : ∃ a, e = .userinit a := by
  have hthread : ∀ c, k.thread c = none := fun c => by rw [Kernel.thread, h hinit c]; rfl
  cases e <;> simp [Kernel.enabled, Kernel.interruptible, hthread, hinit] at he ⊢

theorem Ticked.init {me : Option Slot} (h : Ticked c me k k') : k'.initproc = k.initproc := by
  unfold Ticked at h
  split at h
  · exact Clocked.init h
  · exact h.1.init

theorem Charged.init (h : Charged k p k') : k'.initproc = k.initproc := by
  cases h with
  | plain _ => rfl
  | boost _ hb => rw [hb.frame]; rfl

theorem Settled.init (h : Settled cfg k c p k') : k'.initproc = k.initproc := by
  cases h with
  | demoted => rfl
  | stayed q _ _ hp => cases hp <;> rfl

theorem UserTick.init (h : UserTick cfg k c p k') : k'.initproc = k.initproc := by
  cases h with
  | exits _ => rfl
  | mlfq _ _ halarm hcharge hsettle =>
    rw [hsettle.init, hcharge.init, halarm.calm.init]
  | yields _ _ halarm => exact halarm.calm.init

theorem Effect.init {e : Event n} (h : Effect cfg k e k') (hinit : k.initproc ≠ none) :
    k'.initproc ≠ none := by
  cases h with
  | calm _ hcalm => rw [hcalm.init]; exact hinit
  | spared => exact hinit
  | passed c hp => rw [hp.steady.init]; exact hinit
  | killed c pid p _ hk => cases hk <;> exact hinit
  | booted a p _ hp => rw [hp]; simp
  | forked c p _ hp => rw [hp]; exact hinit
  | userTick c u page p _ _ htick hu => rw [hu.init, htick.init]; exact hinit
  | kernelTick c u page _ _ _ htick hcalm => rw [hcalm.init, htick.init]; exact hinit

theorem Waiting.step {e : Event n} (h : Waiting k) (hinv : Inv k) (hs : (system cfg n).Step k e k')
    : Waiting k' := by
  intro hinit'
  by_cases hinit : k.initproc = none
  · obtain ⟨a, rfl⟩ := enabled_waiting h hinit hs.1
    obtain ⟨p, -, -, hp⟩ := ((userinit_spec hinv a).of_ok hs.2).2
    rw [hp] at hinit'
    cases hinit'
  · exact absurd hinit' ((step_spec hinv hs).2.init hinit)

/-! ## A process in the preemption loop has just been chosen -/

/-- A running process that stands in the preemption loop has nobody runnable above it. -/
def Deserved (k : Kernel n) : Prop :=
  ∀ p i, (k.proc p).state = .running → (k.proc p).context = .usertrap i →
    ∀ x, (k.proc x).state = .runnable → (k.proc p).queueNumber ≤ (k.proc x).queueNumber

/-- A running process on one hart is the current process. -/
theorem Harts.only {k : Kernel 1} (h : Harts k) (hp : (k.proc p).state = .running) :
    k.myproc 0 = some p := by
  obtain ⟨c, hc⟩ := h.running p hp
  rw [Fin.fin_one_eq_zero c] at hc
  exact hc

/-- In the preemption loop the only event on the hart is the one that goes on. -/
theorem enabled_usertrap {k : Kernel 1} {i : Nat} (hthread : k.thread 0 = some (.usertrap i))
    (hinit : k.initproc ≠ none) {e : Event 1} (he : k.enabled e = true) : e = .resume 0 := by
  have hc : ∀ c : Fin 1, k.thread c = some (.usertrap i) := fun c => by
    rw [Fin.fin_one_eq_zero c]; exact hthread
  cases e with
  | resume c => rw [Fin.fin_one_eq_zero c]
  | userinit a =>
    simp only [Kernel.enabled, Option.isNone_iff_eq_none] at he
    exact absurd he hinit
  | _ => simp [Kernel.enabled, Kernel.interruptible, hc] at he

theorem yield_myproc (k : Kernel n) (c : Fin n) (p : Slot) (ctx : Context) :
    (k.yield c p ctx).myproc c = none := by
  rw [Kernel.yield, myproc_setCpu, if_pos rfl]

/-- However the loop ends, a process that keeps the hart is back in user mode. -/
theorem Preempted.returns {i : Nat} (h : Preempted cfg k c p i k') (hx : k'.myproc c = some x) :
    k' = k.usertrapret cfg c p ∧
      ∀ q : Fin 4, i ≤ q → q < (k.proc p).queueNumber → k.queue q = [] := by
  cases h with
  | yielded j =>
    rw [yield_myproc] at hx
    cases hx
  | returned hempty => exact ⟨rfl, hempty⟩

theorem Charged.myproc (h : Charged k p k') (c : Fin n) : k'.myproc c = k.myproc c := by
  cases h with
  | plain _ => rfl
  | boost _ hb =>
    rw [myproc_note, hb.frame]
    rfl

/-- After a timer interrupt in user mode, a process that keeps the hart is on its way out, or
back in user mode past empty levels. -/
theorem UserTick.keeps (h : UserTick cfg k c p k') (hc : k.myproc c = some p)
    (hx : k'.myproc c = some x) :
    x = p ∧ ((k'.proc p).context = .exiting ∨ ((k'.proc p).context = .user ∧
      ∀ q : Fin 4, q < (k'.proc p).queueNumber → k'.queue q = [])) := by
  cases h with
  | exits _ =>
    rw [myproc_modify, hc] at hx
    exact ⟨(Option.some.inj hx).symm, .inl (by rw [Kernel.modify_self])⟩
  | @mlfq k₁ k₂ _ _ _ halarm hcharge hsettle =>
    have hc₂ : k₂.myproc c = some p := by
      rw [hcharge.myproc, halarm.frame]
      exact hc
    cases hsettle with
    | demoted =>
      rw [yield_myproc] at hx
      cases hx
    | stayed q _ _ hp =>
      obtain ⟨rfl, hempty⟩ := hp.returns hx
      have hself : ((k₂.usertrapret cfg c p).proc p).context = .user ∧
          ((k₂.usertrapret cfg c p).proc p).queueNumber = (k₂.proc p).queueNumber := by
        rw [Kernel.usertrapret, Kernel.modify_self]
        exact ⟨rfl, rfl⟩
      refine ⟨?_, .inr ⟨hself.1, fun q hq => ?_⟩⟩
      · rw [Kernel.usertrapret, myproc_modify, hc₂] at hx
        exact (Option.some.inj hx).symm
      · rw [hself.2] at hq
        exact hempty q (Nat.zero_le _) hq
  | yields _ _ _ =>
    rw [yield_myproc] at hx
    cases hx

theorem KillStep.run (h : KillStep k p k') (hx : (k'.proc x).state = .running) :
    (k.proc x).state = .running ∧ (k'.proc x).context = (k.proc x).context := by
  by_cases hxp : x = p
  · rw [hxp] at hx ⊢
    rcases h.self with ⟨-, he⟩ | ⟨-, he⟩
    · rw [he] at hx ⊢
      exact ⟨hx, rfl⟩
    · rw [he] at hx
      cases hx
  · rw [h.other hxp] at hx ⊢
    exact ⟨hx, rfl⟩

theorem Published.run (h : Published k p k') (hx : (k'.proc x).state = .running) :
    Proc.Calm (k.proc x) (k'.proc x) := by
  refine h.other x fun he => ?_
  rw [he, h.new] at hx
  cases hx

theorem resume_step (hinv : Inv k) (hc : k.myproc c = some p) {i : Nat}
    (hctx : (k.proc p).context = .usertrap i) (hs : (system cfg n).Step k (.resume c) k') :
    Preempted cfg k c p i k' := by
  have hexec : k.onProc c (fun p => k.resume cfg c p) = .ok k' := hs.2
  have hresume : k.resume cfg c p = k.preempt cfg c p i := by rw [Kernel.resume, hctx]
  obtain ⟨k₁, hk₁, hp⟩ := preempt_spec hinv cfg c p i
  rw [Kernel.onProc, hc] at hexec
  rw [show k.preempt cfg c p i = .ok k' from hresume ▸ hexec] at hk₁
  rw [Except.ok.inj hk₁]
  exact hp

/-- Only a scheduler pass leaves a process running in the preemption loop. -/
theorem pass_of_usertrap {k k' : Kernel 1} {e : Event 1} (hinv : Inv k) (hw : Waiting k)
    (hs : (system cfg 1).Step k e k') {i : Nat} (hrun : (k'.proc p).state = .running)
    (hctx : (k'.proc p).context = .usertrap i) :
    e = .scheduler 0 := by
  obtain ⟨hinv', heff⟩ := step_spec hinv hs
  -- had it stood there before, the event would have been the one that goes on, and it has left
  have hbefore : ¬ ((k.proc p).state = .running ∧ (k.proc p).context = .usertrap i) := by
    rintro ⟨hr, hct⟩
    have hc := hinv.harts.only hr
    have hthread : k.thread 0 = some (.usertrap i) := by rw [Kernel.thread, hc, ← hct]; rfl
    have hinit : k.initproc ≠ none := fun h0 => by rw [hw h0 0] at hc; cases hc
    obtain rfl := enabled_usertrap hthread hinit hs.1
    have hp := resume_step hinv hc hct hs
    obtain ⟨rfl, -⟩ := hp.returns (hinv'.harts.only hrun)
    rw [Kernel.usertrapret, Kernel.modify_self] at hctx
    cases hctx
  cases heff with
  | calm _ hcalm =>
    obtain ⟨hr, hct⟩ := (hcalm.slot p).run hrun
    exact absurd ⟨hr, hct i hctx⟩ hbefore
  | spared => exact absurd ⟨hrun, hctx⟩ hbefore
  | passed c _ => rw [Fin.fin_one_eq_zero c]
  | killed c pid x _ hk =>
    obtain ⟨hr, hct⟩ := hk.run hrun
    exact absurd ⟨hr, hct ▸ hctx⟩ hbefore
  | booted a x hp _ | forked c x hp _ =>
    obtain ⟨hr, hct⟩ := (hp.run hrun).run hrun
    exact absurd ⟨hr, hct i hctx⟩ hbefore
  | @userTick k₁ _ c u page x _ hc htick hu =>
    have hc' := hinv'.harts.only hrun
    rw [← Fin.fin_one_eq_zero c] at hc'
    have hc₁ : k₁.myproc c = some x := by
      rw [Kernel.myproc, htick.cpus]
      exact hc
    obtain ⟨rfl, hend⟩ := hu.keeps hc₁ hc'
    rcases hend with he | ⟨he, -⟩
    · rw [he] at hctx; cases hctx
    · rw [he] at hctx; cases hctx
  | kernelTick c u page _ hidle _ _ _ =>
    have hc' := hinv'.harts.only hrun
    rw [← Fin.fin_one_eq_zero c, hidle] at hc'
    cases hc'

/-! ## Passes -/

/-- What an MLFQ pass on an idle hart does. -/
structure Chosen (k : Kernel n) (c : Fin n) (k' : Kernel n) : Prop where
  iff : (∃ p, k'.myproc c = some p) ↔ ∃ p, (k.proc p).state = .runnable
  chosen : ∀ p, k'.myproc c = some p → (k.proc p).state = .runnable ∧
    (∀ x, (k.proc x).state = .runnable → (k.proc p).queueNumber ≤ (k.proc x).queueNumber) ∧
    ∃ q : Fin 4, (k.proc p).queueNumber = q ∧ k.runnableAt q = some p
  rest : ∀ x, (k'.proc x).queueNumber = (k.proc x).queueNumber ∧
    ((k'.proc x).state = .runnable → (k.proc x).state = .runnable)

theorem dispatch_myproc (hrun : (k.proc p).state = .runnable) (c : Fin n) :
    (k.dispatch c p).myproc c = some p := by
  rw [Kernel.dispatch, if_pos hrun, myproc_setCpu, if_pos rfl]

theorem dispatch_proc (hrun : (k.proc p).state = .runnable) (c : Fin n) (x : Slot) :
    (k.dispatch c p).proc x = if x = p then { k.proc p with state := .running } else k.proc x := by
  rw [Kernel.dispatch, if_pos hrun, Kernel.setCpu_proc, Kernel.modify_proc]

theorem schedulerMlfq_chosen (h : Inv k) (hc : k.myproc c = none) :
    ∃ k', k.schedulerMlfq c = .ok k' ∧ Chosen k c k' := by
  refine ⟨_, schedulerMlfq_eq h c, ?_⟩
  cases hchoice : k.choice with
  | none =>
    have hnone := (choice_eq_none h).mp hchoice
    refine ⟨⟨fun ⟨p, hp⟩ => ?_, fun ⟨p, hp⟩ => absurd hp (hnone p)⟩, fun p hp => ?_,
      fun x => ⟨rfl, id⟩⟩
    all_goals
      rw [hc] at hp
      cases hp
  | some p =>
    obtain ⟨hrun, hfirst, hleast⟩ := choice_spec h hchoice
    have hp := dispatch_myproc hrun c
    refine ⟨⟨fun _ => ⟨p, hrun⟩, fun _ => ⟨p, hp⟩⟩, fun x hx => ?_, fun x => ?_⟩
    · rw [hp] at hx
      obtain rfl := Option.some.inj hx
      exact ⟨hrun, hleast, hfirst⟩
    · show ((k.dispatch c p).proc x).queueNumber = _ ∧
        (((k.dispatch c p).proc x).state = .runnable → _)
      rw [dispatch_proc hrun c x]
      split
      · next he => rw [he]; exact ⟨rfl, (nomatch ·)⟩
      · exact ⟨rfl, id⟩

theorem scheduler_idle (he : k.enabled (.scheduler c) = true) (hb : cfg.build = .mlfq) :
    k.myproc c = none ∧ k.exec cfg (.scheduler c) = k.schedulerMlfq c := by
  have hthread : k.thread c = none ∧ k.initproc.isSome = true := by
    simpa [Kernel.enabled] using he
  refine ⟨by simpa [Kernel.thread] using hthread.1, ?_⟩
  rw [Kernel.exec, hb]
  rfl

/-- A process in the preemption loop has just been chosen by a pass. -/
theorem Deserved.step {k k' : Kernel 1} {e : Event 1} (hb : cfg.build = .mlfq) (hinv : Inv k)
    (hw : Waiting k) (hs : (system cfg 1).Step k e k') : Deserved k' := by
  intro p i hrun hctx x hx
  obtain rfl := pass_of_usertrap hinv hw hs hrun hctx
  obtain ⟨hc, hexec⟩ := scheduler_idle hs.1 hb
  have hinv' := (step_spec hinv hs).1
  obtain ⟨k₁, hk₁, hchosen⟩ := schedulerMlfq_chosen hinv hc
  obtain rfl : k₁ = k' := Except.ok.inj (hk₁.symm.trans (hexec.symm.trans hs.2))
  rw [(hchosen.rest p).1, (hchosen.rest x).1]
  exact (hchosen.chosen p (hinv'.harts.only hrun)).2.1 x ((hchosen.rest x).2 hx)

/-- What holds on one hart in the MLFQ build between any two events. -/
theorem deserved_reachable {k : Kernel 1} (hb : cfg.build = .mlfq) (h : (system cfg 1).Reachable k)
    : Waiting k ∧ Deserved k := by
  have hall : Inv k ∧ Waiting k ∧ Deserved k := by
    refine h.invariant (I := fun k => Inv k ∧ Waiting k ∧ Deserved k)
      ⟨inv_boot 1, fun _ _ => rfl, fun p i hp => by cases hp⟩ ?_
    rintro s e t ⟨hinv, hw, -⟩ hs
    exact ⟨(step_spec hinv hs).1, hw.step hinv hs, .step hb hinv hw hs⟩
  exact hall.2

/-- The event is a timer interrupt, or the process it found in user mode goes on after a yield. -/
def Kernel.afterTick (k : Kernel 1) (e : Event 1) : Prop :=
  (∃ u page, e = .timer 0 u page) ∨ (e = .resume 0 ∧ ∃ i, k.thread 0 = some (.usertrap i))

/-- One hart, MLFQ build, any reachable state. (a) A pass dispatches a process exactly when one is
runnable, and then the first runnable one of the highest level that has any. (b) When `usertrap`
goes back to user mode after a timer interrupt, nobody runnable is above the process. -/
theorem priority_respected {cfg : Config} {k : Kernel 1} (hb : cfg.build = .mlfq)
    (h : (system cfg 1).Reachable k) :
    (k.enabled (.scheduler 0) = true →
      ∃ k', k.exec cfg (.scheduler 0) = .ok k' ∧
        ((∃ p, k'.myproc 0 = some p) ↔ ∃ p, (k.proc p).state = .runnable) ∧
        ∀ p, k'.myproc 0 = some p → (k.proc p).state = .runnable ∧
          (∀ x, (k.proc x).state = .runnable →
            (k.proc p).queueNumber ≤ (k.proc x).queueNumber) ∧
          ∃ q : Fin 4, (k.proc p).queueNumber = q ∧
            (k.queue q).find? (fun x => (k.proc x).state = .runnable) = some p) ∧
    ∀ e k' p, (system cfg 1).Step k e k' → k.afterTick e → k'.myproc 0 = some p →
      (k'.proc p).context = .user →
      ∀ x, (k'.proc x).state = .runnable → (k'.proc p).queueNumber ≤ (k'.proc x).queueNumber := by
  have hinv := inv_reachable h
  obtain ⟨-, hd⟩ := deserved_reachable hb h
  refine ⟨fun he => ?_, fun e k' p hs hafter hc' hctx x hx => ?_⟩
  · obtain ⟨hc, hexec⟩ := scheduler_idle he hb
    obtain ⟨k', hk', hchosen⟩ := schedulerMlfq_chosen hinv hc
    exact ⟨k', hexec.trans hk', hchosen.iff, hchosen.chosen⟩
  · obtain ⟨hinv', heff⟩ := step_spec hinv hs
    rcases hafter with ⟨u, page, rfl⟩ | ⟨rfl, i, hthread⟩
    · cases heff with
      | calm he _ => cases he
      | @userTick k₁ _ _ _ _ y _ hc htick hu =>
        have hc₁ : k₁.myproc 0 = some y := by
          rw [Kernel.myproc, htick.cpus]
          exact hc
        obtain ⟨rfl, hend⟩ := hu.keeps hc₁ hc'
        rcases hend with he | ⟨-, hempty⟩
        · rw [he] at hctx; cases hctx
        · obtain ⟨q, hq, hmem⟩ := hinv'.queued.mem_level (p := x) (by rw [hx]; rfl)
          by_contra hlt
          rw [hempty q (by omega)] at hmem
          cases hmem
      | kernelTick _ _ _ _ hidle _ _ _ =>
        rw [hidle] at hc'
        cases hc'
    · obtain ⟨y, hc, hcy⟩ : ∃ y, k.myproc 0 = some y ∧ (k.proc y).context = .usertrap i := by
        simpa [Kernel.thread] using hthread
      obtain ⟨rfl, -⟩ := (resume_step hinv hc hcy hs).returns hc'
      rw [Kernel.usertrapret, myproc_modify, hc] at hc'
      obtain rfl := Option.some.inj hc'
      -- going back to user mode changes nobody's state or level
      have hsame : ∀ z, ((k.usertrapret cfg 0 y).proc z).state = (k.proc z).state ∧
          ((k.usertrapret cfg 0 y).proc z).queueNumber = (k.proc z).queueNumber := by
        intro z
        rw [Kernel.usertrapret, Kernel.modify_proc]
        split
        · next he => rw [he]; exact ⟨rfl, rfl⟩
        · exact ⟨rfl, rfl⟩
      rw [(hsame x).1] at hx
      rw [(hsame y).2, (hsame x).2]
      exact hd y i (hinv.harts.current 0 y hc) hcy x hx

/-- The first process has come down to level 2 and its child to level 1. A pass does not take the
first process; and when the child runs and takes a tick, it goes back to user mode above it. -/
theorem priority_respected_levels : ∃ k k' s t : Kernel 1, (system mlfqConfig 1).Reachable k ∧
    (k.proc 0).state = .runnable ∧ (k.proc 0).queueNumber = 2 ∧ (k.proc 1).state = .runnable ∧
    (k.proc 1).queueNumber = 1 ∧ k.exec mlfqConfig (.scheduler 0) = .ok k' ∧
    (∃ p, k'.myproc 0 = some p ∧ p ≠ 0) ∧ (system mlfqConfig 1).Reachable s ∧
    (system mlfqConfig 1).Step s (.timer 0 zeroRegs true) t ∧ t.myproc 0 = some 1 ∧
    (t.proc 0).state = .runnable ∧ (t.proc 1).queueNumber ≤ (t.proc 0).queueNumber := by
  let M := system mlfqConfig 1
  let tick : Event 1 := .timer 0 zeroRegs true
  obtain ⟨steps, k, hrun, htest⟩ := exists_run (M := M)
    [.userinit ⟨true, true⟩, .scheduler 0, .forkret 0, .fork 0 ⟨true, true⟩ true, .forkEnd 0,
      .ret 0 2, tick, .scheduler 0, .forkret 0, tick, .scheduler 0, .resume 0, tick, tick, tick, tick]
    (fun _ k => k.enabled (.scheduler 0) && (k.proc 0).state == .runnable &&
      (k.proc 0).queueNumber == 2 && (k.proc 1).state == .runnable && (k.proc 1).queueNumber == 1 &&
      (M.replay [.scheduler 0, .resume 0] [] k).any fun r => (M.next tick r.2).any fun t =>
        t.myproc 0 == some 1 && (t.proc 1).context == .user && (t.proc 0).state == .runnable)
    (by decide +kernel)
  simp only [Bool.and_eq_true, beq_iff_eq, Option.any_eq_true] at htest
  obtain ⟨⟨⟨⟨⟨hen, h0⟩, hlow⟩, h1⟩, hhigh⟩, r, hr, t, ht, ⟨hcpu, huser⟩, hrunnable⟩ := htest
  have hreach : M.Reachable k := ⟨steps, hrun⟩
  have hlater : M.Reachable r.2 := hreach.path (path_of_replay .nil hr)
  obtain ⟨k', hk', hiff, hchosen⟩ := (priority_respected rfl hreach).1 hen
  obtain ⟨p, hp⟩ := hiff.mpr ⟨0, h0⟩
  have hne : p ≠ 0 := by
    rintro rfl
    have hle := (hchosen 0 hp).2.1 1 h1
    omega
  exact ⟨k, k', r.2, t, hreach, h0, hlow, h1, hhigh, hk', ⟨p, hp, hne⟩, hlater, step_of_next ht, hcpu,
    hrunnable, (priority_respected rfl hlater).2 tick t 1 (step_of_next ht) (.inl ⟨_, _, rfl⟩) hcpu huser 0
      hrunnable⟩

end Xv6
