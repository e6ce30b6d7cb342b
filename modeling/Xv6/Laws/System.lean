import Xv6.Laws.Scheduler

/-!
# What an event can do

`exec_spec` goes through the events once. It says that no event ends in a fault of the queues,
that every event keeps the invariant, and which kind of effect it has on the schedulers'
accounts: calm, a scheduler pass, a kill, a process entering level 0, or a timer interrupt. The
laws about runs are inductions over runs that look at these cases.
-/

namespace Xv6

open Base Base.Machine

variable {n : Nat} {k k' : Kernel n} {p : Slot} {c : Fin n}

/-- The kinds of effect an event can have. -/
inductive Effect (cfg : Config) (k : Kernel n) : Event n → Kernel n → Prop
  | calm {e : Event n} {k' : Kernel n} (he : e.quiet = true) (h : Calm k k') :
      Effect cfg k e k'
  | passed {k' : Kernel n} (c : Fin n) (h : Passed k c k') : Effect cfg k (.scheduler c) k'
  | spared (c : Fin n) (pid : Int) (hpid : ∀ p, (k.proc p).pid ≠ pid) :
      Effect cfg k (.kill c pid) k
  | killed {k' : Kernel n} (c : Fin n) (pid : Int) (p : Slot) (hpid : (k.proc p).pid = pid)
      (h : KillStep k p k') : Effect cfg k (.kill c pid) k'
  | booted {k' : Kernel n} (a : Alloc) (p : Slot) (h : Published k p k')
      (hinit : k'.initproc = some p) (hslot : k.freeSlot = some p) :
      Effect cfg k (.userinit a) k'
  | forked {k' : Kernel n} (c : Fin n) (p : Slot) (h : Published k p k')
      (hinit : k'.initproc = k.initproc) (hused : (k.proc p).state = .used) :
      Effect cfg k (.forkEnd c) k'
  | userTick {k₁ k' : Kernel n} (c : Fin n) (u : UserRegs) (page : Bool) (p : Slot)
      (huser : k.thread c = some .user) (hc : k.myproc c = some p)
      (htick : Ticked c (some p) k k₁) (h : UserTick cfg k₁ c p k') :
      Effect cfg k (.timer c u page) k'
  | kernelTick {k₁ k' : Kernel n} (c : Fin n) (u : UserRegs) (page : Bool)
      (huser : k.thread c ≠ some .user) (hidle : k'.myproc c = none)
      (hready : ∀ p, k.myproc c = some p → (k'.proc p).state = .runnable)
      (htick : Ticked c (k.myproc c) k k₁) (h : Calm k₁ k') : Effect cfg k (.timer c u page) k'

/-- A postcondition of code that runs on the hart's current process. -/
theorem onProc_post {f : Slot → Except Fault (Kernel n)} {Q : Kernel n → Prop}
    (h : ∀ p, k.myproc c = some p → Post QueueFault (f p) Q) :
    Post QueueFault (k.onProc c f) Q := by
  rw [Kernel.onProc]
  split
  · simp [QueueFault]
  · next p hp => exact h p hp

theorem deviceintr_spec (h : Inv k) (me : Option Slot) (chans : List Chan) :
    Post QueueFault (k.deviceintr me chans) fun k' => Kept k k' ∧ k'.cpus = k.cpus := by
  refine Post.foldlM (I := fun k' => Kept k k' ∧ k'.cpus = k.cpus) chans ⟨⟨h, .refl k⟩, rfl⟩ ?_
  rintro a ⟨ha, hcpus⟩ chan _
  refine (wakeup_spec ha.inv me chan).mono fun b hb => ?_
  exact ⟨⟨hb.1, ha.calm.trans hb.2.calm⟩, hb.2.cpus.trans hcpus⟩

theorem device_spec (h : Inv k) (cfg : Config) (c : Fin n) (u : UserRegs) (chans : List Chan) :
    Post QueueFault (k.device cfg c u chans) (Kept k) := by
  rw [Kernel.device]
  split
  · refine onProc_post fun p hc => ?_
    have hsave := saveUser_aside k p u
    refine (deviceintr_spec (hsave.inv h) _ chans).bind fun k₁ hk₁ => ?_
    have hc₁ : k₁.myproc c = some p := by
      rw [Kernel.myproc, hk₁.2]
      exact hc
    have hcalm := hsave.calm.trans hk₁.1.calm
    split
    · exact .trans hcalm (hk₁.1.inv.run_kept hc₁ rfl rfl rfl rfl id (.inr rfl))
    · exact .trans hcalm (usertrapret_kept hk₁.1.inv hc₁ cfg)
  · exact (deviceintr_spec h _ chans).mono fun k' hk' => hk'.1

theorem resume_spec (h : Inv k) (hc : k.myproc c = some p) (cfg : Config) :
    Post QueueFault (k.resume cfg c p) (Kept k) := by
  rw [Kernel.resume]
  split
  · next i _ =>
    obtain ⟨k', hk', hp⟩ := preempt_spec h cfg c p i
    rw [hk']
    exact hp.kept h hc
  · refine h.run_kept hc rfl rfl rfl rfl id (.inr ?_)
    split <;> rfl
  · exact usertrapret_kept h hc cfg

theorem syscallReturn_kept (h : Inv k) (hc : k.myproc c = some p) (cfg : Config)
    (value : UInt64) : Kept k (k.syscallReturn cfg c p value) := by
  have hkept : Kept k (k.modify p fun x => { x with trapframe := { x.trapframe with
      regs := Function.update x.trapframe.regs .a0 value } }) :=
    h.run_kept hc rfl rfl rfl rfl id (.inl rfl)
  simp only [Kernel.syscallReturn]
  split
  · exact .trans hkept.calm (hkept.inv.run_kept hc rfl rfl rfl rfl id (.inr rfl))
  · exact .trans hkept.calm (usertrapret_kept hkept.inv hc cfg)

theorem usertrapSyscall_kept (h : Inv k) (hc : k.myproc c = some p) (u : UserRegs)
    (num : Fin 32) : Kept k (k.usertrapSyscall p u num) := by
  have hsave := saveUser_aside k p u
  simp only [Kernel.usertrapSyscall]
  split
  all_goals exact .trans hsave.calm ((hsave.inv h).run_kept (c := c) hc rfl rfl rfl rfl id (.inr rfl))

theorem sysSigreturn_spec (h : Inv k) (hc : k.myproc c = some p) (cfg : Config) :
    Post QueueFault (k.sysSigreturn cfg c p) (Kept k) := by
  rw [Kernel.sysSigreturn]
  split
  · simp [QueueFault]
  · next tf _ =>
    have hkept : Kept k (k.modify p fun x => { x with
        trapframe := tf, alarmTf := none, alarmOn := false, curTicks := 0
        inAlarmHandler := false }) :=
      h.run_kept hc rfl rfl rfl rfl id (.inl rfl)
    exact .trans hkept.calm (usertrapret_kept hkept.inv hc cfg)

theorem forkret_kept (h : Inv k) (hc : k.myproc c = some p) (cfg : Config) :
    Kept k (k.forkret cfg c p) := by
  rw [Kernel.forkret]
  split
  · let k₁ : Kernel n := { k with first := false }
    have h₁ : Inv k₁ := h.congr (fun _ => ⟨rfl, rfl⟩) rfl (fun _ => rfl) (le_refl _)
    have hcalm : Calm k k₁ := ⟨rfl, rfl, rfl, fun _ => .refl _⟩
    have hkept : Kept k₁ (k₁.modify p fun x => { x with context := .kernel }) :=
      h₁.run_kept (c := c) hc rfl rfl rfl rfl id (.inr rfl)
    exact .trans hcalm hkept
  · exact usertrapret_kept h hc cfg

theorem publish_step (h : Inv k) (hc : k.myproc c = some p) :
    Post QueueFault (k.publish p) fun k' => Inv k' ∧
      (Calm k k' ∨ ∃ np, Published k np k' ∧ k'.initproc = k.initproc ∧
        (k.proc np).state = .used) := by
  rw [Kernel.publish]
  split
  · next np hctx =>
    have hrun := h.harts.current c p hc
    obtain ⟨k', hk', hinv, hpub, -, hinit, -⟩ := forkEnd_spec h hrun hctx
    rw [hk']
    exact ⟨hinv, .inr ⟨np, hpub, hinit, h.threads.forking p np (by rw [hrun]; rfl) hctx⟩⟩
  · exact ⟨h, .inl (.refl k)⟩

theorem timer_spec (h : Inv k) (cfg : Config) (c : Fin n) (u : UserRegs) (page : Bool) :
    Post QueueFault (k.timer cfg c u page) fun k' =>
      Inv k' ∧ Effect cfg k (.timer c u page) k' := by
  rw [Kernel.timer]
  split
  · next huser =>
    refine onProc_post fun p hc => ?_
    refine (usertrapTimer_spec h hc cfg u (by simp [QueueFault])).mono fun k' hk' => ⟨hk'.1, ?_⟩
    obtain ⟨k₁, htick, htrap⟩ := hk'.2
    exact .userTick c u page p huser hc htick htrap
  · next huser =>
    refine (kerneltrapTimer_spec h c).mono fun k' hk' => ⟨hk'.1, ?_⟩
    obtain ⟨hidle, hready, k₁, htick, hcalm⟩ := hk'.2
    exact .kernelTick c u page huser hidle hready htick hcalm

theorem kill_step (h : Inv k) (cfg : Config) (c : Fin n) (pid : Int) :
    Post QueueFault (k.kill pid) fun r => Inv r.1 ∧ Effect cfg k (.kill c pid) r.1 := by
  rcases kill_spec h pid with ⟨hk, hnone⟩ | ⟨p, k', hpid, hk, hinv, hstep⟩
  · rw [hk]
    exact ⟨h, .spared c pid hnone⟩
  · rw [hk]
    exact ⟨hinv, .killed c pid p hpid hstep⟩

theorem Kept.effect {cfg : Config} {e : Event n} (h : Kept k k') (he : e.quiet = true) :
    Inv k' ∧ Effect cfg k e k' := ⟨h.inv, .calm he h.calm⟩

/-- Every event keeps the invariant, faults in no queue, and has one of the effects. -/
theorem exec_spec (h : Inv k) (cfg : Config) {e : Event n} (he : k.enabled e = true) :
    Post QueueFault (k.exec cfg e) fun k' => Inv k' ∧ Effect cfg k e k' := by
  cases e with
  | userinit a =>
    refine (userinit_spec h a).mono fun k' hk' => ⟨hk'.1, ?_⟩
    obtain ⟨p, hslot, hp, hinit⟩ := hk'.2
    exact .booted a p hp hinit hslot
  | scheduler c =>
    have hc : k.myproc c = none := by
      have hthread : k.thread c = none ∧ k.initproc.isSome = true := by
        simpa [Kernel.enabled] using he
      simpa [Kernel.thread] using hthread.1
    obtain ⟨k', hk', hinv, hpass⟩ := scheduler_spec h hc cfg.build
    rw [Kernel.exec, hk']
    exact ⟨hinv, .passed c hpass⟩
  | forkret c => exact onProc_post fun p hc => (forkret_kept h hc cfg).effect rfl
  | resume c => exact onProc_post fun p hc => (resume_spec h hc cfg).mono fun _ hk => hk.effect rfl
  | timer c u page => exact timer_spec h cfg c u page
  | device c u chans => exact (device_spec h cfg c u chans).mono fun _ hk => hk.effect rfl
  | exception c u =>
    refine onProc_post fun p hc => ?_
    have hsave := saveUser_aside k p u
    rw [Kernel.usertrapException, Kernel.setkilled, Kernel.modify_modify]
    exact Kept.effect (.trans hsave.calm ((hsave.inv h).run_kept (c := c) hc rfl rfl rfl rfl
      (fun _ => rfl) (.inr rfl))) rfl
  | syscall c u num => exact onProc_post fun p hc => (usertrapSyscall_kept h hc u num).effect rfl
  | ret c value => exact onProc_post fun p hc => (syscallReturn_kept h hc cfg value).effect rfl
  | fork c a uvmcopy =>
    refine onProc_post fun p hc => ?_
    exact (forkBegin_spec h (h.harts.current c p hc) a uvmcopy).bind fun r hr => hr.effect rfl
  | forkEnd c =>
    refine onProc_post fun p hc => ?_
    refine (publish_step h hc).mono fun k' hk' => ⟨hk'.1, ?_⟩
    rcases hk'.2 with hcalm | ⟨np, hp, hinit, hused⟩
    · exact .calm rfl hcalm
    · exact .forked c np hp hinit hused
  | sleep c chan =>
    exact onProc_post fun p hc => (sleep_kept h hc chan).mono fun _ hk => hk.effect rfl
  | wakeup c chan =>
    exact (wakeup_spec h _ chan).mono fun _ hk => ⟨hk.1, .calm rfl hk.2.calm⟩
  | kill c pid => exact (kill_step h cfg c pid).bind fun r hr => hr
  | exit c status =>
    exact onProc_post fun p hc => (exit_spec h hc status).mono fun _ hk => hk.effect rfl
  | wait c copyoutFails =>
    exact onProc_post fun p hc => (wait_spec h hc copyoutFails).bind fun r hr => hr.effect rfl
  | waitx c copyoutFails =>
    exact onProc_post fun p hc => (waitx_spec h hc copyoutFails).bind fun r hr => hr.effect rfl
  | exec c entry sp =>
    exact onProc_post fun p hc =>
      (h.run_kept hc rfl rfl rfl rfl id (.inl rfl) : Kept k (k.execCommit p entry sp)).effect rfl
  | sigalarm c ticks handler =>
    exact onProc_post fun p hc =>
      (h.run_kept hc rfl rfl rfl rfl id (.inl rfl) : Kept k (k.sysSigalarm p ticks handler)).effect rfl
  | sigreturn c =>
    exact onProc_post fun p hc => (sysSigreturn_spec h hc cfg).mono fun _ hk => hk.effect rfl
  | settickets c tickets =>
    exact onProc_post fun p hc =>
      (h.run_kept hc rfl rfl rfl rfl id (.inl rfl) : Kept k (k.sysSettickets p tickets)).effect rfl

theorem step_spec {cfg : Config} {e : Event n} (h : Inv k) (hs : (system cfg n).Step k e k') :
    Inv k' ∧ Effect cfg k e k' :=
  (exec_spec h cfg (e := e) hs.1).of_ok hs.2

/-- The invariant holds in every reachable state. -/
theorem inv_reachable {cfg : Config} (h : (system cfg n).Reachable k) : Inv k :=
  h.invariant (inv_boot n) fun _ _ _ hs hstep => (step_spec hs hstep).1

theorem Queued.nodup_all {S : Slot → Prop} (h : Queued k S) :
    (k.queue 0 ++ k.queue 1 ++ k.queue 2 ++ k.queue 3).Nodup := by
  have hdisj : ∀ q q' : Fin 4, q ≠ q' → (k.queue q).Disjoint (k.queue q') :=
    fun q q' hne p hp hp' => hne (h.level_unique hp hp')
  refine ((((h.nodup 0).append (h.nodup 1) ?_).append (h.nodup 2) ?_).append (h.nodup 3) ?_)
  · exact hdisj 0 1 (by decide)
  · exact List.disjoint_append_left.mpr ⟨hdisj 0 2 (by decide), hdisj 1 2 (by decide)⟩
  · refine List.disjoint_append_left.mpr ⟨List.disjoint_append_left.mpr ⟨?_, ?_⟩, ?_⟩
    · exact hdisj 0 3 (by decide)
    · exact hdisj 1 3 (by decide)
    · exact hdisj 2 3 (by decide)

/-- Every cell in use holds an entry of the level's list. -/
theorem Queued.deref_mem {S : Slot → Prop} (h : Queued k S) {q : Fin 4} {i : Nat}
    (hi : i < (k.multique q).size) : ∃ p ∈ k.queue q, (k.multique q).deref i = .ok p := by
  rw [h.array q, ArrayQueue.ofList_size] at hi
  refine ⟨(k.queue q)[i], List.getElem_mem hi, ?_⟩
  rw [h.array q]
  exact ArrayQueue.deref_getElem NPROC (k.queue q) hi

/-- The ready queues are sound. -/
structure SoundQueues (cfg : Config) (k : Kernel n) : Prop where
  /-- no process is queued twice -/
  distinct : (k.queue 0 ++ k.queue 1 ++ k.queue 2 ++ k.queue 3).Nodup
  /-- the cells in use hold processes of that level that are runnable or running -/
  entries : ∀ q, ∀ i < (k.multique q).size, ∃ p, (k.multique q).deref i = .ok p ∧
    (k.proc p).queueNumber = q ∧ ((k.proc p).state = .runnable ∨ (k.proc p).state = .running)
  /-- every such process is on exactly one queue -/
  queued : ∀ p, (k.proc p).state = .runnable ∨ (k.proc p).state = .running →
    ∃! q, p ∈ k.queue q
  /-- the counters stay within the arrays -/
  sizes : ∀ q, (k.multique q).size ≤ NPROC ∧ (k.multique q).cells.length = NPROC
  /-- no event reads or writes outside an array or follows an empty cell -/
  safe : ∀ e f, k.enabled e = true → k.exec cfg e = .error f →
    f ≠ .bounds ∧ f ≠ .null "array cell"

/-- The ready queues are sound in every reachable state. -/
theorem queues_sound {cfg : Config} (h : (system cfg n).Reachable k) : SoundQueues cfg k := by
  have hinv := inv_reachable h
  have hqueued := hinv.queued
  refine ⟨hqueued.nodup_all, fun q i hi => ?_, fun p hp => ?_, fun q => ?_, fun e f he hf => ?_⟩
  · obtain ⟨p, hp, hread⟩ := hqueued.deref_mem hi
    exact ⟨p, hread, hqueued.level q p hp, ready_eq_true.mp ((hqueued.mem p).mpr ⟨q, hp⟩)⟩
  · obtain ⟨q, hq⟩ := (hqueued.mem p).mp (ready_eq_true.mpr hp)
    exact ⟨q, hq, fun q' hq' => hqueued.level_unique hq' hq⟩
  · have hlen := hqueued.length_le q
    rw [hqueued.array q]
    refine ⟨hlen, ?_⟩
    simp only [ArrayQueue.ofList, List.length_append, List.length_map, List.length_replicate]
    omega
  · have hfault := (exec_spec hinv cfg he).of_error hf
    exact ⟨fun hb => hfault (.inl hb), fun hn => hfault (.inr hn)⟩

/-- The MLFQ build, for the runs that are computed. -/
def mlfqConfig : Config := { build := .mlfq }

/-- User registers for the runs that are computed. -/
def zeroRegs : UserRegs := ⟨0, fun _ => 0⟩

/-- The first process is created and reaches user mode. -/
def firstRun (c : Fin n) : List (Event n) :=
  [.userinit ⟨true, true⟩, .scheduler c, .forkret c, .ret c 0]

/-- It forks and waits, by calls with these numbers, and its child starts. -/
def forkRun (c : Fin n) (fork wait : Fin 32) : List (Event n) :=
  firstRun c ++ [.syscall c zeroRegs fork, .fork c ⟨true, true⟩ true, .forkEnd c, .ret c 2,
    .syscall c zeroRegs wait, .wait c false, .scheduler c, .forkret c]

/-- The first process is created, dispatched, returns to user mode and takes a timer interrupt,
after which it waits at level 1. -/
theorem queues_sound_run : ∃ k : Kernel 1, (system mlfqConfig 1).Reachable k ∧
    k.queue 1 = [0] ∧ SoundQueues mlfqConfig k := by
  obtain ⟨steps, k, hrun, htest⟩ := exists_run (M := system mlfqConfig 1)
    (firstRun 0 ++ [.timer 0 zeroRegs true])
    (fun _ k => k.queue 1 == [0]) (by decide +kernel)
  exact ⟨k, ⟨steps, hrun⟩, beq_iff_eq.mp htest, queues_sound ⟨steps, hrun⟩⟩

end Xv6
