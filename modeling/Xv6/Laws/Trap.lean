import Xv6.Laws.Life
import Xv6.Laws.Boost

/-!
# What a timer interrupt does

The clock part of an interrupt advances `ticks`, adds a tick to the running processes and wakes
the sleepers on `ticks`; `Clocked` collects that. `UserTick` is everything a timer interrupt can
do to a process in user mode: the clock, the exit of a killed process, the alarm, and in the MLFQ
build the charge, the boost, the demotion and the preemption loop. `usertrapTimer_spec` says that
there is nothing else, and the laws about levels and charges are read off it case by case.
-/

namespace Xv6

open Base

variable {n : Nat} {k k' : Kernel n} {p : Slot} {c : Fin n} {bad : Fault → Prop}

/-! ## The clock -/

/-- The processes `update_time` adds a tick to. -/
def Kernel.runners (k : Kernel n) : List Slot :=
  slots.filter fun p => (k.proc p).state = .running

/-- The run times grow, and the history says whose. -/
structure Timed (l : List Slot) (k k' : Kernel n) : Prop where
  frame : k' = { k with proc := k'.proc, hist := k'.hist }
  hist : k'.hist =
    ((l.filter fun p => (k.proc p).state = .running).map Obs.ran).reverse ++ k.hist
  slot : ∀ x, ∃ r, k'.proc x = { k.proc x with rtime := r }

theorem Timed.cpus {l : List Slot} (h : Timed l k k') : k'.cpus = k.cpus := by
  rw [h.frame]

theorem updateTimeOne_timed (k : Kernel n) (p : Slot) : Timed [p] k (k.updateTimeOne p) := by
  rw [Kernel.updateTimeOne]
  split
  · next hrun =>
    refine ⟨rfl, by simp [hrun], fun x => ?_⟩
    rw [Kernel.note_proc, Kernel.modify_proc]
    split
    · next he => rw [he]; exact ⟨_, rfl⟩
    · exact ⟨_, rfl⟩
  · next hrun => exact ⟨rfl, by simp [hrun], fun x => ⟨_, rfl⟩⟩

theorem updateTime_foldl (l : List Slot) (k : Kernel n) :
    Timed l k (l.foldl Kernel.updateTimeOne k) := by
  induction l generalizing k with
  | nil => exact ⟨rfl, rfl, fun x => ⟨_, rfl⟩⟩
  | cons p l ih =>
    have hone := updateTimeOne_timed k p
    have hrest := ih (k.updateTimeOne p)
    have hstate : ∀ x, ((k.updateTimeOne p).proc x).state = (k.proc x).state := fun x => by
      obtain ⟨r, hr⟩ := hone.slot x
      rw [hr]
    refine ⟨?_, ?_, fun x => ?_⟩
    · rw [List.foldl_cons, hrest.frame, hone.frame]
    · rw [List.foldl_cons, hrest.hist, hone.hist]
      simp only [hstate]
      rw [← List.append_assoc, ← List.reverse_append, ← List.map_append, ← List.filter_append,
        List.singleton_append]
    · obtain ⟨r, hr⟩ := hone.slot x
      obtain ⟨r', hr'⟩ := hrest.slot x
      exact ⟨r', by rw [List.foldl_cons, hr', hr]⟩

/-- The clock part of a timer interrupt on a hart whose process is `me`. -/
structure Clocked (me : Option Slot) (k k' : Kernel n) : Prop where
  ticks : k'.ticks = uint32 (k.ticks + 1)
  hist : k'.hist = (k.runners.map Obs.ran).reverse ++ .tick (uint32 (k.ticks + 1)) :: k.hist
  cpus : k'.cpus = k.cpus
  init : k'.initproc = k.initproc
  slot : ∀ x, Proc.Calm (k.proc x) (k'.proc x)
  self : ∀ p, me = some p →
    (k'.proc p).core = (k.proc p).core ∧ (k'.proc p).killed = (k.proc p).killed

theorem clockintr_spec (h : Inv k) (me : Option Slot) :
    Post bad (k.clockintr me) fun k' => Inv k' ∧ Clocked me k k' := by
  let k₁ : Kernel n := { k with ticks := uint32 (k.ticks + 1) }.note (.tick (uint32 (k.ticks + 1)))
  have htimed : Timed slots k₁ k₁.updateTime := updateTime_foldl slots k₁
  have h₂ : Inv k₁.updateTime := by
    refine h.congr (fun x => ?_) ?_ (fun c => ?_) ?_
    · obtain ⟨r, hr⟩ := htimed.slot x
      rw [hr]
      exact ⟨rfl, rfl⟩
    · rw [htimed.frame]; rfl
    · rw [Kernel.myproc, htimed.cpus]; rfl
    · exact le_of_eq (by rw [htimed.frame]; rfl)
  refine (wakeup_spec h₂ me .ticks).mono fun k' hk' => ⟨hk'.1, ?_, ?_, ?_, ?_, fun x => ?_,
    ?_⟩
  · rw [hk'.2.calm.ticks, htimed.frame]; rfl
  · rw [hk'.2.calm.hist, htimed.hist]; rfl
  · rw [hk'.2.cpus, htimed.cpus]; rfl
  · rw [hk'.2.calm.init, htimed.frame]; rfl
  · obtain ⟨r, hr⟩ := htimed.slot x
    have hcalm := hk'.2.calm.slot x
    rw [hr] at hcalm
    exact ⟨⟨hcalm.level, hcalm.ticks, hcalm.live⟩, hcalm.run, hcalm.stay⟩
  · rintro p rfl
    obtain ⟨r, hr⟩ := htimed.slot p
    rw [hk'.2.self, hr]
    exact ⟨rfl, rfl⟩

/-! ## The timer branch of `usertrap` -/

/-- Only the record of `p` changes, and in nothing the schedulers read. -/
structure Aside (p : Slot) (k k' : Kernel n) : Prop where
  frame : k' = { k with proc := k'.proc }
  other : ∀ x, x ≠ p → k'.proc x = k.proc x
  core : (k'.proc p).core = (k.proc p).core
  level : (k'.proc p).queueNumber = (k.proc p).queueNumber
  ticks : (k'.proc p).queueticks = (k.proc p).queueticks
  killed : (k'.proc p).killed = (k.proc p).killed

theorem Aside.inv (h : Aside p k k') (hk : Inv k) : Inv k' := by
  refine hk.congr (fun x => ?_) ?_ (fun c => ?_) ?_
  · by_cases hx : x = p
    · rw [hx]; exact ⟨h.core, h.level⟩
    · rw [h.other x hx]; exact ⟨rfl, rfl⟩
  · rw [h.frame]
  · rw [h.frame]; rfl
  · rw [h.frame]

theorem Aside.calm (h : Aside p k k') : Calm k k' := by
  refine ⟨?_, ?_, ?_, fun x => ?_⟩
  · rw [h.frame]
  · rw [h.frame]
  · rw [h.frame]
  · by_cases hx : x = p
    · have hcore := h.core
      simp only [Proc.core, Prod.mk.injEq] at hcore
      rw [hx]
      exact .keep hcore.1 h.level h.ticks (fun hk => h.killed.trans hk) (.inl hcore.2.2)
    · rw [h.other x hx]
      exact .refl _

theorem Aside.modify (k : Kernel n) {f : Proc → Proc}
    (hcore : (f (k.proc p)).core = (k.proc p).core)
    (hlevel : (f (k.proc p)).queueNumber = (k.proc p).queueNumber)
    (hticks : (f (k.proc p)).queueticks = (k.proc p).queueticks)
    (hkilled : (f (k.proc p)).killed = (k.proc p).killed) : Aside p k (k.modify p f) := by
  refine ⟨rfl, fun x hx => Kernel.modify_of_ne _ _ _ hx, ?_, ?_, ?_, ?_⟩
  all_goals rw [Kernel.modify_self]; assumption

theorem saveUser_aside (k : Kernel n) (p : Slot) (u : UserRegs) : Aside p k (k.saveUser p u) :=
  .modify k rfl rfl rfl rfl

/-- The clock part on hart `c`, whose process is `me`: only hart 0 keeps the time. -/
def Ticked (c : Fin n) (me : Option Slot) (k k' : Kernel n) : Prop :=
  if c.val = 0 then Clocked me k k' else
    Calm k k' ∧ k'.cpus = k.cpus ∧ ∀ p, me = some p →
      (k'.proc p).core = (k.proc p).core ∧ (k'.proc p).killed = (k.proc p).killed

/-- The timer interrupt keeps the invariant. -/
theorem timerintr_spec (h : Inv k) (c : Fin n) :
    Post bad (k.timerintr c) fun k' => Inv k' ∧ Ticked c (k.myproc c) k k' := by
  unfold Kernel.timerintr Ticked
  split
  · exact clockintr_spec h _
  · exact ⟨h, .refl k, rfl, fun _ _ => ⟨rfl, rfl⟩⟩

/-- A change of `p`'s record on the way into the trap makes no difference to the clock. -/
theorem Aside.ticked {k₁ k₂ : Kernel n} (h : Aside p k k₁) (ht : Ticked c (some p) k₁ k₂) :
    Ticked c (some p) k k₂ := by
  have hcalm := h.calm
  have hcpus : k₁.cpus = k.cpus := by rw [h.frame]
  unfold Ticked at ht ⊢
  split at ht
  · next hc =>
    rw [if_pos hc]
    have hrunners : k₁.runners = k.runners := by
      refine List.filter_congr fun x _ => ?_
      by_cases hx : x = p
      · rw [hx, show (k₁.proc p).state = (k.proc p).state from congrArg Prod.fst h.core]
      · rw [h.other x hx]
    refine ⟨?_, ?_, ht.cpus.trans hcpus, ht.init.trans hcalm.init,
      fun x => (hcalm.slot x).trans (ht.slot x), ?_⟩
    · rw [ht.ticks, hcalm.ticks]
    · rw [ht.hist, hrunners, hcalm.ticks, hcalm.hist]
    · intro x hx
      cases hx
      exact ⟨(ht.self p rfl).1.trans h.core, (ht.self p rfl).2.trans h.killed⟩
  · next hc =>
    rw [if_neg hc]
    refine ⟨hcalm.trans ht.1, ht.2.1.trans hcpus, ?_⟩
    intro x hx
    cases hx
    exact ⟨(ht.2.2 p rfl).1.trans h.core, (ht.2.2 p rfl).2.trans h.killed⟩

theorem Ticked.cpus {me : Option Slot} (h : Ticked c me k k') : k'.cpus = k.cpus := by
  unfold Ticked at h
  split at h
  · exact Clocked.cpus h
  · exact h.2.1

theorem Ticked.self (h : Ticked c (some p) k k') :
    (k'.proc p).core = (k.proc p).core ∧ (k'.proc p).killed = (k.proc p).killed := by
  unfold Ticked at h
  split at h
  · exact Clocked.self h p rfl
  · exact h.2.2 p rfl

theorem Ticked.slot {me : Option Slot} (h : Ticked c me k k') (x : Slot) :
    Proc.Calm (k.proc x) (k'.proc x) := by
  unfold Ticked at h
  split at h
  · exact Clocked.slot h x
  · exact h.1.slot x

/-- The alarm part panics when there is no page for the trapframe, and has no other fault. -/
theorem alarm_spec (k : Kernel n) (p : Slot) {page : Bool}
    (hpage : page = false → ∀ msg, ¬ bad (.panic msg)) :
    Post bad (k.alarm p page) (Aside p k) := by
  rw [Kernel.alarm]
  split
  · simp only [Kernel.modify_modify]
    split
    · split
      · next hnone => exact hpage (by simpa using hnone) _
      · exact .modify k rfl rfl rfl rfl
    · exact .modify k rfl rfl rfl rfl
  · exact ⟨rfl, fun _ _ => rfl, rfl, rfl, rfl, rfl⟩

/-- The level a process is moved to when its slice at level `q` is used up. -/
def nextLevel (q : Fin 4) : Fin 4 :=
  match q with
  | 0 => 1
  | 1 => 2
  | 2 => 3
  | 3 => 3

/-- How the preemption loop ends, from index `i`: the process gives the CPU up at some index, or
it returns to user mode past levels that are all empty. -/
inductive Preempted (cfg : Config) (k : Kernel n) (c : Fin n) (p : Slot) (i : Nat) :
    Kernel n → Prop
  | yielded (j : Nat) : Preempted cfg k c p i (k.yield c p (.usertrap j))
  | returned (hempty : ∀ q : Fin 4, i ≤ q → q < (k.proc p).queueNumber → k.queue q = []) :
      Preempted cfg k c p i (k.usertrapret cfg c p)

theorem preemptFrom_spec (h : Inv k) (cfg : Config) (c : Fin n) (p : Slot) (m i : Nat)
    (hm : i + m = max i (k.proc p).queueNumber) :
    ∃ k', k.preemptFrom cfg c p m i = .ok k' ∧ Preempted cfg k c p i k' := by
  induction m generalizing i with
  | zero =>
    refine ⟨_, rfl, .returned fun q hi hq => ?_⟩
    omega
  | succ m ih =>
    have hi : i < 4 := by have := h.level p; omega
    rw [Kernel.preemptFrom, level_of_lt hi, ok_bind]
    split
    · exact ⟨_, rfl, .yielded (i + 1)⟩
    · next hsize =>
      obtain ⟨k', hk', hp⟩ := ih (i + 1) (by omega)
      refine ⟨k', hk', ?_⟩
      cases hp with
      | yielded j => exact .yielded j
      | returned hempty =>
        refine .returned fun q hiq hq => ?_
        by_cases he : (q : Nat) = i
        · have hqi : q = ⟨i, hi⟩ := Fin.ext he
          rw [h.queued.array, ArrayQueue.ofList_size, Nat.not_lt, Nat.le_zero] at hsize
          rw [hqi]
          exact List.length_eq_zero_iff.mp hsize
        · exact hempty q (by omega) hq

/-- The preemption loop always ends. -/
theorem preempt_spec (h : Inv k) (cfg : Config) (c : Fin n) (p : Slot) (i : Nat) :
    ∃ k', k.preempt cfg c p i = .ok k' ∧ Preempted cfg k c p i k' :=
  preemptFrom_spec h cfg c p _ i (by omega)

/-- The running process's record changes on its way through the kernel: account and state stay,
and the thread stays or moves to a plain place. -/
theorem Inv.run_kept (h : Inv k) (hc : k.myproc c = some p) {f : Proc → Proc}
    (hstate : (f (k.proc p)).state = (k.proc p).state) (hpid : (f (k.proc p)).pid = (k.proc p).pid)
    (hlevel : (f (k.proc p)).queueNumber = (k.proc p).queueNumber)
    (hticks : (f (k.proc p)).queueticks = (k.proc p).queueticks)
    (hkilled : (k.proc p).killed = true → (f (k.proc p)).killed = true)
    (hctx : (f (k.proc p)).context = (k.proc p).context ∨ (f (k.proc p)).context.plain = true) :
    Kept k (k.modify p f) := by
  have hrun := h.harts.current c p hc
  have hready : (k.proc p).state.ready = true := by rw [hrun]; rfl
  refine ⟨h.modify_running hrun (hstate.trans hrun) hpid hlevel fun np he => ?_,
    .modify k (.keep hstate hlevel hticks hkilled hctx)⟩
  rcases hctx with hsame | hplain
  · rw [hsame] at he
    exact ⟨h.threads.forking p np hready he,
      fun x hx hr hcx => hx (h.threads.inj x p np hr hready hcx he)⟩
  · rw [he] at hplain
    cases hplain

theorem usertrapret_kept (h : Inv k) (hc : k.myproc c = some p) (cfg : Config) :
    Kept k (k.usertrapret cfg c p) :=
  h.run_kept hc rfl rfl rfl rfl id (.inr rfl)

theorem yield_kept (h : Inv k) (hc : k.myproc c = some p) {ctx : Context}
    (hctx : ∀ np, ctx = .forking np → (k.proc p).context = .forking np) :
    Kept k (k.yield c p ctx) := by
  refine ⟨h.yield hc hctx, .trans
    (.modify k (.park rfl rfl (by simp) (fun _ => ?_) (fun _ => rfl) fun _ => rfl))
    (Calm.setCpu _ c none)⟩
  rw [h.harts.current c p hc]
  rfl

theorem Preempted.kept {cfg : Config} {i : Nat} (hp : Preempted cfg k c p i k') (h : Inv k)
    (hc : k.myproc c = some p) : Kept k k' := by
  cases hp with
  | yielded j => exact yield_kept h hc fun _ he => (nomatch he)
  | returned _ => exact usertrapret_kept h hc cfg

/-- The charge of one tick, and the boost when it is due. -/
inductive Charged (k : Kernel n) (p : Slot) : Kernel n → Prop
  | plain (hticks : k.ticks % 48 ≠ 0) : Charged k p (k.charge p)
  | boost {k₁ : Kernel n} (hticks : k.ticks % 48 = 0)
      (hb : Boosted (k.charge p).boostList (k.charge p) k₁) : Charged k p (k₁.note .boost)

/-- What the MLFQ build does after the charge: demote the process and give the CPU up, or run the
preemption loop. -/
inductive Settled (cfg : Config) (k : Kernel n) (c : Fin n) (p : Slot) : Kernel n → Prop
  | demoted (q : Fin 4) (hq : (k.proc p).queueNumber = q) (hmem : p ∈ k.queue q)
      (hused : timesliceq q ≤ (k.proc p).queueticks) :
      Settled cfg k c p (((k.moved p q (nextLevel q)).note (.entered p (nextLevel q))).yield c p
        (.usertrap 0))
  | stayed {k₁ : Kernel n} (q : Fin 4) (hq : (k.proc p).queueNumber = q)
      (hleft : (k.proc p).queueticks < timesliceq q) (hp : Preempted cfg k c p 0 k₁) :
      Settled cfg k c p k₁

/-- Everything a timer interrupt can do to a process in user mode. -/
inductive UserTick (cfg : Config) (k : Kernel n) (c : Fin n) (p : Slot) : Kernel n → Prop
  | exits (hkilled : (k.proc p).killed = true) :
      UserTick cfg k c p (k.modify p fun x => { x with context := .exiting })
  | mlfq {k₁ k₂ k₃ : Kernel n} (hkilled : (k.proc p).killed = false)
      (hbuild : cfg.build = .mlfq) (halarm : Aside p k k₁) (hcharge : Charged k₁ p k₂)
      (hsettle : Settled cfg k₂ c p k₃) : UserTick cfg k c p k₃
  | yields {k₁ : Kernel n} (hkilled : (k.proc p).killed = false) (hbuild : cfg.build ≠ .mlfq)
      (halarm : Aside p k k₁) : UserTick cfg k c p (k₁.yield c p .trapret)

/-- A process moves one queue down. -/
theorem demote_spec (h : Inv k) (hp : (k.proc p).state.ready = true) :
    ∃ q : Fin 4, (k.proc p).queueNumber = q ∧ p ∈ k.queue q ∧
      k.demote p = .ok ((k.moved p q (nextLevel q)).note (.entered p (nextLevel q))) := by
  obtain ⟨q, hq, hmem⟩ := h.queued.mem_level hp
  obtain ⟨-, hdeq, henq⟩ := h.queued.moved hmem (nextLevel q)
  refine ⟨q, hq, hmem, ?_⟩
  have hnext : (if 3 < (q : Nat) + 1 then (q : Nat) + 1 - 1 else (q : Nat) + 1) = nextLevel q := by
    match q with
    | 0 => rfl
    | 1 => rfl
    | 2 => rfl
    | 3 => rfl
  rw [Kernel.demote, hdeq, ok_bind]
  simp only [left_proc, hq, hnext]
  rw [henq, ok_bind]
  rfl

theorem charge_inv (h : Inv k) (p : Slot) : Inv (k.charge p) :=
  (h.modify_core (p := p) (f := fun x => { x with queueticks := x.queueticks + 1 })
    ⟨rfl, rfl⟩).congr (fun _ => ⟨rfl, rfl⟩) rfl (fun _ => rfl) (le_refl _)

theorem charge_spec (h : Inv k) (hc : k.myproc c = some p) :
    ∃ k', (k.charge p).boostDue = .ok k' ∧ Charged k p k' ∧ Inv k' ∧ k'.myproc c = some p := by
  have h₁ := charge_inv h p
  rw [Kernel.boostDue]
  split
  · next hticks =>
    obtain ⟨k', hk', hqueued, hb⟩ := boost_spec h₁.queued
    refine ⟨_, hk', .boost hticks hb, (h₁.boosted hqueued hb).congr (fun _ => ⟨rfl, rfl⟩) rfl
      (fun _ => rfl) (le_refl _), ?_⟩
    rw [myproc_note, hb.frame]
    exact hc
  · next hticks => exact ⟨_, rfl, .plain hticks, h₁, hc⟩

/-- The MLFQ tick charges, then settles. -/
theorem mlfqTick_spec (h : Inv k) (hc : k.myproc c = some p) (cfg : Config) :
    ∃ k₁ k', k.mlfqTick cfg c p = .ok k' ∧ Charged k p k₁ ∧ Settled cfg k₁ c p k' ∧ Inv k' := by
  obtain ⟨k₁, hk₁, hcharge, h₁, hc₁⟩ := charge_spec h hc
  have hready : (k₁.proc p).state.ready = true := by rw [h₁.harts.current c p hc₁]; rfl
  obtain ⟨q, hq, hmem, hdemote⟩ := demote_spec h₁ hready
  have hrest : ∃ k', (do
      if timesliceq q ≤ (k₁.proc p).queueticks then
        let k ← k₁.demote p
        return k.yield c p (.usertrap 0)
      else k₁.preempt cfg c p 0) = .ok k' ∧ Settled cfg k₁ c p k' ∧ Inv k' := by
    split
    · next hused =>
      refine ⟨_, by rw [hdemote]; rfl, .demoted q hq hmem hused, ?_⟩
      have h₂ : Inv ((k₁.moved p q (nextLevel q)).note (.entered p (nextLevel q))) :=
        (h₁.moved hmem (nextLevel q)).congr (fun _ => ⟨rfl, rfl⟩) rfl (fun _ => rfl) (le_refl _)
      exact h₂.yield hc₁ fun _ he => (nomatch he)
    · next hleft =>
      obtain ⟨k', hk', hp⟩ := preempt_spec h₁ cfg c p 0
      exact ⟨k', hk', .stayed q hq (Nat.lt_of_not_le hleft) hp, (hp.kept h₁ hc₁).inv⟩
  obtain ⟨k', hk', hsettle, hinv⟩ := hrest
  refine ⟨k₁, k', ?_, hcharge, hsettle, hinv⟩
  rw [Kernel.mlfqTick, hk₁, ok_bind, hq, level_fin, ok_bind]
  exact hk'

theorem usertrapTimer_spec (h : Inv k) (hc : k.myproc c = some p) (cfg : Config) (u : UserRegs)
    {page : Bool} (hpage : page = false → ∀ msg, ¬ bad (.panic msg)) :
    Post bad (k.usertrapTimer cfg c p u page) fun k' =>
      Inv k' ∧ ∃ k₁, Ticked c (some p) k k₁ ∧ UserTick cfg k₁ c p k' := by
  have hsave := saveUser_aside k p u
  refine (timerintr_spec (hsave.inv h) c).bind fun k₁ hk₁ => ?_
  obtain ⟨h₁, htick⟩ := hk₁
  rw [show (k.saveUser p u).myproc c = some p from hc] at htick
  have hticked := hsave.ticked htick
  have hc₁ : k₁.myproc c = some p := by
    rw [Kernel.myproc, hticked.cpus]
    exact hc
  have hrun := h₁.harts.current c p hc₁
  split
  · next hkilled =>
    exact ⟨h₁.modify_running hrun hrun rfl rfl (fun _ he => by cases he), k₁, hticked,
      .exits hkilled⟩
  · next hkilled =>
    have hkilled : (k₁.proc p).killed = false := Bool.eq_false_iff.mpr hkilled
    refine (alarm_spec k₁ p hpage).bind fun k₂ halarm => ?_
    have h₂ := halarm.inv h₁
    have hc₂ : k₂.myproc c = some p := by
      rw [halarm.frame]
      exact hc₁
    split
    · next hbuild =>
      obtain ⟨k₃, k', hk', hcharge, hsettle, hinv⟩ := mlfqTick_spec h₂ hc₂ cfg
      rw [hk']
      exact ⟨hinv, k₁, hticked, .mlfq hkilled hbuild halarm hcharge hsettle⟩
    · next hbuild =>
      exact ⟨h₂.yield hc₂ (fun _ he => by cases he), k₁, hticked,
        .yields hkilled (fun he => hbuild he) halarm⟩

/-- A timer interrupt in the kernel: the running process, if any, gives the CPU up. -/
theorem kerneltrapTimer_spec (h : Inv k) (c : Fin n) :
    Post QueueFault (k.kerneltrapTimer c) fun k' =>
      Inv k' ∧ k'.myproc c = none ∧
      (∀ p, k.myproc c = some p → (k'.proc p).state = .runnable) ∧
      ∃ k₁, Ticked c (k.myproc c) k k₁ ∧ Calm k₁ k' := by
  refine (timerintr_spec h c).bind fun k₁ hk₁ => ?_
  obtain ⟨h₁, htick⟩ := hk₁
  split
  · next hc₁ =>
    refine ⟨h₁, hc₁, fun p hc => ?_, k₁, htick, .refl k₁⟩
    rw [Kernel.myproc, htick.cpus] at hc₁
    rw [Kernel.myproc, hc₁] at hc
    cases hc
  · next p hc₁ =>
    have hkept : Kept k₁ (k₁.yield c p (k₁.proc p).context) :=
      yield_kept h₁ hc₁ fun _ he => he
    rw [if_pos (h₁.harts.current c p hc₁)]
    refine ⟨hkept.inv, by simp [Kernel.yield], fun x hc => ?_, k₁, htick, hkept.calm⟩
    rw [Kernel.myproc, htick.cpus] at hc₁
    rw [Kernel.myproc, hc₁] at hc
    rw [← Option.some.inj hc, yield_proc, if_pos rfl]

end Xv6
