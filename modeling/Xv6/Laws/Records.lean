import Xv6.Laws.Life

/-!
# What the kernel does to the record of a process

Most of the kernel does few kinds of things to the records in the process table: it requeues a
process, moves it between the states of a live one, and lets its thread go on. A relation between
records that all of these respect is `Harmless`, and every function that does nothing else keeps
each record within it (`Within`). There is one such lemma for each function of the source; the laws
about single fields are instances. A relation that the rest respects too is `Lasting`, and every event
keeps each record within it.
-/

namespace Xv6

open Base

variable {n : Nat} {k k' : Kernel n} {p : Slot} {c : Fin n} {R : Proc → Proc → Prop}

/-- A relation between records that holds across what most of the kernel does to them, with their
parents and user registers left alone. -/
structure Gentle (R : Proc → Proc → Prop) : Prop where
  refl : ∀ x, R x x
  trans : ∀ x y z, R x y → R y z → R x z
  queue : ∀ (x : Proc) (ticks level : Nat), R x { x with queueticks := ticks, queueNumber := level }
  move : ∀ (x : Proc) (s : Procstate) (chan : Chan), s.live = true →
    R x { x with state := s, chan := chan }
  tidy : ∀ x : Proc, R x { x with chan := .null }
  context : ∀ (x : Proc) (ctx : Context), ctx ≠ .forkret → R x { x with context := ctx }
  kernelFrame : ∀ (x : Proc) (satp sp trap hartid : UInt64), R x { x with
    trapframe := { x.trapframe with
      kernelSatp := satp, kernelSp := sp, kernelTrap := trap, kernelHartid := hartid } }
  rtime : ∀ (x : Proc) (t : Nat), R x { x with rtime := t }

/-- A relation between records that holds across what most of the kernel does to them. -/
structure Harmless (R : Proc → Proc → Prop) : Prop extends Gentle R where
  trapframe : ∀ (x : Proc) (tf : Trapframe), R x { x with trapframe := tf }
  reparent : ∀ (x : Proc) (pp : Option Slot), x.parent ≠ none → R x { x with parent := pp }
  publish : ∀ (x : Proc) (pp : Option Slot), R x { x with parent := pp, state := .runnable }

/-- A relation between records that holds across all the kernel does to them, the mark of `kill`
apart. -/
structure Lasting (R : Proc → Proc → Prop) : Prop extends Harmless R where
  own : ∀ (x : Proc) (tf : Trapframe) (saved : Option Trapframe) (tickets ticks curTicks : Int)
    (handler : UInt64) (on inside : Bool) (counts : Fin 32 → Int), R x { x with
      trapframe := tf, alarmTf := saved, tickets := tickets, ticks := ticks, curTicks := curTicks
      handler := handler, alarmOn := on, inAlarmHandler := inside, syscallCount := counts }
  claim : ∀ x y : Proc, x.state = .unused → y.state = .used → y.killed = x.killed → R x y
  free : ∀ x : Proc, R x x.freed
  leave : ∀ (x : Proc) (status : Int) (t : Nat),
    R x { x with xstate := status, state := .zombie, etime := t }

/-- Every record is related to what it was, and the generator keeps its seed. -/
structure Within (R : Proc → Proc → Prop) (k k' : Kernel n) : Prop where
  seed : k'.seed = k.seed
  slot : ∀ x, R (k.proc x) (k'.proc x)

/-- Leaving a queue writes no record. -/
theorem dequeue_proc (k : Kernel n) (p : Slot) (q : Nat) :
    Answers (k.dequeue p q) fun k' => k'.proc = k.proc ∧ k'.seed = k.seed := by
  rw [Kernel.dequeue]
  refine Answers.skip _ fun q => ?_
  split
  · exact ⟨rfl, rfl⟩
  · exact Answers.skip _ fun a => ⟨rfl, rfl⟩

namespace Gentle

variable (hR : Gentle R)

include hR

/-- Doing nothing stays within `R`. -/
theorem self (k : Kernel n) : Within R k k := ⟨rfl, fun _ => hR.refl _⟩

/-- Changes within `R` compose. -/
theorem chain {k₁ k₂ k₃ : Kernel n} (h : Within R k₁ k₂) (h' : Within R k₂ k₃) : Within R k₁ k₃ :=
  ⟨h'.seed.trans h.seed, fun x => hR.trans _ _ _ (h.slot x) (h'.slot x)⟩

/-- Where no record and no seed changes, nothing leaves `R`. -/
theorem of_proc (hproc : k'.proc = k.proc) (hseed : k'.seed = k.seed) : Within R k k' :=
  ⟨hseed, fun x => by rw [hproc]; exact hR.refl _⟩

/-- One record rewritten within `R`. -/
theorem modify (k : Kernel n) {f : Proc → Proc} (hf : R (k.proc p) (f (k.proc p))) :
    Within R k (k.modify p f) := by
  refine ⟨rfl, fun x => ?_⟩
  rw [Kernel.modify_proc]
  split
  · next he =>
    rw [he]
    exact hf
  · exact hR.refl _

/-! ## Processes -/

/-- `enqueue` writes only what the queues keep in a record. -/
theorem enqueue (k : Kernel n) (p : Slot) (q : Nat) : Answers (k.enqueue p q) (Within R k) := by
  rw [Kernel.enqueue]
  refine Answers.skip _ fun q => Answers.skip _ fun found => ?_
  split
  · exact hR.self k
  · refine Answers.skip _ fun a => ?_
    have hqueue : Within R k { k with multique := Function.update k.multique q a } :=
      hR.of_proc rfl rfl
    exact hR.chain hqueue (hR.modify _ (hR.queue ..))

theorem dequeue (k : Kernel n) (p : Slot) (q : Nat) : Answers (k.dequeue p q) (Within R k) :=
  (dequeue_proc k p q).mono fun _ h => hR.of_proc h.1 h.2

/-- The ticks of a process that joins a queue are put back. -/
theorem put_back (k : Kernel n) (p : Slot) (ticks : Nat) :
    Within R k (k.modify p fun x => { x with queueticks := ticks }) :=
  hR.modify k (hR.queue (k.proc p) ticks (k.proc p).queueNumber)

/-- A sleeper on the channel becomes runnable and is queued. -/
theorem wakeupOne (me : Option Slot) (chan : Chan) (k : Kernel n) (p : Slot) :
    Answers (k.wakeupOne me chan p) (Within R k) := by
  rw [Kernel.wakeupOne]
  split
  · have hwake : Within R k (k.modify p fun x => { x with state := .runnable }) :=
      hR.modify k (hR.move _ .runnable (k.proc p).chan rfl)
    refine (hR.enqueue _ p _).bind fun k' h => ?_
    exact hR.chain hwake (hR.chain h (hR.put_back k' p _))
  · exact hR.self k

/-- `wakeup` is its rounds over the table, one after another. -/
theorem wakeup (k : Kernel n) (me : Option Slot) (chan : Chan) :
    Answers (k.wakeup me chan) (Within R k) := by
  refine Post.foldlM slots (hR.self k) fun k' h p _ => ?_
  exact (hR.wakeupOne me chan k' p).mono fun k'' h' => hR.chain h h'

/-- `sleep` sets the channel, gives up the CPU and leaves the queue. -/
theorem sleep (k : Kernel n) (c : Fin n) (p : Slot) (chan : Chan) :
    Answers (k.sleep c p chan) (Within R k) := by
  rw [Kernel.sleep]
  refine (hR.dequeue _ p _).bind fun k' h => ?_
  have hsleep : Within R k (k.modify p fun x => { x with
      chan := chan, state := .sleeping, context := .asleep ((k.proc p).context = .exiting) }) :=
    hR.modify k (hR.trans _ _ _ (hR.move _ .sleeping chan rfl)
      (hR.context _ (.asleep ((k.proc p).context = .exiting)) nofun))
  exact hR.chain hsleep (hR.chain h (hR.of_proc rfl rfl))

/-- A process that gives up its CPU never turns into a fresh one. -/
theorem yield (k : Kernel n) (c : Fin n) (p : Slot) {ctx : Context}
    (hctx : ctx ≠ .forkret ∨ ctx = (k.proc p).context) : Within R k (k.yield c p ctx) := by
  have hmove : R (k.proc p) { k.proc p with state := .runnable } :=
    hR.move _ .runnable (k.proc p).chan rfl
  have hpark : Within R k (k.modify p fun x => { x with state := .runnable, context := ctx }) := by
    refine hR.modify k ?_
    rcases hctx with hctx | hctx
    · exact hR.trans _ _ _ hmove (hR.context _ ctx hctx)
    · rw [hctx]
      exact hmove
  exact hR.chain hpark (hR.of_proc rfl rfl)

/-! ## Schedulers -/

/-- A process is given a CPU. -/
theorem dispatch (k : Kernel n) (c : Fin n) (p : Slot) : Within R k (k.dispatch c p) := by
  rw [Kernel.dispatch]
  split
  · have hrun : Within R k (k.modify p fun x => { x with state := .running }) :=
      hR.modify k (hR.move _ .running (k.proc p).chan rfl)
    exact hR.chain hrun (hR.of_proc rfl rfl)
  · exact hR.self k

/-- A runnable process is put back on its queue, with its ticks. -/
theorem requeueOne (k : Kernel n) (p : Slot) : Answers (k.requeueOne p) (Within R k) := by
  rw [Kernel.requeueOne]
  split
  · exact (hR.enqueue k p _).bind fun k' h => hR.chain h (hR.put_back k' p _)
  · exact hR.self k

/-- A round of the MLFQ scheduler requeues, then dispatches. -/
theorem schedulerMlfq (k : Kernel n) (c : Fin n) : Answers (k.schedulerMlfq c) (Within R k) := by
  rw [Kernel.schedulerMlfq]
  have hloop : Answers (slots.foldlM Kernel.requeueOne k) (Within R k) :=
    Post.foldlM slots (hR.self k) fun k' h p _ =>
      (hR.requeueOne k' p).mono fun k'' h' => hR.chain h h'
  refine hloop.bind fun k' h => Answers.skip _ fun found => ?_
  split
  · exact h
  · exact hR.chain h (hR.dispatch k' c _)

theorem schedulerRr (k : Kernel n) (c : Fin n) : Within R k (k.schedulerRr c) := by
  simp only [Kernel.schedulerRr]
  split
  · exact hR.of_proc rfl rfl
  · next p _ =>
    have hscan : ∀ i, Within R k
        { k with cpus := Function.update k.cpus c { k.cpus c with scan := i } } :=
      fun _ => hR.of_proc rfl rfl
    exact hR.chain (hscan _) (hR.dispatch _ c p)

/-- The lottery moves the seed, and of the records only the winner's. -/
theorem schedulerLbs (k : Kernel n) (c : Fin n) (x : Slot) :
    R (k.proc x) ((k.schedulerLbs c).proc x) := by
  rw [Kernel.schedulerLbs, Kernel.lbsPass]
  split
  · rw [Kernel.lottery]
    split
    · exact hR.refl _
    · exact (hR.dispatch { k with seed := lcg k.seed } c _).slot x
  · exact hR.refl _

/-- Whichever scheduler is built in, each record stays within `R`. -/
theorem scheduler (b : Build) (k : Kernel n) (c : Fin n) :
    Answers (k.scheduler b c) fun k' => ∀ x, R (k.proc x) (k'.proc x) := by
  cases b with
  | rr => exact (hR.schedulerRr k c).slot
  | lbs => exact hR.schedulerLbs k c
  | mlfq => exact (hR.schedulerMlfq k c).mono fun _ h => h.slot

/-! ## Traps -/

/-- The thread of a process goes on elsewhere. -/
theorem goes (k : Kernel n) (p : Slot) {ctx : Context} (hctx : ctx ≠ .forkret) :
    Within R k (k.modify p fun x => { x with context := ctx }) :=
  hR.modify k (hR.context _ ctx hctx)

/-- The way back to user space writes the trapframe alone. -/
theorem usertrapret (cfg : Config) (k : Kernel n) (c : Fin n) (p : Slot) :
    Within R k (k.usertrapret cfg c p) :=
  hR.modify k (hR.trans _ _ _ (hR.context (k.proc p) .user nofun)
    (hR.kernelFrame ..))

/-- The tick's accounting, record by record. -/
theorem updateTime (k : Kernel n) : Within R k k.updateTime := by
  have hloop : ∀ (l : List Slot) (k : Kernel n), Within R k (l.foldl Kernel.updateTimeOne k) := by
    intro l
    induction l with
    | nil => exact hR.self
    | cons p l ih =>
      intro k
      have hone : Within R k (k.updateTimeOne p) := by
        rw [Kernel.updateTimeOne]
        split
        · have hran : Within R k (k.modify p fun x => { x with rtime := uint32 (x.rtime + 1) }) :=
            hR.modify k (hR.rtime ..)
          exact hR.chain hran (hR.of_proc rfl rfl)
        · exact hR.self k
      exact hR.chain hone (ih _)
  exact hloop slots k

/-- The clock interrupt: the tick is counted and its sleepers are roused. -/
theorem timerintr (k : Kernel n) (c : Fin n) : Answers (k.timerintr c) (Within R k) := by
  rw [Kernel.timerintr]
  split
  · let t := uint32 (k.ticks + 1)
    have htick : Within R k ({ k with ticks := t }.note (.tick t)) := hR.of_proc rfl rfl
    refine (hR.wakeup _ _ _).mono fun k' h => ?_
    exact hR.chain htick (hR.chain (hR.updateTime _) h)
  · exact hR.self k

/-- The loop that lifts one queue's processes to the top. -/
theorem boostFrom (q : Fin 4) (fuel j : Nat) (k : Kernel n) :
    Answers (Kernel.boostFrom q fuel j k) (Within R k) := by
  induction fuel generalizing j k with
  | zero => exact hR.self k
  | succ fuel ih =>
    rw [Kernel.boostFrom]
    split
    · refine Answers.skip _ fun temp => ?_
      refine (hR.dequeue k temp _).bind fun k₁ h₁ => ?_
      refine (hR.enqueue k₁ temp 0).bind fun k₂ h₂ => ?_
      have hnote : Within R k₂ (k₂.note (.entered temp 0)) := hR.of_proc rfl rfl
      exact (ih _ _).mono fun k' h => hR.chain h₁ (hR.chain h₂ (hR.chain hnote h))
    · exact hR.self k

/-- The boost of all queues, when it is due. -/
theorem boostDue (k : Kernel n) : Answers k.boostDue (Within R k) := by
  rw [Kernel.boostDue]
  split
  · have hloop : Answers ([1, 2, 3].foldlM Kernel.boostLevel k) (Within R k) :=
      Post.foldlM [1, 2, 3] (hR.self k) fun k' h q _ =>
        (hR.boostFrom q _ 0 k').mono fun k'' h' => hR.chain h h'
    exact hloop.bind fun k' h => hR.chain h (hR.of_proc rfl rfl)
  · exact hR.self k

/-- The scan of the higher queues for a process to yield to. -/
theorem preemptFrom (cfg : Config) (k : Kernel n) (c : Fin n) (p : Slot) (m i : Nat) :
    Answers (k.preemptFrom cfg c p m i) (Within R k) := by
  induction m generalizing i with
  | zero => exact hR.usertrapret cfg k c p
  | succ m ih =>
    rw [Kernel.preemptFrom]
    refine Answers.skip _ fun q => ?_
    split
    · exact hR.yield k c p (.inl nofun)
    · exact ih (i + 1)

/-- A process that used up its slice moves one queue down. -/
theorem demote (k : Kernel n) (p : Slot) : Answers (k.demote p) (Within R k) := by
  rw [Kernel.demote]
  refine (hR.dequeue k p _).bind fun k₁ h₁ => ?_
  exact (hR.enqueue k₁ p _).bind fun k₂ h₂ => hR.chain h₁ (hR.chain h₂ (hR.of_proc rfl rfl))

/-- The MLFQ part of a timer interrupt. -/
theorem mlfqTick (cfg : Config) (k : Kernel n) (c : Fin n) (p : Slot) :
    Answers (k.mlfqTick cfg c p) (Within R k) := by
  have hcharge : Within R k (k.charge p) := hR.chain (hR.put_back k p _) (hR.of_proc rfl rfl)
  rw [Kernel.mlfqTick]
  refine (hR.boostDue _).bind fun k₁ h₁ => Answers.skip _ fun q => ?_
  split
  · refine (hR.demote k₁ p).bind fun k₂ h₂ => ?_
    have hyield : Within R k₂ (k₂.yield c p (.usertrap 0)) :=
      hR.yield k₂ c p (.inl nofun)
    exact hR.chain hcharge (hR.chain h₁ (hR.chain h₂ hyield))
  · exact (hR.preemptFrom cfg k₁ c p _ 0).mono fun k₂ h₂ => hR.chain hcharge (hR.chain h₁ h₂)

/-- A timer interrupt taken in the kernel. -/
theorem kerneltrapTimer (k : Kernel n) (c : Fin n) :
    Answers (k.kerneltrapTimer c) (Within R k) := by
  rw [Kernel.kerneltrapTimer]
  refine (hR.timerintr k c).bind fun k₁ h₁ => ?_
  split
  · exact h₁
  · split
    · exact hR.chain h₁ (hR.yield k₁ c _ (.inr rfl))
    · exact h₁

/-- A device interrupt rouses the sleepers on its channels. -/
theorem deviceintr (k : Kernel n) (me : Option Slot) (chans : List Chan) :
    Answers (k.deviceintr me chans) (Within R k) :=
  Post.foldlM chans (hR.self k) fun k' h chan _ =>
    (hR.wakeup k' me chan).mono fun _ h' => hR.chain h h'

/-- The first return of a new process to user space. -/
theorem forkret (cfg : Config) (k : Kernel n) (c : Fin n) (p : Slot) :
    Within R k (k.forkret cfg c p) := by
  rw [Kernel.forkret]
  split
  · have hfirst : Within R k { k with first := false } := hR.of_proc rfl rfl
    exact hR.chain hfirst (hR.goes _ p nofun)
  · exact hR.usertrapret cfg k c p

/-- A process goes on from the context it left. -/
theorem resume (cfg : Config) (k : Kernel n) (c : Fin n) (p : Slot) :
    Answers (k.resume cfg c p) (Within R k) := by
  rw [Kernel.resume]
  split
  · exact hR.preemptFrom cfg k c p _ _
  · next exiting _ =>
    refine hR.modify k (hR.trans _ _ _ (hR.tidy _) (hR.context _ _ ?_))
    cases exiting <;> exact nofun
  · exact hR.usertrapret cfg k c p

end Gentle

namespace Harmless

variable (hR : Harmless R)

include hR

/-- A trap saves the user's registers. -/
theorem saveUser (k : Kernel n) (p : Slot) (u : UserRegs) : Within R k (k.saveUser p u) :=
  hR.modify k (hR.trapframe ..)

/-- A device interrupt taken in user space. -/
theorem device (cfg : Config) (k : Kernel n) (c : Fin n) (u : UserRegs) (chans : List Chan) :
    Answers (k.device cfg c u chans) (Within R k) := by
  rw [Kernel.device]
  split
  · rw [Kernel.onProc]
    split
    · exact answers_error _ _
    · next p _ =>
      refine (hR.deviceintr (k.saveUser p u) _ chans).bind fun k₁ h₁ => ?_
      have hin := hR.chain (hR.saveUser k p u) h₁
      split
      · exact hR.chain hin (hR.goes k₁ p nofun)
      · exact hR.chain hin (hR.usertrapret cfg k₁ c p)
  · exact hR.deviceintr k _ chans

/-- A system call returns its value in `a0`. -/
theorem syscallReturn (cfg : Config) (k : Kernel n) (c : Fin n) (p : Slot) (value : UInt64) :
    Within R k (k.syscallReturn cfg c p value) := by
  let valued (x : Proc) : Proc :=
    { x with trapframe := { x.trapframe with
        regs := Function.update x.trapframe.regs .a0 value } }
  have hvalue : Within R k (k.modify p valued) := hR.modify k (hR.trapframe ..)
  simp only [Kernel.syscallReturn]
  split
  · exact hR.chain hvalue (hR.goes _ p nofun)
  · exact hR.chain hvalue (hR.usertrapret cfg _ c p)

/-! ## Parents -/

/-- `reparent` writes the parent of each orphan. -/
theorem reparents (k : Kernel n) (p : Slot) : Answers (k.reparent p) (Within R k) := by
  refine Post.foldlM slots (hR.self k) fun k' h pp _ => ?_
  split
  · next hpp =>
    have hparent : Within R k' (k'.modify pp fun x => { x with parent := k'.initproc }) := by
      refine hR.modify k' (hR.reparent _ _ ?_)
      rw [hpp]
      exact nofun
    exact (hR.wakeup _ _ _).mono fun k'' h' => hR.chain h (hR.chain hparent h')
  · exact h

/-- What `exit` does before it marks the process as exited, and that mark. -/
theorem exit (k : Kernel n) (c : Fin n) (p : Slot) (status : Int) :
    Answers (k.exit c p status) fun k' => k'.seed = k.seed ∧
      (∃ y t, R (k.proc p) y ∧
        k'.proc p = { y with xstate := status, state := .zombie, etime := t }) ∧
      ∀ x, x ≠ p → R (k.proc x) (k'.proc x) := by
  rw [Kernel.exit]
  split
  · exact answers_error _ _
  · refine (hR.reparents k p).bind fun k₁ h₁ => ?_
    refine (hR.wakeup k₁ _ _).bind fun k₂ h₂ => ?_
    refine (dequeue_proc _ p _).bind fun k₃ h₃ => ?_
    have h := hR.chain h₁ h₂
    refine ⟨h₃.2.trans h.seed, ⟨k₂.proc p, k₂.ticks, h.slot p, ?_⟩, fun x hx => ?_⟩
    · rw [Kernel.setCpu_proc, h₃.1, Kernel.modify_self]
    · rw [Kernel.setCpu_proc, h₃.1, Kernel.modify_of_ne _ _ _ hx]
      exact h.slot x

/-- The second half of `fork` publishes the child. -/
theorem forkEnd (k : Kernel n) (p np : Slot) :
    Answers (k.forkEnd p np) fun r => Within R k r.1 := by
  rw [Kernel.forkEnd]
  have hready : Within R k ((k.modify np fun x => { x with parent := some p }).modify np
      fun x => { x with state := .runnable }) := by
    rw [Kernel.modify_modify]
    exact hR.modify k (hR.publish ..)
  refine (hR.enqueue _ np 0).bind fun k' h => ?_
  have hback : Within R k' (k'.modify p fun x => { x with context := .kernel }) :=
    hR.modify k' (hR.context _ .kernel fun h => by cases h)
  exact hR.chain hready (hR.chain h (hR.chain hback (hR.of_proc rfl rfl)))

/-- `kill` does nothing else than to mark a process and to wake it. -/
theorem kill (hmark : ∀ x, R x { x with killed := true }) (k : Kernel n) (pid : Int) :
    Answers (k.kill pid) fun r => Within R k r.1 := by
  rw [Kernel.kill]
  split
  · exact hR.self k
  · next p _ =>
    let k₁ := k.modify p fun x => { x with killed := true }
    have hkilled : Within R k k₁ := hR.modify k (hmark _)
    simp only
    split
    · have hwake : Within R k₁ (k₁.modify p fun x => { x with state := .runnable }) :=
        hR.modify k₁ (hR.move _ .runnable (k₁.proc p).chan rfl)
      exact (hR.enqueue _ p _).bind fun k' h => hR.chain hkilled (hR.chain hwake h)
    · exact hkilled

end Harmless

/-- What holds for the process on the CPU holds for code that asks for it. -/
theorem onProc_answers {f : Slot → Except Fault (Kernel n)} {Q : Kernel n → Prop}
    (h : ∀ p, k.myproc c = some p → Answers (f p) Q) : Answers (k.onProc c f) Q := by
  rw [Kernel.onProc]
  split
  · exact answers_error _ _
  · next p hp => exact h p hp

/-! ## Every event -/

/-- The events that mark a process as killed. -/
def Event.marks : Event n → Bool
  | .kill .. | .exception .. => true
  | _ => false

namespace Lasting

variable (hR : Lasting R)

include hR

/-- A freed record is a blank one. -/
theorem freeproc (k : Kernel n) (p : Slot) : Answers (k.freeproc p) (Within R k) := by
  have hfreed : Within R k (k.modify p Proc.freed) := hR.modify k (hR.free _)
  exact (hR.dequeue _ p _).mono fun k' h => hR.chain hfreed h

/-- `allocproc` fills a blank record, or frees it again. -/
theorem allocproc (k : Kernel n) (a : Alloc) : Answers (k.allocproc a) fun r => Within R k r.1 := by
  rw [Kernel.allocproc]
  split
  · exact hR.self k
  · next p hp =>
    -- all that is written to the slot together
    let k₁ : Kernel n := { k with nextpid := k.nextpid + 1 }
    have hpid : Within R k k₁ := hR.of_proc rfl rfl
    have hclaim : ∀ f : Proc → Proc, (f (k.proc p)).state = .used →
        (f (k.proc p)).killed = (k.proc p).killed → Within R k (k₁.modify p f) :=
      fun f hstate hkilled =>
        hR.chain hpid (hR.modify k₁ (hR.claim _ _ (freeSlot_unused hp) hstate hkilled))
    rw [Kernel.allocpid]
    split
    · show Answers (if !a.trapframe then _ else if !a.pagetable then _ else _) _
      simp only [Kernel.modify_modify]
      split
      · exact (hR.freeproc _ p).bind fun k' h => hR.chain (hclaim _ rfl rfl) h
      · split
        · exact (hR.freeproc _ p).bind fun k' h => hR.chain (hclaim _ rfl rfl) h
        · exact hclaim (fun x => Proc.fresh { x with
            pid := k.nextpid, state := .used, trapframe := .junk } _ _) rfl rfl
    · exact answers_error _ _

/-- The first process is made and published. -/
theorem userinit (k : Kernel n) (a : Alloc) : Answers (k.userinit a) (Within R k) := by
  rw [Kernel.userinit]
  refine (hR.allocproc k a).bind fun r h => ?_
  obtain ⟨k₁, _ | p⟩ := r
  · exact answers_error _ _
  · let k₂ : Kernel n := { k₁ with initproc := some p }
    have hinit : Within R k k₂ := ⟨h.seed, h.slot⟩
    refine (hR.enqueue _ p 0).bind fun k₃ h₃ => ?_
    refine hR.chain hinit (hR.chain (hR.modify k₂ ?_) (hR.chain h₃ (hR.of_proc rfl rfl)))
    exact hR.trans _ _ _ (hR.move _ .runnable (k₁.proc p).chan rfl) (hR.own ..)

/-- The first half of `fork` fills the child's record, or frees it. -/
theorem forkBegin (k : Kernel n) (p : Slot) (a : Alloc) (uvmcopy : Bool) :
    Answers (k.forkBegin p a uvmcopy) fun r => Within R k r.1 := by
  rw [Kernel.forkBegin]
  refine (hR.allocproc k a).bind fun r h => ?_
  obtain ⟨k₁, _ | np⟩ := r
  · exact h
  · cases uvmcopy with
    | false => exact (hR.freeproc k₁ np).bind fun k' h' => hR.chain h h'
    | true =>
      have hcopy : Within R k₁ (k₁.modify np fun x =>
          { x with trapframe := { (k₁.proc p).trapframe with
              regs := Function.update (k₁.proc p).trapframe.regs .a0 0 } }) :=
        hR.modify k₁ (hR.trapframe ..)
      exact hR.chain h (hR.chain hcopy (hR.goes _ p nofun))

/-- `exit` hands its children on and becomes a zombie. -/
theorem exits (k : Kernel n) (c : Fin n) (p : Slot) (status : Int) :
    Answers (k.exit c p status) (Within R k) := by
  refine (hR.exit k c p status).mono fun k' h => ?_
  obtain ⟨hseed, ⟨y, t, hy, hp⟩, hother⟩ := h
  refine ⟨hseed, fun x => ?_⟩
  by_cases hx : x = p
  · rw [hx, hp]
    exact hR.trans _ _ _ hy (hR.leave ..)
  · exact hother x hx

/-- `wait` frees the child that it reaps. -/
theorem wait (k : Kernel n) (c : Fin n) (p : Slot) (copyoutFails : Bool) :
    Answers (k.wait c p copyoutFails) fun r => Within R k r.1 := by
  rw [Kernel.wait]
  split
  · next pp _ =>
    have hcounts : Within R k (k.modify p fun x =>
        { x with syscallCount := fun i =>
            int32 (x.syscallCount i + (k.proc pp).syscallCount i) }) :=
      hR.modify k (hR.own ..)
    simp only
    split
    · exact hcounts
    · exact (hR.freeproc _ pp).bind fun k' h => hR.chain hcounts h
  · split
    · exact hR.self k
    · exact (hR.sleep k c p _).bind fun k' h => h

/-- `waitx` frees the child that it reaps. -/
theorem waitx (k : Kernel n) (c : Fin n) (p : Slot) (copyoutFails : Bool) :
    Answers (k.waitx c p copyoutFails) fun r => Within R k r.1 := by
  rw [Kernel.waitx]
  split
  · next np _ =>
    simp only
    split
    · exact hR.self k
    · exact (hR.freeproc k np).bind fun k' h => h
  · split
    · exact hR.self k
    · exact (hR.sleep k c p _).bind fun k' h => h

/-- A tick of the alarm may save the trapframe and jump. -/
theorem alarm (k : Kernel n) (p : Slot) (page : Bool) : Answers (k.alarm p page) (Within R k) := by
  rw [Kernel.alarm]
  split
  · simp only [Kernel.modify_modify]
    split
    · split
      · exact answers_error _ _
      · exact hR.modify k (hR.own ..)
    · exact hR.modify k (hR.own ..)
  · exact hR.self k

/-- A timer interrupt taken in user space. -/
theorem timer (cfg : Config) (k : Kernel n) (c : Fin n) (u : UserRegs) (page : Bool) :
    Answers (k.timer cfg c u page) (Within R k) := by
  rw [Kernel.timer]
  split
  · refine onProc_answers fun p _ => ?_
    refine (hR.timerintr (k.saveUser p u) c).bind fun k₁ h₁ => ?_
    have hin := hR.chain (hR.saveUser k p u) h₁
    split
    · exact hR.chain hin (hR.goes k₁ p nofun)
    · refine (hR.alarm k₁ p page).bind fun k₂ h₂ => ?_
      have hrung := hR.chain hin h₂
      split
      · exact (hR.mlfqTick cfg k₂ c p).mono fun k₃ h₃ => hR.chain hrung h₃
      · exact hR.chain hrung (hR.yield k₂ c p (.inl nofun))
  · exact hR.kerneltrapTimer k c

/-- Every event keeps each record within a lasting relation, which need respect the mark of `kill`
only where the event makes one. -/
theorem exec (cfg : Config) (k : Kernel n) (e : Event n)
    (hmark : e.marks = true → ∀ x : Proc, R x { x with killed := true }) :
    Answers (k.exec cfg e) fun k' => ∀ x, R (k.proc x) (k'.proc x) := by
  have hslot : ∀ {r : Except Fault (Kernel n)}, Answers r (Within R k) →
      Answers r fun k' => ∀ x, R (k.proc x) (k'.proc x) := fun h => h.mono fun _ h => h.slot
  cases e with
  | userinit a => exact hslot (hR.userinit k a)
  | scheduler c => exact hR.scheduler cfg.build k c
  | forkret c => exact onProc_answers fun p _ => (hR.forkret cfg k c p).slot
  | resume c => exact onProc_answers fun p _ => hslot (hR.resume cfg k c p)
  | timer c u page => exact hslot (hR.timer cfg k c u page)
  | device c u chans => exact hslot (hR.device cfg k c u chans)
  | exception c u =>
    refine onProc_answers fun p _ => (hR.chain (hR.saveUser k p u) ?_).slot
    exact hR.chain (hR.modify _ (hmark rfl _)) (hR.goes _ p nofun)
  | syscall c u num =>
    refine onProc_answers fun p _ => (hR.chain (hR.saveUser k p u) ?_).slot
    simp only [Kernel.usertrapSyscall]
    split
    · exact hR.goes _ p nofun
    · exact hR.modify _ (hR.trans _ _ _ (hR.context _ .kernel nofun) (hR.own ..))
  | ret c value => exact onProc_answers fun p _ => (hR.syscallReturn cfg k c p value).slot
  | fork c a uvmcopy =>
    exact onProc_answers fun p _ => (hR.forkBegin k p a uvmcopy).bind fun r h => h.slot
  | forkEnd c =>
    refine onProc_answers fun p _ => ?_
    rw [Kernel.publish]
    split
    · next np _ => exact (hR.forkEnd k p np).bind fun r h => h.slot
    · exact (hR.self k).slot
  | sleep c chan => exact onProc_answers fun p _ => hslot (hR.sleep k c p chan)
  | wakeup c chan => exact hslot (hR.wakeup k _ chan)
  | kill c pid => exact (hR.kill (hmark rfl) k pid).bind fun r h => h.slot
  | exit c status => exact onProc_answers fun p _ => hslot (hR.exits k c p status)
  | wait c copyoutFails =>
    exact onProc_answers fun p _ => (hR.wait k c p copyoutFails).bind fun r h => h.slot
  | waitx c copyoutFails =>
    exact onProc_answers fun p _ => (hR.waitx k c p copyoutFails).bind fun r h => h.slot
  | exec | sigalarm | settickets => exact onProc_answers fun p _ => (hR.modify k (hR.own ..)).slot
  | sigreturn c =>
    refine onProc_answers fun p _ => ?_
    rw [Kernel.sysSigreturn]
    split
    · exact answers_error _ _
    · exact (hR.chain (hR.modify k (hR.own ..)) (hR.usertrapret cfg _ c p)).slot

end Lasting

end Xv6
