import Xv6.Laws.Records

/-!
# The fields a process owns

The tickets, the alarm and the system-call counters of a process are written by its own system
calls, by its own timer interrupts and by `allocproc`, and by nothing else. `Keeps` says that a piece
of code leaves them alone in every record, leaves the seed of the generator alone, allocates no
process and ends none. To keep a record in this sense is harmless (`keeps_harmless`), which settles
most of the code; `owned_step` adds the rest and goes through the events.
-/

namespace Xv6

open Base

/-- The alarm of a process. -/
@[ext]
structure Alarm where
  ticks : Int
  curTicks : Int
  handler : UInt64
  alarmTf : Option Trapframe
  alarmOn : Bool
  inAlarmHandler : Bool

/-- The alarm in a process's record. -/
def Proc.alarm (x : Proc) : Alarm :=
  ⟨x.ticks, x.curTicks, x.handler, x.alarmTf, x.alarmOn, x.inAlarmHandler⟩

/-- The fields only the process itself writes. -/
structure Own where
  tickets : Int
  alarm : Alarm
  counts : Fin 32 → Int

def Proc.own (x : Proc) : Own := ⟨x.tickets, x.alarm, x.syscallCount⟩

/-- The states of a process between its allocation and its exit. -/
def Procstate.alive : Procstate → Bool
  | .used | .runnable | .running | .sleeping => true
  | .unused | .zombie => false

theorem alive_iff {s : Procstate} : s.alive = true ↔ s = .used ∨ s.live = true := by
  cases s <;> simp [Procstate.alive, Procstate.live]

variable {n : Nat} {k k' : Kernel n} {p : Slot} {c : Fin n} {k₁ : Kernel n} {f : Proc → Proc}

/-- The record keeps these fields, does not become that of a process in the making, and stays
that of a process if it is. -/
structure Proc.Keeps (x x' : Proc) : Prop where
  own : x'.own = x.own
  used : x'.state = .used → x.state = .used
  lives : x.state.alive = true → x'.state.alive = true

theorem Proc.Keeps.refl (x : Proc) : Proc.Keeps x x := ⟨rfl, id, id⟩

theorem Proc.Keeps.trans {x y z : Proc} (h : Proc.Keeps x y) (h' : Proc.Keeps y z) :
    Proc.Keeps x z :=
  ⟨h'.own.trans h.own, fun hu => h.used (h'.used hu), fun hl => h'.lives (h.lives hl)⟩

/-- All records keep these fields, and the generator its seed. -/
structure Keeps (k k' : Kernel n) : Prop where
  seed : k'.seed = k.seed
  slot : ∀ x, Proc.Keeps (k.proc x) (k'.proc x)

theorem Keeps.refl (k : Kernel n) : Keeps k k := ⟨rfl, fun _ => .refl _⟩

theorem Keeps.trans {k₂ k₃ : Kernel n} (h : Keeps k₁ k₂) (h' : Keeps k₂ k₃) : Keeps k₁ k₃ :=
  ⟨h'.seed.trans h.seed, fun x => (h.slot x).trans (h'.slot x)⟩

theorem Keeps.of_proc (hproc : k'.proc = k.proc) (hseed : k'.seed = k.seed) : Keeps k k' :=
  ⟨hseed, fun x => by rw [hproc]; exact .refl _⟩

theorem Keeps.change (k : Kernel n) (hf : Proc.Keeps (k.proc p) (f (k.proc p))) :
    Keeps k (k.modify p f) := by
  refine ⟨rfl, fun x => ?_⟩
  rw [Kernel.modify_proc]
  split
  · next he => rw [he]; exact hf
  · exact .refl _

theorem Keeps.modify (k : Kernel n) (hown : (f (k.proc p)).own = (k.proc p).own)
    (hstate : (f (k.proc p)).state = (k.proc p).state) :
    Keeps k (k.modify p f) :=
  .change k ⟨hown, fun h => hstate.symm.trans h, fun h => by rw [hstate]; exact h⟩

/-- Most of the kernel keeps these fields. -/
theorem keeps_harmless : Harmless Proc.Keeps where
  refl := .refl
  trans _ _ _ := .trans
  queue _ _ _ := ⟨rfl, id, id⟩
  move x s chan hs := by
    refine ⟨rfl, fun he => ?_, fun _ => alive_iff.mpr (.inr hs)⟩
    change s = .used at he
    rw [he] at hs
    cases hs
  tidy _ := ⟨rfl, id, id⟩
  context _ _ _ := ⟨rfl, id, id⟩
  kernelFrame _ _ _ _ _ := ⟨rfl, id, id⟩
  trapframe _ _ := ⟨rfl, id, id⟩
  reparent _ _ _ := ⟨rfl, id, id⟩
  publish _ _ := ⟨rfl, nofun, fun _ => rfl⟩
  rtime _ _ := ⟨rfl, id, id⟩

theorem Within.keeps (h : Within Proc.Keeps k k') : Keeps k k' := ⟨h.seed, h.slot⟩

theorem keeps_of_within {r : Except Fault (Kernel n)} (h : Answers r (Within Proc.Keeps k)) :
    Answers r (Keeps k) := h.mono fun _ h => h.keeps

theorem modify_state (hf : (f (k.proc p)).state = (k.proc p).state) (x : Slot) :
    ((k.modify p f).proc x).state = (k.proc x).state := by
  rw [Kernel.modify_proc]
  split
  · next he => rw [he]; exact hf
  · rfl

/-! ## Processes -/

/-- The record of `p` has lost its process and kept its fields; the others are as they were. -/
structure Ended (k : Kernel n) (p : Slot) (k' : Kernel n) : Prop where
  seed : k'.seed = k.seed
  own : (k'.proc p).own = (k.proc p).own
  state : (k'.proc p).state = .unused
  other : ∀ x, x ≠ p → k'.proc x = k.proc x

/-- `freeproc` ends what was the user's. -/
theorem freeproc_ended (k : Kernel n) (p : Slot) : Answers (k.freeproc p) (Ended k p) := by
  refine (dequeue_proc _ p _).mono fun k' h => ⟨h.2, ?_, ?_, fun x hx => ?_⟩
  · rw [h.1, Kernel.modify_self]
    rfl
  · rw [h.1, Kernel.modify_self]
    rfl
  · rw [h.1, Kernel.modify_of_ne _ _ _ hx]

theorem Ended.keeps (h : Ended k p k') (hp : (k.proc p).state.alive = false) : Keeps k k' := by
  refine ⟨h.seed, fun x => ?_⟩
  by_cases hx : x = p
  · rw [hx]
    exact ⟨h.own, fun hu => (by rw [h.state] at hu; cases hu),
      fun hl => (by rw [hp] at hl; cases hl)⟩
  · rw [h.other x hx]
    exact .refl _

/-- The process `p` has exited, and all others keep their fields. -/
structure Left (k : Kernel n) (p : Slot) (k' : Kernel n) : Prop where
  seed : k'.seed = k.seed
  own : (k'.proc p).own = (k.proc p).own
  state : (k'.proc p).state = .zombie
  other : ∀ x, x ≠ p → Proc.Keeps (k.proc x) (k'.proc x)

theorem exit_left (k : Kernel n) (c : Fin n) (p : Slot) (status : Int) :
    Answers (k.exit c p status) (Left k p) := by
  refine (keeps_harmless.exit k c p status).mono fun k' h => ?_
  obtain ⟨hseed, ⟨y, t, hy, hp⟩, hother⟩ := h
  refine ⟨hseed, ?_, ?_, hother⟩
  · rw [hp]
    exact hy.own
  · rw [hp]

theorem waitx_keeps (k : Kernel n) (c : Fin n) (p : Slot) (copyoutFails : Bool) :
    Answers (k.waitx c p copyoutFails) fun r => Keeps k r.1 := by
  rw [Kernel.waitx]
  split
  · next np hnp =>
    have hdead : (k.proc np).state.alive = false := by
      rw [(exitedChild_zombie hnp).2]
      rfl
    simp only
    split
    · exact Keeps.refl k
    · exact (freeproc_ended k np).bind fun k' h => h.keeps hdead
  · split
    · exact Keeps.refl k
    · exact (keeps_of_within (keeps_harmless.sleep k c p _)).bind fun k' h => h

/-! ## Allocation -/

/-- The tickets a new process gets: its parent's, if it has one by then. -/
def Kernel.inherited (k : Kernel n) (p : Slot) : Int :=
  match (k.proc p).parent with
  | some pp => (k.proc pp).tickets
  | none => 1

/-- The alarm a new process gets in a slot whose last process left the alarm `a`. -/
def Alarm.fresh (a : Alarm) : Alarm := ⟨0, 0, 0, none, false, a.inAlarmHandler⟩

/-- The slot `p` has been given to a process with `t` tickets. -/
structure Allocated (k : Kernel n) (p : Slot) (t : Int) (k' : Kernel n) : Prop where
  slot : k.freeSlot = some p
  seed : k'.seed = k.seed
  own : (k'.proc p).own = ⟨t, (k.proc p).alarm.fresh, fun _ => 0⟩
  other : ∀ x, x ≠ p → Proc.Keeps (k.proc x) (k'.proc x)

/-- A change that keeps the fields of all processes keeps an allocation. -/
theorem Allocated.trans {t : Int} (h : Allocated k p t k₁) (h' : Keeps k₁ k') :
    Allocated k p t k' := by
  exact ⟨h.slot, h'.seed.trans h.seed, (h'.slot p).own.trans h.own,
    fun x hx => (h.other x hx).trans (h'.slot x)⟩

/-- The process is given up again, and the slot keeps the fields it was given. -/
theorem Allocated.ended {t : Int} (h : Allocated k p t k₁) (h' : Ended k₁ p k') :
    Allocated k p t k' := by
  refine ⟨h.slot, h'.seed.trans h.seed, h'.own.trans h.own, fun x hx => ?_⟩
  rw [h'.other x hx]
  exact h.other x hx

theorem fresh_allocated (hslot : k.freeSlot = some p) (hseed : k₁.seed = k.seed)
    (hself : (k₁.proc p).own = (k.proc p).own) (hparent : (k₁.proc p).parent = (k.proc p).parent)
    (hother : ∀ x, x ≠ p → k₁.proc x = k.proc x) :
    Allocated k p (k.inherited p) (k₁.modify p fun x => x.fresh (k₁.inherited p) k₁.ticks) := by
  have htickets : k₁.inherited p = k.inherited p := by
    rw [Kernel.inherited, Kernel.inherited, hparent]
    cases (k.proc p).parent with
    | none => rfl
    | some pp =>
      by_cases hpp : pp = p
      · rw [hpp]
        exact congrArg Own.tickets hself
      · exact congrArg Proc.tickets (hother pp hpp)
  have halarm : (k₁.proc p).alarm = (k.proc p).alarm := congrArg Own.alarm hself
  refine ⟨hslot, hseed, ?_, fun x hx => ?_⟩
  · rw [Kernel.modify_self, ← halarm, ← htickets]
    rfl
  · rw [Kernel.modify_of_ne _ _ _ hx, hother x hx]
    exact .refl _

/-- There is a free slot, and memory for a process in it. -/
def Kernel.canAlloc (k : Kernel n) (a : Alloc) : Prop :=
  a.trapframe = true ∧ a.pagetable = true ∧ k.freeSlot.isSome = true

theorem allocproc_owned (k : Kernel n) (a : Alloc) :
    Answers (k.allocproc a) fun r => match r.2 with
      | none => Keeps k r.1 ∧ ¬ k.canAlloc a
      | some p => Allocated k p (k.inherited p) r.1 ∧ (r.1.proc p).state = .used ∧
          k.canAlloc a := by
  rw [Kernel.allocproc]
  split
  · next hfull => exact ⟨Keeps.refl k, fun h => by simp [Kernel.canAlloc, hfull] at h⟩
  · next p hslot =>
    rw [Kernel.allocpid]
    split
    · let k₁ : Kernel n := { k with nextpid := k.nextpid + 1 }.modify p
        fun x => { x with pid := k.nextpid, state := .used }
      let k₂ : Kernel n := k₁.modify p fun x => { x with trapframe := .junk }
      -- a failure leaves the slot unused again
      have hundo : ∀ k₃ k' : Kernel n, (∀ x, x ≠ p → k₃.proc x = k.proc x) →
          (k₃.proc p).own = (k.proc p).own → k₃.seed = k.seed → Ended k₃ p k' → Keeps k k' := by
        intro k₃ k' hother hself hseed h
        have hended : Ended k p k' := ⟨h.seed.trans hseed, h.own.trans hself, h.state,
          fun x hx => (h.other x hx).trans (hother x hx)⟩
        exact hended.keeps (by rw [freeSlot_unused hslot]; rfl)
      have hother₁ : ∀ x, x ≠ p → k₁.proc x = k.proc x := fun x hx =>
        Kernel.modify_of_ne _ _ _ hx
      have hother₂ : ∀ x, x ≠ p → k₂.proc x = k.proc x := fun x hx =>
        (Kernel.modify_of_ne _ _ _ hx).trans (hother₁ x hx)
      have hself₁ : k₁.proc p = { k.proc p with pid := k.nextpid, state := .used } :=
        Kernel.modify_self ..
      have hself₂ : k₂.proc p =
          { k.proc p with pid := k.nextpid, state := .used, trapframe := .junk } := by
        rw [Kernel.modify_self, hself₁]
      show Answers (if !a.trapframe then _ else if !a.pagetable then _ else _) _
      split
      · next hpage =>
        refine (freeproc_ended k₁ p).bind fun k' h => ?_
        exact ⟨hundo k₁ k' hother₁ (by rw [hself₁]; rfl) rfl h,
          fun ha => by rw [ha.1] at hpage; cases hpage⟩
      · next htrapframe =>
        split
        · next hpage =>
          refine (freeproc_ended k₂ p).bind fun k' h => ?_
          exact ⟨hundo k₂ k' hother₂ (by rw [hself₂]; rfl) rfl h,
            fun ha => by rw [ha.2.1] at hpage; cases hpage⟩
        · next hpagetable =>
          refine ⟨fresh_allocated hslot rfl (by rw [hself₂]; rfl) (by rw [hself₂]) hother₂, ?_, ?_⟩
          · rw [Kernel.modify_self, hself₂]
            rfl
          · exact ⟨by simpa using htrapframe, by simpa using hpagetable, by rw [hslot]; rfl⟩
    · exact answers_error _ _

theorem enqueue_state (k : Kernel n) (p : Slot) (q : Nat) :
    Answers (k.enqueue p q) fun k' => ∀ x, (k'.proc x).state = (k.proc x).state := by
  rw [Kernel.enqueue]
  refine Answers.skip _ fun q => Answers.skip _ fun found => ?_
  split
  · exact fun _ => rfl
  · exact Answers.skip _ fun a x => modify_state (k := { k with multique := _ }) rfl x

theorem userinit_owned (k : Kernel n) (a : Alloc) :
    Answers (k.userinit a) fun k' =>
      ∃ p, Allocated k p 1 k' ∧ (k'.proc p).state = .runnable := by
  rw [Kernel.userinit]
  refine (allocproc_owned k a).bind fun r hr => ?_
  rcases r with ⟨k₁, _ | p⟩
  · exact answers_error _ _
  · have halloc : Allocated k p (k.inherited p) k₁ := hr.1
    let first (x : Proc) : Proc :=
      { x with
        trapframe := { x.trapframe with
          epc := 0, regs := Function.update x.trapframe.regs .sp 4096 }
        state := .runnable, tickets := 1 }
    let k₂ : Kernel n := { k₁ with initproc := some p }.modify p first
    have hfirst : Allocated k p 1 k₂ := by
      refine ⟨halloc.slot, halloc.seed, ?_, fun x hx => ?_⟩
      · have halarm : (k₁.proc p).alarm = (k.proc p).alarm.fresh := congrArg Own.alarm halloc.own
        have hcounts : (k₁.proc p).syscallCount = fun _ => 0 := congrArg Own.counts halloc.own
        rw [Kernel.modify_self, ← halarm, ← hcounts]
        rfl
      · rw [Kernel.modify_of_ne _ _ _ hx]
        exact halloc.other x hx
    refine ((keeps_of_within (keeps_harmless.enqueue k₂ p 0)).and (enqueue_state k₂ p 0)).bind
      fun k₃ h₃ => ⟨p, ?_, ?_⟩
    · exact hfirst.trans (h₃.1.trans (.of_proc rfl rfl))
    · rw [Kernel.note_proc, h₃.2 p, Kernel.modify_self]

/-- What the first half of `fork` does to the fields processes own. -/
inductive Forked (k : Kernel n) (a : Alloc) : Bool → Kernel n → Prop
  | failed {uvmcopy : Bool} {k' : Kernel n} (h : Keeps k k') (hfail : ¬ k.canAlloc a) :
      Forked k a uvmcopy k'
  | undone {k' : Kernel n} (np : Slot) (h : Allocated k np (k.inherited np) k')
      (hstate : (k'.proc np).state = .unused) (hcan : k.canAlloc a) : Forked k a false k'
  | made {k' : Kernel n} (np : Slot) (h : Allocated k np (k.inherited np) k')
      (hstate : (k'.proc np).state = .used) (hcan : k.canAlloc a) : Forked k a true k'

/-- `fork` gives the child its own fields. -/
theorem forkBegin_owned (k : Kernel n) (p : Slot) (a : Alloc) (uvmcopy : Bool) :
    Answers (k.forkBegin p a uvmcopy) fun r => Forked k a uvmcopy r.1 := by
  rw [Kernel.forkBegin]
  refine (allocproc_owned k a).bind fun r hr => ?_
  rcases r with ⟨k₁, _ | np⟩
  · exact .failed hr.1 hr.2
  · obtain ⟨halloc, hused, hcan⟩ : Allocated k np (k.inherited np) k₁ ∧
      (k₁.proc np).state = .used ∧ k.canAlloc a := hr
    cases uvmcopy with
    | false =>
      exact (freeproc_ended k₁ np).bind fun k' h => .undone np (halloc.ended h) h.state hcan
    | true =>
      let copied (x : Proc) : Proc :=
        { x with trapframe := { (k₁.proc p).trapframe with
            regs := Function.update (k₁.proc p).trapframe.regs .a0 0 } }
      let k₂ := k₁.modify np copied
      have hcopy : Keeps k₁ k₂ := .modify k₁ rfl rfl
      have hfork : Keeps k₂ (k₂.modify p fun x => { x with context := .forking np }) :=
        .modify k₂ rfl rfl
      refine .made np (halloc.trans (hcopy.trans hfork)) ?_ hcan
      have hstate : (k₂.proc np).state = .used := Eq.trans (modify_state rfl np) hused
      show ((k₂.modify p fun x => { x with context := .forking np }).proc np).state = .used
      exact Eq.trans (modify_state rfl np) hstate

/-! ## What a process does to its own fields -/

/-- The record of `p` now has the fields `o`, and all others keep theirs. -/
structure Touched (k : Kernel n) (p : Slot) (o : Own) (k' : Kernel n) : Prop where
  seed : k'.seed = k.seed
  own : (k'.proc p).own = o
  used : (k'.proc p).state = .used → (k.proc p).state = .used
  lives : (k.proc p).state.alive = true → (k'.proc p).state.alive = true
  other : ∀ x, x ≠ p → Proc.Keeps (k.proc x) (k'.proc x)

theorem Touched.modify (k : Kernel n) {o : Own} (hown : (f (k.proc p)).own = o)
    (hstate : (f (k.proc p)).state = (k.proc p).state) :
    Touched k p o (k.modify p f) := by
  refine ⟨rfl, ?_, ?_, ?_, fun x hx => ?_⟩
  · rw [Kernel.modify_self, hown]
  · rw [Kernel.modify_self, hstate]
    exact id
  · rw [Kernel.modify_self, hstate]
    exact id
  · rw [Kernel.modify_of_ne _ _ _ hx]
    exact .refl _

theorem Keeps.touched {o : Own} (h : Keeps k k₁) (h' : Touched k₁ p o k') : Touched k p o k' :=
  ⟨h'.seed.trans h.seed, h'.own, fun hu => (h.slot p).used (h'.used hu),
    fun hl => h'.lives ((h.slot p).lives hl), fun x hx => (h.slot x).trans (h'.other x hx)⟩

theorem Touched.keeps {o : Own} (h : Touched k p o k₁) (h' : Keeps k₁ k') : Touched k p o k' :=
  ⟨h'.seed.trans h.seed, (h'.slot p).own.trans h.own, fun hu => h.used ((h'.slot p).used hu),
    fun hl => (h'.slot p).lives (h.lives hl), fun x hx => (h.other x hx).trans (h'.slot x)⟩

theorem Keeps.touch (h : Keeps k k') (p : Slot) : Touched k p (k.proc p).own k' :=
  ⟨h.seed, (h.slot p).own, (h.slot p).used, (h.slot p).lives, fun x _ => h.slot x⟩

/-! ## The counters -/

/-- The hart of an event that may change the counters of its process. -/
def Event.counting : Event n → Option (Fin n)
  | .syscall c _ _ | .exec c _ _ | .wait c _ => some c
  | _ => none

/-- The counters of `p` after such an event of its own: a system call is counted unless the process
has been killed, `exec` starts from zero, and a `wait` that finds an exited child adds the child's
counters. -/
def Kernel.counts (k : Kernel n) (p : Slot) : Event n → Fin 32 → Int
  | .syscall _ _ num =>
    if (k.proc p).killed then (k.proc p).syscallCount
    else Kernel.countCall (k.proc p).syscallCount num
  | .exec .. => fun _ => 0
  | .wait .. =>
    match k.exitedChild p with
    | some pp => fun i => int32 ((k.proc p).syscallCount i + (k.proc pp).syscallCount i)
    | none => (k.proc p).syscallCount
  | _ => (k.proc p).syscallCount

theorem usertrapSyscall_touched (k : Kernel n) (c : Fin n) (p : Slot) (u : UserRegs)
    (num : Fin 32) : Touched k p { (k.proc p).own with counts := k.counts p (.syscall c u num) }
      (k.usertrapSyscall p u num) := by
  have hin := (keeps_harmless.saveUser k p u).keeps
  have hself : (k.saveUser p u).proc p =
      { k.proc p with trapframe := { (k.proc p).trapframe with epc := u.pc, regs := u.regs } } :=
    Kernel.modify_self ..
  simp only [Kernel.usertrapSyscall, Kernel.counts, hself]
  split
  · exact (hin.trans (.modify _ rfl rfl)).touch p
  · refine hin.touched (.modify _ ?_ rfl)
    rw [hself]
    rfl

theorem wait_touched (k : Kernel n) (c : Fin n) (p : Slot) (copyoutFails : Bool) :
    Answers (k.wait c p copyoutFails) fun r =>
      Touched k p { (k.proc p).own with counts := k.counts p (.wait c copyoutFails) } r.1 := by
  rw [Kernel.wait]
  cases hpp : k.exitedChild p with
  | some pp =>
    simp only [Kernel.counts, hpp]
    let counted (x : Proc) : Proc :=
      { x with syscallCount := fun i => int32 (x.syscallCount i + (k.proc pp).syscallCount i) }
    have hcount : Touched k p { (k.proc p).own with
        counts := fun i => int32 ((k.proc p).syscallCount i + (k.proc pp).syscallCount i) }
        (k.modify p counted) := .modify k rfl rfl
    have hdead : ((k.modify p counted).proc pp).state.alive = false := by
      rw [show ((k.modify p counted).proc pp).state = (k.proc pp).state from modify_state rfl pp,
        (exitedChild_zombie hpp).2]
      rfl
    split
    · exact hcount
    · exact (freeproc_ended _ pp).bind fun k' h => hcount.keeps (h.keeps hdead)
  | none =>
    simp only [Kernel.counts, hpp]
    split
    · exact (Keeps.refl k).touch p
    · exact (keeps_of_within (keeps_harmless.sleep k c p _)).bind fun k' h => h.touch p

/-! ## The alarm -/

/-- The user registers a record's trapframe holds are as they were. -/
structure Proc.SameUser (x x' : Proc) : Prop where
  epc : x'.trapframe.epc = x.trapframe.epc
  regs : x'.trapframe.regs = x.trapframe.regs

theorem sameUser_gentle : Gentle Proc.SameUser where
  refl _ := ⟨rfl, rfl⟩
  trans _ _ _ h h' := ⟨h'.epc.trans h.epc, h'.regs.trans h.regs⟩
  queue _ _ _ := ⟨rfl, rfl⟩
  move _ _ _ _ := ⟨rfl, rfl⟩
  tidy _ := ⟨rfl, rfl⟩
  context _ _ _ := ⟨rfl, rfl⟩
  kernelFrame _ _ _ _ _ := ⟨rfl, rfl⟩
  rtime _ _ := ⟨rfl, rfl⟩

/-- What the alarm part of a timer interrupt does to the alarm of a process whose trapframe is `tf`:
count the tick, or save the frame and fire. -/
inductive AlarmTick (tf : Trapframe) (a : Alarm) : Alarm → Prop
  | off : AlarmTick tf a a
  | counted : AlarmTick tf a { a with curTicks := int32 (a.curTicks + 1) }
  | fired (hset : 0 < a.ticks) (hdue : a.ticks ≤ int32 (a.curTicks + 1))
      (hout : a.inAlarmHandler = false) :
      AlarmTick tf a { a with curTicks := 0, inAlarmHandler := true, alarmTf := some tf }

theorem alarm_touched (k : Kernel n) (p : Slot) (page : Bool) :
    Answers (k.alarm p page) fun k' => ∃ a, AlarmTick (k.proc p).trapframe (k.proc p).alarm a ∧
      Touched k p { (k.proc p).own with alarm := a } k' := by
  rw [Kernel.alarm]
  split
  · simp only [Kernel.modify_self, Kernel.modify_modify]
    split
    · next hdue =>
      split
      · exact answers_error _ _
      · exact ⟨_, .fired hdue.1 hdue.2.1 hdue.2.2, .modify k rfl rfl⟩
    · exact ⟨_, .counted, .modify k rfl rfl⟩
  · exact ⟨_, .off, rfl, rfl, id, id, fun _ _ => .refl _⟩

/-- A timer interrupt touches one alarm at most. -/
theorem timer_touched (cfg : Config) (k : Kernel n) (c : Fin n) (u : UserRegs) (page : Bool) :
    Answers (k.timer cfg c u page) fun k' => Keeps k k' ∨
      ∃ (p : Slot) (tf : Trapframe) (a : Alarm), k.myproc c = some p ∧ tf.epc = u.pc ∧
        tf.regs = u.regs ∧ AlarmTick tf (k.proc p).alarm a ∧
        Touched k p { (k.proc p).own with alarm := a } k' := by
  rw [Kernel.timer]
  split
  · rw [Kernel.onProc]
    split
    · exact answers_error _ _
    · next p hc =>
      refine ((keeps_harmless.timerintr (k.saveUser p u) c).and
        (sameUser_gentle.timerintr (k.saveUser p u) c)).bind fun k₁ h₁ => ?_
      have hin := (keeps_harmless.saveUser k p u).keeps.trans h₁.1.keeps
      split
      · exact .inl (hin.trans (.modify k₁ rfl rfl))
      · refine (alarm_touched k₁ p page).bind fun k₂ h₂ => ?_
        obtain ⟨a, htick, htouch⟩ := h₂
        have hown := (hin.slot p).own
        have halarm : (k₁.proc p).alarm = (k.proc p).alarm := congrArg Own.alarm hown
        have huser := h₁.2.slot p
        rw [show (k.saveUser p u).proc p = { k.proc p with
          trapframe := { (k.proc p).trapframe with epc := u.pc, regs := u.regs } } from
          Kernel.modify_self ..] at huser
        rw [halarm] at htick
        rw [hown] at htouch
        have hdone : ∀ k' : Kernel n, Keeps k₂ k' →
            ∃ (p : Slot) (tf : Trapframe) (a : Alarm), k.myproc c = some p ∧ tf.epc = u.pc ∧
              tf.regs = u.regs ∧ AlarmTick tf (k.proc p).alarm a ∧
              Touched k p { (k.proc p).own with alarm := a } k' := fun k' h =>
          ⟨p, _, a, hc, huser.epc, huser.regs, htick, (hin.touched htouch).keeps h⟩
        split
        · exact (keeps_harmless.mlfqTick cfg k₂ c p).mono fun k₃ h₃ => .inr (hdone k₃ h₃.keeps)
        · exact .inr (hdone _ (keeps_harmless.yield k₂ c p (.inl fun he => by cases he)).keeps)
  · exact (keeps_harmless.kerneltrapTimer k c).mono fun _ h => .inl h.keeps

/-- The events that write these fields, a timer interrupt apart. -/
def Event.writes : Event n → Bool
  | .userinit _ | .fork .. | .exit .. | .sigalarm .. | .sigreturn _ | .settickets ..
  | .syscall .. | .exec .. | .wait .. => true
  | _ => false

/-- What an event does to the fields processes own. -/
inductive Owned (k : Kernel n) : Event n → Kernel n → Prop
  | keeps {e : Event n} {k' : Kernel n} (he : e.writes = false) (h : Keeps k k') : Owned k e k'
  | passed {k' : Kernel n} (c : Fin n) (h : ∀ x, Proc.Keeps (k.proc x) (k'.proc x)) :
      Owned k (.scheduler c) k'
  | exited {k' : Kernel n} (c : Fin n) (status : Int) (p : Slot) (hc : k.myproc c = some p)
      (h : Left k p k') : Owned k (.exit c status) k'
  | booted {k' : Kernel n} (a : Alloc) (p : Slot) (h : Allocated k p 1 k')
      (hstate : (k'.proc p).state = .runnable) : Owned k (.userinit a) k'
  | forked {k' : Kernel n} (c : Fin n) (a : Alloc) (uvmcopy : Bool) (h : Forked k a uvmcopy k') :
      Owned k (.fork c a uvmcopy) k'
  | alarm {k' : Kernel n} (c : Fin n) (u : UserRegs) (page : Bool) (p : Slot) (tf : Trapframe)
      (a : Alarm) (hc : k.myproc c = some p) (hepc : tf.epc = u.pc) (hregs : tf.regs = u.regs)
      (htick : AlarmTick tf (k.proc p).alarm a)
      (h : Touched k p { (k.proc p).own with alarm := a } k') : Owned k (.timer c u page) k'
  | counted {e : Event n} {k' : Kernel n} (c : Fin n) (p : Slot) (he : e.counting = some c)
      (hc : k.myproc c = some p)
      (h : Touched k p { (k.proc p).own with counts := k.counts p e } k') : Owned k e k'
  | sigalarm {k' : Kernel n} (c : Fin n) (ticks : Int) (handler : UInt64) (p : Slot)
      (hc : k.myproc c = some p)
      (h : Touched k p { (k.proc p).own with
        alarm := { (k.proc p).alarm with ticks := int32 ticks, handler := handler } } k') :
      Owned k (.sigalarm c ticks handler) k'
  | sigreturn {k' : Kernel n} (c : Fin n) (p : Slot) (hc : k.myproc c = some p)
      (h : Touched k p { (k.proc p).own with
        alarm := { (k.proc p).alarm with
          alarmTf := none, alarmOn := false, curTicks := 0, inAlarmHandler := false } } k') :
      Owned k (.sigreturn c) k'
  | settickets {k' : Kernel n} (c : Fin n) (tickets : Int) (p : Slot)
      (hc : k.myproc c = some p)
      (h : Touched k p { (k.proc p).own with tickets := int32 tickets } k') : Owned k (.settickets c tickets) k'

/-- What every event does to the user's own fields. -/
theorem exec_owned (cfg : Config) (e : Event n) (k : Kernel n) :
    Answers (k.exec cfg e) (Owned k e) := by
  cases e with
  | userinit a =>
    refine (userinit_owned k a).mono fun k' h => ?_
    obtain ⟨p, halloc, hstate⟩ := h
    exact .booted a p halloc hstate
  | scheduler c => exact (keeps_harmless.scheduler cfg.build k c).mono fun k' h => .passed c h
  | forkret c => exact onProc_answers fun p _ => .keeps rfl (keeps_harmless.forkret cfg k c p).keeps
  | resume c =>
    exact onProc_answers fun p _ => (keeps_harmless.resume cfg k c p).mono fun _ h =>
      .keeps rfl h.keeps
  | timer c u page =>
    refine (timer_touched cfg k c u page).mono fun k' h => ?_
    rcases h with h | ⟨p, tf, a, hc, hepc, hregs, htick, h⟩
    · exact .keeps rfl h
    · exact .alarm c u page p tf a hc hepc hregs htick h
  | device c u chans =>
    exact (keeps_harmless.device cfg k c u chans).mono fun _ h => .keeps rfl h.keeps
  | exception c u =>
    refine onProc_answers fun p _ => .keeps rfl ?_
    have hkilled : Keeps k ((k.saveUser p u).setkilled p) :=
      (keeps_harmless.saveUser k p u).keeps.trans (.modify _ rfl rfl)
    exact hkilled.trans (.modify _ rfl rfl)
  | syscall c u num =>
    exact onProc_answers fun p hp => .counted c p rfl hp (usertrapSyscall_touched k c p u num)
  | ret c value =>
    exact onProc_answers fun p _ => .keeps rfl (keeps_harmless.syscallReturn cfg k c p value).keeps
  | fork c a uvmcopy =>
    exact onProc_answers fun p _ => (forkBegin_owned k p a uvmcopy).bind fun r h =>
      .forked c a uvmcopy h
  | forkEnd c =>
    refine onProc_answers fun p _ => ?_
    rw [Kernel.publish]
    split
    · next np _ => exact (keeps_harmless.forkEnd k p np).bind fun r h => .keeps rfl h.keeps
    · exact .keeps rfl (.refl k)
  | sleep c chan =>
    exact onProc_answers fun p _ => (keeps_harmless.sleep k c p chan).mono fun _ h =>
      .keeps rfl h.keeps
  | wakeup c chan => exact (keeps_harmless.wakeup k _ chan).mono fun _ h => .keeps rfl h.keeps
  | kill c pid =>
    exact (keeps_harmless.kill (fun _ => ⟨rfl, id, id⟩) k pid).bind fun r h => .keeps rfl h.keeps
  | exit c status =>
    exact onProc_answers fun p hp => (exit_left k c p status).mono fun _ h =>
      .exited c status p hp h
  | wait c copyoutFails =>
    exact onProc_answers fun p hp => (wait_touched k c p copyoutFails).bind fun r h =>
      .counted c p rfl hp h
  | waitx c copyoutFails =>
    exact onProc_answers fun p _ => (waitx_keeps k c p copyoutFails).bind fun r h => .keeps rfl h
  | exec c => exact onProc_answers fun p hp => .counted c p rfl hp (.modify k rfl rfl)
  | sigalarm c ticks handler =>
    exact onProc_answers fun p hc => .sigalarm c ticks handler p hc (.modify k rfl rfl)
  | sigreturn c =>
    refine onProc_answers fun p hc => ?_
    rw [Kernel.sysSigreturn]
    split
    · exact answers_error _ _
    · next tf _ =>
      exact .sigreturn c p hc (Touched.keeps (.modify k rfl rfl) (keeps_harmless.usertrapret cfg _ c p).keeps)
  | settickets c tickets =>
    exact onProc_answers fun p hc => .settickets c tickets p hc (.modify k rfl rfl)

theorem owned_step {cfg : Config} {e : Event n} (h : (system cfg n).Step k e k') : Owned k e k' :=
  (exec_owned cfg e k).of_ok h.2

/-! ## One slot -/

/-- What an event makes of the fields of the process `x` that causes it. -/
inductive Writes (k : Kernel n) (x : Slot) : Event n → Own → Prop
  | alarm (c : Fin n) (u : UserRegs) (page : Bool) (tf : Trapframe) (a : Alarm)
      (htick : AlarmTick tf (k.proc x).alarm a) :
      Writes k x (.timer c u page) { (k.proc x).own with alarm := a }
  | counted (e : Event n) : Writes k x e { (k.proc x).own with counts := k.counts x e }
  | sigalarm (c : Fin n) (ticks : Int) (handler : UInt64) (hc : k.myproc c = some x) :
      Writes k x (.sigalarm c ticks handler) { (k.proc x).own with
        alarm := { (k.proc x).alarm with ticks := int32 ticks, handler := handler } }
  | sigreturn (c : Fin n) (hc : k.myproc c = some x) :
      Writes k x (.sigreturn c) { (k.proc x).own with alarm := { (k.proc x).alarm with
        alarmTf := none, alarmOn := false, curTicks := 0, inAlarmHandler := false } }
  | settickets (c : Fin n) (tickets : Int) (hc : k.myproc c = some x) :
      Writes k x (.settickets c tickets) { (k.proc x).own with tickets := int32 tickets }

/-- What an event can do to the slot `x`, whose process then owns these fields. -/
inductive OwnStep (k : Kernel n) (x : Slot) (k' : Kernel n) : Event n → Own → Prop
  | kept {e : Event n} (h : Proc.Keeps (k.proc x) (k'.proc x)) : OwnStep k x k' e (k.proc x).own
  | exited (c : Fin n) (status : Int) (hc : k.myproc c = some x)
      (hstate : (k'.proc x).state = .zombie) : OwnStep k x k' (.exit c status) (k.proc x).own
  | fresh {e : Event n} (t : Int) (hslot : k.freeSlot = some x) (ht : t = 1 ∨ t = k.inherited x) :
      OwnStep k x k' e ⟨t, (k.proc x).alarm.fresh, fun _ => 0⟩
  | wrote {e : Event n} {o : Own} (h : Writes k x e o)
      (hused : (k'.proc x).state = .used → (k.proc x).state = .used)
      (hlives : (k.proc x).state.alive = true → (k'.proc x).state.alive = true) :
      OwnStep k x k' e o

/-- What a step does to one process's own fields. -/
theorem own_step {cfg : Config} {e : Event n} (hs : (system cfg n).Step k e k') (x : Slot) :
    ∃ o, (k'.proc x).own = o ∧ OwnStep k x k' e o := by
  have hkept : Proc.Keeps (k.proc x) (k'.proc x) →
      ∃ o, (k'.proc x).own = o ∧ OwnStep k x k' e o := fun h => ⟨_, h.own, .kept h⟩
  have halloc : ∀ {p : Slot} {t : Int}, Allocated k p t k' → t = 1 ∨ t = k.inherited p →
      ∃ o, (k'.proc x).own = o ∧ OwnStep k x k' e o := by
    intro p t ha ht
    by_cases hx : x = p
    · subst hx
      exact ⟨_, ha.own, .fresh t ha.slot ht⟩
    · exact hkept (ha.other x hx)
  have htouch : ∀ {p : Slot} {o : Own}, Touched k p o k' → (p = x → Writes k x e o) →
      ∃ o, (k'.proc x).own = o ∧ OwnStep k x k' e o := by
    intro p o ht ho
    by_cases hx : x = p
    · subst hx
      exact ⟨_, ht.own, .wrote (ho rfl) ht.used ht.lives⟩
    · exact hkept (ht.other x hx)
  cases owned_step hs with
  | keeps _ hk => exact hkept (hk.slot x)
  | passed c hk => exact hkept (hk x)
  | exited c status p hc hl =>
    by_cases hx : x = p
    · subst hx
      exact ⟨_, hl.own, .exited c status hc hl.state⟩
    · exact hkept (hl.other x hx)
  | booted a p ha _ => exact halloc ha (.inl rfl)
  | forked c a uvmcopy hf =>
    cases hf with
    | failed hk _ => exact hkept (hk.slot x)
    | undone p ha _ _ | made p ha _ _ => exact halloc ha (.inr rfl)
  | alarm c u page p tf a hc _ _ htick ht =>
    refine htouch ht fun hx => ?_
    subst hx
    exact .alarm c u page tf a htick
  | counted c p _ _ ht =>
    refine htouch ht fun hx => ?_
    subst hx
    exact .counted _
  | sigalarm c ticks handler p hc ht =>
    refine htouch ht fun hx => ?_
    subst hx
    exact .sigalarm c ticks handler hc
  | sigreturn c p hc ht =>
    refine htouch ht fun hx => ?_
    subst hx
    exact .sigreturn c hc
  | settickets c tickets p hc ht =>
    refine htouch ht fun hx => ?_
    subst hx
    exact .settickets c tickets hc

end Xv6
