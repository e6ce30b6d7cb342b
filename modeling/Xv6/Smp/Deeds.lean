import Xv6.Smp.View
import Xv6.Smp.Stacks
import Xv6.Smp.Family

/-!
# The code follows the protocol of the process table

Every place of the code is a phase of `Xv6.Smp.Family`, and every step of the code is a step of that
protocol. A `Deed` is a step as its own thread sees it: from a `Spot` to another, with what happens to
the records. `frame_does` says which deed each step of a process is, and `sched_deed` the same for
schedulers.
-/

namespace Xv6.Smp

open Base Function

variable {n : Nat}

/-! ## The spot of every place -/

/-- The slots a loop over the table has passed. -/
def passed (i : Nat) : Set Slot := { q | q.val < i }

theorem passed_zero : passed 0 = ∅ := Set.eq_empty_of_forall_notMem fun q => Nat.not_lt_zero q.val

/-- The scan has passed one slot more. -/
theorem passed_succ (q : Slot) : passed (q.val + 1) = insert q (passed q.val) := by
  ext x
  simp only [passed, Set.mem_ofPred_eq, Set.mem_insert_iff, Fin.ext_iff]
  omega

/-- At the end of the table the scan has passed every slot. -/
theorem passed_all {i : Nat} (h : NPROC ≤ i) : passed i = Set.univ :=
  Set.eq_univ_of_forall fun q => Nat.lt_of_lt_of_le q.isLt h

/-- The process a wakeup is meant for. -/
def Task.target : Task → Option Slot
  | .wakeup (.proc q) _ _ | .wakeupIn (.proc q) _ _ | .wakeupOut (.proc q) _ _ => some q
  | _ => none

/-- The slots a wakeup has visited. -/
def Task.woken : Task → Set Slot
  | .wakeup _ _ i => passed i
  | .wakeupIn _ _ p => passed p.val
  | .wakeupOut _ _ p => passed (p.val + 1)
  | _ => ∅

/-- The slots `update_time` has yet to visit. -/
def Task.due : Task → Set Slot
  | .updateTime i => (passed i)ᶜ
  | .updateTimeIn p => (passed p.val)ᶜ
  | .updateTimeOut p => (passed (p.val + 1))ᶜ
  | _ => ∅

/-- The phase of a process that runs a task for the function below it. -/
def Task.phase (t : Task) : Option Frame → Phase Slot
  | some (.reparent _ i) => .calling t.target (passed i) t.woken
  | some (.exitLock _) => .rousing t.target t.woken
  | _ => .out

/-- The phase of a process in a function that is no task. -/
def Frame.phase : Frame → Phase Slot
  | .forkParent np _ => .linking np
  | .forkWaitOut .. | .exitWaitOut | .waitFound .. | .waitEnd _ => .held
  | .reparent _ i => .adopting (passed i)
  | .exitWake _ => .adopting Set.univ
  | .exitLock _ | .exitIn _ => .leaving
  | .waitScan _ i _ => .scanning (passed i)
  | .waitLock _ pp => .found (passed pp.val) pp
  | .waitIn _ pp => .looking (passed pp.val) pp
  | .waitOut _ pp => .scanning (passed (pp.val + 1))
  | .waitNone .. | .killed .wait | .killedIn .wait | .killedOut .wait _ | .sleep _ .wait
  | .sleepIn _ .wait => .scanning Set.univ
  | _ => .out

/-- The child `fork` has linked to its parent and not yet published. -/
def Frame.links : Frame → List Slot
  | .forkWaitOut np _ | .forkLock np _ | .forkIn np _ => [np]
  | _ => []

/-- The slot that has a pid and is not yet in use. -/
def AllocPc.numbered : AllocPc → List Slot
  | .used p => [p]
  | _ => []

/-- `wait` has released `wait_lock` and goes to sleep. -/
def Frame.dozes : Frame → Bool
  | .sleepSet _ .wait => true
  | _ => false

/-- What the protocol sees of a thread's place. -/
@[ext] structure Spot where
  phase : Phase Slot
  links : List Slot
  numbered : List Slot
  dozing : Bool
  due : Set Slot
  clock : Bool

/-- A place of no concern. -/
def Spot.idle : Spot := ⟨.out, [], [], false, ∅, false⟩

/-- A thread that runs a task, with what its callers have linked. -/
def Task.spot (below : Option Frame) (links : List Slot) (t : Task) : Spot :=
  ⟨t.phase below, links, [], false, t.due, t.clock⟩

/-- A thread inside `allocproc`. -/
def AllocPc.spot (links : List Slot) (a : AllocPc) : Spot :=
  ⟨.out, links, a.numbered, false, ∅, false⟩

/-- What the functions below the top have linked. -/
def linksOf (rest : List Below) : List Slot := rest.flatMap fun f => f.1.links

def Frame.spot (rest : List Below) : Frame → Spot
  | .task t => t.spot (rest.head?.map Subtype.val) (linksOf rest)
  | .alloc a => a.spot (linksOf rest)
  | f => ⟨f.phase, f.links ++ linksOf rest, [], f.dozes, ∅, false⟩

def Stack.spot (st : Stack) : Spot := st.top.spot st.rest

def Dispatcher.spot : Dispatcher → Spot
  | .code (.userinit a) => a.spot []
  | .code _ => .idle
  | .handler t _ => t.spot none []

/-- The spot of each thread. -/
def spotOf (sched : Fin n → Dispatcher) (thread : Slot → Stack) : Thread (Fin n) Slot → Spot
  | .sched c => (sched c).spot
  | .proc p => (thread p).spot

/-- The slots the clock has yet to visit. -/
def dueOf (spot : Thread (Fin n) Slot → Spot) : Set Slot := { q | ∃ t, q ∈ (spot t).due }

/-! ## The records -/

/-- What the relatives of a process see of its record. -/
def kin (x : Proc) : Member Slot := ⟨x.state, x.parent, x.pid, x.rtime, x.ctime, x.etime⟩

/-- The record is that of a process `q` asleep in `wait`. -/
def waiting (q : Slot) (x : Proc) : Prop := x.state = .sleeping ∧ x.chan = .proc q

namespace Memory

def member (m : Memory n) (q : Slot) : Member Slot := kin (m.k.proc q)

def sleeps (m : Memory n) (q : Slot) : Prop := waiting q (m.k.proc q)

/-- The processes asleep in `wait`, or on their way there. -/
def asleep (m : Memory n) (spot : Thread (Fin n) Slot → Spot) : Set Slot :=
  { q | m.sleeps q ∨ (spot (.proc q)).dozing = true }

/-- What the protocol sees of the memory, when the threads stand at given spots. -/
def family (m : Memory n) (cur : Fin n → Option Slot) (spot : Thread (Fin n) Slot → Spot) :
    Family (Fin n) Slot where
  member := m.member
  init := m.k.initproc
  nextpid := m.k.nextpid
  ticks := m.k.ticks
  asleep := m.asleep spot
  due := dueOf spot
  links := fun t => (spot t).links
  numbered := fun t => (spot t).numbered
  lock := m.lock .wait
  cur := cur
  phase := fun p => (spot (.proc p)).phase

end Memory

/-- What the protocol sees of a state. -/
def table (s : State n) : Family (Fin n) Slot := s.family s.cur (spotOf s.sched s.thread)

/-! ## Deeds -/

/-- Nothing changes but records and locks of processes. -/
structure Keeps (m m' : Memory n) : Prop where
  thread : m'.thread = m.thread
  init : m'.k.initproc = m.k.initproc
  nextpid : m'.k.nextpid = m.k.nextpid
  ticks : m'.k.ticks = m.k.ticks
  lock : m'.lock .wait = m.lock .wait

/-- One record changes, and nobody falls asleep in `wait` by it. -/
structure Rewrites (m m' : Memory n) (q : Slot) (y : Member Slot) : Prop where
  member : m'.member = update m.member q y
  sleeps : ∀ x, m'.sleeps x → m.sleeps x
  others : ∀ x, x ≠ q → m.sleeps x → m'.sleeps x

/-- Only one record changes. -/
structure Writes (m m' : Memory n) (q : Slot) (y : Member Slot) : Prop
  extends Keeps m m', Rewrites m m' q y

/-- Only `wait_lock` changes. -/
structure Relocks (m m' : Memory n) (holder : Option (Fin n)) : Prop where
  k : m'.k = m.k
  thread : m'.thread = m.thread
  lock : m'.lock .wait = holder

/-- The spot stays the same, but for what the clock has yet to do. -/
structure Spot.Stays (x y : Spot) : Prop where
  phase : y.phase = x.phase
  links : y.links = x.links
  numbered : y.numbered = x.numbered
  dozing : y.dozing = true → x.dozing = true
  due : y.due ⊆ x.due
  clock : y.clock = true → x.clock = true

/-- A step of the thread `t` on CPU `c` that does not switch: the process it charges a tick, and from
the memory `m` and a spot to `m'` and another. -/
inductive Deed (c : Fin n) (t : Thread (Fin n) Slot) (at₀ : Place) (m : Memory n) :
    Option Slot → Spot → Memory n → Spot → Prop
  | calm {x y : Spot} {m' : Memory n} (hkeep : Keeps m m')
      (hm : ∀ q, (m.member q).Calm (m'.member q))
      (hsleep : ∀ q, m'.sleeps q → m.sleeps q ∨ t = .proc q ∧ x.dozing = true)
      (hy : x.Stays y) : Deed c t at₀ m none x m' y
  -- the clock
  | tick {x y : Spot} (due : Set Slot) (hclock : x.clock = true) (hy : y = { x with due := due }) :
      Deed c t at₀ m none x { m with k := { m.k with ticks := uint32 (m.k.ticks + 1) } } y
  | charge {x y : Spot} {m' : Memory n} (q : Slot) (due : Set Slot) (hclock : x.clock = true)
      (hq : q ∈ x.due) (hrun : (m.k.proc q).state = .running) (hd : due ⊆ x.due \ {q})
      (hm : Writes m m' q { m.member q with rtime := uint32 ((m.k.proc q).rtime + 1) })
      (hy : y = { x with due := due }) : Deed c t at₀ m (some q) x m' y
  -- wait_lock
  | take {x y : Spot} {m' : Memory n} (p : Slot) (φ : Phase Slot) (ht : t = .proc p)
      (hl : m.lock .wait = none) (hm : Relocks m m' (some c))
      (hφ : Family.Opens m.k.initproc p φ) (hy : y = { x with phase := φ }) :
      Deed c t at₀ m none x m' y
  | drop {x y : Spot} {m' : Memory n} (p : Slot) (ht : t = .proc p) (hx : x.phase = .held)
      (hm : Relocks m m' none) (hy : y = { x with phase := .out }) : Deed c t at₀ m none x m' y
  | doze {x y : Spot} {m' : Memory n} (p : Slot) (ht : t = .proc p)
      (hx : x.phase = .scanning Set.univ) (hm : Relocks m m' none)
      (hy : y = { x with phase := .out, dozing := true }) : Deed c t at₀ m none x m' y
  -- fork
  | link {x y : Spot} {m' : Memory n} (p q : Slot) (ht : t = .proc p) (hx : x.phase = .linking q)
      (hlive : (m.k.proc p).state.live = true) (hclaim : q ∈ at₀.2) (hnew : q ∉ x.links)
      (hm : Writes m m' q { m.member q with parent := some p })
      (hy : y = { x with phase := .held, links := q :: x.links }) : Deed c t at₀ m none x m' y
  | publish {x y : Spot} {m' : Memory n} (q : Slot) (r : List Slot) (hclaim : q ∈ at₀.2)
      (hx : x.links = q :: r) (hnew : q ∉ r)
      (hm : Writes m m' q { m.member q with state := .runnable })
      (hy : y = { x with links := r }) : Deed c t at₀ m none x m' y
  -- exit and wait
  | think {x y : Spot} {m' : Memory n} (p : Slot) (φ : Phase Slot) (ht : t = .proc p)
      (hkeep : Keeps m m') (hm : m'.member = m.member) (hsleep : ∀ q, m'.sleeps q ↔ m.sleeps q)
      (hφ : Family.Thinks m.member p x.phase φ) (hy : y = { x with phase := φ }) :
      Deed c t at₀ m none x m' y
  | adopt {x y : Spot} {m' : Memory n} (p q : Slot) (gone : Set Slot) (ht : t = .proc p)
      (hx : x.phase = .adopting gone) (hq : (m.k.proc q).parent = some p)
      (hsleep : m.sleeps q → m'.sleeps q)
      (hm : Writes m m' q { m.member q with parent := m.k.initproc })
      (hy : y = { x with phase := .calling m.k.initproc (insert q gone) ∅ }) :
      Deed c t at₀ m none x m' y
  | wake {x y : Spot} {m' : Memory n} (p q : Slot) (ht : t = .proc p)
      (hslot : at₀.1.slot = some q ∨ q = p) (hkeep : Keeps m m') (hm : ∀ r, (m.member r).Calm (m'.member r))
      (hsleep : ∀ r, m'.sleeps r → m.sleeps r)
      (hq : x.phase.target = some q → ¬ m'.sleeps q) (hdoze : x.dozing = false)
      (hy : y = { x with phase := x.phase.woke q }) : Deed c t at₀ m none x m' y
  | die {x y : Spot} {m' : Memory n} (p : Slot) (ht : t = .proc p) (hx : x.phase = .leaving)
      (hrun : (m.k.proc p).state = .running)
      (hm : Writes m m' p { m.member p with state := .zombie, etime := m.k.ticks })
      (hy : y = { x with phase := .held }) : Deed c t at₀ m none x m' y
  | reap {x y : Spot} {m' : Memory n} (p q : Slot) (seen : Set Slot) (ht : t = .proc p)
      (hx : x.phase = .looking seen q) (hq : (m.k.proc q).state = .zombie)
      (hm : Writes m m' q (m.member q).freed) (hy : y = { x with phase := .held }) :
      Deed c t at₀ m none x m' y
  -- allocproc, and userinit
  | number {x y : Spot} {m' : Memory n} (q : Slot) (hq : at₀.1 = .found q)
      (hthread : m'.thread = m.thread) (hinit : m'.k.initproc = m.k.initproc)
      (hnext : m'.k.nextpid = m.k.nextpid + 1) (hticks : m'.k.ticks = m.k.ticks)
      (hlock : m'.lock .wait = m.lock .wait)
      (hm : Rewrites m m' q { m.member q with pid := m.k.nextpid })
      (hy : y = { x with numbered := q :: x.numbered }) : Deed c t at₀ m none x m' y
  | use {x y : Spot} {m' : Memory n} (q : Slot) (r : List Slot) (hq : at₀.1 = .found q)
      (hx : x.numbered = q :: r) (hnew : q ∉ r)
      (hm : Writes m m' q { m.member q with state := .used })
      (hy : y = { x with numbered := r }) : Deed c t at₀ m none x m' y
  | make {x : Spot} {m' : Memory n} (q : Slot) (hq : at₀.1 = .making q)
      (hm : Writes { m with thread := update m.thread q .fresh } m' q
        { m.member q with rtime := 0, ctime := m.k.ticks, etime := 0 }) :
      Deed c t at₀ m none x m' x
  | abort {x : Spot} {m' : Memory n} (q : Slot)
      (hq : at₀.1 = .making q ∨ q ∈ at₀.2 ∧ q ∉ x.links)
      (hm : Writes m m' q (m.member q).freed) : Deed c t at₀ m none x m' x
  | boot {x : Spot} {m' : Memory n} (q : Slot) (hq : q ∈ at₀.2) (hnew : q ∉ x.links)
      (hinit : m.k.initproc = none) (hinit' : m'.k.initproc = some q)
      (hthread : m'.thread = m.thread) (hnext : m'.k.nextpid = m.k.nextpid)
      (hticks : m'.k.ticks = m.k.ticks) (hlock : m'.lock .wait = m.lock .wait)
      (hm : Rewrites m m' q { m.member q with state := .runnable }) : Deed c t at₀ m none x m' x

section Blocks

variable {α : Type} {m m' : Memory n} {c : Fin n} {t : Thread (Fin n) Slot} {at₀ : Place}
  {x y : Spot} {a : α} (spot : α → Spot) {q : Slot} {f : Proc → Proc} {k' : Kernel n}

theorem Spot.Stays.refl (x : Spot) : x.Stays x := ⟨rfl, rfl, rfl, id, subset_refl _, id⟩

theorem Keeps.refl (m : Memory n) : Keeps m m := ⟨rfl, rfl, rfl, rfl, rfl⟩

theorem Keeps.relock (q : Slot) (v : Option (Fin n)) :
    Keeps m { m with lock := update m.lock (.proc q) v } :=
  ⟨rfl, rfl, rfl, rfl, update_of_ne (by simp : Lock.wait ≠ .proc q) v m.lock⟩

/-- Moving processes between queues keeps what the protocol reads. -/
theorem Keeps.requeued {k : Kernel n} (h : Requeued k k') (hinit : k.initproc = m.k.initproc)
    (hnext : k.nextpid = m.k.nextpid) (hticks : k.ticks = m.k.ticks) :
    Keeps m { m with k := k' } :=
  ⟨rfl, h.initproc.trans hinit, h.nextpid.trans hnext, h.ticks.trans hticks, rfl⟩

theorem Member.Calm.refl (x : Member Slot) : x.Calm x := ⟨rfl, .inl rfl⟩

/-- A step that changes nothing is a deed. -/
theorem Deed.idle (hy : x.Stays y) : Deed c t at₀ m none x m y :=
  .calm (.refl m) (fun _ => .refl _) (fun _ h => .inl h) hy

/-- So is taking or giving back the lock of a slot. -/
theorem Deed.relock (q : Slot) (v : Option (Fin n)) (hy : x.Stays y) :
    Deed c t at₀ m none x { m with lock := update m.lock (.proc q) v } y :=
  .calm (.relock q v) (fun _ => .refl _) (fun _ h => .inl h) hy

/-- `acquire` of a slot's lock, spinning or taken. -/
theorem Deed.of_acquire {spin taken : α} (h : m.acquire c (.proc q) spin taken = .ok (m', a))
    (hspin : x.Stays (spot spin)) (htaken : x.Stays (spot taken)) :
    Deed c t at₀ m none x m' (spot a) := by
  rcases acquire_ok h with ⟨rfl, rfl⟩ | ⟨-, rfl, rfl⟩
  · exact .idle hspin
  · exact .relock _ _ htaken

/-- `release` of a slot's lock. -/
theorem Deed.of_release {next : α} (h : m.release c (.proc q) next = .ok (m', a))
    (hnext : x.Stays (spot next)) : Deed c t at₀ m none x m' (spot a) := by
  obtain ⟨-, rfl, rfl⟩ := release_ok h
  exact .relock _ _ hnext

/-- One turn of a loop over the table. -/
theorem Deed.of_visit {i : Nat} {spin : α} {taken : Slot → α} {done : α}
    (h : m.visit c i spin taken done = .ok (m', a)) (hspin : x.Stays (spot spin))
    (htaken : ∀ q, q.val = i → x.Stays (spot (taken q)))
    (hdone : NPROC ≤ i → x.Stays (spot done)) : Deed c t at₀ m none x m' (spot a) := by
  rcases visit_ok h with ⟨rfl, -, rfl⟩ | ⟨hi, -, rfl, rfl⟩ | ⟨rfl, hi, rfl⟩
  · exact .idle hspin
  · exact .relock _ _ (htaken _ rfl)
  · exact .idle (hdone hi)

/-- A step that only requeues. -/
theorem Deed.of_requeued (h : Requeued m.k k') (hy : x.Stays y) :
    Deed c t at₀ m none x { m with k := k' } y := by
  refine .calm (.requeued h rfl rfl rfl) (fun q => ?_) (fun q hq => .inl ?_) hy
  · rw [Memory.member, Memory.member, h.field kin (fun _ => rfl) q]
    exact .refl _
  · rwa [Memory.sleeps, h.field (waiting q) (fun _ => rfl) q] at hq

theorem member_modify (h : Requeued (m.k.modify q f) k') :
    ({ m with k := k' } : Memory n).member = update m.member q (kin (f (m.k.proc q))) := by
  funext r
  rw [Memory.member, h.field kin (fun _ => rfl) r, Kernel.modify_proc, update_apply]
  split <;> rfl

theorem sleeps_modify (h : Requeued (m.k.modify q f) k') {r : Slot}
    (hr : ({ m with k := k' } : Memory n).sleeps r) :
    r = q ∧ waiting q (f (m.k.proc q)) ∨ r ≠ q ∧ m.sleeps r := by
  rw [Memory.sleeps, h.field (waiting r) (fun _ => rfl) r, Kernel.modify_proc] at hr
  split at hr
  · next he =>
    subst he
    exact .inl ⟨rfl, hr⟩
  · next he => exact .inr ⟨he, hr⟩

theorem sleeps_other (h : Requeued (m.k.modify q f) k') {r : Slot} (hne : r ≠ q)
    (hr : m.sleeps r) : ({ m with k := k' } : Memory n).sleeps r := by
  rw [Memory.sleeps, h.field (waiting r) (fun _ => rfl) r, Kernel.modify_proc, if_neg hne]
  exact hr

/-- A calm write to one record is calm for all. -/
theorem calm_modify (h : Requeued (m.k.modify q f) k')
    (hm : (kin (m.k.proc q)).Calm (kin (f (m.k.proc q)))) (r : Slot) :
    (m.member r).Calm (({ m with k := k' } : Memory n).member r) := by
  rw [member_modify h, update_apply]
  split
  · next he => rwa [he]
  · exact .refl _

theorem Deed.of_kernel (hproc : k'.proc = m.k.proc) (hinit : k'.initproc = m.k.initproc)
    (hnext : k'.nextpid = m.k.nextpid) (hticks : k'.ticks = m.k.ticks) (hy : x.Stays y) :
    Deed c t at₀ m none x { m with k := k' } y := by
  refine .calm ⟨rfl, hinit, hnext, hticks, rfl⟩ (fun r => ?_) (fun r hr => .inl ?_) hy
  · rw [Memory.member, Memory.member, hproc]
    exact .refl _
  · rwa [Memory.sleeps, hproc] at hr

/-- A calm write to one record. -/
theorem Deed.of_calm (h : Requeued (m.k.modify q f) k')
    (hm : (kin (m.k.proc q)).Calm (kin (f (m.k.proc q))))
    (hsleep : waiting q (f (m.k.proc q)) → waiting q (m.k.proc q) ∨ t = .proc q ∧ x.dozing = true)
    (hy : x.Stays y) : Deed c t at₀ m none x { m with k := k' } y := by
  refine .calm (.requeued h rfl rfl rfl) (calm_modify h hm) (fun r hr => ?_) hy
  rcases sleeps_modify h hr with ⟨rfl, hw⟩ | ⟨-, hs⟩
  · exact hsleep hw
  · exact .inl hs

/-- A write that the protocol does not read. -/
theorem Deed.of_modify (h : Requeued (m.k.modify q f) k') (hm : kin (f (m.k.proc q)) = kin (m.k.proc q))
    (hchan : (f (m.k.proc q)).chan = (m.k.proc q).chan) (hy : x.Stays y) :
    Deed c t at₀ m none x { m with k := k' } y := by
  refine .of_calm h (by rw [hm]; exact .refl _) (fun hw => .inl ?_) hy
  have hstate : (f (m.k.proc q)).state = (m.k.proc q).state := congrArg Member.state hm
  rwa [waiting, hstate, hchan] at hw

/-- A write to one record that puts nobody to sleep. -/
theorem Writes.of_modify (h : Requeued (m.k.modify q f) k')
    (hsleep : waiting q (f (m.k.proc q)) → waiting q (m.k.proc q)) :
    Writes m { m with k := k' } q (kin (f (m.k.proc q))) where
  toKeeps := .requeued h rfl rfl rfl
  member := member_modify h
  sleeps := by
    intro r hr
    rcases sleeps_modify h hr with ⟨rfl, hw⟩ | ⟨-, hs⟩
    · exact hsleep hw
    · exact hs
  others := fun _ hne hr => sleeps_other h hne hr

end Blocks

/-! ## Tasks and allocation -/

section Shared

variable {m m' : Memory n} {c : Fin n} {th : Thread (Fin n) Slot} {r : List Slot}
  {below : Option Frame} {links : List Slot} {t : Task}

/-- The process a task is about to charge a tick. -/
def Task.charges (m : Memory n) : Task → Option Slot
  | .updateTimeIn q => if (m.k.proc q).state = .running then some q else none
  | _ => none

/-- A visit of a slot shows in the phase. -/
theorem Task.phase_woke {u : Task} {q : Slot} (htarget : u.target = t.target)
    (hwoken : u.woken = insert q t.woken) (below : Option Frame) :
    u.phase below = (t.phase below).woke q := by
  unfold Task.phase
  rw [htarget, hwoken]
  split <;> rfl

theorem Task.phase_congr {u : Task} (htarget : u.target = t.target) (hwoken : u.woken = t.woken)
    (below : Option Frame) : u.phase below = t.phase below := by
  unfold Task.phase
  rw [htarget, hwoken]

/-- Only a task with a target is in a phase with one. -/
theorem Task.target_phase {below : Option Frame} {q : Slot} (h : (t.phase below).target = some q) :
    t.target = some q := by
  unfold Task.phase at h
  split at h
  · exact h
  · exact h
  · cases h

/-- Only a `wakeup` that has passed the whole table returns. -/
theorem task_return (h : t.step m c = .ok (m', none)) :
    m' = m ∧ ∃ chan i, t = .wakeup chan [] i ∧ NPROC ≤ i := by
  cases t with
  | clockintr => cases h
  | updateTimeIn p => cases h
  | updateTime i =>
    simp only [Task.step] at h
    rcases visit_ok h with ⟨-, -, ha⟩ | ⟨hi, -, -, ha⟩ | ⟨-, -, ha⟩ <;> cases ha
  | updateTimeOut p | wakeupOut =>
    obtain ⟨-, -, h⟩ := release_ok h
    cases h
  | wakeup chan more i =>
    simp only [Task.step] at h
    split at h
    · cases h
    · rcases visit_ok h with ⟨-, -, ha⟩ | ⟨hi, -, -, ha⟩ | ⟨hm, hi, ha⟩
      · cases ha
      · cases ha
      · cases more with
        | nil => exact ⟨hm, chan, i, rfl, hi⟩
        | cons => cases ha
  | wakeupIn =>
    obtain ⟨_, -, -, h⟩ := update_ok h
    cases h

/-- A task of a thread that does not hold `wait_lock`. -/
theorem task_deed (hout : ∀ t : Task, t.phase below = .out) {t' : Task}
    (h : t.step m c = .ok (m', some t')) :
    Deed c th (t.turn, r) m (t.charges m) (t.spot below links) m' (t'.spot below links) := by
  have hstays : ∀ {t t' : Task}, t'.due ⊆ t.due → (t'.clock = true → t.clock = true) →
      (t.spot below links).Stays (t'.spot below links) := fun {t t'} hdue hclock =>
    ⟨(hout t').trans (hout t).symm, rfl, rfl, id, hdue, hclock⟩
  let spot : Option Task → Spot := fun t => t.elim .idle (Task.spot below links)
  cases t with
  | clockintr =>
    obtain ⟨rfl, ha⟩ := update_val h
    cases ha
    refine .tick (Task.updateTime 0).due rfl ?_
    simp only [Task.spot, hout]
    rfl
  | updateTime i =>
    simp only [Task.step] at h
    refine .of_visit spot h (.refl _) (fun q hq => ?_) fun _ => ?_
    · subst hq
      exact hstays (subset_refl _) id
    · exact hstays (Set.empty_subset _) (fun h => by cases h)
  | updateTimeIn q =>
    obtain ⟨rfl, ha⟩ := update_val h
    cases ha
    have hdue : (Task.updateTimeOut q).due ⊆ (Task.updateTimeIn q).due \ {q} := by
      intro x hx
      rw [Task.due, passed_succ, Set.insert_eq, Set.compl_union] at hx
      exact ⟨hx.2, hx.1⟩
    rw [Task.charges, Kernel.updateTimeOne]
    split
    · next hrun =>
      have hmem : q ∈ (Task.updateTimeIn q).due := Nat.lt_irrefl q.val
      have hq : Requeued (m.k.modify q fun x => { x with rtime := uint32 (x.rtime + 1) })
          ((m.k.modify q fun x => { x with rtime := uint32 (x.rtime + 1) }).note (.ran q)) :=
        ⟨fun _ => rfl, rfl, rfl, rfl, rfl⟩
      refine .charge q _ rfl hmem hrun hdue (.of_modify hq id) ?_
      simp only [Task.spot, hout]
      rfl
    · exact .idle (hstays (hdue.trans Set.sdiff_subset) id)
  | updateTimeOut p | wakeupOut => exact .of_release spot h (hstays (subset_refl _) id)
  | wakeup chan more i =>
    simp only [Task.step] at h
    split at h
    · cases h
      exact .idle (hstays (subset_refl _) id)
    · rcases visit_ok h with ⟨rfl, -, ha⟩ | ⟨hi, -, rfl, ha⟩ | ⟨rfl, -, ha⟩
      · cases ha
        exact .idle (.refl _)
      · cases ha
        exact .relock _ _ (hstays (subset_refl _) id)
      · cases more with
        | nil => cases ha
        | cons =>
          cases ha
          exact .idle (hstays (subset_refl _) id)
  | wakeupIn chan more q =>
    obtain ⟨k', hk, rfl, ha⟩ := update_ok h
    cases ha
    rcases (wakeupOne_requeued _ chan q).of_ok hk with ⟨-, hsleep, -, hq⟩ | ⟨-, rfl⟩
    · refine .of_calm hq ⟨rfl, .inr ⟨?_, rfl⟩⟩ (fun hw => ?_) (hstays (subset_refl _) id)
      · rw [kin, hsleep]
        rfl
      · cases hw.1
    · exact .idle (hstays (subset_refl _) id)

/-- A step of `wakeup` in a process is a deed. -/
theorem wakeup_deed {p : Slot} (hme : m.k.myproc c = some p) (hrun : (m.k.proc p).state = .running)
    {t' : Task} (hplain : t.plain = true) (h : t.step m c = .ok (m', some t')) :
    Deed c (.proc p) (t.turn, r) m none (t.spot below links) m' (t'.spot below links) := by
  let spot : Option Task → Spot := fun t => t.elim .idle (Task.spot below links)
  have hawake : ¬ m.sleeps p := by
    intro hs
    rw [Memory.sleeps, waiting, hrun] at hs
    cases hs.1
  cases t with
  | clockintr | updateTime | updateTimeIn | updateTimeOut => cases hplain
  | wakeup chan more i =>
    simp only [Task.step] at h
    split at h
    · next hself =>
      cases h
      rw [hme] at hself
      obtain rfl : p.val = i := Option.some.inj hself
      refine .wake p p rfl (.inr rfl) (.refl m) (fun _ => .refl _) (fun _ => id) (fun _ => hawake) rfl ?_
      have hphase := Task.phase_woke (t := .wakeup chan more p.val)
        (u := .wakeup chan more (p.val + 1)) (q := p) (by cases chan <;> rfl) (passed_succ p) below
      simp only [Task.spot, hphase]
      rfl
    · rcases visit_ok h with ⟨rfl, -, ha⟩ | ⟨hi, -, rfl, ha⟩ | ⟨rfl, -, ha⟩
      · cases ha
        exact .idle (.refl _)
      · cases ha
        have hphase := Task.phase_congr (t := .wakeup chan more i)
          (u := .wakeupIn chan more ⟨i, hi⟩) (by cases chan <;> rfl) rfl below
        exact .relock _ _ ⟨hphase, rfl, rfl, id, subset_refl _, id⟩
      · cases more with
        | nil => cases ha
        | cons => cases hplain
  | wakeupIn chan more q =>
    obtain ⟨k', hk, rfl, ha⟩ := update_ok h
    cases ha
    have hphase := Task.phase_woke (t := .wakeupIn chan more q) (u := .wakeupOut chan more q)
      (q := q) (by cases chan <;> rfl) (passed_succ q) below
    have htarget : ((Task.wakeupIn chan more q).phase below).target = some q → chan = .proc q := by
      intro ht
      have ht' := Task.target_phase ht
      cases chan with
      | proc x => exact congrArg Chan.proc (Option.some.inj ht')
      | _ => cases ht'
    rcases (wakeupOne_requeued _ chan q).of_ok hk with ⟨-, hsleep, -, hq⟩ | ⟨hnot, rfl⟩
    · refine .wake p q rfl (.inl rfl) (.requeued hq rfl rfl rfl)
        (calm_modify hq ⟨rfl, .inr ⟨?_, rfl⟩⟩) (fun x hs => ?_) (fun _ hs => ?_) rfl ?_
      · rw [kin, hsleep]
        rfl
      · rcases sleeps_modify hq hs with ⟨rfl, hw⟩ | ⟨-, hs⟩
        · cases hw.1
        · exact hs
      · rcases sleeps_modify hq hs with ⟨-, hw⟩ | ⟨hne, -⟩
        · cases hw.1
        · exact hne rfl
      · simp only [Task.spot, hphase]
        rfl
    · refine .wake p q rfl (.inl rfl) (.refl m) (fun _ => .refl _) (fun _ => id) (fun ht hs => ?_) rfl ?_
      · refine hnot ⟨fun he => ?_, hs.1, hs.2.trans (htarget ht).symm⟩
        rw [hme] at he
        cases he
        exact hawake hs
      · simp only [Task.spot, hphase]
        rfl
  | wakeupOut chan more q =>
    refine .of_release spot h ?_
    have hphase := Task.phase_congr (t := .wakeupOut chan more q)
      (u := .wakeup chan more (q.val + 1)) (by cases chan <;> rfl) rfl below
    exact ⟨hphase, rfl, rfl, id, subset_refl _, id⟩

/-- The spot of an allocation that may have returned. -/
def AllocNext.spot (links : List Slot) : AllocNext → Spot
  | .more a => a.spot links
  | .failed | .made _ => ⟨.out, links, [], false, ∅, false⟩

/-- A step of `allocproc` is a deed. -/
theorem alloc_deed {a : AllocPc} {o : Alloc} {a' : AllocNext} (h : a.step m c o = .ok (m', a')) :
    Deed c th (a.turn, r) m none (a.spot links) m' (a'.spot links) := by
  cases a with
  | next i =>
    simp only [AllocPc.step] at h
    exact .of_visit (AllocNext.spot links) h (.refl _) (fun _ _ => .refl _) fun _ => .refl _
  | test p =>
    rw [AllocPc.step] at h
    split at h
    · cases h
      exact .idle (.refl _)
    · cases h
      exact .idle (.refl _)
  | skip p | undo p => exact .of_release (AllocNext.spot links) h (.refl _)
  | pid p =>
    obtain ⟨k', hk, rfl, rfl⟩ := update_ok h
    rw [Kernel.allocpid] at hk
    split at hk
    · cases hk
      refine .number p rfl rfl rfl rfl rfl rfl ⟨funext fun q => ?_, fun q hq => ?_,
        fun q hne hq => ?_⟩ rfl
      · rw [Memory.member, Kernel.modify_proc, update_apply]
        split <;> rfl
      · rw [Memory.sleeps, Kernel.modify_proc] at hq
        split at hq
        · next he =>
          subst he
          exact hq
        · exact hq
      · rw [Memory.sleeps, Kernel.modify_proc, if_neg hne]
        exact hq
    · cases hk
  | used p =>
    obtain ⟨rfl, rfl⟩ := update_val h
    exact .use p [] rfl rfl List.not_mem_nil (.of_modify (.refl _) (fun hw => by cases hw.1)) rfl
  | pages p =>
    rw [AllocPc.step] at h
    split at h
    · obtain ⟨k', hk, rfl, rfl⟩ := update_ok h
      exact .abort p (.inl rfl) (.of_modify ((freeproc_requeued p).of_ok hk) (fun hw => by cases hw.1))
    · split at h
      · obtain ⟨k', hk, rfl, rfl⟩ := update_ok h
        have hq := (freeproc_requeued p).of_ok hk
        rw [Kernel.modify_modify] at hq
        exact .abort p (.inl rfl) (.of_modify hq (fun hw => by cases hw.1))
      · obtain ⟨rfl, rfl⟩ := update_val h
        exact .of_modify (.refl _) rfl rfl (.refl _)
  | init p =>
    obtain ⟨rfl, rfl⟩ := update_val h
    exact .make p rfl (.of_modify (.refl _) id)

end Shared

/-! ## The scheduler -/

section Sched

variable {m m' : Memory n} {c : Fin n} {b : Build} {o : Outcome}

/-- A step of the scheduler is a deed. -/
theorem sched_deed {pc pc' : SchedPc} (hboot : ∀ p, pc = .userinitIn p → m.k.initproc = none)
    (h : pc.step b m c o = .ok (m', pc')) :
    Deed c (.sched c) pc.place m none (Dispatcher.code pc).spot m' (Dispatcher.code pc').spot := by
  let spot : SchedPc → Spot := fun pc => (Dispatcher.code pc).spot
  cases pc with
  | start | chosen | parked =>
    obtain ⟨rfl, rfl⟩ := update_val h
    exact .of_kernel rfl rfl rfl rfl (.refl _)
  | loaded p =>
    cases h
    exact .idle (.refl _)
  | boot =>
    simp only [SchedPc.step] at h
    split at h
    · cases h
      exact .idle (.refl _)
    · split at h <;> cases h <;> exact .idle (.refl _)
  | userinit a =>
    simp only [SchedPc.step] at h
    obtain ⟨⟨m₁, a'⟩, ha, h⟩ := bind_ok h
    have hdeed : Deed c (.sched c) (a.turn, []) m none (a.spot []) m₁ (a'.spot []) := alloc_deed ha
    cases a' with
    | more a' | made p =>
      cases h
      exact hdeed
    | failed => cases h
  | userinitIn p =>
    obtain ⟨k', hk, rfl, rfl⟩ := update_ok h
    have hq := (enqueue_requeued p 0).of_ok hk
    refine .boot p (List.mem_singleton_self p) List.not_mem_nil (hboot p rfl) hq.initproc rfl hq.nextpid
      hq.ticks rfl ⟨funext fun q => ?_, fun q hw => ?_, fun q hne hw => ?_⟩
    · rw [Memory.member, hq.field kin (fun _ => rfl) q, Kernel.modify_proc, update_apply]
      split <;> rfl
    · rw [Memory.sleeps, hq.field (waiting q) (fun _ => rfl) q, Kernel.modify_proc] at hw
      split at hw
      · cases hw.1
      · exact hw
    · rw [Memory.sleeps, hq.field (waiting q) (fun _ => rfl) q, Kernel.modify_proc, if_neg hne]
      exact hw
  | userinitOut p =>
    obtain ⟨-, rfl, rfl⟩ := release_ok h
    exact .calm ⟨rfl, rfl, rfl, rfl, (Keeps.relock (m := m) p none).lock⟩ (fun _ => .refl _)
      (fun _ hw => .inl hw) (.refl _)
  | loop =>
    cases h
    cases b <;> exact .idle (.refl _)
  | total | requeue | rr =>
    simp only [SchedPc.step] at h
    exact .of_visit spot h (.refl _) (fun _ _ => .refl _) fun _ => .refl _
  | totalIn p sum =>
    simp only [SchedPc.step] at h
    split at h <;> cases h <;> exact .idle (.refl _)
  | totalOut p sum | requeueOut p => exact .of_release spot h (.refl _)
  | draw total =>
    simp only [SchedPc.step] at h
    split at h
    · obtain ⟨rfl, rfl⟩ := update_val h
      exact .of_kernel rfl rfl rfl rfl (.refl _)
    · cases h
      exact .idle (.refl _)
  | scan =>
    simp only [SchedPc.step] at h
    split at h
    · split at h
      · split at h <;> cases h <;> exact .idle (.refl _)
      · cases h
        exact .idle (.refl _)
    · cases h
      exact .idle (.refl _)
  | tie =>
    simp only [SchedPc.step] at h
    split at h
    · split at h
      · cases h
        exact .idle (.refl _)
      · split at h <;> cases h <;> exact .idle (.refl _)
    · cases h
      exact .idle (.refl _)
  | requeueIn p =>
    obtain ⟨k', hk, rfl, rfl⟩ := update_ok h
    exact .of_requeued ((requeueOne_requeued p).of_ok hk) (.refl _)
  | search q j =>
    simp only [SchedPc.step] at h
    split at h
    · split at h
      · obtain ⟨p, -, h⟩ := bind_ok h
        split at h <;> cases h <;> exact .idle (.refl _)
      · cases h
        exact .idle (.refl _)
    · cases h
      exact .idle (.refl _)
  | pick p => exact .of_acquire spot h (.refl _) (.refl _)
  | test p =>
    simp only [SchedPc.step] at h
    split at h
    · next hrunnable =>
      obtain ⟨rfl, rfl⟩ := update_val h
      refine .of_calm (.refl _) ⟨rfl, .inr ⟨?_, rfl⟩⟩ (fun hw => ?_) (.refl _)
      · rw [kin, hrunnable]
        rfl
      · cases hw.1
    · cases h
      exact .idle (.refl _)
  | drop p =>
    refine .of_release spot h ?_
    cases b <;> exact .refl _

end Sched

/-! ## The thread of a process -/

section Process

variable {m m' : Memory n} {c : Fin n} {b : Build} {o : Outcome} {p : Slot} {rest : List Below}
  {t : Task} {next : Next}

/-- A step of the thread of `p`: a deed, or a switch to the scheduler. -/
inductive Does (c : Fin n) (p : Slot) (m : Memory n) (at₀ : Place) (x : Spot) :
    Option Slot → Memory n → Next → Prop
  | go {l : Option Slot} {m' : Memory n} {st : Stack}
      (hd : Deed c (.proc p) at₀ m l x m' st.spot) (hs : Shape m.k.initproc p st.top st.rest) :
      Does c p m at₀ x l m' (.go st)
  | swtch {st : Stack} (a : Procstate) (hturn : at₀.1 = .left p a) (hspot : st.spot = x)
      (hphase : x.phase = .out) (hdoze : x.dozing = false) (hclock : x.clock = false)
      (hs : Shape m.k.initproc p st.top st.rest) (hspent : a.live = true ∨ st.Spent) :
      Does c p m at₀ x none m (.swtch st)

/-- A step of the thread of `p` from the function `f`. -/
abbrev DoesAt (c : Fin n) (p : Slot) (m : Memory n) (rest : List Below) (f : Frame) :
    Option Slot → Memory n → Next → Prop :=
  Does c p m (f.place p rest) (f.spot rest)

/-- The function goes on at `f`, which means nothing to the protocol. -/
structure Lands (init : Option Slot) (p : Slot) (x : Spot) (rest : List Below) (f : Frame) :
    Prop where
  spot : x.Stays (f.spot rest)
  shape : Shape init p f rest

/-- The protocol takes the points of a function with the same spot for one. -/
theorem Shape.lands {init : Option Slot} {f g : Frame} (h : Shape init p f rest)
    (hokay : g.Okay init p) (hspot : g.spot rest = f.spot rest)
    (hsame : (g.over, g.clock) = (f.over, f.clock)) : Lands init p (f.spot rest) rest g :=
  ⟨hspot ▸ .refl _, h.goes hokay hsame⟩

/-- The process a function is about to charge a tick. -/
def Frame.charges (m : Memory n) : Frame → Option Slot
  | .task t => t.charges m
  | _ => none

/-- A task is outside `wait_lock` when it was not called from under it. -/
theorem Task.phase_eq_out :
    t.phase (rest.head?.map Subtype.val) = .out ↔ (Frame.task t).waits rest = false := by
  simp only [Frame.waits]
  generalize rest.head?.map Subtype.val = below
  cases below with
  | none => exact ⟨fun _ => rfl, fun _ => rfl⟩
  | some f =>
    cases f with
    | reparent | exitLock status => exact ⟨nofun, nofun⟩
    | _ => exact ⟨fun _ => rfl, fun _ => rfl⟩

/-- A function below the top that can be interrupted means nothing to the protocol. -/
theorem Frame.spot_of_quiet {f : Frame} (hstill : f.still = true) (h : f.quiet rest = true) :
    f.spot rest = ⟨.out, f.links ++ linksOf rest, [], false, ∅, false⟩ := by
  rw [Frame.quiet, Bool.and_eq_true, Bool.not_eq_true', Bool.not_eq_true'] at h
  obtain ⟨hwaits, hclock⟩ := h
  cases f with
  | task t =>
    have hphase := Task.phase_eq_out.mpr hwaits
    have hdue : t.due = ∅ := by
      cases t <;> first | rfl | cases hclock
    exact Spot.ext hphase rfl rfl rfl hdue hclock
  | killed a => cases a <;> first | rfl | cases hwaits
  | killedIn | killedOut | sleepSet => cases hstill
  | sleep chan lk => cases lk <;> first | rfl | cases hwaits
  | alloc a => cases a <;> first | rfl | cases hstill
  | _ => first | rfl | cases hwaits | cases hstill

namespace Does

variable {at₀ : Place} {x : Spot} {l : Option Slot} {next : Next} {f : Frame}

theorem stay (h : Lands m.k.initproc p x rest f) :
    Does c p m at₀ x none m (.go ⟨f, rest⟩) :=
  .go (.idle h.spot) h.shape

/-- What a frame does when it goes on to another. -/
theorem of_jump {r : Except Fault (Memory n × Frame)} (h : jump rest r = .ok (m', next))
    (hd : ∀ f, r = .ok (m', f) →
      Deed c (.proc p) at₀ m l x m' (f.spot rest) ∧ Shape m.k.initproc p f rest) :
    Does c p m at₀ x l m' next := by
  obtain ⟨f, hr, rfl⟩ := jump_ok h
  obtain ⟨hdeed, hshape⟩ := hd f hr
  exact .go hdeed hshape

theorem of_acquire {q : Slot} {spin taken : Frame}
    (h : jump rest (m.acquire c (.proc q) spin taken) = .ok (m', next))
    (hspin : Lands m.k.initproc p x rest spin) (htaken : Lands m.k.initproc p x rest taken) :
    Does c p m at₀ x none m' next := by
  refine of_jump h fun f h => ?_
  rcases acquire_ok h with ⟨rfl, rfl⟩ | ⟨-, rfl, rfl⟩
  · exact ⟨.idle hspin.spot, hspin.shape⟩
  · exact ⟨.relock _ _ htaken.spot, htaken.shape⟩

theorem of_release {q : Slot} (h : jump rest (m.release c (.proc q) f) = .ok (m', next))
    (hf : Lands m.k.initproc p x rest f) : Does c p m at₀ x none m' next := by
  refine of_jump h fun f' h => ?_
  obtain ⟨-, rfl, rfl⟩ := release_ok h
  exact ⟨.relock _ _ hf.spot, hf.shape⟩

/-- A frame takes `wait_lock`. -/
theorem of_take {spin taken : Frame}
    (h : jump rest (m.acquire c .wait spin taken) = .ok (m', next))
    (hspin : Lands m.k.initproc p x rest spin) {φ : Phase Slot}
    (hφ : Family.Opens m.k.initproc p φ) (htaken : taken.spot rest = { x with phase := φ })
    (hshape : Shape m.k.initproc p taken rest) : Does c p m at₀ x none m' next := by
  refine of_jump h fun f h => ?_
  rcases acquire_ok h with ⟨rfl, rfl⟩ | ⟨hfree, rfl, rfl⟩
  · exact ⟨.idle hspin.spot, hspin.shape⟩
  · exact ⟨.take p φ rfl hfree ⟨rfl, rfl, update_self Lock.wait _ m.lock⟩ hφ htaken, hshape⟩

/-- A frame gives `wait_lock` back. -/
theorem of_drop (h : jump rest (m.release c .wait f) = .ok (m', next)) (hx : x.phase = .held)
    (hf : f.spot rest = { x with phase := .out }) (hshape : Shape m.k.initproc p f rest) :
    Does c p m at₀ x none m' next := by
  refine of_jump h fun f' h => ?_
  obtain ⟨-, rfl, rfl⟩ := release_ok h
  exact ⟨.drop p rfl hx ⟨rfl, rfl, update_self Lock.wait _ m.lock⟩ hf, hshape⟩

/-- A frame returns to one that means the same to the protocol. -/
theorem of_ret (h : ret rest = .ok next) (hshape : Shape m.k.initproc p f rest)
    (hover : ∀ g r, f.over g r = g.quiet r)
    (hx : f.spot rest = ⟨.out, linksOf rest, [], false, ∅, false⟩) :
    ∃ g rest', next = .go ⟨g, rest'⟩ ∧ g.spot rest' = f.spot rest ∧
      Shape m.k.initproc p g rest' := by
  obtain ⟨g, rest', rfl, rfl⟩ := ret_ok h
  refine ⟨g.1, rest', rfl, ?_, hshape.2.2⟩
  rw [hx, Frame.spot_of_quiet g.2 (by rw [← hover]; exact hshape.2.1)]
  rfl

end Does

/-- A plain handler stays plain, and none starts the clock. -/
theorem task_next {t' : Task} (h : t.step m c = .ok (m', some t')) :
    (t.plain = true → t'.plain = true) ∧ (t'.clock = true → t.clock = true) := by
  cases t with
  | clockintr | updateTime | updateTimeIn | updateTimeOut =>
    exact ⟨(fun h => by cases h), fun _ => rfl⟩
  | wakeup chan more i =>
    simp only [Task.step] at h
    split at h
    · cases h
      exact ⟨by cases more <;> exact id, fun h => by cases h⟩
    · rcases visit_ok h with ⟨-, -, ha⟩ | ⟨hi, -, -, ha⟩ | ⟨-, -, ha⟩
      · cases ha
        exact ⟨id, id⟩
      · cases ha
        exact ⟨by cases more <;> exact id, fun h => by cases h⟩
      · cases more with
        | nil => cases ha
        | cons =>
          cases ha
          exact ⟨(fun h => by cases h), fun h => by cases h⟩
  | wakeupIn chan more q =>
    obtain ⟨k', -, -, ha⟩ := update_ok h
    cases ha
    exact ⟨by cases more <;> exact id, fun h => by cases h⟩
  | wakeupOut chan more q =>
    obtain ⟨-, -, ha⟩ := release_ok h
    cases ha
    exact ⟨by cases more <;> exact id, fun h => by cases h⟩

theorem Task.calledBy_mono {t' : Task} (hplain : t.plain = true → t'.plain = true)
    (hclock : t'.clock = true → t.clock = true) {g : Frame} (h : t.calledBy g = true) :
    t'.calledBy g = true := by
  have hnot : (!t.clock) = true → (!t'.clock) = true := by
    rw [Bool.not_eq_true', Bool.not_eq_true', Bool.eq_false_iff, Bool.eq_false_iff]
    exact mt hclock
  cases g with
  | reparent | exitLock status => exact hplain h
  | kernel v => exact hnot h
  | exitFiles status => exact hnot h
  | kerneltrap tick => rfl
  | killed a =>
    cases a with
    | trap tick => rfl
    | _ => cases h
  | _ => cases h

/-- A task runs outside `wait_lock`, or is a wakeup that `exit` calls. -/
theorem Task.kind {init : Option Slot} (h : Shape init p (.task t) rest) :
    (∀ t' : Task, t'.phase (rest.head?.map Subtype.val) = .out) ∨ t.plain = true := by
  cases rest with
  | nil => exact .inl fun _ => rfl
  | cons g rest =>
    obtain ⟨g, hg⟩ := g
    have hcalled : t.calledBy g = true := h.2.1
    cases g with
    | reparent | exitLock status => exact .inr hcalled
    | _ => exact .inl fun _ => rfl

/-- A step of a handler above a frame. -/
theorem task_does (hshape : Shape m.k.initproc p (.task t) rest) (hme : m.k.myproc c = some p)
    (hrun : (m.k.proc p).state = .running) (h : (Frame.task t).step b m c p o rest = .ok (m', next))
    :
    DoesAt c p m rest (.task t) (t.charges m) m' next := by
  simp only [Frame.step] at h
  obtain ⟨⟨m₁, t'⟩, ht, hnext⟩ := bind_ok h
  cases t' with
  | some t' =>
    cases hnext
    obtain ⟨hplain, hclock⟩ := task_next ht
    refine .go ?_ (hshape.move (fun _ _ => Task.calledBy_mono hplain hclock) trivial hclock)
    rcases Task.kind hshape with hout | hexit
    · exact task_deed hout ht
    · have hl : t.charges m = none := by
        cases t <;> first | rfl | cases hexit
      rw [hl]
      exact wakeup_deed hme hrun hexit ht
  | none =>
    obtain ⟨rfl, chan, i, rfl, hi⟩ := task_return ht
    obtain ⟨next', hret, hdone⟩ := bind_ok hnext
    cases hdone
    obtain ⟨⟨g, hg⟩, rest', rfl, rfl⟩ := ret_ok hret
    have hcalled : (Task.wakeup chan [] i).calledBy g = true := hshape.2.1
    have hwoken : (Task.wakeup chan [] i).woken = Set.univ := passed_all hi
    cases g with
    | reparent status j =>
      refine .go (.think p (.adopting (passed j)) rfl (.refl _) rfl (fun _ => .rfl) ?_ rfl)
        hshape.2.2
      change Family.Thinks _ p (.calling _ _ (Task.woken _)) _
      rw [hwoken]
      exact .called _ _
    | exitLock status =>
      refine .go (.think p .leaving rfl (.refl _) rfl (fun _ => .rfl) ?_ rfl) hshape.2.2
      change Family.Thinks _ p (.rousing _ (Task.woken _)) _
      rw [hwoken]
      exact .roused _
    | kernel | exitFiles | kerneltrap => exact .go (.idle (.refl _)) hshape.2.2
    | killed a =>
      cases a with
      | trap tick => exact .go (.idle (.refl _)) hshape.2.2
      | _ => cases hcalled
    | _ => cases hcalled

/-- `wait` looks at one child. -/
theorem waitChild_does {x : Bool} {pp : Slot} {fails : Bool}
    (hshape : Shape m.k.initproc p (.waitIn x pp) rest)
    (h : jump rest (waitChild m x p pp fails) = .ok (m', next)) :
    DoesAt c p m rest (.waitIn x pp) none m' next := by
  refine .of_jump h fun f h => ?_
  simp only [waitChild] at h
  split at h
  · next hzombie =>
    have hkin : ∀ q, kin ((takeCounts m.k x p pp).proc q) = kin (m.k.proc q) :=
      takeCounts_field kin (fun _ _ => rfl) x p pp
    have hwait : ∀ q, waiting q ((takeCounts m.k x p pp).proc q) = waiting q (m.k.proc q) :=
      fun q => takeCounts_field (waiting q) (fun _ _ => rfl) x p pp q
    have hinit : (takeCounts m.k x p pp).initproc = m.k.initproc := by
      rw [takeCounts]
      split <;> rfl
    have hnext : (takeCounts m.k x p pp).nextpid = m.k.nextpid := by
      rw [takeCounts]
      split <;> rfl
    have hticks : (takeCounts m.k x p pp).ticks = m.k.ticks := by
      rw [takeCounts]
      split <;> rfl
    split at h
    · obtain ⟨rfl, rfl⟩ := update_val h
      refine ⟨.think p .held rfl ⟨rfl, hinit, hnext, hticks, rfl⟩ (funext hkin) (fun q => ?_)
        (.miss pp _) rfl, hshape.goes trivial rfl⟩
      rw [Memory.sleeps, Memory.sleeps, hwait]
    · obtain ⟨k', hf, rfl, rfl⟩ := update_ok h
      have hq := (freeproc_requeued pp).of_ok hf
      refine ⟨.reap p pp _ rfl rfl hzombie ⟨.requeued hq hinit hnext hticks, funext fun q => ?_,
        fun q hs => ?_, fun q hne hs => ?_⟩ rfl, hshape.goes trivial rfl⟩
      · rw [Memory.member, hq.field kin (fun _ => rfl) q, Kernel.modify_proc, update_apply]
        split
        · exact congrArg Member.freed (hkin pp)
        · exact hkin q
      · rw [Memory.sleeps, hq.field (waiting q) (fun _ => rfl) q, Kernel.modify_proc] at hs
        split at hs
        · cases hs.1
        · rwa [hwait] at hs
      · rw [Memory.sleeps, hq.field (waiting q) (fun _ => rfl) q, Kernel.modify_proc, if_neg hne,
          hwait]
        exact hs
  · next hnot =>
    cases h
    refine ⟨.think p (.scanning (insert pp (passed pp.val))) rfl (.refl m) rfl (fun _ => .rfl)
      (.spare pp _ hnot) ?_, hshape.goes trivial rfl⟩
    rw [← passed_succ]
    rfl

/-- `kill` looks at one slot. -/
theorem killSlot_does {pid : Int} {q : Slot} (hshape : Shape m.k.initproc p (.killIn pid q) rest)
    (h : jump rest (killSlot m pid q) = .ok (m', next)) :
    DoesAt c p m rest (.killIn pid q) none m' next := by
  refine .of_jump h fun f h => ?_
  simp only [killSlot] at h
  split at h
  · split at h
    · next hsleep =>
      obtain ⟨k', hk, rfl, rfl⟩ := update_ok h
      have hq := (enqueue_requeued q _).of_ok hk
      rw [Kernel.modify_modify] at hq
      rw [Kernel.modify_proc, if_pos rfl] at hsleep
      refine ⟨.of_calm hq ⟨rfl, .inr ⟨?_, rfl⟩⟩ (fun hw => by cases hw.1) (.refl _),
        hshape.goes trivial rfl⟩
      rw [kin, show (m.k.proc q).state = .sleeping from hsleep]
      rfl
    · obtain ⟨rfl, rfl⟩ := update_val h
      exact ⟨.of_modify (.refl _) rfl rfl (.refl _), hshape.goes trivial rfl⟩
  · cases h
    exact ⟨.idle (.refl _), hshape.goes trivial rfl⟩

/-- `killed` returns to whoever asked. -/
theorem killedOut_does {a : AfterKilled} {answer : Bool}
    (hshape : Shape m.k.initproc p (.killedOut a answer) rest)
    (h : (Frame.killedOut a answer).step b m c p o rest = .ok (m', next)) :
    DoesAt c p m rest (.killedOut a answer) none m' next := by
  obtain ⟨-, rfl, rfl⟩ := release_ok h
  cases a with
  | wait =>
    cases answer with
    | true =>
      exact .go (.think p .held rfl (.relock _ _) rfl (fun _ => .rfl) (.done _) rfl)
        (hshape.goes trivial rfl)
    | false =>
      exact .go (.relock _ _ (.refl _)) ⟨rfl, rfl, hshape.goes trivial rfl⟩
  | trap tick =>
    cases tick <;> cases answer <;>
      exact .go (.relock _ _ (.refl _)) (hshape.goes trivial rfl)
  | _ =>
    cases answer <;> exact .go (.relock _ _ (.refl _)) (hshape.goes trivial rfl)

section Timer

variable {next : Next}

/-- The timer branch of `usertrap`. -/
theorem timer_does (hshape : Shape m.k.initproc p .timer rest)
    (h : Frame.timer.step b m c p o rest = .ok (m', next)) :
    DoesAt c p m rest .timer none m' next := by
  cases b with
  | mlfq =>
    refine .of_jump h fun f h => ?_
    obtain ⟨rfl, rfl⟩ := update_val h
    split <;>
      exact ⟨.of_modify (.refl _) rfl rfl (.refl _), hshape.goes trivial rfl⟩
  | rr | lbs =>
    cases h
    exact .go (.idle (.refl _)) ⟨trivial, rfl, hshape.goes trivial rfl⟩

/-- One turn of the boost. -/
theorem boost_does {q j : Nat} (hshape : Shape m.k.initproc p (.boost q j) rest)
    (h : (Frame.boost q j).step b m c p o rest = .ok (m', next)) :
    DoesAt c p m rest (.boost q j) none m' next := by
  simp only [Frame.step] at h
  split at h
  · split at h
    · obtain ⟨temp, -, h⟩ := bind_ok h
      refine .of_jump h fun f h => ?_
      obtain ⟨k', hk, rfl, rfl⟩ := update_ok h
      exact ⟨.of_requeued ((dequeue_requeued temp _).of_ok hk) (.refl _),
        hshape.goes trivial rfl⟩
    · cases h
      exact .go (.idle (.refl _)) (hshape.goes trivial rfl)
  · cases h
    exact .go (.idle (.refl _)) (hshape.goes trivial rfl)

/-- The test of the slice. -/
theorem slice_does (hshape : Shape m.k.initproc p .slice rest)
    (h : Frame.slice.step b m c p o rest = .ok (m', next)) :
    DoesAt c p m rest .slice none m' next := by
  simp only [Frame.step] at h
  obtain ⟨q, -, h⟩ := bind_ok h
  split at h
  · refine .of_jump h fun f h => ?_
    obtain ⟨k', hk, rfl, rfl⟩ := update_ok h
    exact ⟨.of_requeued ((dequeue_requeued p _).of_ok hk) (.refl _),
      hshape.goes trivial rfl⟩
  · cases h
    exact .go (.idle (.refl _)) (hshape.goes trivial rfl)

theorem demote_does (hshape : Shape m.k.initproc p .demote rest)
    (h : Frame.demote.step b m c p o rest = .ok (m', next)) :
    DoesAt c p m rest .demote none m' next := by
  simp only [Frame.step] at h
  obtain ⟨k', hk, h⟩ := bind_ok h
  cases h
  exact .go (.of_requeued ((enqueue_requeued p _).of_ok hk) (.refl _))
    ⟨trivial, rfl, hshape.goes trivial rfl⟩

/-- One turn of the preemption loop. -/
theorem preempt_does {i : Nat} (hshape : Shape m.k.initproc p (.preempt i) rest)
    (h : (Frame.preempt i).step b m c p o rest = .ok (m', next)) :
    DoesAt c p m rest (.preempt i) none m' next := by
  simp only [Frame.step] at h
  split at h
  · obtain ⟨q, -, h⟩ := bind_ok h
    split at h
    · cases h
      exact .go (.idle (.refl _)) ⟨trivial, rfl, hshape.goes trivial rfl⟩
    · cases h
      exact .go (.idle (.refl _)) (hshape.goes trivial rfl)
  · cases h
    exact .go (.idle (.refl _)) (hshape.goes trivial rfl)

end Timer

section Sleep

variable {next : Next} {chan : Chan} {lk : SleepLock}

/-- `sleep` sets the channel and gives up the CPU. -/
theorem sleepSet_does (hshape : Shape m.k.initproc p (.sleepSet chan lk) rest)
    (hrun : (m.k.proc p).state = .running)
    (h : (Frame.sleepSet chan lk).step b m c p o rest = .ok (m', next)) :
    DoesAt c p m rest (.sleepSet chan lk) none m' next := by
  refine .of_jump h fun f h => ?_
  obtain ⟨k', hk, rfl, rfl⟩ := update_ok h
  have hfits : lk.Fits p chan := hshape.okay
  refine ⟨.of_calm ((dequeue_requeued p _).of_ok hk) ⟨rfl, .inr ⟨?_, rfl⟩⟩ (fun hw => .inr ⟨rfl, ?_⟩)
    ⟨rfl, rfl, rfl, nofun, subset_refl _, id⟩, hshape.goes trivial rfl⟩
  · rw [kin, hrun]
    rfl
  · -- only `wait` sleeps on the slot of the process itself
    have hchan : chan = .proc p := hw.2
    cases lk with
    | wait => rfl
    | other =>
      subst hchan
      cases hfits

/-- `sleep` takes its caller's lock back. -/
theorem sleepBack_does (hshape : Shape m.k.initproc p (.sleepBack lk) rest)
    (h : (Frame.sleepBack lk).step b m c p o rest = .ok (m', next)) :
    DoesAt c p m rest (.sleepBack lk) none m' next := by
  cases lk with
  | wait =>
    simp only [Frame.step] at h
    obtain ⟨next', hret, h⟩ := bind_ok h
    obtain ⟨⟨g, hg⟩, rest', rfl, rfl⟩ := ret_ok hret
    have hsleeper : g.sleeper .wait = true := hshape.2.1
    rcases acquire_ok h with ⟨rfl, rfl⟩ | ⟨hfree, rfl, rfl⟩
    · exact .go (.idle (.refl _)) hshape
    · unfold Frame.sleeper at hsleeper
      split at hsleeper
      · refine .go (.take p (.scanning ∅) rfl hfree ⟨rfl, rfl, update_self Lock.wait _ m.lock⟩ .wait
          ?_) hshape.2.2
        rw [← passed_zero]
        rfl
      · next he _ => cases he
      · next he _ => cases he
      · cases hsleeper
  | other =>
    simp only [Frame.step] at h
    obtain ⟨next', hret, h⟩ := bind_ok h
    cases h
    obtain ⟨⟨g, hg⟩, rest', rfl, rfl⟩ := ret_ok hret
    have hsleeper : g.sleeper .other = true := hshape.2.1
    cases g with
    | kernel v | exitFiles status => exact .go (.idle (.refl _)) hshape.2.2
    | _ => cases hsleeper

end Sleep

/-- A step of `allocproc` under `fork`. -/
theorem alloc_does {a : AllocPc} (hshape : Shape m.k.initproc p (.alloc a) rest)
    (h : (Frame.alloc a).step b m c p o rest = .ok (m', next)) :
    DoesAt c p m rest (.alloc a) none m' next := by
  simp only [Frame.step] at h
  obtain ⟨⟨m₁, a'⟩, ha, h⟩ := bind_ok h
  have hdeed : Deed c (.proc p) (Frame.place p rest (.alloc a)) m none (a.spot (linksOf rest)) m₁
      (a'.spot (linksOf rest)) := alloc_deed ha
  cases a' <;> cases h <;> exact .go hdeed (hshape.goes trivial rfl)

section Exit

variable {next : Next} {status : Int}

theorem target_ofProc (q : Option Slot) : (Task.wakeup (Chan.ofProc q) [] 0).target = q := by
  cases q <;> rfl

/-- One turn of `reparent`. -/
theorem reparent_does {i : Nat} (hshape : Shape m.k.initproc p (.reparent status i) rest)
    (h : (Frame.reparent status i).step b m c p o rest = .ok (m', next)) :
    DoesAt c p m rest (.reparent status i) none m' next := by
  have hnot : m.k.initproc ≠ some p := hshape.okay
  simp only [Frame.step] at h
  split at h
  · next hi =>
    split at h
    · next hparent =>
      cases h
      have hsame : m.sleeps ⟨i, hi⟩ → ({ m with k := m.k.modify ⟨i, hi⟩ fun x =>
          { x with parent := m.k.initproc } } : Memory n).sleeps ⟨i, hi⟩ := by
        intro hs
        rw [Memory.sleeps, Kernel.modify_proc, if_pos rfl]
        exact hs
      refine .go (.adopt p ⟨i, hi⟩ (passed i) rfl rfl hparent hsame (.of_modify (.refl _) id) ?_)
        ⟨trivial, rfl, hshape.goes hnot rfl⟩
      refine Spot.ext ?_ rfl rfl rfl rfl rfl
      change Phase.calling (Task.target _) (passed (i + 1)) (passed 0) = _
      rw [target_ofProc, passed_zero, passed_succ ⟨i, hi⟩]
    · next hparent =>
      cases h
      have hskip : Family.Thinks m.member p (.adopting (passed i))
          (.adopting (insert ⟨i, hi⟩ (passed i))) := .skip (⟨i, hi⟩ : Slot) _ hparent
      refine .go (.think p _ rfl (.refl m) rfl (fun _ => .rfl) hskip ?_)
        (hshape.goes hnot rfl)
      rw [← passed_succ ⟨i, hi⟩]
      rfl
  · next hi =>
    cases h
    refine .go (.idle ⟨?_, rfl, rfl, id, subset_refl _, id⟩) (hshape.goes hnot rfl)
    exact congrArg Phase.adopting (passed_all (Nat.le_of_not_lt hi)).symm

/-- `exit` rouses the parent. -/
theorem exitWake_does (hshape : Shape m.k.initproc p (.exitWake status) rest)
    (h : (Frame.exitWake status).step b m c p o rest = .ok (m', next)) :
    DoesAt c p m rest (.exitWake status) none m' next := by
  cases h
  have hnot : m.k.initproc ≠ some p := hshape.okay
  refine .go (.think p (.rousing (m.k.proc p).parent ∅) rfl (.refl m) rfl (fun _ => .rfl) .rouse ?_)
    ⟨trivial, rfl, hshape.goes hnot rfl⟩
  refine Spot.ext ?_ rfl rfl rfl rfl rfl
  change Phase.rousing (Task.target _) (passed 0) = _
  rw [target_ofProc, passed_zero]

/-- `exit` becomes a zombie. -/
theorem exitIn_does (hshape : Shape m.k.initproc p (.exitIn status) rest)
    (hrun : (m.k.proc p).state = .running)
    (h : (Frame.exitIn status).step b m c p o rest = .ok (m', next)) :
    DoesAt c p m rest (.exitIn status) none m' next := by
  refine .of_jump h fun f h => ?_
  obtain ⟨k', hk, rfl, rfl⟩ := update_ok h
  exact ⟨.die p rfl rfl hrun (.of_modify ((dequeue_requeued p _).of_ok hk) nofun) rfl,
    hshape.goes trivial rfl⟩

end Exit

section Wait

variable {next : Next} {x havekids : Bool}

/-- One turn of the scan in `wait`. -/
theorem waitScan_does {i : Nat} (hshape : Shape m.k.initproc p (.waitScan x i havekids) rest)
    (h : (Frame.waitScan x i havekids).step b m c p o rest = .ok (m', next)) :
    DoesAt c p m rest (.waitScan x i havekids) none m' next := by
  simp only [Frame.step] at h
  split at h
  · next hi =>
    split at h
    · next hparent =>
      cases h
      exact .go (.think p (.found (passed i) ⟨i, hi⟩) rfl (.refl m) rfl (fun _ => .rfl)
        (.find _ _ hparent) rfl) (hshape.goes trivial rfl)
    · next hparent =>
      cases h
      have hpass : Family.Thinks m.member p (.scanning (passed i))
          (.scanning (insert ⟨i, hi⟩ (passed i))) := .pass (⟨i, hi⟩ : Slot) _ hparent
      refine .go (.think p _ rfl (.refl m) rfl (fun _ => .rfl) hpass ?_)
        (hshape.goes trivial rfl)
      rw [← passed_succ ⟨i, hi⟩]
      rfl
  · next hi =>
    cases h
    refine .go (.idle ⟨?_, rfl, rfl, id, subset_refl _, id⟩)
      (hshape.goes trivial rfl)
    exact congrArg Phase.scanning (passed_all (Nat.le_of_not_lt hi)).symm

/-- `wait` found nobody: it gives up or goes to sleep. -/
theorem waitNone_does (hshape : Shape m.k.initproc p (.waitNone x havekids) rest)
    (h : (Frame.waitNone x havekids).step b m c p o rest = .ok (m', next)) :
    DoesAt c p m rest (.waitNone x havekids) none m' next := by
  have hend : ∀ r, DoesAt c p m rest (.waitNone x havekids) none m (.go ⟨.waitEnd r, rest⟩) := fun r =>
    .go (.think p .held rfl (.refl m) rfl (fun _ => .rfl) (.done _) rfl)
      (hshape.goes trivial rfl)
  simp only [Frame.step] at h
  split at h
  · cases h
    exact hend _
  · split at h
    · cases h
      exact .go (.idle (.refl _)) (hshape.goes trivial rfl)
    · split at h
      · cases h
        exact hend _
      · cases h
        exact .go (.idle (.refl _)) ⟨rfl, rfl, hshape.goes trivial rfl⟩

end Wait

/-- Every step of a frame is a deed that keeps the stack in shape. -/
theorem frame_does {f : Frame} (hshape : Shape m.k.initproc p f rest) (hme : m.k.myproc c = some p)
    (hown : (m.k.proc p).state = .running ∨ ∃ a, f.turn p = .left p a)
    (h : f.step b m c p o rest = .ok (m', next)) :
    DoesAt c p m rest f (f.charges m) m' next := by
  have hself : Lands m.k.initproc p (f.spot rest) rest f := ⟨.refl _, hshape⟩
  have hrun : (∀ a, f.turn p ≠ .left p a) → (m.k.proc p).state = .running := fun hne =>
    hown.resolve_right fun ⟨a, ha⟩ => hne a ha
  cases f with
  | user | kernel v =>
    cases h
    exact .stay hself
  | task t => exact task_does hshape hme (hrun fun a ha => by cases t <;> cases ha) h
  | kerneltrap tick =>
    simp only [Frame.step] at h
    split at h
    · cases h
      exact .stay (hshape.lands trivial rfl rfl)
    · obtain ⟨next', hret, h⟩ := bind_ok h
      cases h
      obtain ⟨g, rest', rfl, hspot, hg⟩ := Does.of_ret hret hshape (fun _ _ => rfl) rfl
      exact .stay ⟨hspot ▸ .refl _, hg⟩
  -- killed, setkilled
  | killed a =>
    have hspot : (Frame.killedIn a).spot rest = (Frame.killed a).spot rest := by cases a <;> rfl
    exact .of_acquire h hself (hshape.lands trivial hspot rfl)
  | killedIn a =>
    cases h
    refine .stay (hshape.lands trivial ?_ rfl)
    cases a <;> rfl
  | killedOut a answer => exact killedOut_does hshape h
  | setkilled => exact .of_acquire h hself (hshape.lands trivial rfl rfl)
  | setkilledIn =>
    refine .of_jump h fun f h => ?_
    obtain ⟨rfl, rfl⟩ := update_val h
    exact ⟨.of_modify (.refl _) rfl rfl (.refl _), hshape.goes trivial rfl⟩
  | setkilledOut => exact .of_release h (hshape.lands trivial rfl rfl)
  -- the timer branch of usertrap
  | timer => exact timer_does hshape h
  | boost q j => exact boost_does hshape h
  | boostPut q j temp =>
    refine .of_jump h fun f h => ?_
    obtain ⟨k', hk, rfl, rfl⟩ := update_ok h
    exact ⟨.of_requeued ((enqueue_requeued temp 0).of_ok hk) (.refl _),
      hshape.goes trivial rfl⟩
  | slice => exact slice_does hshape h
  | demote => exact demote_does hshape h
  | preempt i => exact preempt_does hshape h
  | usertrapret =>
    cases h
    exact .stay (hshape.lands trivial rfl rfl)
  -- yield, forkret
  | yield => exact .of_acquire h hself (hshape.lands trivial rfl rfl)
  | yieldIn =>
    refine .of_jump h fun f h => ?_
    obtain ⟨rfl, rfl⟩ := update_val h
    refine ⟨.of_calm (.refl _) ⟨rfl, .inr ⟨?_, rfl⟩⟩ (fun hw => by cases hw.1) (.refl _),
      hshape.goes trivial rfl⟩
    rw [kin, hrun fun a ha => by cases ha]
    rfl
  | yieldSched =>
    obtain ⟨-, -, -, rfl, rfl⟩ := sched_ok h
    exact .swtch .runnable rfl rfl rfl rfl rfl (hshape.goes trivial rfl) (.inl rfl)
  | yieldOut =>
    simp only [Frame.step] at h
    obtain ⟨next', hret, h⟩ := bind_ok h
    obtain ⟨g, rest', rfl, hspot, hg⟩ := Does.of_ret hret hshape (fun _ _ => rfl) rfl
    obtain ⟨-, rfl, rfl⟩ := release_ok h
    exact .go (.relock _ _ (hspot ▸ .refl _)) hg
  | forkret => exact .of_release h (hshape.lands trivial rfl rfl)
  | forkretFirst =>
    simp only [Frame.step] at h
    split at h
    · refine .of_jump h fun f h => ?_
      obtain ⟨rfl, rfl⟩ := update_val h
      exact ⟨.of_kernel rfl rfl rfl rfl (.refl _), hshape.goes trivial rfl⟩
    · cases h
      exact .stay (hshape.lands trivial rfl rfl)
  -- sleep
  | sleep chan lk =>
    have hspot : (Frame.sleepIn chan lk).spot rest = (Frame.sleep chan lk).spot rest := by
      cases lk <;> rfl
    exact .of_acquire h hself (hshape.lands hshape.okay hspot rfl)
  | sleepIn chan lk =>
    have hfits : lk.Fits p chan := hshape.okay
    cases lk with
    | wait =>
      refine .of_jump h fun f h => ?_
      obtain ⟨-, rfl, rfl⟩ := release_ok h
      exact ⟨.doze p rfl rfl ⟨rfl, rfl, update_self Lock.wait _ m.lock⟩ rfl,
        hshape.goes hfits rfl⟩
    | other =>
      cases h
      exact .stay (hshape.lands hfits rfl rfl)
  | sleepSet chan lk => exact sleepSet_does hshape (hrun fun a ha => by cases ha) h
  | sleepSched lk =>
    obtain ⟨-, -, -, rfl, rfl⟩ := sched_ok h
    exact .swtch .sleeping rfl rfl rfl rfl rfl (hshape.goes trivial rfl) (.inl rfl)
  | sleepTidy lk =>
    refine .of_jump h fun f h => ?_
    obtain ⟨rfl, rfl⟩ := update_val h
    exact ⟨.of_calm (.refl _) (.refl _) (fun hw => by cases hw.2) (.refl _),
      hshape.goes trivial rfl⟩
  | sleepOut lk => exact .of_release h (hshape.lands trivial rfl rfl)
  | sleepBack lk => exact sleepBack_does hshape h
  -- fork
  | alloc a => exact alloc_does hshape h
  | forkCopy np =>
    obtain rfl := hshape.bottom fun _ _ => rfl
    simp only [Frame.step] at h
    split at h
    · refine .of_jump h fun f h => ?_
      obtain ⟨k', hk, rfl, rfl⟩ := update_ok h
      exact ⟨.abort np (.inr ⟨List.mem_singleton_self np, List.not_mem_nil⟩)
        (.of_modify ((freeproc_requeued np).of_ok hk) (fun hw => by cases hw.1)), hshape.goes trivial rfl⟩
    · refine .of_jump h fun f h => ?_
      obtain ⟨rfl, rfl⟩ := update_val h
      exact ⟨.of_modify (.refl _) rfl rfl (.refl _), hshape.goes trivial rfl⟩
  | forkUndo np => exact .of_release h (hshape.lands trivial rfl rfl)
  | forkOut np pid => exact .of_release h (hshape.lands trivial rfl rfl)
  | forkWait np pid =>
    exact .of_take h hself (.fork np) rfl (hshape.goes trivial rfl)
  | forkParent np pid =>
    obtain rfl := hshape.bottom fun _ _ => rfl
    refine .of_jump h fun f h => ?_
    obtain ⟨rfl, rfl⟩ := update_val h
    have hlive : (m.k.proc p).state.live = true := by
      rw [hrun fun a ha => by cases ha]
      rfl
    exact ⟨.link p np rfl rfl hlive (List.mem_singleton_self np) List.not_mem_nil
      (.of_modify (.refl _) id) rfl,
      hshape.goes trivial rfl⟩
  | forkWaitOut np pid => exact .of_drop h rfl rfl (hshape.goes trivial rfl)
  | forkLock np pid => exact .of_acquire h hself (hshape.lands trivial rfl rfl)
  | forkIn np pid =>
    obtain rfl := hshape.bottom fun _ _ => rfl
    refine .of_jump h fun f h => ?_
    obtain ⟨k', hk, rfl, rfl⟩ := update_ok h
    exact ⟨.publish np [] (List.mem_singleton_self np) rfl List.not_mem_nil
      (.of_modify ((enqueue_requeued np 0).of_ok hk) (fun hw => by cases hw.1)) rfl,
      hshape.goes trivial rfl⟩
  | forkDone np pid => exact .of_release h (hshape.lands trivial rfl rfl)
  -- exit
  | exit status =>
    simp only [Frame.step] at h
    split at h
    · cases h
    · next hnot =>
      cases h
      exact .stay (hshape.lands hnot rfl rfl)
  | exitFiles status =>
    cases h
    exact .stay (hshape.lands hshape.okay rfl rfl)
  | exitWait status =>
    refine .of_take h hself (.exit hshape.okay) ?_ (hshape.goes hshape.okay rfl)
    rw [← passed_zero]
    rfl
  | reparent status i => exact reparent_does hshape h
  | exitWake status => exact exitWake_does hshape h
  | exitLock status => exact .of_acquire h hself (hshape.lands hshape.okay rfl rfl)
  | exitIn status => exact exitIn_does hshape (hrun fun a ha => by cases ha) h
  | exitWaitOut => exact .of_drop h rfl rfl (hshape.goes trivial rfl)
  | exitSched =>
    obtain rfl := hshape.bottom fun _ _ => rfl
    obtain ⟨-, -, -, rfl, rfl⟩ := sched_ok h
    exact .swtch .zombie rfl rfl rfl rfl rfl (hshape.goes trivial rfl)
      (.inr ⟨rfl, .inr rfl⟩)
  | zombie => cases h
  -- wait, waitx
  | wait x =>
    refine .of_take h hself .wait ?_ (hshape.goes trivial rfl)
    rw [← passed_zero]
    rfl
  | waitScan x i havekids => exact waitScan_does hshape h
  | waitLock x pp =>
    refine .of_jump h fun f h => ?_
    rcases acquire_ok h with ⟨rfl, rfl⟩ | ⟨-, rfl, rfl⟩
    · exact ⟨.idle (.refl _), hshape⟩
    · exact ⟨.think p (.looking (passed pp.val) pp) rfl (.relock _ _) rfl (fun _ => .rfl) (.look _ _)
        rfl, hshape.goes trivial rfl⟩
  | waitIn x pp => exact waitChild_does hshape h
  | waitOut x pp => exact .of_release h (hshape.lands trivial rfl rfl)
  | waitFound pp r => exact .of_release h (hshape.lands trivial rfl rfl)
  | waitNone x havekids => exact waitNone_does hshape h
  | waitEnd r => exact .of_drop h rfl rfl (hshape.goes trivial rfl)
  -- kill
  | kill pid i =>
    refine .of_jump h fun f h => ?_
    rcases visit_ok h with ⟨rfl, -, rfl⟩ | ⟨hi, -, rfl, rfl⟩ | ⟨rfl, -, rfl⟩
    · exact ⟨.idle (.refl _), hshape⟩
    · exact ⟨.relock _ _ (.refl _), hshape.goes trivial rfl⟩
    · exact ⟨.idle (.refl _), hshape.goes trivial rfl⟩
  | killIn pid q => exact killSlot_does hshape h
  | killSkip pid q => exact .of_release h (hshape.lands trivial rfl rfl)
  | killOut q => exact .of_release h (hshape.lands trivial rfl rfl)

end Process

end Xv6.Smp
