import Xv6.Smp.Steps
import Xv6.Smp.Protocol

/-!
# The code follows the protocol

Every place of the code is a turn of the protocol of `Xv6.Smp.Protocol`, and every step of the
code is a step of the protocol or leaves alone what the protocol is about. `view` is the
correspondence. For each piece of code one theorem says which action of the protocol each of its
steps is: `task_act`, `alloc_act`, `sched_act` and `frame_act`.
-/

namespace Xv6.Smp

open Base Function

variable {n : Nat}

/-! ## The turn at every place -/

def Task.turn : Task → Turn Slot
  | .updateTimeIn p | .updateTimeOut p | .wakeupIn _ _ p | .wakeupOut _ _ p => .holds p
  | _ => .out

def AllocPc.turn : AllocPc → Turn Slot
  | .next _ => .out
  | .test p | .skip p | .undo p => .holds p
  | .pid p | .used p => .found p
  | .pages p | .init p => .making p

def SchedPc.turn : SchedPc → Turn Slot
  | .userinit a => a.turn
  | .userinitIn p | .userinitOut p | .totalIn p _ | .totalOut p _ | .requeueIn p | .requeueOut p
  | .test p | .drop p => .holds p
  | .chosen p => .chosen p
  | .loaded p => .loaded p
  | .parked p => .parked p
  | _ => .out

/-- The slot `main` has made and not yet published. -/
def SchedPc.claims : SchedPc → List Slot
  | .userinitIn p => [p]
  | _ => []

def Dispatcher.turn : Dispatcher → Turn Slot
  | .code pc => pc.turn
  | .handler t _ => t.turn

def Dispatcher.claims : Dispatcher → List Slot
  | .code pc => pc.claims
  | .handler _ pc => pc.1.claims

/-- The turn of a function on the stack of process `p`. -/
def Frame.turn (p : Slot) : Frame → Turn Slot
  | .task t => t.turn
  | .alloc a => a.turn
  | .killedIn _ | .killedOut .. | .setkilledIn | .setkilledOut | .yieldIn | .yieldOut | .forkret
  | .sleepIn .. | .sleepSet .. | .sleepTidy _ | .sleepOut _ | .exitIn _ => .holds p
  | .yieldSched => .left p .runnable
  | .sleepSched _ => .left p .sleeping
  | .exitWaitOut | .exitSched => .left p .zombie
  | .forkCopy q | .forkUndo q | .forkOut q _ | .forkIn q _ | .forkDone q _ | .waitIn _ q
  | .waitOut _ q | .waitFound q _ | .killIn _ q | .killSkip _ q | .killOut q => .holds q
  | _ => .out

/-- The child a function of `fork` has made and not yet published. -/
def Frame.claims : Frame → List Slot
  | .forkCopy np | .forkOut np _ | .forkWait np _ | .forkParent np _ | .forkWaitOut np _
  | .forkLock np _ | .forkIn np _ => [np]
  | _ => []

def Stack.claims (st : Stack) : List Slot := st.top.claims ++ st.rest.flatMap fun f => f.1.claims

/-- A function that waits for its callee holds no process's lock. -/
theorem Frame.turn_of_still {f : Frame} (h : f.still = true) (p : Slot) : f.turn p = .out := by
  cases f with
  | task t => cases t <;> first | rfl | cases h
  | alloc a => cases a <;> first | rfl | cases h
  | _ => first | rfl | cases h

theorem SchedPc.turn_of_still {pc : SchedPc} (h : pc.still = true) :
    pc.turn = .out ∧ pc.claims = [] := by
  cases pc <;> first | exact ⟨rfl, rfl⟩ | cases h

/-- Where a thread stands: its turn and its claims. -/
abbrev Place := Turn Slot × List Slot

def Dispatcher.place (d : Dispatcher) : Place := (d.turn, d.claims)

def Stack.place (p : Slot) (st : Stack) : Place := (st.top.turn p, st.claims)

/-- Where each thread stands. -/
def placeOf (sched : Fin n → Dispatcher) (thread : Slot → Stack) : Thread (Fin n) Slot → Place
  | .sched c => (sched c).place
  | .proc p => (thread p).place p

namespace Memory

def states (m : Memory n) (q : Slot) : Procstate := (m.k.proc q).state

def locks (m : Memory n) (q : Slot) : Option (Fin n) := m.lock (.proc q)

/-- What the protocol sees of the memory, when the threads stand at given places. -/
def seen (m : Memory n) (cur : Fin n → Option Slot) (place : Thread (Fin n) Slot → Place) :
    Slots (Fin n) Slot where
  state := m.states
  lock := m.locks
  proc := m.k.myproc
  cur := cur
  turn := fun t => (place t).1
  claims := fun t => (place t).2

end Memory

/-- What the protocol sees of a state. -/
def view (s : State n) : Slots (Fin n) Slot := s.seen s.cur (placeOf s.sched s.thread)

/-! ## Actions -/

/-- An action of the thread `t` on CPU `c` that does not switch: from the memory `m` and its place to
`m'` and a new place. -/
inductive Act (c : Fin n) (t : Thread (Fin n) Slot) (m : Memory n) :
    Place → Memory n → Place → Prop
  | quiet {at₀ : Place} {m' : Memory n} (hst : m'.states = m.states) (hl : m'.locks = m.locks)
      (hth : m'.thread = m.thread) (hcpu : m'.k.cpus = m.k.cpus) : Act c t m at₀ m' at₀
  | acquire {r : List Slot} {m' : Memory n} (q : Slot) (hfree : m.locks q = none)
      (hst : m'.states = m.states) (hl : m'.locks = update m.locks q (some c))
      (hth : m'.thread = m.thread) (hcpu : m'.k.cpus = m.k.cpus) :
      Act c t m (.out, r) m' (.holds q, r)
  | release {r : List Slot} {m' : Memory n} (q : Slot) (hst : m'.states = m.states)
      (hl : m'.locks = update m.locks q none) (hth : m'.thread = m.thread)
      (hcpu : m'.k.cpus = m.k.cpus) : Act c t m (.holds q, r) m' (.out, r)
  | write {τ τ' : Turn Slot} {r r' : List Slot} {st : Procstate} {m' : Memory n} (q : Slot)
      (hw : Write q t τ (m.states q) r τ' st r') (hst : m'.states = update m.states q st)
      (hl : m'.locks = m.locks) (hth : m'.thread = m.thread) (hcpu : m'.k.cpus = m.k.cpus) :
      Act c t m (τ, r) m' (τ', r')
  | make {r : List Slot} {m' : Memory n} (q : Slot) (hst : m'.states = m.states)
      (hl : m'.locks = m.locks) (hth : m'.thread = update m.thread q .fresh)
      (hcpu : m'.k.cpus = m.k.cpus) : Act c t m (.making q, r) m' (.holds q, q :: r)

section Blocks

variable {α : Type} {m m' : Memory n} {c : Fin n} {t : Thread (Fin n) Slot} {τ τ' : Turn Slot}
  {r r' : List Slot} {at₀ : Place} {a : α} (place : α → Place) {q : Slot} {k' : Kernel n}

theorem locks_update (lk : Lock) (x : Option (Fin n)) (q : Slot) :
    ({ m with lock := update m.lock lk x } : Memory n).locks q =
      if lk = .proc q then x else m.locks q := by
  simp only [Memory.locks, update_apply, eq_comm]

theorem locks_proc (q : Slot) (x : Option (Fin n)) :
    ({ m with lock := update m.lock (.proc q) x } : Memory n).locks = update m.locks q x := by
  funext y
  rw [locks_update, update_apply]
  exact if_congr ⟨fun h => (Lock.proc.inj h).symm, fun h => by rw [h]⟩ rfl rfl

theorem locks_wait (x : Option (Fin n)) :
    ({ m with lock := update m.lock .wait x } : Memory n).locks = m.locks := by
  funext y
  rw [locks_update, if_neg (by simp)]

theorem Act.idle : Act c t m at₀ m at₀ := .quiet rfl rfl rfl rfl

theorem Act.of_acquire {spin taken : α} (h : m.acquire c (.proc q) spin taken = .ok (m', a))
    (hspin : place spin = (.out, r)) (htaken : place taken = (.holds q, r)) :
    Act c t m (.out, r) m' (place a) := by
  rcases acquire_ok h with ⟨rfl, rfl⟩ | ⟨hfree, rfl, rfl⟩
  · rw [hspin]
    exact .idle
  · rw [htaken]
    exact .acquire q hfree rfl (locks_proc q _) rfl rfl

theorem Act.of_acquire_wait {spin taken : α} (h : m.acquire c .wait spin taken = .ok (m', a))
    (hspin : place spin = at₀) (htaken : place taken = at₀) : Act c t m at₀ m' (place a) := by
  rcases acquire_ok h with ⟨rfl, rfl⟩ | ⟨-, rfl, rfl⟩
  · rw [hspin]
    exact .idle
  · rw [htaken]
    exact .quiet rfl (locks_wait _) rfl rfl

theorem Act.of_release_wait {next : α} (h : m.release c .wait next = .ok (m', a))
    (hnext : place next = at₀) : Act c t m at₀ m' (place a) := by
  obtain ⟨-, rfl, rfl⟩ := release_ok h
  rw [hnext]
  exact .quiet rfl (locks_wait _) rfl rfl

theorem Act.of_release {next : α} (h : m.release c (.proc q) next = .ok (m', a))
    (hnext : place next = (.out, r)) : Act c t m (.holds q, r) m' (place a) := by
  obtain ⟨-, rfl, rfl⟩ := release_ok h
  rw [hnext]
  exact .release q rfl (locks_proc q _) rfl rfl

theorem Act.of_visit {i : Nat} {spin : α} {taken : Slot → α} {done : α}
    (h : m.visit c i spin taken done = .ok (m', a)) (hspin : place spin = (.out, r))
    (htaken : ∀ q, place (taken q) = (.holds q, r)) (hdone : place done = (.out, r)) :
    Act c t m (.out, r) m' (place a) := by
  rcases visit_ok h with ⟨rfl, -, rfl⟩ | ⟨hi, hfree, rfl, rfl⟩ | ⟨rfl, -, rfl⟩
  · rw [hspin]
    exact .idle
  · rw [htaken]
    exact .acquire _ hfree rfl (locks_proc _ _) rfl rfl
  · rw [hdone]
    exact .idle

theorem Act.of_kernel (hst : ∀ q, (k'.proc q).state = (m.k.proc q).state)
    (hcpu : k'.cpus = m.k.cpus) : Act c t m at₀ { m with k := k' } at₀ :=
  .quiet (funext hst) rfl rfl hcpu

theorem Act.of_requeued (h : Requeued m.k k') :
    Act c t m at₀ { m with k := k' } at₀ :=
  .of_kernel h.state h.cpus

/-- A write to the record of a locked slot. -/
theorem Act.of_write {f : Proc → Proc} (h : Requeued (m.k.modify q f) k')
    (hw : Write q t τ (m.k.proc q).state r τ' (f (m.k.proc q)).state r') :
    Act c t m (τ, r) { m with k := k' } (τ', r') := by
  refine .write q hw (funext fun x => ?_) rfl rfl h.cpus
  rw [update_apply]
  refine (h.state x).trans ?_
  rw [Kernel.modify_proc]
  split
  · rfl
  · rfl

theorem Act.of_modify {f : Proc → Proc} (h : Requeued (m.k.modify q f) k')
    (hf : (f (m.k.proc q)).state = (m.k.proc q).state) :
    Act c t m at₀ { m with k := k' } at₀ := by
  refine .of_kernel (fun x => (h.state x).trans ?_) h.cpus
  rw [Kernel.modify_proc]
  split
  · next he => rw [he, hf]
  · rfl

end Blocks

/-! ## Tasks and allocation -/

section Shared

variable {m m' : Memory n} {c : Fin n} {th : Thread (Fin n) Slot} {r : List Slot}

/-- The place of a task that may have returned. -/
def Task.place (r : List Slot) : Option Task → Place
  | none => (.out, r)
  | some t => (t.turn, r)

/-- A step of a handler is an act. -/
theorem task_act {t : Task} {t' : Option Task} (h : t.step m c = .ok (m', t')) :
    Act c th m (t.turn, r) m' (Task.place r t') := by
  cases t with
  | clockintr =>
    obtain ⟨rfl, rfl⟩ := update_val h
    exact .quiet rfl rfl rfl rfl
  | updateTime i =>
    simp only [Task.step] at h
    exact .of_visit _ h rfl (fun _ => rfl) rfl
  | updateTimeIn p =>
    obtain ⟨rfl, rfl⟩ := update_val h
    refine .of_kernel (fun q => ?_) ?_
    · rw [Kernel.updateTimeOne]
      split
      · rw [Kernel.note_proc, Kernel.modify_proc]
        split
        · next he => rw [he]
        · rfl
      · rfl
    · rw [Kernel.updateTimeOne]
      split <;> rfl
  | updateTimeOut p | wakeupOut => exact .of_release (Task.place r) h rfl
  | wakeup chan more i =>
    simp only [Task.step] at h
    split at h
    · cases h
      exact .idle
    · refine .of_visit _ h rfl (fun _ => rfl) ?_
      cases more <;> rfl
  | wakeupIn chan more p =>
    obtain ⟨k', hk, rfl, rfl⟩ := update_ok h
    rcases (wakeupOne_requeued _ chan p).of_ok hk with ⟨-, hsleep, -, hq⟩ | ⟨-, rfl⟩
    · refine .of_write hq ?_
      rw [hsleep]
      exact .wake th r
    · exact .idle

/-- The place of an allocation that may have returned. -/
def AllocNext.place (r : List Slot) : AllocNext → Place
  | .more a => (a.turn, r)
  | .failed => (.out, r)
  | .made p => (.holds p, p :: r)

/-- A step of `allocproc` is an act. -/
theorem alloc_act {a : AllocPc} {o : Alloc} {a' : AllocNext} (h : a.step m c o = .ok (m', a')) :
    Act c th m (a.turn, r) m' (a'.place r) := by
  cases a with
  | next i =>
    simp only [AllocPc.step] at h
    exact .of_visit _ h rfl (fun _ => rfl) rfl
  | test p =>
    rw [AllocPc.step] at h
    split at h
    · next hunused =>
      cases h
      have hsame : m.states = update m.states p .unused :=
        (update_eq_self_iff.mpr hunused.symm).symm
      refine .write p ?_ hsame rfl rfl rfl
      rw [show m.states p = .unused from hunused]
      exact .find th r
    · cases h
      exact .idle
  | skip p | undo p => exact .of_release (AllocNext.place r) h rfl
  | pid p =>
    obtain ⟨k', hk, rfl, rfl⟩ := update_ok h
    rw [Kernel.allocpid] at hk
    split at hk
    · cases hk
      refine .of_kernel (fun q => ?_) rfl
      rw [Kernel.modify_proc]
      split
      · next he => rw [he]
      · rfl
    · cases hk
  | used p =>
    obtain ⟨rfl, rfl⟩ := update_val h
    exact .of_write (.refl _) (.use th _ r)
  | pages p =>
    rw [AllocPc.step] at h
    split at h
    · obtain ⟨k', hk, rfl, rfl⟩ := update_ok h
      exact .of_write ((freeproc_requeued p).of_ok hk) (.abort th _ r)
    · split at h
      · obtain ⟨k', hk, rfl, rfl⟩ := update_ok h
        have hq := (freeproc_requeued p).of_ok hk
        rw [Kernel.modify_modify] at hq
        exact .of_write hq (.abort th _ r)
      · obtain ⟨rfl, rfl⟩ := update_val h
        exact .of_modify (.refl _) rfl
  | init p =>
    obtain ⟨rfl, rfl⟩ := update_val h
    refine .make p (funext fun q => ?_) rfl rfl rfl
    rw [Memory.states, Memory.states, Kernel.modify_proc]
    split
    · next he => rw [he]; rfl
    · rfl

end Shared

/-! ## The scheduler -/

section Sched

variable {m m' : Memory n} {c : Fin n} {b : Build} {o : Outcome}

def SchedPc.place (pc : SchedPc) : Place := (pc.turn, pc.claims)

/-- The places at which the scheduler writes `c->proc` or switches. -/
def SchedPc.hands : SchedPc → Bool
  | .start | .chosen _ | .loaded _ | .parked _ => true
  | _ => false

/-- A step of the scheduler is an act. -/
theorem sched_act {pc pc' : SchedPc} (hpc : pc.hands = false)
    (h : pc.step b m c o = .ok (m', pc')) :
    Act c (.sched c) m pc.place m' pc'.place := by
  cases pc with
  | start | chosen | loaded | parked => cases hpc
  | boot =>
    simp only [SchedPc.step] at h
    split at h
    · cases h
      exact .idle
    · split at h <;> cases h <;> exact .idle
  | userinit a =>
    simp only [SchedPc.step] at h
    obtain ⟨⟨m₁, a'⟩, ha, h⟩ := bind_ok h
    have hact : Act c (.sched c) m (a.turn, []) m₁ (a'.place []) := alloc_act ha
    cases a' with
    | more a' | made p =>
      cases h
      exact hact
    | failed => cases h
  | userinitIn p =>
    obtain ⟨k', hk, rfl, rfl⟩ := update_ok h
    have hq := (enqueue_requeued p 0).of_ok hk
    refine .write p (.publish _ _ _) (funext fun x => ?_) rfl rfl hq.cpus
    refine (hq.state x).trans ?_
    rw [Kernel.modify_proc, update_apply]
    split
    · rfl
    · rfl
  | userinitOut p =>
    obtain ⟨-, rfl, rfl⟩ := release_ok h
    exact .release p rfl (locks_proc p _) rfl rfl
  | loop =>
    cases h
    cases b <;> exact .idle
  | total | requeue | rr =>
    simp only [SchedPc.step] at h
    exact .of_visit _ h rfl (fun _ => rfl) rfl
  | totalIn p sum =>
    simp only [SchedPc.step] at h
    split at h <;> cases h <;> exact .idle
  | totalOut p sum | requeueOut p => exact .of_release SchedPc.place h rfl
  | draw total =>
    simp only [SchedPc.step] at h
    split at h
    · obtain ⟨rfl, rfl⟩ := update_val h
      exact .of_kernel (fun _ => rfl) rfl
    · cases h
      exact .idle
  | scan =>
    simp only [SchedPc.step] at h
    split at h
    · split at h
      · split at h <;> cases h <;> exact .idle
      · cases h
        exact .idle
    · cases h
      exact .idle
  | tie =>
    simp only [SchedPc.step] at h
    split at h
    · split at h
      · cases h
        exact .idle
      · split at h <;> cases h <;> exact .idle
    · cases h
      exact .idle
  | requeueIn p =>
    obtain ⟨k', hk, rfl, rfl⟩ := update_ok h
    exact .of_requeued ((requeueOne_requeued p).of_ok hk)
  | search q j =>
    simp only [SchedPc.step] at h
    split at h
    · split at h
      · obtain ⟨p, -, h⟩ := bind_ok h
        split at h <;> cases h <;> exact .idle
      · cases h
        exact .idle
    · cases h
      exact .idle
  | pick p => exact .of_acquire SchedPc.place h rfl rfl
  | test p =>
    simp only [SchedPc.step] at h
    split at h
    · next hrunnable =>
      obtain ⟨rfl, rfl⟩ := update_val h
      refine .of_write (.refl _) ?_
      rw [hrunnable]
      exact .choose c []
    · cases h
      exact .idle
  | drop p =>
    refine .of_release SchedPc.place h ?_
    cases b <;> rfl

end Sched

/-! ## The thread of a process -/

section Process

variable {m m' : Memory n} {c : Fin n} {b : Build} {o : Outcome} {p : Slot} {rest : List Below}
  {next : Next}

/-- The place of a function on a given stack. -/
def Frame.place (p : Slot) (rest : List Below) (f : Frame) : Place := Stack.place p ⟨f, rest⟩

/-- A step of the thread of `p`: it acts, or it switches to the scheduler. -/
inductive Goes (c : Fin n) (p : Slot) (m : Memory n) : Place → Memory n → Next → Prop
  | go {at₀ : Place} {m' : Memory n} {st : Stack} (h : Act c (.proc p) m at₀ m' (st.place p)) :
      Goes c p m at₀ m' (.go st)
  | swtch {r : List Slot} {st : Stack} (a : Procstate)
      (h : st.top.turn p = .holds p ∨ a = .zombie) (hr : st.claims = r) :
      Goes c p m (.left p a, r) m (.swtch st)

namespace Goes

variable {at₀ : Place} {next : Next}

theorem of_jump {r : Except Fault (Memory n × Frame)} (h : jump rest r = .ok (m', next))
    (hact : ∀ f, r = .ok (m', f) → Act c (.proc p) m at₀ m' (Frame.place p rest f)) :
    Goes c p m at₀ m' next := by
  obtain ⟨f, hr, rfl⟩ := jump_ok h
  exact .go (hact f hr)

/-- A return, after which the caller holds no process's lock. -/
theorem of_ret (h : ret rest = .ok next) :
    ∃ st, next = .go st ∧ st.place p = (.out, rest.flatMap fun f => f.1.claims) := by
  obtain ⟨f, rest', rfl, rfl⟩ := ret_ok h
  refine ⟨_, rfl, ?_⟩
  rw [Stack.place, Frame.turn_of_still f.2]
  rfl

theorem of_sched {st : Stack} {r : List Slot} {a : Procstate}
    (h : sched m c p st = .ok (m', next)) (hst : st.top.turn p = .holds p ∨ a = .zombie)
    (hr : st.claims = r) : Goes c p m (.left p a, r) m' next := by
  obtain ⟨-, -, -, rfl, rfl⟩ := sched_ok h
  exact .swtch a hst hr

end Goes

theorem waitChild_act {x : Bool} {pp : Slot} {fails : Bool} {f : Frame}
    (h : waitChild m x p pp fails = .ok (m', f)) :
    Act c (.proc p) m (Frame.place p rest (.waitIn x pp)) m' (Frame.place p rest f) := by
  simp only [waitChild] at h
  split at h
  · next hzombie =>
    -- the counters are added before the copy, and whether it succeeds or not
    have hk : ∀ q, ((takeCounts m.k x p pp).proc q).state = (m.k.proc q).state :=
      takeCounts_field Proc.state (fun _ _ => rfl) x p pp
    have hcpu := takeCounts_cpus (k := m.k) x p pp
    split at h
    · obtain ⟨rfl, rfl⟩ := update_val h
      exact .of_kernel hk hcpu
    · obtain ⟨k', hf, rfl, rfl⟩ := update_ok h
      have hq := (freeproc_requeued pp).of_ok hf
      have hstates : Memory.states { m with k := k' } = update m.states pp .unused := by
        funext q
        refine (hq.state q).trans ?_
        rw [Kernel.modify_proc, update_apply]
        split
        · rfl
        · exact hk q
      refine .write pp ?_ hstates rfl rfl (hq.cpus.trans hcpu)
      rw [show m.states pp = .zombie from hzombie]
      exact .reap _ _
  · cases h
    exact .idle

theorem killSlot_act {pid : Int} {q : Slot} {f : Frame}
    (h : killSlot m pid q = .ok (m', f)) :
    Act c (.proc p) m (Frame.place p rest (.killIn pid q)) m' (Frame.place p rest f) := by
  simp only [killSlot] at h
  split at h
  · split at h
    · next hsleep =>
      obtain ⟨k', hk, rfl, rfl⟩ := update_ok h
      have hq := (enqueue_requeued q _).of_ok hk
      rw [Kernel.modify_modify] at hq
      refine .of_write hq ?_
      rw [Kernel.modify_proc, if_pos rfl] at hsleep
      rw [show (m.k.proc q).state = .sleeping from hsleep]
      exact .wake _ _
    · obtain ⟨rfl, rfl⟩ := update_val h
      exact .of_modify (.refl _) rfl
  · cases h
    exact .idle

theorem timer_goes (h : Frame.timer.step b m c p o rest = .ok (m', next)) :
    Goes c p m (Frame.place p rest .timer) m' next := by
  cases b with
  | mlfq =>
    refine .of_jump h fun f h => ?_
    obtain ⟨rfl, rfl⟩ := update_val h
    split <;> exact .of_modify (.refl _) rfl
  | rr | lbs =>
    cases h
    exact .go .idle

theorem boost_goes {q j : Nat} (h : (Frame.boost q j).step b m c p o rest = .ok (m', next)) :
    Goes c p m (Frame.place p rest (.boost q j)) m' next := by
  simp only [Frame.step] at h
  split at h
  · split at h
    · obtain ⟨temp, -, h⟩ := bind_ok h
      refine .of_jump h fun f h => ?_
      obtain ⟨k', hk, rfl, rfl⟩ := update_ok h
      exact .of_requeued ((dequeue_requeued temp _).of_ok hk)
    · cases h
      exact .go .idle
  · cases h
    exact .go .idle

theorem slice_goes (h : Frame.slice.step b m c p o rest = .ok (m', next)) :
    Goes c p m (Frame.place p rest .slice) m' next := by
  simp only [Frame.step] at h
  obtain ⟨q, -, h⟩ := bind_ok h
  split at h
  · refine .of_jump h fun f h => ?_
    obtain ⟨k', hk, rfl, rfl⟩ := update_ok h
    exact .of_requeued ((dequeue_requeued p _).of_ok hk)
  · cases h
    exact .go .idle

theorem demote_goes (h : Frame.demote.step b m c p o rest = .ok (m', next)) :
    Goes c p m (Frame.place p rest .demote) m' next := by
  simp only [Frame.step] at h
  obtain ⟨k', hk, h⟩ := bind_ok h
  cases h
  exact .go (.of_requeued ((enqueue_requeued p _).of_ok hk))

theorem preempt_goes {i : Nat} (h : (Frame.preempt i).step b m c p o rest = .ok (m', next)) :
    Goes c p m (Frame.place p rest (.preempt i)) m' next := by
  simp only [Frame.step] at h
  split at h
  · obtain ⟨q, -, h⟩ := bind_ok h
    split at h <;> cases h <;> exact .go .idle
  · cases h
    exact .go .idle

theorem alloc_goes {a : AllocPc} (h : (Frame.alloc a).step b m c p o rest = .ok (m', next)) :
    Goes c p m (Frame.place p rest (.alloc a)) m' next := by
  simp only [Frame.step] at h
  obtain ⟨⟨m₁, a'⟩, ha, h⟩ := bind_ok h
  have hact : Act c (.proc p) m (a.turn, rest.flatMap fun f => f.1.claims) m₁ (a'.place _) :=
    alloc_act ha
  cases a' <;> cases h <;> exact .go hact

/-- A step of a frame is an act, or a switch. -/
theorem frame_act {f : Frame} (h : f.step b m c p o rest = .ok (m', next)) :
    Goes c p m (f.place p rest) m' next := by
  cases f with
  | user | kernel v =>
    cases h
    exact .go .idle
  | task t =>
    simp only [Frame.step] at h
    obtain ⟨⟨m₁, t'⟩, ht, h⟩ := bind_ok h
    have hact : Act c (.proc p) m (t.turn, rest.flatMap fun f => f.1.claims) m₁
        (Task.place _ t') := task_act ht
    cases t' with
    | some t' =>
      cases h
      exact .go hact
    | none =>
      obtain ⟨next', hret, h⟩ := bind_ok h
      cases h
      obtain ⟨st, rfl, hst⟩ := Goes.of_ret (p := p) hret
      refine .go ?_
      rw [hst]
      exact hact
  | kerneltrap tick =>
    simp only [Frame.step] at h
    split at h
    · cases h
      exact .go .idle
    · obtain ⟨next', hret, h⟩ := bind_ok h
      cases h
      obtain ⟨st, rfl, hst⟩ := Goes.of_ret (p := p) hret
      refine .go ?_
      rw [hst]
      exact .idle
  -- killed, setkilled
  | killed a => exact .of_jump h fun _ h => .of_acquire _ h rfl rfl
  | killedIn a =>
    cases h
    exact .go .idle
  | killedOut a answer =>
    obtain ⟨-, rfl, rfl⟩ := release_ok h
    refine .go ?_
    have hplace : (a.next rest p answer).place p = (.out, rest.flatMap fun f => f.1.claims) := by
      cases a with
      | trap tick => cases tick <;> cases answer <;> rfl
      | _ => cases answer <;> rfl
    rw [hplace]
    exact .release p rfl (locks_proc p _) rfl rfl
  | setkilled => exact .of_jump h fun _ h => .of_acquire _ h rfl rfl
  | setkilledIn =>
    refine .of_jump h fun f h => ?_
    obtain ⟨rfl, rfl⟩ := update_val h
    exact .of_modify (.refl _) rfl
  | setkilledOut => exact .of_jump h fun _ h => .of_release _ h rfl
  -- the timer branch of usertrap
  | timer => exact timer_goes h
  | boost q j => exact boost_goes h
  | boostPut q j temp =>
    refine .of_jump h fun f h => ?_
    obtain ⟨k', hk, rfl, rfl⟩ := update_ok h
    exact .of_requeued ((enqueue_requeued temp 0).of_ok hk)
  | slice => exact slice_goes h
  | demote => exact demote_goes h
  | preempt i => exact preempt_goes h
  | usertrapret =>
    cases h
    exact .go .idle
  -- yield, forkret
  | yield => exact .of_jump h fun _ h => .of_acquire _ h rfl rfl
  | yieldIn =>
    refine .of_jump h fun f h => ?_
    obtain ⟨rfl, rfl⟩ := update_val h
    exact .of_write (.refl _) (.quit _ _ _ rfl)
  | yieldSched => exact .of_sched h (.inl rfl) rfl
  | yieldOut =>
    simp only [Frame.step] at h
    obtain ⟨next', hret, h⟩ := bind_ok h
    obtain ⟨st, rfl, hst⟩ := Goes.of_ret (p := p) hret
    obtain ⟨-, rfl, rfl⟩ := release_ok h
    refine .go ?_
    rw [hst]
    exact .release p rfl (locks_proc p _) rfl rfl
  | forkret => exact .of_jump h fun _ h => .of_release _ h rfl
  | forkretFirst =>
    simp only [Frame.step] at h
    split at h
    · refine .of_jump h fun f h => ?_
      obtain ⟨rfl, rfl⟩ := update_val h
      exact .of_kernel (fun _ => rfl) rfl
    · cases h
      exact .go .idle
  -- sleep
  | sleep chan lk => exact .of_jump h fun _ h => .of_acquire _ h rfl rfl
  | sleepIn chan lk =>
    cases lk with
    | wait => exact .of_jump h fun _ h => .of_release_wait _ h rfl
    | other =>
      cases h
      exact .go .idle
  | sleepSet chan lk =>
    refine .of_jump h fun f h => ?_
    obtain ⟨k', hk, rfl, rfl⟩ := update_ok h
    exact .of_write ((dequeue_requeued p _).of_ok hk) (.quit _ _ _ rfl)
  | sleepSched lk => exact .of_sched h (.inl rfl) rfl
  | sleepTidy lk =>
    refine .of_jump h fun f h => ?_
    obtain ⟨rfl, rfl⟩ := update_val h
    exact .of_modify (.refl _) rfl
  | sleepOut lk => exact .of_jump h fun _ h => .of_release _ h rfl
  | sleepBack lk =>
    cases lk with
    | wait =>
      simp only [Frame.step] at h
      obtain ⟨next', hret, h⟩ := bind_ok h
      obtain ⟨st, rfl, hst⟩ := Goes.of_ret (p := p) hret
      rcases acquire_ok h with ⟨rfl, rfl⟩ | ⟨-, rfl, rfl⟩
      · exact .go .idle
      · refine .go ?_
        rw [hst]
        exact .quiet rfl (locks_wait _) rfl rfl
    | other =>
      simp only [Frame.step] at h
      obtain ⟨next', hret, h⟩ := bind_ok h
      cases h
      obtain ⟨st, rfl, hst⟩ := Goes.of_ret (p := p) hret
      refine .go ?_
      rw [hst]
      exact .idle
  -- fork
  | alloc a => exact alloc_goes h
  | forkCopy np =>
    simp only [Frame.step] at h
    split at h
    · refine .of_jump h fun f h => ?_
      obtain ⟨k', hk, rfl, rfl⟩ := update_ok h
      exact .of_write ((freeproc_requeued np).of_ok hk) (.unuse _ _ _)
    · refine .of_jump h fun f h => ?_
      obtain ⟨rfl, rfl⟩ := update_val h
      exact .of_modify (.refl _) rfl
  | forkUndo np => exact .of_jump h fun _ h => .of_release _ h rfl
  | forkOut np pid => exact .of_jump h fun _ h => .of_release _ h rfl
  | forkWait np pid => exact .of_jump h fun _ h => .of_acquire_wait _ h rfl rfl
  | forkParent np pid =>
    refine .of_jump h fun f h => ?_
    obtain ⟨rfl, rfl⟩ := update_val h
    exact .of_modify (.refl _) rfl
  | forkWaitOut np pid => exact .of_jump h fun _ h => .of_release_wait _ h rfl
  | forkLock np pid => exact .of_jump h fun _ h => .of_acquire _ h rfl rfl
  | forkIn np pid =>
    refine .of_jump h fun f h => ?_
    obtain ⟨k', hk, rfl, rfl⟩ := update_ok h
    exact .of_write ((enqueue_requeued np 0).of_ok hk) (.publish _ _ _)
  | forkDone np pid => exact .of_jump h fun _ h => .of_release _ h rfl
  -- exit
  | exit status =>
    simp only [Frame.step] at h
    split at h
    · cases h
    · cases h
      exact .go .idle
  | exitFiles status =>
    cases h
    exact .go .idle
  | exitWait status => exact .of_jump h fun _ h => .of_acquire_wait _ h rfl rfl
  | reparent status i =>
    simp only [Frame.step] at h
    split at h
    · split at h
      · cases h
        exact .go (.of_modify (.refl _) rfl)
      · cases h
        exact .go .idle
    · cases h
      exact .go .idle
  | exitWake status =>
    cases h
    exact .go .idle
  | exitLock status => exact .of_jump h fun _ h => .of_acquire _ h rfl rfl
  | exitIn status =>
    refine .of_jump h fun f h => ?_
    obtain ⟨k', hk, rfl, rfl⟩ := update_ok h
    exact .of_write ((dequeue_requeued p _).of_ok hk) (.quit _ _ _ rfl)
  | exitWaitOut => exact .of_jump h fun _ h => .of_release_wait _ h rfl
  | exitSched => exact .of_sched h (.inr rfl) rfl
  | zombie => cases h
  -- wait, waitx
  | wait x => exact .of_jump h fun _ h => .of_acquire_wait _ h rfl rfl
  | waitScan x i havekids =>
    simp only [Frame.step] at h
    split at h
    · split at h <;> cases h <;> exact .go .idle
    · cases h
      exact .go .idle
  | waitLock x pp => exact .of_jump h fun _ h => .of_acquire _ h rfl rfl
  | waitIn x pp => exact .of_jump h fun _ h => waitChild_act h
  | waitOut x pp => exact .of_jump h fun _ h => .of_release _ h rfl
  | waitFound pp r => exact .of_jump h fun _ h => .of_release _ h rfl
  | waitNone x havekids =>
    simp only [Frame.step] at h
    repeat' split at h
    all_goals
      cases h
      exact .go .idle
  | waitEnd r => exact .of_jump h fun _ h => .of_release_wait _ h rfl
  -- kill
  | kill pid i => exact .of_jump h fun _ h => .of_visit _ h rfl (fun _ => rfl) rfl
  | killIn pid q => exact .of_jump h fun _ h => killSlot_act h
  | killSkip pid q => exact .of_jump h fun _ h => .of_release _ h rfl
  | killOut q => exact .of_jump h fun _ h => .of_release _ h rfl

end Process

end Xv6.Smp
