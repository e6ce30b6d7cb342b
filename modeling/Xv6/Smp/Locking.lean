import Xv6.Smp.Kinship

/-!
# The locking code does not panic

`acquire` panics on a lock its CPU has, `release` on one it has not, and `sched` when its caller holds
another lock, not its own, or still counts as running. The two protocols say which locks are held at
every place of the code, so none of this happens.
-/

namespace Xv6.Smp

open Base

variable {n : Nat} {α β : Type} {b : Build} {m : Memory n} {c : Fin n} {p : Slot} {o : Outcome}

/-- The panics of the locking code: all but the two of `exit`. -/
def lockPanic : Fault → Prop
  | .panic msg => msg ≠ "init exiting" ∧ msg ≠ "zombie exit"
  | _ => False

/-- The code does not end in one of them. -/
abbrev Quiet (r : Except Fault α) : Prop := Post lockPanic r fun _ => True

@[simp] theorem quiet_bind {r : Except Fault α} {f : α → Except Fault β} (h : Quiet r)
    (hf : ∀ a, Quiet (f a)) : Quiet (r >>= f) :=
  Post.bind h fun a _ => hf a

@[simp] theorem quiet_map {r : Except Fault α} {f : α → β} : Quiet (f <$> r) ↔ Quiet r := by
  cases r <;> exact Iff.rfl

@[simp] theorem quiet_ite {P : Prop} [Decidable P] {x y : Except Fault α} :
    Quiet (if P then x else y) ↔ (P → Quiet x) ∧ (¬P → Quiet y) := by
  split <;> simp_all

@[simp] theorem quiet_level (q : Nat) : Quiet (level q) := by
  unfold level
  split <;> simp [lockPanic]

@[simp] theorem quiet_deref (a : ArrayQueue α) (i : Nat) : Quiet (a.deref i) := by
  unfold ArrayQueue.deref
  split <;> simp [lockPanic]

@[simp] theorem quiet_findFrom (a : ArrayQueue α) (f : α → Bool) (k i : Nat) :
    Quiet (a.findFrom f k i) := by
  induction k generalizing i with
  | zero => trivial
  | succ k ih => simp [ArrayQueue.findFrom, ih]

@[simp] theorem quiet_shiftFrom (cells : List (Option α)) (k j : Nat) :
    Quiet (ArrayQueue.shiftFrom cells k j) := by
  induction k generalizing cells j with
  | zero => trivial
  | succ k ih =>
    unfold ArrayQueue.shiftFrom
    split <;> simp [lockPanic, ih]

@[simp] theorem quiet_enqueue (k : Kernel n) (p : Slot) (q : Nat) : Quiet (k.enqueue p q) := by
  refine quiet_bind (quiet_level q) fun q => quiet_bind (quiet_findFrom ..) fun r => ?_
  cases r <;> simp [ArrayQueue.push, lockPanic]

@[simp] theorem quiet_dequeue (k : Kernel n) (p : Slot) (q : Nat) : Quiet (k.dequeue p q) := by
  have hremove : ∀ (a : ArrayQueue Slot) f, Quiet (a.removeFirst f) := by
    refine fun a f => quiet_bind (quiet_findFrom ..) fun r => ?_
    cases r <;> simp [ArrayQueue.removeAt, lockPanic]
  simp [Kernel.dequeue, hremove]

@[simp] theorem quiet_freeproc (k : Kernel n) (p : Slot) : Quiet (k.freeproc p) := quiet_dequeue ..

@[simp] theorem quiet_requeueOne (k : Kernel n) (p : Slot) : Quiet (k.requeueOne p) := by
  simp [Kernel.requeueOne]

@[simp] theorem quiet_wakeupOne (k : Kernel n) (me : Option Slot) (chan : Chan) (p : Slot) :
    Quiet (k.wakeupOne me chan p) := by
  simp [Kernel.wakeupOne]

@[simp] theorem quiet_update {k : Except Fault (Kernel n)} {next : α} :
    Quiet (m.update k next) ↔ Quiet k :=
  quiet_map

/-- A lock that the CPU does not hold can be taken. -/
@[simp] theorem quiet_acquire {lk : Lock} (h : ¬m.lock lk = some c) (spin taken : α) :
    Quiet (m.acquire c lk spin taken) := by
  unfold Memory.acquire
  split
  · trivial
  · next d hd => simp [show d ≠ c from fun he => h (hd.trans (congrArg some he))]

/-- A lock that the CPU holds can be given back. -/
@[simp] theorem quiet_release {lk : Lock} (h : m.lock lk = some c) (next : α) :
    Quiet (m.release c lk next) := by
  simp [Memory.release, h]

@[simp] theorem quiet_visit (h : ∀ q, ¬m.lock (.proc q) = some c) (i : Nat) (spin : α)
    (taken : Slot → α) (done : α) : Quiet (m.visit c i spin taken done) := by
  unfold Memory.visit
  split
  · exact quiet_acquire (h _) ..
  · trivial

@[simp] theorem quiet_jump {r : Except Fault (Memory n × Frame)} {rest : List Below} :
    Quiet (jump rest r) ↔ Quiet r := by
  cases r <;> exact Iff.rfl

@[simp] theorem quiet_ret (rest : List Below) : Quiet (ret rest) := by
  cases rest <;> simp [ret, lockPanic]

/-- The locks of processes that `c` holds are those its turn says. -/
def Holds (m : Memory n) (c : Fin n) (τ : Turn Slot) : Prop :=
  ∀ q, m.lock (.proc q) = some c ↔ τ.slot = some q

theorem quiet_task {t : Task} (h : Holds m c t.turn) : Quiet (t.step m c) := by
  cases t <;> simp_all [Holds, Task.step, Task.turn, Turn.slot]

theorem quiet_alloc {a : AllocPc} {o : Alloc} (h : Holds m c a.turn) : Quiet (a.step m c o) := by
  cases a <;> simp_all [Holds, AllocPc.step, AllocPc.turn, Turn.slot, Kernel.allocpid, lockPanic]

theorem quiet_code {pc : SchedPc} (h : Holds m c pc.turn) : Quiet (pc.step b m c o) := by
  cases pc with
  | userinit a =>
    refine quiet_bind (quiet_alloc h) ?_
    rintro ⟨m', _ | _ | p⟩ <;> simp [lockPanic]
  | scan | tie | search =>
    simp only [SchedPc.step]
    split <;> simp
  | _ => simp_all [Holds, SchedPc.step, SchedPc.turn, Turn.slot]

/-- No frame misuses a lock. -/
theorem quiet_frame {f : Frame} {rest : List Below} (h : Holds m c (f.turn p))
    (hwait : m.lock .wait = some c ↔ (f.spot rest).phase ≠ .out)
    (hst : (f.turn p).Knows m.states) : Quiet (f.step b m c p o rest) := by
  cases f with
  | task t =>
    refine quiet_bind (quiet_task h) ?_
    rintro ⟨m', _ | t⟩ <;> simp
  | alloc a =>
    refine quiet_bind (quiet_alloc h) ?_
    rintro ⟨m', _ | _ | np⟩ <;> simp
  | timer => cases b <;> simp [Frame.step]
  | boost | reparent | waitScan =>
    simp only [Frame.step]
    split <;> simp
  | sleepIn chan lk | sleepBack lk =>
    cases lk <;> simp_all [Holds, Frame.step, Frame.turn, Turn.slot, Frame.spot, Frame.phase]
  | killed | killedOut | sleep => simp_all [Holds, Frame.step, Frame.turn, Turn.slot]
  | _ =>
    simp_all [Holds, Frame.step, Frame.turn, Turn.slot, Frame.spot, Frame.phase, lockPanic, sched,
      onlyLock, Turn.Knows, Memory.states, waitChild, killSlot]

/-- No event misuses a lock. -/
theorem quiet_exec {s : State n} (hG : Good s) (e : Event n) : Quiet (exec b e s) := by
  cases e with
  | run c o =>
    have hlock := hG.view.lock c
    have hknown := hG.view.known c
    have hwait := hG.table.lock c
    cases hc : s.cur c with
    | none =>
      rw [show (view s).cur = s.cur from rfl, onCpu_none hc] at hlock
      simp only [exec, hc, State.runSched]
      split
      · next t pc hpc =>
        rw [view_turn hpc] at hlock
        refine quiet_bind (quiet_task hlock) ?_
        rintro ⟨m, _ | t⟩ <;> trivial
      · trivial
      · next pc hne hpc =>
        rw [view_turn hpc] at hlock
        exact quiet_bind (quiet_code hlock) fun _ => trivial
    | some p =>
      rw [show (view s).cur = s.cur from rfl, onCpu_some hc] at hlock hknown
      have hphase : s.lock .wait = some c ↔ ((s.thread p).top.spot (s.thread p).rest).phase ≠ .out := by
        simpa [table, Memory.family, spotOf, Stack.spot, hc] using hwait
      simp only [exec, hc, State.runThread, Memory.onProc, myproc_of_cur hG.view hc]
      exact quiet_bind (quiet_frame hlock hphase hknown) fun _ => trivial
  | intr c i => cases hc : s.cur c <;> simp [exec, hc]
  | call c f =>
    cases f with
    | settickets => cases hc : s.k.myproc c <;> simp [exec, Memory.onProc, hc, lockPanic]
    | _ => trivial
  | _ => trivial

/-- On any number of CPUs and in every state that any interleaving reaches, no step of the process
code panics, but for the two panics of `exit`. -/
theorem locking_never_panics {s : State n} (h : (smp b n).Reachable s) (e : Event n) (msg : String)
    (hinit : msg ≠ "init exiting") (hzombie : msg ≠ "zombie exit") :
    (smp b n).exec e s ≠ .error (.panic msg) := by
  intro hexec
  exact (quiet_exec (good_of_reachable h) e).of_error hexec ⟨hinit, hzombie⟩

/-- The first process is about to switch away in `sleep`. -/
theorem locking_never_panics_sleep : ∃ s : State 1, (smp .rr 1).Reachable s ∧
    s.frame 0 = some (.sleepSched .other) ∧
      ∀ o, (smp .rr 1).exec (.run 0 o) s ≠ .error (.panic "sched locks") := by
  obtain ⟨steps, s, hrun, htest⟩ := Machine.exists_run (M := smp .rr 1)
    (List.replicate 17 (.run 0 ⟨⟨true, true⟩, true, false⟩) ++ .call 0 (.sleep .ticks) ::
      List.replicate 3 (.run 0 ⟨⟨true, true⟩, true, false⟩))
    (fun _ s => decide (s.frame 0 = some (.sleepSched .other))) (by decide +kernel)
  exact ⟨s, ⟨steps, hrun⟩, of_decide_eq_true htest,
    fun o => locking_never_panics ⟨steps, hrun⟩ (.run 0 o) _ (by decide) (by decide)⟩

end Xv6.Smp
