import Xv6.Smp.Code
import Xv6.Base.Machine

/-!
# The kernel at lock granularity as a machine

An event is the next step of the code on one CPU, an interrupt there, or what the code outside this
model does: a user program traps, or a system call calls into this code. Interrupts arrive on a CPU
that holds no lock and runs with them on, which is what `noff` and `intena` of the source achieve.
The calls of a system call may come in any order and any number, and a lock that the caller holds
meanwhile is not seen here, so this machine allows all interleavings of the source and more.
-/

namespace Xv6.Smp

open Base

variable {n : Nat}

/-- The channels of the code outside this model. -/
def outside : Chan → Bool
  | .ticks | .object _ => true
  | _ => false

/-- An interrupt. -/
inductive Intr
  | timer
  /-- a device, whose handler wakes these channels -/
  | device (chans : List Chan)

/-- `devintr() == 2`. -/
def Intr.isTimer : Intr → Bool
  | .timer => true
  | .device _ => false

/-- What `devintr` runs on CPU `c`: only CPU 0 keeps the time. -/
def Intr.task (c : Fin n) : Intr → Option Task
  | .timer => if c.val = 0 then some .clockintr else none
  | .device [] => none
  | .device (chan :: more) => some (.wakeup chan more 0)

/-- A call of a system call into this code, or its return. -/
inductive Call
  | fork
  | exit (status : Int)
  | wait
  | waitx
  | kill (pid : Int)
  | sleep (chan : Chan)
  | wakeup (chan : Chan)
  | settickets (tickets : Int)
  | ret

/-- What can happen on a machine with `n` CPUs. -/
inductive Event (n : Nat)
  /-- the next step of the code CPU `c` executes -/
  | run (c : Fin n) (o : Outcome)
  | intr (c : Fin n) (i : Intr)
  /-- the user program makes a system call -/
  | syscall (c : Fin n)
  /-- the user program does something `usertrap` does not know -/
  | exception (c : Fin n)
  | call (c : Fin n) (f : Call)

/-! ## What is possible -/

/-- The function the process on CPU `c` executes. -/
def State.frame (s : State n) (c : Fin n) : Option Frame := (s.cur c).map fun t => (s.thread t).top

/-- CPU `c` holds no lock. -/
def Memory.unlocked (m : Memory n) (c : Fin n) : Bool :=
  m.lock .wait ≠ some c && slots.all fun q => m.lock (.proc q) ≠ some c

/-- No function on the stack keeps interrupts off. -/
def Stack.unmasked (st : Stack) : Bool := !st.top.masked && st.rest.all fun f => !f.1.masked

/-- CPU `c` takes interrupts here. -/
def State.interruptible (s : State n) (c : Fin n) : Bool :=
  s.unlocked c && match s.cur c with
    | some t => (s.thread t).unmasked
    | none => match s.sched c with
      | .code pc => pc.still
      | .handler .. => false

/-- The event is possible in this state. -/
def enabled (e : Event n) (s : State n) : Bool :=
  match e with
  | .run c _ =>
    match s.frame c with
    | some .user | some (.kernel _) => false
    | _ => true
  | .intr c .timer => s.interruptible c
  | .intr c (.device chans) => s.interruptible c && chans.all outside
  | .syscall c | .exception c => s.frame c = some .user
  | .call c f =>
    match s.frame c, f with
    | some (.kernel _), .sleep chan | some (.kernel _), .wakeup chan
    | some (.exitFiles _), .sleep chan | some (.exitFiles _), .wakeup chan => outside chan
    | some (.kernel _), _ => true
    | _, _ => false

/-! ## What it does -/

/-- Run a task, if there is one, before the function `f` goes on. -/
def Stack.handle (t : Option Task) (f : Below) (rest : List Below) : Stack :=
  match t with
  | none => ⟨f.1, rest⟩
  | some t => ⟨.task t, f :: rest⟩

/-- An interrupt on a process's stack: `usertrap` in user mode, and `kerneltrap` elsewhere. -/
def Stack.interrupt (st : Stack) (c : Fin n) (i : Intr) : Stack :=
  match st.top with
  | .user => .handle (i.task c) ⟨.killed (.trap i.isTimer), rfl⟩ st.rest
  | f =>
    if h : f.still = true then
      .handle (i.task c) ⟨.kerneltrap i.isTimer, rfl⟩ (⟨f, h⟩ :: st.rest)
    else st

/-- An interrupt in the scheduler, where there is no process to give up the CPU. -/
def Dispatcher.interrupt (d : Dispatcher) (c : Fin n) (i : Intr) : Dispatcher :=
  match d with
  | .handler t pc => .handler t pc
  | .code pc =>
    if h : pc.still = true then
      match i.task c with
      | none => .code pc
      | some t => .handler t ⟨pc, h⟩
    else .code pc

/-- Call a function from the one on top. -/
def Stack.call (st : Stack) (f : Frame) : Stack :=
  if h : st.top.still = true then ⟨f, ⟨st.top, h⟩ :: st.rest⟩ else st

/-- The stack of a system call that makes a call. -/
def Call.stack (st : Stack) : Call → Stack
  | .fork => ⟨.alloc (.next 0), st.rest⟩
  | .exit status => ⟨.exit status, st.rest⟩
  | .wait => ⟨.wait false, st.rest⟩
  | .waitx => ⟨.wait true, st.rest⟩
  | .kill pid => ⟨.kill pid 0, st.rest⟩
  | .sleep chan => st.call (.sleep chan .other)
  | .wakeup chan => st.call (.task (.wakeup chan [] 0))
  | .settickets _ => st
  | .ret => ⟨.killed .sysret, st.rest⟩

namespace State

variable (s : State n)

/-- Put the thread of `t` on a new stack. -/
def setThread (t : Slot) (st : Stack) : State n :=
  { s with thread := Function.update s.thread t st }

/-- The state after a step of the thread of `t` on CPU `c`. -/
def advance (c : Fin n) (t : Slot) (m : Memory n) : Next → State n
  | .go st => { s with toMemory := m }.setThread t st
  | .swtch st => { s with toMemory := m, cur := Function.update s.cur c none }.setThread t st

/-- The state after a step of the scheduler on CPU `c`. -/
def setSched (c : Fin n) (m : Memory n) (d : Dispatcher) : State n :=
  { s with toMemory := m, sched := Function.update s.sched c d }

/-- The next step of the scheduler on CPU `c`. At `loaded` it is the context switch. -/
def runSched (b : Build) (c : Fin n) (o : Outcome) : Except Fault (State n) :=
  match s.sched c with
  | .handler t pc => do
    match ← t.step s.toMemory c with
    | (m, some t) => return s.setSched c m (.handler t pc)
    | (m, none) => return s.setSched c m (.code pc)
  | .code (.loaded p) =>
    .ok { s.setSched c s.toMemory (.code (.parked p)) with cur := Function.update s.cur c (some p) }
  | .code pc => do
    let (m, pc) ← pc.step b s.toMemory c o
    return s.setSched c m (.code pc)

/-- The next step of the thread of `t` on CPU `c`. -/
def runThread (b : Build) (c : Fin n) (t : Slot) (o : Outcome) : Except Fault (State n) :=
  s.onProc c fun p => do
    let (m, next) ← (s.thread t).top.step b s.toMemory c p o (s.thread t).rest
    return s.advance c t m next

/-- Change the stack of the process on CPU `c`, if there is one. -/
def onThread (c : Fin n) (f : Stack → Stack) : State n :=
  match s.cur c with
  | none => s
  | some t => s.setThread t (f (s.thread t))

end State

/-- The execution of an event. -/
def exec (b : Build) (e : Event n) (s : State n) : Except Fault (State n) :=
  match e with
  | .run c o =>
    match s.cur c with
    | none => s.runSched b c o
    | some t => s.runThread b c t o
  | .intr c i =>
    match s.cur c with
    | none => .ok (s.setSched c s.toMemory ((s.sched c).interrupt c i))
    | some _ => .ok (s.onThread c fun st => st.interrupt c i)
  | .syscall c => .ok (s.onThread c fun st => ⟨.killed .syscall, st.rest⟩)
  | .exception c => .ok (s.onThread c fun st => ⟨.setkilled, st.rest⟩)
  | .call c (.settickets tickets) =>
    s.onProc c fun p => .ok { s with k := s.k.sysSettickets p tickets }
  | .call c f => .ok (s.onThread c f.stack)

/-- The kernel of the given build on `n` CPUs, at lock granularity. -/
def smp (b : Build) (n : Nat) : Machine (State n) (Event n) Fault where
  init := boot n
  enabled := enabled
  exec := exec b

end Xv6.Smp
