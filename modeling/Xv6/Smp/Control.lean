import Xv6.Kernel.Trap

/-!
# The kernel at lock granularity: where the code stands

The machine of `Xv6.Kernel.System` runs each stretch of code between two context switches at once.
Here the same code runs one lock operation, or one stretch between two lock operations, at a time,
and the CPUs' steps interleave freely. The data is that of `Kernel`; what is added is who holds
which lock, and where every thread of control stands.

There are two kinds of threads. Each CPU has its scheduler, which begins as `main`. Each process has
a thread with a kernel stack: the function it executes, and under it the functions that wait for
their callee to return. A waiting function never holds the lock of a process, which the type `Below`
makes part of being one. The names follow the C functions; `In` marks the code under a lock just
taken and `Out` the release.

The C local `p = myproc()` is read from `c->proc` at each step, where the source reads it once per
function. User registers, trapframes on the trap path, alarms and the histories of `Kernel` belong
to one process alone and are left to the other machine.
-/

namespace Xv6.Smp

open Base

variable {n : Nat}

/-! ## Locks and memory -/

/-- The locks of the process code. The sections of `pid_lock` and of the code outside this model are
single steps, and a lock such a caller brings along is `other` in `sleep`. -/
inductive Lock
  /-- `p->lock` -/
  | proc (p : Slot)
  /-- `wait_lock` -/
  | wait
deriving DecidableEq, Repr

/-- The lock handed to `sleep`. -/
inductive SleepLock
  | wait
  /-- a lock of the caller's, outside this model -/
  | other
deriving DecidableEq, Repr

/-! ## Code that threads of both kinds run -/

/-- A loop over the table that interrupt handlers and other code run: `clockintr` with its
`update_time`, and `wakeup`. `more` are the further channels the same device interrupt wakes. -/
inductive Task
  | clockintr
  | updateTime (i : Nat)
  | updateTimeIn (p : Slot)
  | updateTimeOut (p : Slot)
  | wakeup (chan : Chan) (more : List Chan) (i : Nat)
  | wakeupIn (chan : Chan) (more : List Chan) (p : Slot)
  | wakeupOut (chan : Chan) (more : List Chan) (p : Slot)
deriving DecidableEq, Repr

/-- Inside `allocproc`. -/
inductive AllocPc
  | next (i : Nat)
  | test (p : Slot)
  /-- the slot was not `UNUSED` -/
  | skip (p : Slot)
  /-- `found`, before `allocpid` -/
  | pid (p : Slot)
  | used (p : Slot)
  /-- the two allocations -/
  | pages (p : Slot)
  /-- an allocation failed and `freeproc` is done -/
  | undo (p : Slot)
  /-- the assignments after the allocations -/
  | init (p : Slot)
deriving DecidableEq, Repr

/-! ## The scheduler's thread -/

/-- Inside `main` and `scheduler`. -/
inductive SchedPc
  /-- `main`, before `userinit` or before the wait for `started` -/
  | boot
  | userinit (a : AllocPc)
  | userinitIn (p : Slot)
  | userinitOut (p : Slot)
  /-- `c->proc = 0` at the start of `scheduler` -/
  | start
  /-- the top of the endless loop -/
  | loop
  /-- LBS: the sum of the tickets -/
  | total (i : Nat) (sum : Int)
  | totalIn (p : Slot) (sum : Int)
  | totalOut (p : Slot) (sum : Int)
  /-- LBS: the draw -/
  | draw (total : Int)
  /-- LBS: the search for the winner -/
  | scan (i : Nat) (value sum : Int)
  /-- LBS: the resolution of ties -/
  | tie (i : Nat) (winner : Slot)
  /-- MLFQ: the loop that puts runnable processes back on their queues -/
  | requeue (i : Nat)
  | requeueIn (p : Slot)
  | requeueOut (p : Slot)
  /-- MLFQ: the search through the queues -/
  | search (level j : Nat)
  /-- RR: the loop over the table -/
  | rr (i : Nat)
  /-- LBS and MLFQ: a process is chosen and its lock not yet taken -/
  | pick (p : Slot)
  /-- the recheck of the state under the lock -/
  | test (p : Slot)
  /-- the state is set, before `c->proc = p` -/
  | chosen (p : Slot)
  /-- before `swtch` -/
  | loaded (p : Slot)
  /-- after `swtch` has returned, before `c->proc = 0` -/
  | parked (p : Slot)
  | drop (p : Slot)
deriving DecidableEq, Repr

/-- The scheduler holds no process's lock here and has begun its loop. -/
def SchedPc.still : SchedPc → Bool
  | .loop | .total .. | .draw _ | .scan .. | .tie .. | .requeue _ | .search .. | .rr _
  | .pick _ => true
  | _ => false

/-- The scheduler's thread: in its own code, or in an interrupt handler on top of it. -/
inductive Dispatcher
  | code (pc : SchedPc)
  | handler (t : Task) (pc : { pc : SchedPc // pc.still = true })
deriving DecidableEq

/-! ## A process's thread -/

/-- What a call of `killed(p)` decides. -/
inductive AfterKilled
  /-- whether a system call begins -/
  | syscall
  /-- whether it returns to user mode -/
  | sysret
  /-- whether a trap from user mode goes on; the flag says it was the timer -/
  | trap (timer : Bool)
  /-- whether `wait` sleeps -/
  | wait
deriving DecidableEq, Repr

/-- The value a function of this code returns to its caller; `waitx` also reports two times. -/
structure Ret where
  value : Int
  times : Option (Nat × Nat) := none
deriving DecidableEq, Repr

/-- A function on a process's kernel stack, at a point of its code. The flag `x` of the `wait`
frames tells `waitx` from `wait`. -/
inductive Frame
  /-- user mode -/
  | user
  /-- a system call outside this code, with the value of its last call into it -/
  | kernel (ret : Option Ret)
  | task (t : Task)
  /-- `kerneltrap`, after `devintr` -/
  | kerneltrap (timer : Bool)
  | killed (a : AfterKilled)
  | killedIn (a : AfterKilled)
  | killedOut (a : AfterKilled) (answer : Bool)
  | setkilled
  | setkilledIn
  | setkilledOut
  /-- the timer branch of `usertrap` -/
  | timer
  /-- MLFQ: the priority boost -/
  | boost (level j : Nat)
  | boostPut (level j : Nat) (temp : Slot)
  /-- MLFQ: the test of the time slice -/
  | slice
  | demote
  /-- MLFQ: the preemption loop -/
  | preempt (i : Nat)
  | usertrapret
  | yield
  | yieldIn
  | yieldSched
  | yieldOut
  | forkret
  | forkretFirst
  | sleep (chan : Chan) (lk : SleepLock)
  | sleepIn (chan : Chan) (lk : SleepLock)
  | sleepSet (chan : Chan) (lk : SleepLock)
  | sleepSched (lk : SleepLock)
  | sleepTidy (lk : SleepLock)
  | sleepOut (lk : SleepLock)
  | sleepBack (lk : SleepLock)
  | alloc (a : AllocPc)
  | forkCopy (np : Slot)
  | forkUndo (np : Slot)
  | forkOut (np : Slot) (pid : Int)
  | forkWait (np : Slot) (pid : Int)
  | forkParent (np : Slot) (pid : Int)
  | forkWaitOut (np : Slot) (pid : Int)
  | forkLock (np : Slot) (pid : Int)
  | forkIn (np : Slot) (pid : Int)
  | forkDone (np : Slot) (pid : Int)
  | exit (status : Int)
  /-- `exit` closing files -/
  | exitFiles (status : Int)
  | exitWait (status : Int)
  | reparent (status : Int) (i : Nat)
  | exitWake (status : Int)
  | exitLock (status : Int)
  | exitIn (status : Int)
  | exitWaitOut
  | exitSched
  /-- after the `sched` of `exit` -/
  | zombie
  | wait (x : Bool)
  | waitScan (x : Bool) (i : Nat) (havekids : Bool)
  | waitLock (x : Bool) (pp : Slot)
  | waitIn (x : Bool) (pp : Slot)
  | waitOut (x : Bool) (pp : Slot)
  /-- a child has been found; its lock is released first -/
  | waitFound (pp : Slot) (ret : Ret)
  | waitNone (x : Bool) (havekids : Bool)
  | waitEnd (ret : Ret)
  | kill (pid : Int) (i : Nat)
  | killIn (pid : Int) (p : Slot)
  | killSkip (pid : Int) (p : Slot)
  | killOut (p : Slot)
deriving DecidableEq, Repr

/-- The task holds no process's lock here. -/
def Task.still : Task → Bool
  | .clockintr | .updateTime _ | .wakeup .. => true
  | _ => false

/-- The function holds no process's lock here. -/
def Frame.still : Frame → Bool
  | .task t => t.still
  | .alloc (.next _) => true
  | .killedIn _ | .killedOut .. | .setkilledIn | .setkilledOut | .yieldIn | .yieldSched | .yieldOut
  | .forkret | .sleepIn .. | .sleepSet .. | .sleepSched _ | .sleepTidy _ | .sleepOut _ | .alloc _
  | .forkCopy _ | .forkUndo _ | .forkOut .. | .forkIn .. | .forkDone .. | .exitIn _ | .exitWaitOut
  | .exitSched | .waitIn .. | .waitOut .. | .waitFound .. | .killIn .. | .killSkip .. | .killOut _ =>
    false
  | _ => true

/-- The function runs with interrupts off, whatever locks are held. -/
def Frame.masked : Frame → Bool
  | .kerneltrap _ | .killed .syscall | .killed (.trap _) | .setkilled | .timer | .boost ..
  | .boostPut .. | .slice | .demote | .preempt _ | .usertrapret => true
  | _ => false

/-- A function that waits for its callee: it holds no process's lock. -/
abbrev Below := { f : Frame // f.still = true }

/-- A process's kernel stack. -/
structure Stack where
  top : Frame
  rest : List Below

/-- The stack `allocproc` sets up. -/
def Stack.fresh : Stack := ⟨.forkret, []⟩

/-- What the CPUs share. -/
structure Memory (n : Nat) where
  k : Kernel n
  lock : Lock → Option (Fin n)
  /-- `main` has created the first process -/
  started : Bool
  /-- where each process's thread stands: its kernel stack, and `p->context` while it is not
  executed -/
  thread : Slot → Stack

/-- The state of a machine with `n` CPUs. -/
structure State (n : Nat) extends Memory n where
  /-- where each CPU's scheduler stands -/
  sched : Fin n → Dispatcher
  /-- the thread a CPU executes: a process's, or its own scheduler's when there is none -/
  cur : Fin n → Option Slot

/-- The state `main` starts from. -/
def boot (n : Nat) : State n where
  k := Kernel.boot n
  lock := fun _ => none
  started := false
  thread := fun _ => .fresh
  sched := fun _ => .code .boot
  cur := fun _ => none

end Xv6.Smp
