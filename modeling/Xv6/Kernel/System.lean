import Xv6.Kernel.Trap
import Xv6.Base.Machine

/-!
# The kernel as a machine

The events of a machine with `n` harts, each of them one stretch of kernel code between two
context switches: a scheduler pass, a trap handler, or a part of a system call. An event is
possible where the hart's thread stands at the code in question; `enabled` says so. Inside a
system call the calls into this code may come in any order and any number, which covers every
system call the kernel has. Interrupts are taken wherever the source has them enabled: in user
mode, in a system call between its critical sections, in `forkret` and in the idle scheduler, but
not in the timer branch of `usertrap` and not between a dispatch and the release of the process's
lock.
-/

namespace Xv6

open Base

/-- What can happen on a machine with `n` harts. -/
inductive Event (n : Nat)
  /-- `main` creates the first process -/
  | userinit (a : Alloc)
  /-- a pass of the scheduler on an idle hart -/
  | scheduler (c : Fin n)
  /-- a fork child runs for the first time -/
  | forkret (c : Fin n)
  /-- a process dispatched inside `usertrap`'s timer branch or inside `sleep` goes on -/
  | resume (c : Fin n)
  /-- a timer interrupt -/
  | timer (c : Fin n) (u : UserRegs) (page : Bool)
  /-- a device interrupt whose handler wakes these channels -/
  | device (c : Fin n) (u : UserRegs) (chans : List Chan)
  /-- an exception in user mode -/
  | exception (c : Fin n) (u : UserRegs)
  /-- a system call begins -/
  | syscall (c : Fin n) (u : UserRegs) (num : Fin 32)
  /-- a system call ends -/
  | ret (c : Fin n) (value : UInt64)
  | fork (c : Fin n) (a : Alloc) (uvmcopy : Bool)
  | forkEnd (c : Fin n)
  | sleep (c : Fin n) (chan : Chan)
  | wakeup (c : Fin n) (chan : Chan)
  | kill (c : Fin n) (pid : Int)
  | exit (c : Fin n) (status : Int)
  | wait (c : Fin n) (copyoutFails : Bool)
  | waitx (c : Fin n) (copyoutFails : Bool)
  | exec (c : Fin n) (entry sp : UInt64)
  | sigalarm (c : Fin n) (ticks : Int) (handler : UInt64)
  | sigreturn (c : Fin n)
  | settickets (c : Fin n) (tickets : Int)

/-- The events that neither advance the clock nor kill. -/
def Event.quiet {n : Nat} : Event n → Bool
  | .timer .. | .kill .. => false
  | _ => true

namespace Kernel

variable {n : Nat}

/-- Where the thread on hart `c` stands; none when the hart is in its scheduler. -/
def thread (k : Kernel n) (c : Fin n) : Option Context :=
  (k.myproc c).map fun p => (k.proc p).context

/-- Whether hart `c` takes interrupts here. -/
def interruptible (k : Kernel n) (c : Fin n) : Bool :=
  match k.thread c with
  | none => k.initproc.isSome
  | some (.usertrap _) | some .trapret | some (.asleep _) => false
  | some _ => true

/-- The event is possible in this state. -/
def enabled (e : Event n) (k : Kernel n) : Bool :=
  match e with
  | .userinit _ => k.initproc.isNone
  | .scheduler c => k.thread c = none ∧ k.initproc.isSome
  | .forkret c => k.thread c = some .forkret
  | .resume c =>
    match k.thread c with
    | some (.usertrap _) | some .trapret | some (.asleep _) => true
    | _ => false
  | .timer c _ _ | .device c _ _ => k.interruptible c
  | .exception c _ | .syscall c _ _ => k.thread c = some .user
  | .forkEnd c =>
    match k.thread c with
    | some (.forking _) => true
    | _ => false
  | .sleep c _ | .wakeup c _ | .exit c _ =>
    k.thread c = some .kernel ∨ k.thread c = some .exiting
  | .ret c _ | .fork c _ _ | .kill c _ | .wait c _ | .waitx c _ | .exec c _ _ | .sigalarm c _ _
  | .sigreturn c | .settickets c _ => k.thread c = some .kernel

/-- Run `f` on the hart's current process; `enabled` promises that there is one. -/
def onProc (k : Kernel n) (c : Fin n) (f : Slot → Except Fault (Kernel n)) :
    Except Fault (Kernel n) :=
  match k.myproc c with
  | none => .error (.null "myproc")
  | some p => f p

/-- A dispatched process goes on where it gave the CPU up. -/
def resume (cfg : Config) (k : Kernel n) (c : Fin n) (p : Slot) : Except Fault (Kernel n) :=
  match (k.proc p).context with
  | .usertrap i => k.preempt cfg c p i
  | .asleep exiting => return k.modify p fun x =>
      { x with chan := .null, context := if exiting then .exiting else .kernel }
  | _ => return k.usertrapret cfg c p

/-- The child a thread inside `fork` is about to publish. -/
def publish (k : Kernel n) (p : Slot) : Except Fault (Kernel n) :=
  match (k.proc p).context with
  | .forking np => do return (← k.forkEnd p np).1
  | _ => return k

/-- A timer interrupt, from user mode or from the kernel. -/
def timer (cfg : Config) (k : Kernel n) (c : Fin n) (u : UserRegs) (page : Bool) :
    Except Fault (Kernel n) :=
  if k.thread c = some .user then k.onProc c fun p => k.usertrapTimer cfg c p u page
  else k.kerneltrapTimer c

/-- A device interrupt, from user mode or from the kernel. -/
def device (cfg : Config) (k : Kernel n) (c : Fin n) (u : UserRegs) (chans : List Chan) :
    Except Fault (Kernel n) :=
  if k.thread c = some .user then k.onProc c fun p => k.usertrapDevice cfg c p u chans
  else k.deviceintr (k.myproc c) chans

/-- The execution of an event. -/
def exec (cfg : Config) (e : Event n) (k : Kernel n) : Except Fault (Kernel n) :=
  match e with
  | .userinit a => k.userinit a
  | .scheduler c => k.scheduler cfg.build c
  | .forkret c => k.onProc c fun p => return k.forkret cfg c p
  | .resume c => k.onProc c fun p => k.resume cfg c p
  | .timer c u page => k.timer cfg c u page
  | .device c u chans => k.device cfg c u chans
  | .exception c u => k.onProc c fun p => return k.usertrapException p u
  | .syscall c u num => k.onProc c fun p => return k.usertrapSyscall p u num
  | .ret c value => k.onProc c fun p => return k.syscallReturn cfg c p value
  | .fork c a uvmcopy => k.onProc c fun p => do return (← k.forkBegin p a uvmcopy).1
  | .forkEnd c => k.onProc c fun p => k.publish p
  | .sleep c chan => k.onProc c fun p => k.sleep c p chan
  | .wakeup c chan => k.wakeup (k.myproc c) chan
  | .kill _ pid => do return (← k.kill pid).1
  | .exit c status => k.onProc c fun p => k.exit c p status
  | .wait c copyoutFails => k.onProc c fun p => do return (← k.wait c p copyoutFails).1
  | .waitx c copyoutFails => k.onProc c fun p => do return (← k.waitx c p copyoutFails).1
  | .exec c entry sp => k.onProc c fun p => return k.execCommit p entry sp
  | .sigalarm c ticks handler => k.onProc c fun p => return k.sysSigalarm p ticks handler
  | .sigreturn c => k.onProc c fun p => k.sysSigreturn cfg c p
  | .settickets c tickets => k.onProc c fun p => return k.sysSettickets p tickets

end Kernel

/-- The kernel of the given build on `n` harts. -/
def system (cfg : Config) (n : Nat) : Machine (Kernel n) (Event n) Fault where
  init := Kernel.boot n
  enabled := Kernel.enabled
  exec := Kernel.exec cfg

end Xv6
