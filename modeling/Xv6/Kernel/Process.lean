import Xv6.Kernel.Proc

/-!
# Processes: `kernel/proc.c` without the scheduler

`enqueue` and `dequeue` over the four ready queues, the life of a process from `allocproc` to
`freeproc`, and the calls that change its state on the way. Every function is the C function of
the same name between two context switches: what happens after `sched` returns belongs to the
step that resumes the process. Memory allocation and copies to user memory are outside this
model, so their outcome is an argument.
-/

namespace Xv6

open Base

/-- An index into `multique`, `sizeofq` or `timesliceq`. -/
def level (q : Nat) : Except Fault (Fin 4) :=
  if h : q < 4 then .ok ⟨q, h⟩ else .error .bounds

/-- Which allocations of `allocproc` succeed. -/
structure Alloc where
  /-- `kalloc` finds a page for the trapframe -/
  trapframe : Bool
  /-- `proc_pagetable` finds its pages -/
  pagetable : Bool
deriving Repr

/-- The fields `allocproc` sets on its way out. `killed`, `inAlarmHandler` and `queueNumber` are
not among them. -/
def Proc.fresh (x : Proc) (tickets : Int) (ticks : Nat) : Proc :=
  { x with
    ticks := 0, curTicks := 0, alarmTf := none, alarmOn := false, handler := 0, queueticks := 0
    tickets := tickets, context := .forkret, rtime := 0, etime := 0, ctime := ticks
    arrivalTime := ticks, syscallCount := fun _ => 0 }

/-- The fields `freeproc` clears. -/
def Proc.freed (x : Proc) : Proc :=
  { x with
    trapframe := {}, pid := 0, parent := none, chan := .null, killed := false, xstate := 0
    state := .unused }

namespace Kernel

variable {n : Nat}

/-- `enqueue(p, priorityq)`: entries are compared by pid. -/
def enqueue (k : Kernel n) (p : Slot) (priorityq : Nat) : Except Fault (Kernel n) := do
  let q ← level priorityq
  match ← (k.multique q).findIdx (fun e => (k.proc e).pid == (k.proc p).pid) with
  | some _ => return k
  | none =>
    let a ← (k.multique q).push p
    return { k with multique := Function.update k.multique q a }.modify p
      fun x => { x with queueticks := 0, queueNumber := priorityq }

/-- `dequeue(p, priorityq)`: the first entry with `p`'s pid leaves the queue. -/
def dequeue (k : Kernel n) (p : Slot) (priorityq : Nat) : Except Fault (Kernel n) := do
  let q ← level priorityq
  if (k.multique q).size = 0 then return k
  let a ← (k.multique q).removeFirst (fun e => (k.proc e).pid == (k.proc p).pid)
  return { k with multique := Function.update k.multique q a }

/-- `allocpid()`. The counter is a C `int`, whose overflow is undefined. -/
def allocpid (k : Kernel n) : Except Fault (Int × Kernel n) :=
  if k.nextpid + 1 < 2 ^ 31 then .ok (k.nextpid, { k with nextpid := k.nextpid + 1 })
  else .error .overflow

/-- `freeproc(p)`: the pid is cleared before the call of `dequeue`, which then looks for 0. -/
def freeproc (k : Kernel n) (p : Slot) : Except Fault (Kernel n) :=
  let k := k.modify p Proc.freed
  k.dequeue p (k.proc p).queueNumber

/-- The slot `allocproc` takes: the first unused one. -/
def freeSlot (k : Kernel n) : Option Slot := slots.find? fun p => (k.proc p).state = .unused

/-- `allocproc()`. -/
def allocproc (k : Kernel n) (a : Alloc) : Except Fault (Kernel n × Option Slot) := do
  match k.freeSlot with
  | none => return (k, none)
  | some p =>
    let (pid, k) ← k.allocpid
    let k := k.modify p fun x => { x with pid := pid, state := .used }
    if !a.trapframe then return (← k.freeproc p, none)
    let k := k.modify p fun x => { x with trapframe := .junk }
    if !a.pagetable then return (← k.freeproc p, none)
    let tickets := match (k.proc p).parent with
      | some pp => (k.proc pp).tickets
      | none => 1
    return (k.modify p fun x => x.fresh tickets k.ticks, some p)

/-- `userinit()`. -/
def userinit (k : Kernel n) (a : Alloc) : Except Fault (Kernel n) := do
  match ← k.allocproc a with
  | (_, none) => .error (.null "initproc")
  | (k, some p) =>
    let k := { k with initproc := some p }.modify p fun x =>
      { x with
        trapframe := { x.trapframe with
          epc := 0, regs := Function.update x.trapframe.regs .sp 4096 }
        state := .runnable, tickets := 1 }
    return (← k.enqueue p 0).note (.entered p 0)

/-- `fork()` up to the release of the child's lock; the child is then `USED` and the parent has
still to publish it. The answer is the value `fork` returns when it fails here. -/
def forkBegin (k : Kernel n) (p : Slot) (a : Alloc) (uvmcopy : Bool) :
    Except Fault (Kernel n × Option Int) := do
  match ← k.allocproc a with
  | (k, none) => return (k, some (-1))
  | (k, some np) =>
    if !uvmcopy then return (← k.freeproc np, some (-1))
    let k := k.modify np fun x =>
      { x with trapframe := { (k.proc p).trapframe with
          regs := Function.update (k.proc p).trapframe.regs .a0 0 } }
    return (k.modify p fun x => { x with context := .forking np }, none)

/-- The rest of `fork()`: set the child's parent, make it runnable, return its pid. -/
def forkEnd (k : Kernel n) (p np : Slot) : Except Fault (Kernel n × Int) := do
  let k := k.modify np fun x => { x with parent := some p }
  let k := k.modify np fun x => { x with state := .runnable }
  let k ← k.enqueue np 0
  let k := k.note (.entered np 0)
  return (k.modify p fun x => { x with context := .kernel }, (k.proc np).pid)

/-- The body of `wakeup`'s loop. `self` is `myproc()`. -/
def wakeupOne (self : Option Slot) (chan : Chan) (k : Kernel n) (p : Slot) :
    Except Fault (Kernel n) :=
  if some p ≠ self ∧ (k.proc p).state = .sleeping ∧ (k.proc p).chan = chan then do
    let k := k.modify p fun x => { x with state := .runnable }
    let oldTicks := (k.proc p).queueticks
    let k ← k.enqueue p (k.proc p).queueNumber
    return k.modify p fun x => { x with queueticks := oldTicks }
  else return k

/-- `wakeup(chan)`. -/
def wakeup (k : Kernel n) (self : Option Slot) (chan : Chan) : Except Fault (Kernel n) :=
  slots.foldlM (wakeupOne self chan) k

/-- `sleep(chan, lk)` up to the context switch. -/
def sleep (k : Kernel n) (c : Fin n) (p : Slot) (chan : Chan) : Except Fault (Kernel n) := do
  let exiting := (k.proc p).context = .exiting
  let k := k.modify p fun x =>
    { x with chan := chan, state := .sleeping, context := .asleep exiting }
  return (← k.dequeue p (k.proc p).queueNumber).setCpu c none

/-- `kill(pid)`. Unlike `wakeup` it does not put `queueticks` back after `enqueue`. -/
def kill (k : Kernel n) (pid : Int) : Except Fault (Kernel n × Int) := do
  match slots.find? fun p => (k.proc p).pid = pid with
  | none => return (k, -1)
  | some p =>
    let k := k.modify p fun x => { x with killed := true }
    if (k.proc p).state = .sleeping then
      let k := k.modify p fun x => { x with state := .runnable }
      return (← k.enqueue p (k.proc p).queueNumber, 0)
    else return (k, 0)

/-- `setkilled(p)`. -/
def setkilled (k : Kernel n) (p : Slot) : Kernel n :=
  k.modify p fun x => { x with killed := true }

/-- `reparent(p)`, called by `p` itself. -/
def reparent (k : Kernel n) (p : Slot) : Except Fault (Kernel n) :=
  slots.foldlM (fun k pp =>
    if (k.proc pp).parent = some p then
      (k.modify pp fun x => { x with parent := k.initproc }).wakeup (some p)
        (Chan.ofProc k.initproc)
    else return k) k

/-- `exit(status)` from the acquisition of `wait_lock` on. -/
def exit (k : Kernel n) (c : Fin n) (p : Slot) (status : Int) : Except Fault (Kernel n) := do
  if k.initproc = some p then .error (.panic "init exiting") else
    let k ← k.reparent p
    let k ← k.wakeup (some p) (Chan.ofProc (k.proc p).parent)
    let k := k.modify p fun x =>
      { x with xstate := status, state := .zombie, etime := k.ticks }
    return (← k.dequeue p (k.proc p).queueNumber).setCpu c none

/-- The child `wait` and `waitx` reap: the first exited one in the table. -/
def exitedChild (k : Kernel n) (p : Slot) : Option Slot :=
  slots.find? fun pp => (k.proc pp).parent = some p ∧ (k.proc pp).state = .zombie

/-- Whether a scan for children finds one. -/
def havekids (k : Kernel n) (p : Slot) : Bool := slots.any fun pp => (k.proc pp).parent = some p

/-- One round of the loop of `wait(addr)`. `copyoutFails` is the outcome of
`addr != 0 && copyout(..) < 0`. The answer is the value `wait` returns, or none when it sleeps. -/
def wait (k : Kernel n) (c : Fin n) (p : Slot) (copyoutFails : Bool) :
    Except Fault (Kernel n × Option Int) := do
  match k.exitedChild p with
  | some pp =>
    let pid := (k.proc pp).pid
    let k := k.modify p fun x =>
      { x with syscallCount := fun i =>
          int32 (x.syscallCount i + (k.proc pp).syscallCount i) }
    if copyoutFails then return (k, some (-1))
    return (← k.freeproc pp, some pid)
  | none =>
    if !k.havekids p || (k.proc p).killed then return (k, some (-1))
    return (← k.sleep c p (.proc p), none)

/-- One round of the loop of `waitx(addr, wtime, rtime)`. It differs from `wait` in adding no
system-call counters and in reporting `wtime` and `rtime`, which stay unwritten when no exited
child is found. -/
def waitx (k : Kernel n) (c : Fin n) (p : Slot) (copyoutFails : Bool) :
    Except Fault (Kernel n × Option (Int × Option (Nat × Nat))) := do
  match k.exitedChild p with
  | some np =>
    let pid := (k.proc np).pid
    let rtime := (k.proc np).rtime
    let wtime := uint32 ((k.proc np).etime + 2 * 2 ^ 32 - (k.proc np).ctime - (k.proc np).rtime)
    if copyoutFails then return (k, some (-1, some (wtime, rtime)))
    return (← k.freeproc np, some (pid, some (wtime, rtime)))
  | none =>
    if !k.havekids p || (k.proc p).killed then return (k, some (-1, none))
    return (← k.sleep c p (.proc p), none)

/-- `yield()` up to the context switch, leaving the thread at `ctx`. -/
def yield (k : Kernel n) (c : Fin n) (p : Slot) (ctx : Context) : Kernel n :=
  (k.modify p fun x => { x with state := .runnable, context := ctx }).setCpu c none

end Kernel

end Xv6
