import Xv6.Kernel.Scheduler

/-!
# Traps: `kernel/trap.c`, and the system calls of `kernel/sysproc.c` that touch a process

`usertrap` runs with interrupts off from a timer interrupt to its next context switch, so each of
its parts is one piece of the step that takes the interrupt or resumes the process. `Config` holds
what a build and a boot fix once: the scheduler, and the two kernel addresses `usertrapret` writes
into a trapframe.
-/

namespace Xv6

open Base

/-- What the build and the boot fix. -/
structure Config where
  build : Build
  /-- the kernel page table, `r_satp()` in supervisor mode -/
  satp : UInt64 := 0
  /-- the address of `usertrap` -/
  usertrapAddr : UInt64 := 0

/-- `timesliceq`. -/
def timesliceq : Fin 4 → Nat
  | 0 => 1
  | 1 => 4
  | 2 => 8
  | 3 => 16

/-- `KSTACK(p) + PGSIZE`, the top of a process's kernel stack. -/
def kstackTop (p : Slot) : UInt64 := UInt64.ofNat (2 ^ 38 - 4096 - (p + 1) * 2 * 4096 + 4096)

namespace Kernel

variable {n : Nat}

/-- `uservec` and the start of `usertrap`: save the user registers and the program counter. -/
def saveUser (k : Kernel n) (p : Slot) (u : UserRegs) : Kernel n :=
  k.modify p fun x => { x with trapframe := { x.trapframe with epc := u.pc, regs := u.regs } }

/-- `usertrapret()` on hart `c`. -/
def usertrapret (cfg : Config) (k : Kernel n) (c : Fin n) (p : Slot) : Kernel n :=
  k.modify p fun x =>
    { x with
      trapframe := { x.trapframe with
        kernelSatp := cfg.satp, kernelSp := kstackTop p, kernelTrap := cfg.usertrapAddr
        kernelHartid := UInt64.ofNat c }
      context := .user }

/-! ## The clock -/

/-- The body of `update_time`'s first loop; the second loop only prints. -/
def updateTimeOne (k : Kernel n) (p : Slot) : Kernel n :=
  if (k.proc p).state = .running then
    (k.modify p fun x => { x with rtime := uint32 (x.rtime + 1) }).note (.ran p)
  else k

/-- `update_time()`. -/
def updateTime (k : Kernel n) : Kernel n := slots.foldl updateTimeOne k

/-- `clockintr()` on a hart whose current process is `self`. -/
def clockintr (k : Kernel n) (self : Option Slot) : Except Fault (Kernel n) :=
  let t := uint32 (k.ticks + 1)
  (({ k with ticks := t }.note (.tick t)).updateTime).wakeup self .ticks

/-- The timer case of `devintr()`: only hart 0 keeps the time. -/
def timerintr (k : Kernel n) (c : Fin n) : Except Fault (Kernel n) :=
  if c.val = 0 then k.clockintr (k.myproc c) else return k

/-! ## The timer branch of `usertrap` -/

/-- The alarm part: count the tick, and divert the process to its handler when the alarm is due.
`page` says whether `kalloc` finds a page for the saved trapframe. -/
def alarm (k : Kernel n) (p : Slot) (page : Bool) : Except Fault (Kernel n) :=
  if (k.proc p).state = .running then
    let k := k.modify p fun x => { x with curTicks := int32 (x.curTicks + 1) }
    if 0 < (k.proc p).ticks ∧ (k.proc p).ticks ≤ (k.proc p).curTicks ∧
        (k.proc p).inAlarmHandler = false then
      let k := k.modify p fun x => { x with inAlarmHandler := true }
      if !page then .error (.panic "usertrap: failed to allocate memory for alarm trapframe")
      else .ok (k.modify p fun x =>
        { x with
          alarmTf := some x.trapframe
          trapframe := { x.trapframe with epc := x.handler }
          curTicks := 0 })
    else .ok k
  else .ok k

/-- The loop of the priority boost over one level, from index `j` on. `dequeue` shortens the
queue under the loop, so the bound is read again on every turn; `fuel` counts turns, and since
`j` grows and the level never does, its length at the start is enough. -/
def boostFrom (q : Fin 4) : Nat → Nat → Kernel n → Except Fault (Kernel n)
  | 0, _, k => .ok k
  | fuel + 1, j, k =>
    if j < (k.multique q).size then do
      let temp ← (k.multique q).deref j
      let k ← k.dequeue temp (k.proc temp).queueNumber
      let k ← k.enqueue temp 0
      boostFrom q fuel (j + 1) (k.note (.entered temp 0))
    else .ok k

/-- The boost of one level. -/
def boostLevel (k : Kernel n) (q : Fin 4) : Except Fault (Kernel n) :=
  boostFrom q (k.multique q).size 0 k

/-- The priority boost. -/
def boost (k : Kernel n) : Except Fault (Kernel n) := do
  let k ← [1, 2, 3].foldlM boostLevel k
  return k.note .boost

/-- The boost comes at every multiple of 48 ticks. -/
def boostDue (k : Kernel n) : Except Fault (Kernel n) :=
  if k.ticks % 48 = 0 then k.boost else .ok k

/-- The preemption loop at index `i`, with `m` levels to go: give the CPU up when a queue above
is not empty, and return to user mode after the last. -/
def preemptFrom (cfg : Config) (k : Kernel n) (c : Fin n) (p : Slot) :
    Nat → Nat → Except Fault (Kernel n)
  | 0, _ => .ok (k.usertrapret cfg c p)
  | m + 1, i => do
    let q ← level i
    if 0 < (k.multique q).size then return k.yield c p (.usertrap (i + 1))
    k.preemptFrom cfg c p m (i + 1)

/-- The preemption loop from index `i` to the process's own level. -/
def preempt (cfg : Config) (k : Kernel n) (c : Fin n) (p : Slot) (i : Nat) :
    Except Fault (Kernel n) :=
  k.preemptFrom cfg c p ((k.proc p).queueNumber - i) i

/-- The charge: one more tick at this level. -/
def charge (k : Kernel n) (p : Slot) : Kernel n :=
  (k.modify p fun x => { x with queueticks := x.queueticks + 1 }).note (.charged p)

/-- The demotion: one level down, or to the end of the last level. -/
def demote (k : Kernel n) (p : Slot) : Except Fault (Kernel n) := do
  let k ← k.dequeue p (k.proc p).queueNumber
  let npriority := (k.proc p).queueNumber + 1
  let npriority := if 3 < npriority then npriority - 1 else npriority
  return (← k.enqueue p npriority).note (.entered p npriority)

/-- The MLFQ part of the timer branch. -/
def mlfqTick (cfg : Config) (k : Kernel n) (c : Fin n) (p : Slot) : Except Fault (Kernel n) := do
  let k ← (k.charge p).boostDue
  let q ← level (k.proc p).queueNumber
  if timesliceq q ≤ (k.proc p).queueticks then
    let k ← k.demote p
    return k.yield c p (.usertrap 0)
  else k.preempt cfg c p 0

/-- `usertrap` on a timer interrupt, with the user registers `u`. -/
def usertrapTimer (cfg : Config) (k : Kernel n) (c : Fin n) (p : Slot) (u : UserRegs)
    (page : Bool) : Except Fault (Kernel n) := do
  let k ← (k.saveUser p u).timerintr c
  if (k.proc p).killed then
    return k.modify p fun x => { x with context := .exiting }
  else
    let k ← k.alarm p page
    match cfg.build with
    | .mlfq => k.mlfqTick cfg c p
    | _ => return k.yield c p .trapret

/-- `kerneltrap` on a timer interrupt: the running process, if any, gives up the CPU. -/
def kerneltrapTimer (k : Kernel n) (c : Fin n) : Except Fault (Kernel n) := do
  let k ← k.timerintr c
  match k.myproc c with
  | none => return k
  | some p =>
    if (k.proc p).state = .running then return k.yield c p (k.proc p).context
    else return k

/-! ## Other traps and system calls -/

/-- A device interrupt: its handler wakes sleepers. -/
def deviceintr (k : Kernel n) (self : Option Slot) (chans : List Chan) :
    Except Fault (Kernel n) :=
  chans.foldlM (fun k chan => k.wakeup self chan) k

/-- `usertrap` on a device interrupt. -/
def usertrapDevice (cfg : Config) (k : Kernel n) (c : Fin n) (p : Slot) (u : UserRegs)
    (chans : List Chan) : Except Fault (Kernel n) := do
  let k ← (k.saveUser p u).deviceintr (k.myproc c) chans
  if (k.proc p).killed then
    return k.modify p fun x => { x with context := .exiting }
  else return k.usertrapret cfg c p

/-- `usertrap` on an exception it does not know: the process is killed. -/
def usertrapException (k : Kernel n) (p : Slot) (u : UserRegs) : Kernel n :=
  ((k.saveUser p u).setkilled p).modify p fun x => { x with context := .exiting }

/-- The counters after a system call: `syscall` takes the numbers 1 to 26, whose functions each
advance their own counter first. -/
def countCall (counts : Fin 32 → Int) (num : Fin 32) : Fin 32 → Int :=
  if 0 < num.val ∧ num.val < 27 then Function.update counts num (int32 (counts num + 1)) else counts

/-- `usertrap` on a system call, up to the call's own work. `num` is its number; the numbers `syscall`
does not take stand for all that it refuses. -/
def usertrapSyscall (k : Kernel n) (p : Slot) (u : UserRegs) (num : Fin 32) : Kernel n :=
  let k := k.saveUser p u
  if (k.proc p).killed then k.modify p fun x => { x with context := .exiting }
  else k.modify p fun x =>
    { x with
      trapframe := { x.trapframe with epc := x.trapframe.epc + 4 }
      syscallCount := countCall x.syscallCount num
      context := .kernel }

/-- The end of a system call: its value goes to `a0`, and a killed process exits. -/
def syscallReturn (cfg : Config) (k : Kernel n) (c : Fin n) (p : Slot) (value : UInt64) :
    Kernel n :=
  let k := k.modify p fun x =>
    { x with trapframe := { x.trapframe with
        regs := Function.update x.trapframe.regs .a0 value } }
  if (k.proc p).killed then k.modify p fun x => { x with context := .exiting }
  else k.usertrapret cfg c p

/-- `sys_sigalarm()` with the arguments `ticks` and `handler`. -/
def sysSigalarm (k : Kernel n) (p : Slot) (ticks : Int) (handler : UInt64) : Kernel n :=
  k.modify p fun x => { x with ticks := int32 ticks, handler := handler }

/-- `sys_sigreturn()`: the saved frame comes back, and the call returns to user mode at once. -/
def sysSigreturn (cfg : Config) (k : Kernel n) (c : Fin n) (p : Slot) :
    Except Fault (Kernel n) :=
  match (k.proc p).alarmTf with
  | none => .error (.null "alarm_tf")
  | some tf => .ok ((k.modify p fun x =>
      { x with
        trapframe := tf, alarmTf := none, alarmOn := false, curTicks := 0
        inAlarmHandler := false }).usertrapret cfg c p)

/-- `sys_settickets()` with the argument `tickets`. -/
def sysSettickets (k : Kernel n) (p : Slot) (tickets : Int) : Kernel n :=
  k.modify p fun x => { x with tickets := int32 tickets }

/-- `sys_getSysCount()` with the argument `mask`: the counter of the lowest bit set. The call's own
counter has been advanced by then. -/
def sysGetSysCount (k : Kernel n) (p : Slot) (mask : BitVec 32) : Int :=
  match (List.finRange 32).find? fun i : Fin 32 => mask.getLsbD i with
  | some i => (k.proc p).syscallCount i
  | none => -1

/-- What a successful `exec` changes in the process record: the new program's entry point, stack
pointer and argument vector, and cleared system-call counters. -/
def execCommit (k : Kernel n) (p : Slot) (entry sp : UInt64) : Kernel n :=
  k.modify p fun x =>
    { x with
      trapframe := { x.trapframe with
        epc := entry
        regs := Function.update (Function.update x.trapframe.regs .a1 sp) .sp sp }
      syscallCount := fun _ => 0 }

/-- `forkret()`: the very first process initialises the file system, which may sleep, before it
returns to user mode. -/
def forkret (cfg : Config) (k : Kernel n) (c : Fin n) (p : Slot) : Kernel n :=
  if k.first then { k with first := false }.modify p fun x => { x with context := .kernel }
  else k.usertrapret cfg c p

end Kernel

end Xv6
