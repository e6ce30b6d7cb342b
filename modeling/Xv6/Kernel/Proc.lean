import Xv6.Base.ArrayQueue

/-!
# The process table and the kernel's global state

The data of `kernel/proc.h`, `kernel/proc.c` and `kernel/trap.c` that the process, scheduling and
trap code reads and writes. A `struct proc *` into the table is a `Slot`; a nullable one is an
`Option Slot`. Fields of `struct proc` that no modelled function reads (`kstack`, `sz`,
`pagetable`, `ofile`, `cwd`, `name`, `time_slice`, `remainingtime`, `last_scheduled`) are left out.

Two things in the state are not C variables. `Context` says where a process's own thread of
control stands, which the source keeps in the saved registers and the kernel stack. `hist` is a
history variable: the trap and process code appends to it what the laws count, and no code reads
it.
-/

namespace Xv6

open Base Function

/-- `NPROC` of `param.h`: the size of the process table. -/
abbrev NPROC : Nat := 64

/-- A `struct proc *` that points into the process table. -/
abbrev Slot := Fin NPROC

/-- The table's slots in the order the kernel's loops visit them. -/
def slots : List Slot := List.finRange NPROC

/-- `enum procstate`. -/
inductive Procstate
  | unused | used | sleeping | runnable | running | zombie
deriving DecidableEq, Repr

/-- The states in which a process belongs on a ready queue. -/
def Procstate.ready : Procstate → Bool
  | .runnable | .running => true
  | _ => false

/-- The states of a process that has been published and has not exited. -/
def Procstate.live : Procstate → Bool
  | .runnable | .running | .sleeping => true
  | _ => false

/-- A wait channel: any address will do, so the ones the kernel names keep their names. -/
inductive Chan
  | null
  /-- `&ticks` -/
  | ticks
  /-- a process's own slot, the channel of `wait` -/
  | proc (p : Slot)
  /-- any other kernel object: a buffer, a pipe counter, the log, a sleep lock -/
  | object (addr : Nat)
deriving DecidableEq, Repr

/-- The channel of a process pointer that may be null. -/
def Chan.ofProc : Option Slot → Chan
  | none => .null
  | some p => .proc p

/-- The 31 user registers of `struct trapframe`. -/
inductive Reg
  | ra | sp | gp | tp | t0 | t1 | t2 | s0 | s1
  | a0 | a1 | a2 | a3 | a4 | a5 | a6 | a7
  | s2 | s3 | s4 | s5 | s6 | s7 | s8 | s9 | s10 | s11
  | t3 | t4 | t5 | t6
deriving DecidableEq, Repr

/-- What the user program's registers and program counter hold when it enters the kernel. -/
structure UserRegs where
  pc : UInt64
  regs : Reg → UInt64

/-- `struct trapframe`. -/
structure Trapframe where
  kernelSatp : UInt64 := 0
  kernelSp : UInt64 := 0
  kernelTrap : UInt64 := 0
  epc : UInt64 := 0
  kernelHartid : UInt64 := 0
  regs : Reg → UInt64 := fun _ => 0

/-- The page `kalloc` hands out, filled with its junk byte 5. -/
def Trapframe.junk : Trapframe where
  kernelSatp := 0x0505050505050505
  kernelSp := 0x0505050505050505
  kernelTrap := 0x0505050505050505
  epc := 0x0505050505050505
  kernelHartid := 0x0505050505050505
  regs := fun _ => 0x0505050505050505

/-- Where a process's thread of control stands. The source keeps this in `context`, the kernel
stack and the user program counter. -/
inductive Context
  /-- in user mode -/
  | user
  /-- inside a system call, between two of its calls into this code -/
  | kernel
  /-- inside `exit`, called by `usertrap` for a killed process -/
  | exiting
  /-- inside `sleep`, at the tidying up after `sched`; the flag says the caller was `exiting` -/
  | asleep (exiting : Bool)
  /-- inside `fork`, with the child allocated and not yet runnable -/
  | forking (np : Slot)
  /-- at the start of `forkret`, not yet run -/
  | forkret
  /-- in the timer branch of `usertrap`, inside a `yield`, at index `i` of the preemption loop -/
  | usertrap (i : Nat)
  /-- in the timer branch of `usertrap`, inside its last `yield` -/
  | trapret
deriving DecidableEq, Repr

/-- The plain places of a thread that runs: outside `fork`, `sleep`, and the timer branch. -/
def Context.plain : Context → Bool
  | .user | .kernel | .exiting => true
  | _ => false

/-- A value of the C type `int`: arithmetic keeps the low 32 bits, read as two's complement. -/
def int32 (x : Int) : Int := x.bmod (2 ^ 32)

theorem int32_range (x : Int) : -2 ^ 31 ≤ int32 x ∧ int32 x < 2 ^ 31 := by
  rw [int32, Int.bmod_def]
  split <;> omega

theorem int32_of_range {x : Int} (hlow : -2 ^ 31 ≤ x) (hhigh : x < 2 ^ 31) : int32 x = x := by
  unfold int32
  rw [Int.bmod_eq_of_le] <;> omega

theorem int32_add_left (x y : Int) : int32 (int32 x + y) = int32 (x + y) :=
  Int.bmod_add_bmod ..

theorem int32_add_right (x y : Int) : int32 (x + int32 y) = int32 (x + y) :=
  Int.add_bmod_bmod ..

/-- A value of the C type `uint`. -/
def uint32 (x : Nat) : Nat := x % 2 ^ 32

/-- `struct proc`. -/
structure Proc where
  state : Procstate := .unused
  chan : Chan := .null
  killed : Bool := false
  xstate : Int := 0
  pid : Int := 0
  parent : Option Slot := none
  trapframe : Trapframe := {}
  context : Context := .forkret
  syscallCount : Fin 32 → Int := fun _ => 0
  rtime : Nat := 0
  ctime : Nat := 0
  etime : Nat := 0
  handler : UInt64 := 0
  ticks : Int := 0
  curTicks : Int := 0
  alarmTf : Option Trapframe := none
  alarmOn : Bool := false
  inAlarmHandler : Bool := false
  tickets : Int := 0
  arrivalTime : Nat := 0
  queueNumber : Nat := 0
  queueticks : Nat := 0

/-- `struct cpu`, and the loop variable of the round-robin scheduler running on it. -/
structure Cpu where
  proc : Option Slot := none
  scan : Nat := 0

/-- What the laws count along a run. -/
inductive Obs
  /-- `clockintr` advanced `ticks` to this value -/
  | tick (t : Nat)
  /-- `update_time` added a tick to the process's `rtime` -/
  | ran (p : Slot)
  /-- `usertrap` added a tick to the process's `queueticks` -/
  | charged (p : Slot)
  /-- the process entered this level: by fork, demotion, rotation or boost -/
  | entered (p : Slot) (q : Nat)
  /-- `usertrap` performed the priority boost -/
  | boost
deriving DecidableEq, Repr

-- the levels of the multilevel queue are written as numerals
instance instNeZeroLevels : NeZero 4 := ⟨by decide⟩

/-- The kernel's global state on a machine with `n` harts. -/
structure Kernel (n : Nat) where
  proc : Slot → Proc
  cpus : Fin n → Cpu
  initproc : Option Slot
  /-- `multique[q]` with its counter `sizeofq[q]` -/
  multique : Fin 4 → ArrayQueue Slot
  nextpid : Int
  ticks : Nat
  /-- the `static` seed of `rand` -/
  seed : Nat
  /-- the `static` flag of `forkret` -/
  first : Bool
  hist : List Obs

/-- The state `main` starts from: zeroed memory, after `procinit`. -/
def Kernel.boot (n : Nat) : Kernel n where
  proc := fun _ => {}
  cpus := fun _ => {}
  initproc := none
  multique := fun _ => ⟨List.replicate NPROC none, 0⟩
  nextpid := 1
  ticks := 0
  seed := 123456789
  first := true
  hist := []

namespace Kernel

variable {n : Nat}

/-- Change the record in slot `p`. -/
@[simps -fullyApplied cpus initproc multique nextpid ticks hist]
def modify (k : Kernel n) (p : Slot) (f : Proc → Proc) : Kernel n :=
  { k with proc := update k.proc p (f (k.proc p)) }

/-- Set `c->proc`. -/
@[simps -fullyApplied proc initproc multique nextpid ticks hist]
def setCpu (k : Kernel n) (c : Fin n) (p : Option Slot) : Kernel n :=
  { k with cpus := update k.cpus c { k.cpus c with proc := p } }

/-- Append to the history. -/
@[simps -fullyApplied proc cpus initproc multique nextpid ticks hist]
def note (k : Kernel n) (o : Obs) : Kernel n := { k with hist := o :: k.hist }

/-- `myproc()` on hart `c`. -/
def myproc (k : Kernel n) (c : Fin n) : Option Slot := (k.cpus c).proc

/-- The entries of `multique[q]` below `sizeofq[q]`, front first. -/
def queue (k : Kernel n) (q : Fin 4) : List Slot := (k.multique q).toList

section Fields

variable (k : Kernel n) (p q : Slot) (f : Proc → Proc) (c : Fin n) (r : Option Slot)

@[simp] theorem modify_self : (k.modify p f).proc p = f (k.proc p) :=
  update_self ..

@[simp] theorem modify_of_ne {q : Slot} (h : q ≠ p) : (k.modify p f).proc q = k.proc q :=
  update_of_ne h ..

theorem modify_proc : (k.modify p f).proc q = if q = p then f (k.proc p) else k.proc q := by
  simp only [modify, update_apply]

theorem modify_modify (g : Proc → Proc) :
    (k.modify p f).modify p g = k.modify p fun x => g (f x) := by
  simp only [modify, update_self, update_idem]

theorem setCpu_cpu (d : Fin n) :
    ((k.setCpu c r).cpus d).proc = if d = c then r else (k.cpus d).proc := by
  simp only [setCpu, update_apply]
  split <;> rfl

end Fields

end Kernel

end Xv6
