import Xv6.Kernel.Process

/-!
# The three schedulers: `scheduler()` and `rand` of `kernel/proc.c`

One build of the kernel has one scheduler, chosen by `SCHEDULER_TYPE` of the Makefile. A pass is
the code from `intr_on()` to the dispatch, or to the end of the loop body when nothing is
dispatched. The code after `swtch` returns (`c->proc = 0`) is part of the step that gave the CPU
up. The round-robin pass runs from where its loop stands to the next dispatch or to the table's
end.
-/

namespace Xv6

open Base

/-- `SCHEDULER_TYPE`: round robin unless told otherwise. -/
inductive Build
  | rr | lbs | mlfq
deriving DecidableEq, Repr

/-! ## Drawing a ticket -/

/-- One step of the generator of `rand()`: the new seed, which is also the number drawn. The mask
`LCG_M` keeps the low 32 bits. -/
def lcg (seed : Nat) : Nat := (1664525 * seed + 1013904223) % 2 ^ 32

/-- The conversion of an `int` to `unsigned int`. -/
def toUnsigned (x : Int) : Nat := (x % 2 ^ 32).toNat

/-- `rand_at_max(parameter)` when `rand()` draws `r`. The modulus is computed as an `int` and
then converted, and the remainder is converted back. -/
def randAtMax (r : Nat) (parameter : Int) : Int :=
  int32 (r % toUnsigned (int32 (parameter + 1)) : Nat)

/-- The ticket drawn out of `total` when `rand()` draws `r`. -/
def drawValue (r : Nat) (total : Int) : Int := int32 (randAtMax r total + 1)

/-- `total_tickets`: the tickets of the runnable processes, in `int` arithmetic. -/
def totalTickets (proc : Slot → Proc) : Int :=
  slots.foldl (fun total p =>
    if (proc p).state = .runnable then int32 (total + (proc p).tickets) else total) 0

/-- The scan for the first runnable process at which the running sum reaches the ticket drawn. -/
def drawScan (proc : Slot → Proc) (value : Int) : List Slot → Int → Option Slot
  | [], _ => none
  | p :: ps, sum =>
    if (proc p).state = .runnable then
      if value ≤ int32 (sum + (proc p).tickets) then some p
      else drawScan proc value ps (int32 (sum + (proc p).tickets))
    else drawScan proc value ps sum

/-- The second scan: among the runnable processes with as many tickets as the winner, an earlier
arrival takes its place. -/
def tieBreak (proc : Slot → Proc) (winner : Slot) : Slot :=
  slots.foldl (fun w p =>
    if (proc p).state ≠ .runnable ∨ (proc p).tickets ≠ (proc w).tickets then w
    else if (proc p).arrivalTime < (proc w).arrivalTime then p else w) winner

namespace Kernel

variable {n : Nat}

/-- The dispatch all three builds end with: recheck the state, mark the process running, give it
the CPU. -/
def dispatch (k : Kernel n) (c : Fin n) (p : Slot) : Kernel n :=
  if (k.proc p).state = .runnable then
    (k.modify p fun x => { x with state := .running }).setCpu c (some p)
  else k

/-- The lottery of an LBS pass when `rand()` draws `r`, with `total_tickets` positive. -/
def lottery (k : Kernel n) (c : Fin n) (total : Int) (r : Nat) : Kernel n :=
  match drawScan k.proc (drawValue r total) slots 0 with
  | none => k
  | some winner => k.dispatch c (tieBreak k.proc winner)

/-- One pass of the LBS scheduler when `rand()`, if it is called, draws `r`. -/
def lbsPass (k : Kernel n) (c : Fin n) (r : Nat) : Kernel n :=
  let total := totalTickets k.proc
  if 0 < total then { k with seed := r }.lottery c total r else k

/-- One pass of the LBS scheduler. -/
def schedulerLbs (k : Kernel n) (c : Fin n) : Kernel n := k.lbsPass c (lcg k.seed)

/-- The first loop of an MLFQ pass: a runnable process is put back on its queue, with its ticks. -/
def requeueOne (k : Kernel n) (p : Slot) : Except Fault (Kernel n) :=
  if (k.proc p).state = .runnable then do
    let oldTicks := (k.proc p).queueticks
    let k ← k.enqueue p (k.proc p).queueNumber
    return k.modify p fun x => { x with queueticks := oldTicks }
  else return k

/-- The search of an MLFQ pass from the given levels on: the first runnable entry. -/
def firstRunnable (k : Kernel n) : List (Fin 4) → Except Fault (Option Slot)
  | [] => .ok none
  | q :: qs => do
    match ← (k.multique q).findIdx fun e => (k.proc e).state = .runnable with
    | some j => return some (← (k.multique q).deref j)
    | none => k.firstRunnable qs

/-- One pass of the MLFQ scheduler. -/
def schedulerMlfq (k : Kernel n) (c : Fin n) : Except Fault (Kernel n) := do
  let k ← slots.foldlM requeueOne k
  match ← k.firstRunnable [0, 1, 2, 3] with
  | none => return k
  | some p => return k.dispatch c p

/-- The round-robin loop, from its loop variable to the next dispatch or the table's end. -/
def schedulerRr (k : Kernel n) (c : Fin n) : Kernel n :=
  let scanAt (k : Kernel n) (i : Nat) : Kernel n :=
    { k with cpus := Function.update k.cpus c { k.cpus c with scan := i } }
  match (slots.drop (k.cpus c).scan).find? fun p => (k.proc p).state = .runnable with
  | none => scanAt k 0
  | some p => (scanAt k (p + 1)).dispatch c p

/-- One pass of the build's scheduler. -/
def scheduler (b : Build) (k : Kernel n) (c : Fin n) : Except Fault (Kernel n) :=
  match b with
  | .rr => return k.schedulerRr c
  | .lbs => return k.schedulerLbs c
  | .mlfq => k.schedulerMlfq c

end Kernel

end Xv6
