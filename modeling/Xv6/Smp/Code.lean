import Xv6.Smp.Control

/-!
# The kernel at lock granularity: what the code does

One step of each piece of code. A step is a lock operation, or the code between two of them; the
dispatch of a process and the life of a slot inside `allocproc` are cut finer, at every assignment
to `p->state` and `c->proc`. A lock that is taken is waited for by a step that changes nothing.
`enqueue` and `dequeue` are single steps. The fields are those of `Kernel` and the assignments to
them its own functions, where one function is one critical section.
-/

namespace Xv6.Smp

open Base

variable {n : Nat} {α : Type}

/-- What code outside this model answers. -/
structure Outcome extends Alloc where
  /-- `uvmcopy` finds memory for the child -/
  uvmcopy : Bool
  /-- the status address is not null and the copy to it fails -/
  copyoutFails : Bool

namespace Memory

/-! ## Locks -/

/-- `acquire(lk)` on CPU `c`, going on at `taken`, or spinning at `spin` while another CPU holds the
lock. -/
def acquire (m : Memory n) (c : Fin n) (lk : Lock) (spin taken : α) :
    Except Fault (Memory n × α) :=
  match m.lock lk with
  | none => .ok ({ m with lock := Function.update m.lock lk (some c) }, taken)
  | some d => if d = c then .error (.panic "acquire") else .ok (m, spin)

/-- `release(lk)` on CPU `c`, going on at `next`. -/
def release (m : Memory n) (c : Fin n) (lk : Lock) (next : α) : Except Fault (Memory n × α) :=
  if m.lock lk = some c then .ok ({ m with lock := Function.update m.lock lk none }, next)
  else .error (.panic "release")

/-- The head of a loop over the table that takes each slot's lock. -/
def visit (m : Memory n) (c : Fin n) (i : Nat) (spin : α) (taken : Slot → α) (done : α) :
    Except Fault (Memory n × α) :=
  if h : i < NPROC then m.acquire c (.proc ⟨i, h⟩) spin (taken ⟨i, h⟩) else .ok (m, done)

/-- Change the kernel's variables by code that may fault, and go on. -/
def update (m : Memory n) (k : Except Fault (Kernel n)) (next : α) :
    Except Fault (Memory n × α) := do
  return ({ m with k := ← k }, next)

/-- `struct proc *p = myproc()`, and code that follows the pointer. -/
def onProc (m : Memory n) (c : Fin n) (f : Slot → Except Fault α) : Except Fault α :=
  match m.k.myproc c with
  | none => .error (.null "myproc")
  | some p => f p

end Memory

/-! ## Shared code -/

/-- One step of a handler's loop. No further code means that it returns. -/
def Task.step (m : Memory n) (c : Fin n) : Task → Except Fault (Memory n × Option Task)
  | .clockintr =>
    m.update (.ok { m.k with ticks := uint32 (m.k.ticks + 1) }) (some (.updateTime 0))
  | .updateTime i =>
    m.visit c i (some (.updateTime i)) (fun p => some (.updateTimeIn p))
      (some (.wakeup .ticks [] 0))
  | .updateTimeIn p => m.update (.ok (m.k.updateTimeOne p)) (some (.updateTimeOut p))
  | .updateTimeOut p => m.release c (.proc p) (some (.updateTime (p + 1)))
  | .wakeup chan more i =>
    if (m.k.myproc c).map Fin.val = some i then .ok (m, some (.wakeup chan more (i + 1)))
    else m.visit c i (some (.wakeup chan more i)) (fun p => some (.wakeupIn chan more p))
      (match more with
        | [] => none
        | chan :: more => some (.wakeup chan more 0))
  | .wakeupIn chan more p =>
    m.update (m.k.wakeupOne (m.k.myproc c) chan p) (some (.wakeupOut chan more p))
  | .wakeupOut chan more p => m.release c (.proc p) (some (.wakeup chan more (p + 1)))

/-- Where `allocproc` goes on: in its own code, or back in its caller. -/
inductive AllocNext
  | more (a : AllocPc)
  /-- it returns 0 -/
  | failed
  /-- it returns `p`, with its lock held -/
  | made (p : Slot)

/-- `p->tickets` as `allocproc` sets it. -/
def inheritedTickets (k : Kernel n) (p : Slot) : Int :=
  match (k.proc p).parent with
  | some pp => (k.proc pp).tickets
  | none => 1

/-- One step of `allocproc`. -/
def AllocPc.step (m : Memory n) (c : Fin n) (o : Alloc) :
    AllocPc → Except Fault (Memory n × AllocNext)
  | .next i => m.visit c i (.more (.next i)) (fun p => .more (.test p)) .failed
  | .test p =>
    if (m.k.proc p).state = .unused then .ok (m, .more (.pid p)) else .ok (m, .more (.skip p))
  | .skip p => m.release c (.proc p) (.more (.next (p + 1)))
  | .pid p =>
    m.update (do
      let (newpid, k) ← m.k.allocpid
      return k.modify p fun x => { x with pid := newpid }) (.more (.used p))
  | .used p =>
    m.update (.ok (m.k.modify p fun x => { x with state := .used })) (.more (.pages p))
  | .pages p =>
    if !o.trapframe then m.update (m.k.freeproc p) (.more (.undo p))
    else
      let k := m.k.modify p fun x => { x with trapframe := .junk }
      if !o.pagetable then m.update (k.freeproc p) (.more (.undo p))
      else m.update (.ok k) (.more (.init p))
  | .undo p => m.release c (.proc p) .failed
  | .init p =>
    { m with thread := Function.update m.thread p .fresh }.update
      (.ok (m.k.modify p fun x => x.fresh (inheritedTickets m.k p) m.k.ticks)) (.made p)

/-! ## The scheduler -/

/-- Where a scheduler goes on after it is done with slot `p`. -/
def SchedPc.after (b : Build) (p : Slot) : SchedPc :=
  match b with
  | .rr => .rr (p + 1)
  | .lbs | .mlfq => .loop

/-- The start of a pass. -/
def SchedPc.pass : Build → SchedPc
  | .rr => .rr 0
  | .lbs => .total 0 0
  | .mlfq => .requeue 0

/-- One step of `main` and `scheduler`, the context switch apart. -/
def SchedPc.step (b : Build) (m : Memory n) (c : Fin n) (o : Outcome) :
    SchedPc → Except Fault (Memory n × SchedPc)
  | .boot =>
    if c.val = 0 then .ok (m, .userinit (.next 0))
    else if m.started then .ok (m, .start) else .ok (m, .boot)
  | .userinit a => do
    match ← a.step m c o.toAlloc with
    | (m, .more a) => return (m, .userinit a)
    | (_, .failed) => .error (.null "initproc")
    | (m, .made p) => return (m, .userinitIn p)
  | .userinitIn p =>
    m.update (({ m.k with initproc := some p }.modify p fun x =>
      { x with
        trapframe := { x.trapframe with
          epc := 0, regs := Function.update x.trapframe.regs .sp 4096 }
        state := .runnable, tickets := 1 }).enqueue p 0) (.userinitOut p)
  | .userinitOut p => { m with started := true }.release c (.proc p) .start
  | .start => m.update (.ok (m.k.setCpu c none)) .loop
  | .loop => .ok (m, .pass b)
  -- LBS
  | .total i sum => m.visit c i (.total i sum) (fun p => .totalIn p sum) (.draw sum)
  | .totalIn p sum =>
    if (m.k.proc p).state = .runnable then
      .ok (m, .totalOut p (int32 (sum + (m.k.proc p).tickets)))
    else .ok (m, .totalOut p sum)
  | .totalOut p sum => m.release c (.proc p) (.total (p + 1) sum)
  | .draw sum =>
    if 0 < sum then
      m.update (.ok { m.k with seed := lcg m.k.seed }) (.scan 0 (drawValue (lcg m.k.seed) sum) 0)
    else .ok (m, .loop)
  | .scan i value sum =>
    if h : i < NPROC then
      let x := m.k.proc ⟨i, h⟩
      if x.state = .runnable then
        if value ≤ int32 (sum + x.tickets) then .ok (m, .tie 0 ⟨i, h⟩)
        else .ok (m, .scan (i + 1) value (int32 (sum + x.tickets)))
      else .ok (m, .scan (i + 1) value sum)
    else .ok (m, .loop)
  | .tie i winner =>
    if h : i < NPROC then
      let x := m.k.proc ⟨i, h⟩
      if x.state ≠ .runnable ∨ x.tickets ≠ (m.k.proc winner).tickets then
        .ok (m, .tie (i + 1) winner)
      else if x.arrivalTime < (m.k.proc winner).arrivalTime then .ok (m, .tie (i + 1) ⟨i, h⟩)
      else .ok (m, .tie (i + 1) winner)
    else .ok (m, .pick winner)
  -- MLFQ
  | .requeue i => m.visit c i (.requeue i) .requeueIn (.search 0 0)
  | .requeueIn p => m.update (m.k.requeueOne p) (.requeueOut p)
  | .requeueOut p => m.release c (.proc p) (.requeue (p + 1))
  | .search q j =>
    if h : q < 4 then do
      if j < (m.k.multique ⟨q, h⟩).size then
        let p ← (m.k.multique ⟨q, h⟩).deref j
        if (m.k.proc p).state = .runnable then return (m, .pick p)
        else return (m, .search q (j + 1))
      else return (m, .search (q + 1) 0)
    else .ok (m, .loop)
  -- RR
  | .rr i => m.visit c i (.rr i) .test .loop
  -- the dispatch
  | .pick p => m.acquire c (.proc p) (.pick p) (.test p)
  | .test p =>
    if (m.k.proc p).state = .runnable then
      m.update (.ok (m.k.modify p fun x => { x with state := .running })) (.chosen p)
    else .ok (m, .drop p)
  | .chosen p => m.update (.ok (m.k.setCpu c (some p))) (.loaded p)
  | .loaded p => .ok (m, .parked p)
  | .parked p => m.update (.ok (m.k.setCpu c none)) (.drop p)
  | .drop p => m.release c (.proc p) (.after b p)

/-! ## A process -/

/-- What a step leaves to do for the thread of a process. -/
inductive Next
  /-- it stays on the CPU -/
  | go (st : Stack)
  /-- it has called `sched`, whose `swtch` will return into this stack -/
  | swtch (st : Stack)

/-- Return to the calling function. -/
def ret (rest : List Below) : Except Fault Next :=
  match rest with
  | [] => .error (.null "return address")
  | f :: rest => .ok (.go ⟨f.1, rest⟩)

/-- Whether CPU `c` holds no lock but that of `p`, which is what `noff == 1` says inside `sched`. -/
def onlyLock (m : Memory n) (c : Fin n) (p : Slot) : Bool :=
  m.lock .wait ≠ some c && slots.all fun q => q = p || m.lock (.proc q) ≠ some c

/-- `sched()`. -/
def sched (m : Memory n) (c : Fin n) (p : Slot) (st : Stack) : Except Fault (Memory n × Next) :=
  if m.lock (.proc p) ≠ some c then .error (.panic "sched p->lock")
  else if !onlyLock m c p then .error (.panic "sched locks")
  else if (m.k.proc p).state = .running then .error (.panic "sched running")
  else .ok (m, .swtch st)

/-- What follows the answer of `killed(p)`. -/
def AfterKilled.next (rest : List Below) (p : Slot) : AfterKilled → Bool → Stack
  | .wait, true => ⟨.waitEnd { value := -1 }, rest⟩
  | .wait, false => ⟨.sleep (.proc p) .wait, ⟨.waitScan false 0 false, rfl⟩ :: rest⟩
  | _, true => ⟨.exit (-1), rest⟩
  | .syscall, false => ⟨.kernel none, rest⟩
  | .trap true, false => ⟨.timer, rest⟩
  | _, false => ⟨.usertrapret, rest⟩

/-- What `wait` adds to the counters of `p` when it finds the exited child `pp`. `waitx` adds
nothing. -/
def takeCounts (k : Kernel n) (x : Bool) (p pp : Slot) : Kernel n :=
  if x then k
  else k.modify p fun y =>
    { y with syscallCount := fun i => int32 (y.syscallCount i + (k.proc pp).syscallCount i) }

/-- One step of `wait` and `waitx` at a child whose lock is held. -/
def waitChild (m : Memory n) (x : Bool) (p pp : Slot) (copyoutFails : Bool) :
    Except Fault (Memory n × Frame) :=
  let child := m.k.proc pp
  if child.state = .zombie then
    let times := if x then
        some (uint32 (child.etime + 2 * 2 ^ 32 - child.ctime - child.rtime), child.rtime)
      else none
    let k := takeCounts m.k x p pp
    if copyoutFails then m.update (.ok k) (.waitFound pp ⟨-1, times⟩)
    else m.update (k.freeproc pp) (.waitFound pp ⟨child.pid, times⟩)
  else .ok (m, .waitOut x pp)

/-- One step of `kill(pid)` at a slot whose lock is held. -/
def killSlot (m : Memory n) (pid : Int) (p : Slot) : Except Fault (Memory n × Frame) :=
  if (m.k.proc p).pid = pid then
    let k := m.k.modify p fun x => { x with killed := true }
    if (k.proc p).state = .sleeping then
      let k := k.modify p fun x => { x with state := .runnable }
      m.update (k.enqueue p (k.proc p).queueNumber) (.killOut p)
    else m.update (.ok k) (.killOut p)
  else .ok (m, .killSkip pid p)

/-- Go on at a frame in place of the top one. -/
def jump (rest : List Below) (r : Except Fault (Memory n × Frame)) :
    Except Fault (Memory n × Next) := do
  let (m, f) ← r
  return (m, .go ⟨f, rest⟩)

/-- One step of a process's thread on CPU `c`, in the function `f`; `p` is `myproc()`. -/
def Frame.step (b : Build) (m : Memory n) (c : Fin n) (p : Slot) (o : Outcome) (f : Frame)
    (rest : List Below) : Except Fault (Memory n × Next) :=
  match f with
  | .user => .ok (m, .go ⟨.user, rest⟩)
  | .kernel v => .ok (m, .go ⟨.kernel v, rest⟩)
  | .task t => do
    match ← t.step m c with
    | (m, some t) => return (m, .go ⟨.task t, rest⟩)
    | (m, none) => return (m, ← ret rest)
  | .kerneltrap tick =>
    if tick ∧ (m.k.proc p).state = .running then .ok (m, .go ⟨.yield, rest⟩)
    else do return (m, ← ret rest)
  -- killed, setkilled
  | .killed a => jump rest (m.acquire c (.proc p) (.killed a) (.killedIn a))
  | .killedIn a => .ok (m, .go ⟨.killedOut a (m.k.proc p).killed, rest⟩)
  | .killedOut a answer => m.release c (.proc p) (.go (a.next rest p answer))
  | .setkilled => jump rest (m.acquire c (.proc p) .setkilled .setkilledIn)
  | .setkilledIn => jump rest (m.update (.ok (m.k.setkilled p)) .setkilledOut)
  | .setkilledOut => jump rest (m.release c (.proc p) (.killed (.trap false)))
  -- the timer branch of usertrap
  | .timer =>
    match b with
    | .mlfq =>
      let k := m.k.modify p fun x => { x with queueticks := x.queueticks + 1 }
      jump rest (m.update (.ok k) (if k.ticks % 48 = 0 then .boost 1 0 else .slice))
    | _ => .ok (m, .go ⟨.yield, ⟨.usertrapret, rfl⟩ :: rest⟩)
  | .boost q j =>
    if h : q < 4 then do
      if j < (m.k.multique ⟨q, h⟩).size then
        let temp ← (m.k.multique ⟨q, h⟩).deref j
        jump rest (m.update (m.k.dequeue temp (m.k.proc temp).queueNumber) (.boostPut q j temp))
      else return (m, .go ⟨.boost (q + 1) 0, rest⟩)
    else .ok (m, .go ⟨.slice, rest⟩)
  | .boostPut q j temp => jump rest (m.update (m.k.enqueue temp 0) (.boost q (j + 1)))
  | .slice => do
    let q ← level (m.k.proc p).queueNumber
    if timesliceq q ≤ (m.k.proc p).queueticks then
      jump rest (m.update (m.k.dequeue p (m.k.proc p).queueNumber) .demote)
    else return (m, .go ⟨.preempt 0, rest⟩)
  | .demote => do
    let npriority := (m.k.proc p).queueNumber + 1
    let npriority := if 3 < npriority then npriority - 1 else npriority
    let k ← m.k.enqueue p npriority
    return ({ m with k := k }, .go ⟨.yield, ⟨.preempt 0, rfl⟩ :: rest⟩)
  | .preempt i =>
    if i < (m.k.proc p).queueNumber then do
      let q ← level i
      if 0 < (m.k.multique q).size then
        return (m, .go ⟨.yield, ⟨.preempt (i + 1), rfl⟩ :: rest⟩)
      else return (m, .go ⟨.preempt (i + 1), rest⟩)
    else .ok (m, .go ⟨.usertrapret, rest⟩)
  | .usertrapret => .ok (m, .go ⟨.user, rest⟩)
  -- yield, forkret
  | .yield => jump rest (m.acquire c (.proc p) .yield .yieldIn)
  | .yieldIn =>
    jump rest (m.update (.ok (m.k.modify p fun x => { x with state := .runnable })) .yieldSched)
  | .yieldSched => sched m c p ⟨.yieldOut, rest⟩
  | .yieldOut => do m.release c (.proc p) (← ret rest)
  | .forkret => jump rest (m.release c (.proc p) .forkretFirst)
  | .forkretFirst =>
    if m.k.first then jump rest (m.update (.ok { m.k with first := false }) (.kernel none))
    else .ok (m, .go ⟨.usertrapret, rest⟩)
  -- sleep
  | .sleep chan lk => jump rest (m.acquire c (.proc p) (.sleep chan lk) (.sleepIn chan lk))
  | .sleepIn chan lk =>
    match lk with
    | .wait => jump rest (m.release c .wait (.sleepSet chan lk))
    | .other => .ok (m, .go ⟨.sleepSet chan lk, rest⟩)
  | .sleepSet chan lk =>
    let k := m.k.modify p fun x => { x with chan := chan, state := .sleeping }
    jump rest (m.update (k.dequeue p (k.proc p).queueNumber) (.sleepSched lk))
  | .sleepSched lk => sched m c p ⟨.sleepTidy lk, rest⟩
  | .sleepTidy lk =>
    jump rest (m.update (.ok (m.k.modify p fun x => { x with chan := .null })) (.sleepOut lk))
  | .sleepOut lk => jump rest (m.release c (.proc p) (.sleepBack lk))
  | .sleepBack lk =>
    match lk with
    | .wait => do m.acquire c .wait (.go ⟨.sleepBack lk, rest⟩) (← ret rest)
    | .other => do return (m, ← ret rest)
  -- fork
  | .alloc a => do
    match ← a.step m c o.toAlloc with
    | (m, .more a) => return (m, .go ⟨.alloc a, rest⟩)
    | (m, .failed) => return (m, .go ⟨.kernel (some { value := -1 }), rest⟩)
    | (m, .made np) => return (m, .go ⟨.forkCopy np, rest⟩)
  | .forkCopy np =>
    if !o.uvmcopy then jump rest (m.update (m.k.freeproc np) (.forkUndo np))
    else jump rest (m.update (.ok (m.k.modify np fun x =>
      { x with trapframe := { (m.k.proc p).trapframe with
          regs := Function.update (m.k.proc p).trapframe.regs .a0 0 } }))
      (.forkOut np (m.k.proc np).pid))
  | .forkUndo np => jump rest (m.release c (.proc np) (.kernel (some { value := -1 })))
  | .forkOut np pid => jump rest (m.release c (.proc np) (.forkWait np pid))
  | .forkWait np pid => jump rest (m.acquire c .wait (.forkWait np pid) (.forkParent np pid))
  | .forkParent np pid =>
    jump rest (m.update (.ok (m.k.modify np fun x => { x with parent := some p }))
      (.forkWaitOut np pid))
  | .forkWaitOut np pid => jump rest (m.release c .wait (.forkLock np pid))
  | .forkLock np pid => jump rest (m.acquire c (.proc np) (.forkLock np pid) (.forkIn np pid))
  | .forkIn np pid =>
    jump rest (m.update ((m.k.modify np fun x => { x with state := .runnable }).enqueue np 0)
      (.forkDone np pid))
  | .forkDone np pid => jump rest (m.release c (.proc np) (.kernel (some { value := pid })))
  -- exit
  | .exit status =>
    if m.k.initproc = some p then .error (.panic "init exiting")
    else .ok (m, .go ⟨.exitFiles status, rest⟩)
  | .exitFiles status => .ok (m, .go ⟨.exitWait status, rest⟩)
  | .exitWait status => jump rest (m.acquire c .wait (.exitWait status) (.reparent status 0))
  | .reparent status i =>
    if h : i < NPROC then
      if (m.k.proc ⟨i, h⟩).parent = some p then
        let k := m.k.modify ⟨i, h⟩ fun x => { x with parent := m.k.initproc }
        .ok ({ m with k := k }, .go ⟨.task (.wakeup (Chan.ofProc m.k.initproc) [] 0),
          ⟨.reparent status (i + 1), rfl⟩ :: rest⟩)
      else .ok (m, .go ⟨.reparent status (i + 1), rest⟩)
    else .ok (m, .go ⟨.exitWake status, rest⟩)
  | .exitWake status =>
    .ok (m, .go ⟨.task (.wakeup (Chan.ofProc (m.k.proc p).parent) [] 0),
      ⟨.exitLock status, rfl⟩ :: rest⟩)
  | .exitLock status => jump rest (m.acquire c (.proc p) (.exitLock status) (.exitIn status))
  | .exitIn status =>
    let k := m.k.modify p fun x =>
      { x with xstate := status, state := .zombie, etime := m.k.ticks }
    jump rest (m.update (k.dequeue p (k.proc p).queueNumber) .exitWaitOut)
  | .exitWaitOut => jump rest (m.release c .wait .exitSched)
  | .exitSched => sched m c p ⟨.zombie, rest⟩
  | .zombie => .error (.panic "zombie exit")
  -- wait, waitx
  | .wait x => jump rest (m.acquire c .wait (.wait x) (.waitScan x 0 false))
  | .waitScan x i havekids =>
    if h : i < NPROC then
      if (m.k.proc ⟨i, h⟩).parent = some p then .ok (m, .go ⟨.waitLock x ⟨i, h⟩, rest⟩)
      else .ok (m, .go ⟨.waitScan x (i + 1) havekids, rest⟩)
    else .ok (m, .go ⟨.waitNone x havekids, rest⟩)
  | .waitLock x pp => jump rest (m.acquire c (.proc pp) (.waitLock x pp) (.waitIn x pp))
  | .waitIn x pp => jump rest (waitChild m x p pp o.copyoutFails)
  | .waitOut x pp => jump rest (m.release c (.proc pp) (.waitScan x (pp + 1) true))
  | .waitFound pp r => jump rest (m.release c (.proc pp) (.waitEnd r))
  | .waitNone x havekids =>
    if !havekids then .ok (m, .go ⟨.waitEnd { value := -1 }, rest⟩)
    else if !x then .ok (m, .go ⟨.killed .wait, rest⟩)
    else if (m.k.proc p).killed then .ok (m, .go ⟨.waitEnd { value := -1 }, rest⟩)
    else .ok (m, .go ⟨.sleep (.proc p) .wait, ⟨.waitScan true 0 false, rfl⟩ :: rest⟩)
  | .waitEnd r => jump rest (m.release c .wait (.kernel (some r)))
  -- kill
  | .kill pid i =>
    jump rest (m.visit c i (.kill pid i) (.killIn pid) (.kernel (some { value := -1 })))
  | .killIn pid q => jump rest (killSlot m pid q)
  | .killSkip pid q => jump rest (m.release c (.proc q) (.kill pid (q + 1)))
  | .killOut q => jump rest (m.release c (.proc q) (.kernel (some { value := 0 })))

end Xv6.Smp
