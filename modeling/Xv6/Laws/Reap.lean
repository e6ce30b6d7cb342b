import Xv6.Laws.Counters

/-!
# `wait` and `waitx` side by side

The two functions are copies of one loop. A call is a number of rounds, each a scan of the table, and
between two rounds the caller sleeps and the rest of the system does what it likes. `callRounds` is
that loop over any round, so both calls can be run from one state with one behaviour of the others.

The copies agree in everything but one: `wait` adds the counters of the child it finds to its
caller's, and `waitx` does not. So they lead to the same state, memory and value exactly when the
call ends without finding a child, or with one whose counters change nothing (`wait_waitx_iff`).
-/

namespace Xv6

open Base Base.Machine

variable {n : Nat} {k k' : Kernel n} {p q : Slot} {c : Fin n} {μ α : Type} {s : Kernel n × μ}
  {addr : Option (Int → μ → μ × Bool)} {r : (Kernel n × μ) × Option (Int × Option (Nat × Nat))}

/-! ## The calls -/

/-- The copy of the exited child's status to the address of the call: the caller's memory after it,
and whether it fails. There is no copy when the address is null or no child has exited. -/
def copyStatus (k : Kernel n) (p : Slot) (addr : Option (Int → μ → μ × Bool)) (m : μ) : μ × Bool :=
  match k.exitedChild p, addr with
  | some pp, some copyout => copyout (k.proc pp).xstate m
  | _, _ => (m, false)

/-- A round of `wait(addr)`, with the caller's memory. -/
def waitRound (c : Fin n) (p : Slot) (addr : Option (Int → μ → μ × Bool)) (s : Kernel n × μ) :
    Except Fault ((Kernel n × μ) × Option Int) := do
  let (m, copyoutFails) := copyStatus s.1 p addr s.2
  let (k, r) ← s.1.wait c p copyoutFails
  return ((k, m), r)

/-- A round of `waitx(addr, wtime, rtime)`. -/
def waitxRound (c : Fin n) (p : Slot) (addr : Option (Int → μ → μ × Bool)) (s : Kernel n × μ) :
    Except Fault ((Kernel n × μ) × Option (Int × Option (Nat × Nat))) := do
  let (m, copyoutFails) := copyStatus s.1 p addr s.2
  let (k, r) ← s.1.waitx c p copyoutFails
  return ((k, m), r)

/-- The first rounds of a call, from round `i` on. `others` is what happens while the caller sleeps
after a round, up to its next scan. No answer means that it still sleeps. -/
def callRounds {σ : Type} (round : σ → Except Fault (σ × Option α)) (others : Nat → σ → σ) :
    Nat → Nat → σ → Except Fault (σ × Option α)
  | 0, _, s => .ok (s, none)
  | rounds + 1, i, s => do
    match ← round s with
    | (s, some v) => return (s, some v)
    | (s, none) => callRounds round others rounds (i + 1) (others i s)

/-- What `waitx` reports besides the two times. -/
def dropTimes {σ : Type} (r : σ × Option (Int × Option (Nat × Nat))) : σ × Option Int :=
  (r.1, r.2.map Prod.fst)

/-- The table and the child that a call finds, if it ends by finding one. -/
def childFound (c : Fin n) (p : Slot) (addr : Option (Int → μ → μ × Bool))
    (others : Nat → Kernel n × μ → Kernel n × μ) :
    Nat → Nat → Kernel n × μ → Option (Kernel n × Slot)
  | 0, _, _ => none
  | rounds + 1, i, s =>
    match waitRound c p addr s with
    | .ok (_, some _) => (s.1.exitedChild p).map fun pp => (s.1, pp)
    | .ok (s, none) => childFound c p addr others rounds (i + 1) (others i s)
    | .error _ => none

/-! ## One round -/

/-- The caller's record with the counters of the child `pp` added. -/
def addCounts (k : Kernel n) (pp : Slot) (x : Proc) : Proc :=
  { x with syscallCount := fun i => int32 (x.syscallCount i + (k.proc pp).syscallCount i) }

/-- `dequeue` reads pids and queues, and goes past a change of anything else. -/
theorem dequeue_modify {f : Proc → Proc} (hpid : ∀ x, (f x).pid = x.pid) (k : Kernel n)
    (p pp : Slot) (q : Nat) :
    (k.modify p f).dequeue pp q = (k.dequeue pp q).map fun k' => k'.modify p f := by
  have hsame : ∀ x, ((k.modify p f).proc x).pid = (k.proc x).pid := by
    intro x
    rw [Kernel.modify_proc]
    split
    · next he => rw [he, hpid]
    · rfl
  simp only [Kernel.dequeue, hsame, Kernel.modify_multique]
  cases level q with
  | error e => rfl
  | ok q =>
    simp only [ok_bind]
    split
    · rfl
    · cases (k.multique q).removeFirst fun e => (k.proc e).pid == (k.proc pp).pid <;> rfl

theorem freeproc_addCounts (k : Kernel n) (p pp : Slot) :
    (k.modify p (addCounts k pp)).freeproc pp =
      (k.freeproc pp).map fun k' => k'.modify p (addCounts k pp) := by
  have hcomm : (k.modify p (addCounts k pp)).modify pp Proc.freed =
      (k.modify pp Proc.freed).modify p (addCounts k pp) := by
    by_cases hp : p = pp
    · subst hp
      rw [Kernel.modify_modify, Kernel.modify_modify]
      rfl
    · simp only [Kernel.modify, Function.update_of_ne hp, Function.update_of_ne (Ne.symm hp)]
      rw [Function.update_comm hp]
  have hlevel : (((k.modify pp Proc.freed).modify p (addCounts k pp)).proc pp).queueNumber =
      ((k.modify pp Proc.freed).proc pp).queueNumber := by
    rw [Kernel.modify_proc]
    split
    · next he => rw [he]; rfl
    · rfl
  simp only [Kernel.freeproc, hcomm, hlevel]
  exact dequeue_modify (f := addCounts k pp) (fun _ => rfl) _ p pp _

/-- Adding counters leaves the table alone exactly when it changes no counter. -/
theorem modify_addCounts_eq (k k' : Kernel n) (p pp : Slot) :
    k'.modify p (addCounts k pp) = k' ↔
      ∀ i, int32 ((k'.proc p).syscallCount i + (k.proc pp).syscallCount i) =
        (k'.proc p).syscallCount i := by
  constructor
  · intro h i
    have hp : (k'.modify p (addCounts k pp)).proc p = k'.proc p := by rw [h]
    rw [Kernel.modify_self] at hp
    exact congrFun (congrArg Proc.syscallCount hp) i
  · intro h
    have hp : addCounts k pp (k'.proc p) = k'.proc p := by
      rw [addCounts, funext h]
    rw [Kernel.modify, hp, Function.update_eq_self]

theorem round_none (addr : Option (Int → μ → μ × Bool)) (h : s.1.exitedChild p = none) :
    waitRound c p addr s = (waitxRound c p addr s).map dropTimes := by
  simp only [waitRound, waitxRound, Kernel.wait, Kernel.waitx, h]
  split
  · rfl
  · cases s.1.sleep c p (.proc p) <;> rfl

/-- A round that finds an exited child: `wait` does what `waitx` does and adds the counters. -/
theorem round_some (addr : Option (Int → μ → μ × Bool)) {pp : Slot}
    (h : s.1.exitedChild p = some pp) :
    waitRound c p addr s = (waitxRound c p addr s).map fun r =>
      ((r.1.1.modify p (addCounts s.1 pp), r.1.2), r.2.map Prod.fst) := by
  simp only [waitRound, waitxRound, Kernel.wait, Kernel.waitx, h]
  split
  · rfl
  · have hfree : (s.1.modify p fun x => { x with
        syscallCount := fun i => int32 (x.syscallCount i + (s.1.proc pp).syscallCount i) }).freeproc
        pp = (s.1.freeproc pp).map fun k' => k'.modify p (addCounts s.1 pp) :=
      freeproc_addCounts s.1 p pp
    rw [hfree]
    cases s.1.freeproc pp <;> rfl

/-- `waitx` leaves its caller's counters alone. -/
theorem waitxRound_counts (h : waitxRound c p addr s = .ok r) :
    (r.1.1.proc p).syscallCount = (s.1.proc p).syscallCount := by
  have hkeeps : Answers (waitxRound c p addr s) fun r =>
      (r.1.1.proc p).syscallCount = (s.1.proc p).syscallCount :=
    (waitx_keeps s.1 c p _).bind fun r h => congrArg Own.counts (h.slot p).own
  exact hkeeps.of_ok h

/-- A call that finds an exited child ends. -/
theorem waitxRound_answers {pp : Slot} (hpp : s.1.exitedChild p = some pp)
    (h : waitxRound c p addr s = .ok r) : ∃ v, r.2 = some v := by
  have hanswer : Answers (s.1.waitx c p (copyStatus s.1 p addr s.2).2) fun r =>
      ∃ v, r.2 = some v := by
    rw [Kernel.waitx, hpp]
    simp only
    split
    · exact ⟨_, rfl⟩
    · exact Answers.skip _ fun k' => ⟨_, rfl⟩
  have hround : Answers (waitxRound c p addr s) fun r => ∃ v, r.2 = some v :=
    hanswer.bind fun r hr => hr
  exact hround.of_ok h

/-! ## Whole calls -/

/-- For every process table, caller, status address and memory, and every behaviour of the others
while the caller sleeps: `wait` and `waitx` return the same value and lead to the same kernel state
and user memory exactly when adding the counters of the child the call finds, if it finds one,
changes no counter of the caller. -/
theorem wait_waitx_iff (c : Fin n) (p : Slot) (addr : Option (Int → μ → μ × Bool))
    (others : Nat → Kernel n × μ → Kernel n × μ) (rounds i : Nat) (s : Kernel n × μ) :
    callRounds (waitRound c p addr) others rounds i s =
        (callRounds (waitxRound c p addr) others rounds i s).map dropTimes ↔
      ∀ k pp, childFound c p addr others rounds i s = some (k, pp) →
        ∀ i, int32 ((k.proc p).syscallCount i + (k.proc pp).syscallCount i) =
          (k.proc p).syscallCount i := by
  induction rounds generalizing i s with
  | zero => exact iff_of_true rfl nofun
  | succ rounds ih =>
    cases hpp : s.1.exitedChild p with
    | none =>
      have hround := round_none (c := c) addr hpp
      cases hx : waitxRound c p addr s with
      | error e =>
        rw [hx] at hround
        rw [callRounds, callRounds, childFound, hround, hx]
        exact iff_of_true rfl nofun
      | ok r =>
        obtain ⟨s', v⟩ := r
        rw [hx] at hround
        rw [callRounds, callRounds, childFound, hround, hx]
        cases v with
        | some v =>
          refine iff_of_true rfl fun k pp h => ?_
          simp only [Except.map, dropTimes, Option.map_some, hpp, Option.map_none] at h
          cases h
        | none => exact ih (i + 1) (others i s')
    | some pp =>
      have hround := round_some (c := c) addr hpp
      cases hx : waitxRound c p addr s with
      | error e =>
        rw [hx] at hround
        rw [callRounds, callRounds, childFound, hround, hx]
        exact iff_of_true rfl nofun
      | ok r =>
        have hcounts := waitxRound_counts hx
        obtain ⟨v, hv⟩ := waitxRound_answers hpp hx
        obtain ⟨⟨k', m'⟩, r⟩ := r
        cases hv
        rw [hx] at hround
        rw [callRounds, callRounds, childFound, hround, hx]
        -- both calls end here, and their states differ in the caller's counters only
        have hstate : k'.modify p (addCounts s.1 pp) = k' ↔ ∀ i,
            int32 ((s.1.proc p).syscallCount i + (s.1.proc pp).syscallCount i) =
              (s.1.proc p).syscallCount i := by
          rw [modify_addCounts_eq, hcounts]
        change (Except.ok ((k'.modify p (addCounts s.1 pp), m'), some v.1) : Except Fault _) =
          .ok ((k', m'), some v.1) ↔ ∀ k q, (s.1.exitedChild p).map (fun pp => (s.1, pp)) =
            some (k, q) → _
        rw [hpp]
        constructor
        · rintro h k q ⟨⟩
          injection h with h
          exact hstate.1 (congrArg (fun r => r.1.1) h)
        · intro h
          rw [hstate.2 (h s.1 pp rfl)]

/-- The first process forks a child, which exits. `wait` then adds the child's only system call to the
caller's counters, and `waitx` reaps the same child and forgets it. -/
theorem waitx_forgets : ∃ k : Kernel 1, (system mlfqConfig 1).Reachable k ∧
    (callRounds (waitRound (μ := Unit) 0 0 none) (fun _ s => s) 1 0 (k, ())).map
        (fun r => (r.2, (r.1.1.proc 0).syscallCount 2)) = .ok (some 2, 1) ∧
      ((callRounds (waitxRound (μ := Unit) 0 0 none) (fun _ s => s) 1 0 (k, ())).map dropTimes).map
        (fun r => (r.2, (r.1.1.proc 0).syscallCount 2)) = .ok (some 2, 0) := by
  obtain ⟨steps, k, hrun, htest⟩ := exists_run (M := system mlfqConfig 1)
    (forkRun 0 1 3 ++ [.syscall 0 zeroRegs 2, .exit 0 0, .scheduler 0, .resume 0])
    (fun _ k =>
      decide ((callRounds (waitRound (μ := Unit) 0 0 none) (fun _ s => s) 1 0 (k, ())).map
        (fun r => (r.2, (r.1.1.proc 0).syscallCount 2)) = .ok (some 2, 1)) &&
      decide (((callRounds (waitxRound (μ := Unit) 0 0 none) (fun _ s => s) 1 0 (k, ())).map
        dropTimes).map (fun r => (r.2, (r.1.1.proc 0).syscallCount 2)) = .ok (some 2, 0)))
    (by decide +kernel)
  simp only [Bool.and_eq_true, decide_eq_true_eq] at htest
  exact ⟨k, ⟨steps, hrun⟩, htest⟩

end Xv6
