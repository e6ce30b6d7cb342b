import Xv6.Smp.System

/-!
# Reading a step backwards

What it takes for each building block of the code to answer, and what the answer is then. The
queues are of no concern to the laws about locks, states and the process tree: `Requeued` relates
two states of the kernel's variables that differ in the queues, and in the two fields of a record
that belong to them, and it is all that is said of `enqueue` and `dequeue`.
-/

namespace Xv6.Smp

open Base

variable {n : Nat} {α : Type} {m m' : Memory n} {c : Fin n} {a : α}

/-- A sequence answers when its parts do. -/
theorem bind_ok {ε β : Type} {r : Except ε α} {f : α → Except ε β} {v : β}
    (h : r >>= f = .ok v) : ∃ a, r = .ok a ∧ f a = .ok v := by
  cases r with
  | error e => cases h
  | ok a => exact ⟨a, rfl, h⟩

/-! ## Locks -/

/-- A CPU takes a free lock, or waits for another CPU. -/
theorem acquire_ok {lk : Lock} {spin taken : α}
    (h : m.acquire c lk spin taken = .ok (m', a)) :
    (m' = m ∧ a = spin) ∨
      (m.lock lk = none ∧ m' = { m with lock := Function.update m.lock lk (some c) } ∧
        a = taken) := by
  rw [Memory.acquire] at h
  split at h
  · next hfree =>
    cases h
    exact .inr ⟨hfree, rfl, rfl⟩
  · split at h
    · cases h
    · cases h
      exact .inl ⟨rfl, rfl⟩

/-- A CPU releases a lock it holds. -/
theorem release_ok {lk : Lock} {next : α} (h : m.release c lk next = .ok (m', a)) :
    m.lock lk = some c ∧ m' = { m with lock := Function.update m.lock lk none } ∧ a = next := by
  rw [Memory.release] at h
  split at h
  · next hheld =>
    cases h
    exact ⟨hheld, rfl, rfl⟩
  · cases h

/-- A loop over the table waits for a slot's lock, takes it, or ends. -/
theorem visit_ok {i : Nat} {spin : α} {taken : Slot → α} {done : α}
    (h : m.visit c i spin taken done = .ok (m', a)) :
    (m' = m ∧ i < NPROC ∧ a = spin) ∨
      (∃ hi : i < NPROC, m.lock (.proc ⟨i, hi⟩) = none ∧
        m' = { m with lock := Function.update m.lock (.proc ⟨i, hi⟩) (some c) } ∧
        a = taken ⟨i, hi⟩) ∨
      (m' = m ∧ NPROC ≤ i ∧ a = done) := by
  rw [Memory.visit] at h
  split at h
  · next hi =>
    rcases acquire_ok h with ⟨hm, ha⟩ | hrest
    · exact .inl ⟨hm, hi, ha⟩
    · exact .inr (.inl ⟨hi, hrest⟩)
  · next hi =>
    cases h
    exact .inr (.inr ⟨rfl, Nat.le_of_not_lt hi, rfl⟩)

theorem update_ok {k : Except Fault (Kernel n)} {next : α}
    (h : m.update k next = .ok (m', a)) : ∃ k', k = .ok k' ∧ m' = { m with k := k' } ∧ a = next := by
  cases k with
  | error e => cases h
  | ok k' =>
    cases h
    exact ⟨k', rfl, rfl, rfl⟩

theorem update_val {k : Kernel n} {next : α} (h : m.update (.ok k) next = .ok (m', a)) :
    m' = { m with k := k } ∧ a = next := by
  cases h
  exact ⟨rfl, rfl⟩

theorem jump_ok {rest : List Below} {r : Except Fault (Memory n × Frame)} {next : Next}
    (h : jump rest r = .ok (m', next)) : ∃ f, r = .ok (m', f) ∧ next = .go ⟨f, rest⟩ := by
  cases r with
  | error e => cases h
  | ok v =>
    cases h
    exact ⟨v.2, rfl, rfl⟩

theorem ret_ok {rest : List Below} {next : Next} (h : ret rest = .ok next) :
    ∃ f rest', rest = f :: rest' ∧ next = .go ⟨f.1, rest'⟩ := by
  cases rest with
  | nil => cases h
  | cons f rest' =>
    cases h
    exact ⟨f, rest', rfl, rfl⟩

/-- A process switches to the scheduler holding its own lock and no other, and not running. -/
theorem sched_ok {p : Slot} {st : Stack} {next : Next} (h : sched m c p st = .ok (m', next)) :
    m.lock (.proc p) = some c ∧ m.lock .wait ≠ some c ∧ (m.k.proc p).state ≠ .running ∧
      m' = m ∧ next = .swtch st := by
  rw [sched] at h
  split at h
  · cases h
  · next hlock =>
    split at h
    · cases h
    · next honly =>
      split at h
      · cases h
      · next hstate =>
        cases h
        simp only [onlyLock, Bool.not_eq_true, Bool.not_eq_false', Bool.and_eq_true,
          decide_eq_true_eq] at honly
        exact ⟨not_not.mp hlock, honly.1, hstate, rfl, rfl⟩

/-! ## The queues -/

/-- A record without what belongs to its place in the queues. -/
def unqueued (x : Proc) : Proc := { x with queueticks := 0, queueNumber := 0 }

/-- Two states of the variables that differ in the queues. -/
structure Requeued (k k' : Kernel n) : Prop where
  proc : ∀ q, unqueued (k'.proc q) = unqueued (k.proc q)
  cpus : k'.cpus = k.cpus
  initproc : k'.initproc = k.initproc
  nextpid : k'.nextpid = k.nextpid
  ticks : k'.ticks = k.ticks

namespace Requeued

variable {k k' k'' : Kernel n}

theorem refl (k : Kernel n) : Requeued k k := ⟨fun _ => rfl, rfl, rfl, rfl, rfl⟩

theorem trans (h : Requeued k k') (h' : Requeued k' k'') : Requeued k k'' :=
  ⟨fun q => (h'.proc q).trans (h.proc q), h'.cpus.trans h.cpus, h'.initproc.trans h.initproc,
    h'.nextpid.trans h.nextpid, h'.ticks.trans h.ticks⟩

/-- A record changes in its queue fields only. -/
theorem modify (k : Kernel n) {p : Slot} {f : Proc → Proc}
    (hf : unqueued (f (k.proc p)) = unqueued (k.proc p)) : Requeued k (k.modify p f) := by
  refine ⟨fun q => ?_, rfl, rfl, rfl, rfl⟩
  rw [Kernel.modify_proc]
  split
  · next he => rw [he, hf]
  · rfl

theorem field {β : Type} (h : Requeued k k') (g : Proc → β)
    (hg : ∀ x, g (unqueued x) = g x) (q : Slot) : g (k'.proc q) = g (k.proc q) := by
  rw [← hg, h.proc, hg]

theorem state (h : Requeued k k') (q : Slot) : (k'.proc q).state = (k.proc q).state :=
  h.field Proc.state (fun _ => rfl) q

end Requeued

variable {k : Kernel n}

theorem enqueue_requeued (p : Slot) (q : Nat) : Answers (k.enqueue p q) (Requeued k) := by
  rw [Kernel.enqueue]
  refine Answers.skip _ fun q => Answers.skip _ fun found => ?_
  split
  · exact .refl k
  · refine Answers.skip _ fun a => ?_
    have hqueue : Requeued k { k with multique := Function.update k.multique q a } :=
      ⟨fun _ => rfl, rfl, rfl, rfl, rfl⟩
    exact hqueue.trans (.modify _ rfl)

theorem dequeue_requeued (p : Slot) (q : Nat) : Answers (k.dequeue p q) (Requeued k) := by
  rw [Kernel.dequeue]
  refine Answers.skip _ fun q => ?_
  split
  · exact Requeued.refl k
  · exact Answers.skip _ fun a => ⟨fun _ => rfl, rfl, rfl, rfl, rfl⟩

theorem requeueOne_requeued (p : Slot) : Answers (k.requeueOne p) (Requeued k) := by
  rw [Kernel.requeueOne]
  split
  · refine (enqueue_requeued p _).bind fun k' h => ?_
    exact h.trans (.modify k' rfl)
  · exact Requeued.refl k

/-- `wakeup` changes the state of a slot it wakes. -/
theorem wakeupOne_requeued (me : Option Slot) (chan : Chan) (p : Slot) :
    Answers (k.wakeupOne me chan p) fun k' =>
      (some p ≠ me ∧ (k.proc p).state = .sleeping ∧ (k.proc p).chan = chan ∧
        Requeued (k.modify p fun x => { x with state := .runnable }) k') ∨
      (¬ (some p ≠ me ∧ (k.proc p).state = .sleeping ∧ (k.proc p).chan = chan) ∧ k' = k) := by
  rw [Kernel.wakeupOne]
  split
  · next hc =>
    refine (enqueue_requeued p _).bind fun k' h => ?_
    exact .inl ⟨hc.1, hc.2.1, hc.2.2, h.trans (.modify k' rfl)⟩
  · next hc => exact Or.inr ⟨hc, rfl⟩

/-- The counters are the only field `takeCounts` changes. -/
theorem takeCounts_field {β : Type} (g : Proc → β)
    (hg : ∀ (x : Proc) (counts : Fin 32 → Int), g { x with syscallCount := counts } = g x)
    (x : Bool) (p pp q : Slot) : g ((takeCounts k x p pp).proc q) = g (k.proc q) := by
  rw [takeCounts]
  split
  · rfl
  · rw [Kernel.modify_proc]
    split
    · next he => rw [he, hg]
    · rfl

theorem takeCounts_cpus (x : Bool) (p pp : Slot) : (takeCounts k x p pp).cpus = k.cpus := by
  rw [takeCounts]
  split <;> rfl

theorem freeproc_requeued (p : Slot) :
    Answers (k.freeproc p) (Requeued (k.modify p Proc.freed)) :=
  dequeue_requeued p _

end Xv6.Smp
