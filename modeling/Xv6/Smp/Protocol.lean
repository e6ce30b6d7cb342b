import Xv6.Kernel.Proc

/-!
# The protocol of the process slots

What the locking of the process code is for, without the code. CPUs of any type share slots of any
type. A slot has a state and a lock; a CPU has the slot it calls its own, and executes a thread: its
scheduler, or the thread that belongs to a slot. Of a thread only its `Turn` matters, which is what
it is about to do with the one slot whose lock it holds.

The point of the protocol is that a lock is taken by one thread and released by another. A scheduler
takes a slot's lock, marks the slot running, and switches to its thread, which releases the lock;
the thread takes the lock again, changes the slot's state, and switches back to the scheduler, which
releases it. In between nobody may take the slot for idle. `Inv` says why: every state but the plain
running one is covered by a lock whose holder knows it.

The creation of a slot's thread is the second concern. A slot taken into use is let go of half-made
and taken up again by its maker, without a lock in between; `claims` are the slots a thread has in
hand this way, and nobody else may touch their state.
-/

namespace Xv6.Smp

open Function

/-- What a thread is about to do with the slot whose lock it holds. -/
inductive Turn (σ : Type)
  /-- it holds no slot's lock -/
  | out
  /-- it holds the lock and has changed nothing -/
  | holds (q : σ)
  /-- it has found the slot unused -/
  | found (q : σ)
  /-- it has taken the slot into use -/
  | making (q : σ)
  /-- a scheduler that has marked the slot running -/
  | chosen (q : σ)
  /-- and has made it its CPU's own -/
  | loaded (q : σ)
  /-- and has switched to its thread -/
  | parked (q : σ)
  /-- a slot's thread that has changed the slot's state and is about to switch to the scheduler -/
  | left (q : σ) (st : Procstate)

/-- The threads: one for each CPU, and one for each slot. -/
inductive Thread (γ σ : Type)
  | sched (c : γ)
  | proc (p : σ)
deriving DecidableEq

/-- CPUs `γ` and slots `σ`. -/
@[ext] structure Slots (γ σ : Type) where
  state : σ → Procstate
  lock : σ → Option γ
  /-- the slot a CPU calls its own -/
  proc : γ → Option σ
  /-- the slot whose thread a CPU executes -/
  cur : γ → Option σ
  turn : Thread γ σ → Turn σ
  claims : Thread γ σ → List σ

variable {γ σ : Type} {cur : γ → Option σ}

/-- The slot whose lock is held. -/
def Turn.slot : Turn σ → Option σ
  | .out => none
  | .holds q | .found q | .making q | .chosen q | .loaded q | .parked q | .left q _ => some q

/-- The slot a scheduler has given its CPU to. -/
def Turn.busy : Turn σ → Option σ
  | .chosen q | .loaded q | .parked q => some q
  | _ => none

theorem Turn.slot_of_busy {τ : Turn σ} {q : σ} (h : τ.busy = some q) : τ.slot = some q := by
  cases τ <;> simp_all [Turn.busy, Turn.slot]

/-- The states in which a thread gives up its CPU. -/
def off : Procstate → Bool
  | .runnable | .sleeping | .zombie => true
  | _ => false

/-- The thread CPU `c` executes. -/
def onCpu (cur : γ → Option σ) (c : γ) : Thread γ σ :=
  match cur c with
  | none => .sched c
  | some p => .proc p

theorem onCpu_none {c : γ} (h : cur c = none) : onCpu cur c = .sched c := by
  rw [onCpu, h]

theorem onCpu_some {c : γ} {p : σ} (h : cur c = some p) :
    onCpu cur c = .proc p := by
  rw [onCpu, h]

theorem onCpu_eq_sched {c d : γ} (h : onCpu cur c = .sched d) :
    c = d ∧ cur c = none := by
  cases hc : cur c with
  | none =>
    rw [onCpu_none hc] at h
    exact ⟨Thread.sched.inj h, rfl⟩
  | some p =>
    rw [onCpu_some hc] at h
    cases h

theorem onCpu_eq_proc {c : γ} {p : σ} (h : onCpu cur c = .proc p) :
    cur c = some p := by
  cases hc : cur c with
  | none =>
    rw [onCpu_none hc] at h
    cases h
  | some q =>
    rw [onCpu_some hc] at h
    rw [Thread.proc.inj h]

/-! ## Steps -/

/-- The moves of a slot's state. -/
inductive Moves : Procstate → Procstate → Prop
  | stay (a : Procstate) : Moves a a
  | use : Moves .unused .used
  | publish : Moves .used .runnable
  | unuse : Moves .used .unused
  | dispatch : Moves .runnable .running
  | quit (st : Procstate) (h : off st = true) : Moves .running st
  | wake : Moves .sleeping .runnable
  | reap : Moves .zombie .unused

/-- What the thread `t` that holds the lock of `q` may do to the slot: from its turn, the slot's
state and its own claims to new ones. -/
inductive Write (q : σ) : Thread γ σ → Turn σ → Procstate → List σ →
    Turn σ → Procstate → List σ → Prop
  | find (t : Thread γ σ) (r : List σ) : Write q t (.holds q) .unused r (.found q) .unused r
  | use (t : Thread γ σ) (a : Procstate) (r : List σ) :
      Write q t (.found q) a r (.making q) .used r
  | abort (t : Thread γ σ) (a : Procstate) (r : List σ) :
      Write q t (.making q) a r (.holds q) .unused r
  | unuse (t : Thread γ σ) (a : Procstate) (r : List σ) :
      Write q t (.holds q) a (q :: r) (.holds q) .unused r
  | publish (t : Thread γ σ) (a : Procstate) (r : List σ) :
      Write q t (.holds q) a (q :: r) (.holds q) .runnable r
  | wake (t : Thread γ σ) (r : List σ) :
      Write q t (.holds q) .sleeping r (.holds q) .runnable r
  | reap (t : Thread γ σ) (r : List σ) : Write q t (.holds q) .zombie r (.holds q) .unused r
  | choose (c : γ) (r : List σ) :
      Write q (.sched c) (.holds q) .runnable r (.chosen q) .running r
  | quit (a : Procstate) (r : List σ) (st : Procstate) (h : off st = true) :
      Write q (.proc q) (.holds q) a r (.left q st) st r

/-- One step of the thread CPU `c` executes. -/
inductive Slots.Step [DecidableEq γ] [DecidableEq σ] (c : γ) : Slots γ σ → Slots γ σ → Prop
  | acquire (s : Slots γ σ) (q : σ) (ht : s.turn (onCpu s.cur c) = .out) (hl : s.lock q = none) :
      Step c s { s with
        lock := update s.lock q (some c)
        turn := update s.turn (onCpu s.cur c) (.holds q) }
  | release (s : Slots γ σ) (q : σ) (ht : s.turn (onCpu s.cur c) = .holds q) :
      Step c s { s with
        lock := update s.lock q none
        turn := update s.turn (onCpu s.cur c) .out }
  | write (s : Slots γ σ) (q : σ) (τ : Turn σ) (st : Procstate) (r : List σ)
      (hw : Write q (onCpu s.cur c) (s.turn (onCpu s.cur c)) (s.state q)
        (s.claims (onCpu s.cur c)) τ st r) :
      Step c s { s with
        state := update s.state q st
        turn := update s.turn (onCpu s.cur c) τ
        claims := update s.claims (onCpu s.cur c) r }
  /-- the slot's thread is set up, ready to release the slot's lock when it is first switched to -/
  | make (s : Slots γ σ) (q : σ) (ht : s.turn (onCpu s.cur c) = .making q) :
      Step c s { s with
        turn := update (update s.turn (.proc q) (.holds q)) (onCpu s.cur c) (.holds q)
        claims := update (update s.claims (.proc q) []) (onCpu s.cur c)
          (q :: s.claims (onCpu s.cur c)) }
  | load (s : Slots γ σ) (q : σ) (hc : s.cur c = none) (ht : s.turn (.sched c) = .chosen q) :
      Step c s { s with
        proc := update s.proc c (some q)
        turn := update s.turn (.sched c) (.loaded q) }
  /-- the scheduler's context switch -/
  | enter (s : Slots γ σ) (q : σ) (hc : s.cur c = none) (ht : s.turn (.sched c) = .loaded q) :
      Step c s { s with
        cur := update s.cur c (some q)
        turn := update s.turn (.sched c) (.parked q) }
  /-- the thread's context switch; it will go on with the lock held, unless it is gone for good -/
  | leave (s : Slots γ σ) (p : σ) (st : Procstate) (τ : Turn σ) (hc : s.cur c = some p)
      (ht : s.turn (.proc p) = .left p st) (hτ : τ = .holds p ∨ st = .zombie) :
      Step c s { s with
        cur := update s.cur c none
        turn := update s.turn (.proc p) τ }
  | unload (s : Slots γ σ) (q : σ) (hc : s.cur c = none) (ht : s.turn (.sched c) = .parked q) :
      Step c s { s with
        proc := update s.proc c none
        turn := update s.turn (.sched c) (.holds q) }

/-! ## The invariant -/

/-- What a thread that is being executed knows of the slot whose lock it holds. -/
def Turn.Knows (state : σ → Procstate) : Turn σ → Prop
  | .out | .holds _ => True
  | .found q => state q = .unused
  | .making q => state q = .used
  | .chosen q | .loaded q => state q = .running
  | .parked q => state q ≠ .running
  | .left q st => state q = st ∧ off st = true

/-- What is known of one slot does not depend on the others. -/
theorem Turn.Knows.update [DecidableEq σ] {state : σ → Procstate} {τ : Turn σ} {q : σ}
    (h : τ.Knows state) (hne : τ.slot ≠ some q) (st : Procstate) :
    τ.Knows (update state q st) := by
  cases τ with
  | out => trivial
  | holds x => trivial
  | _ x =>
    have hx : x ≠ q := fun he => hne (congrArg some he)
    simpa only [Turn.Knows, update_of_ne hx] using h

/-- What holds in every state. -/
structure Slots.Inv (s : Slots γ σ) : Prop where
  /-- the locks are held as the turns say -/
  lock : ∀ c q, s.lock q = some c ↔ (s.turn (onCpu s.cur c)).slot = some q
  /-- a scheduler whose CPU executes a slot's thread waits for its switch back -/
  back : ∀ c p, s.cur c = some p → s.turn (.sched c) = .parked p
  proc : ∀ c q, s.proc c = some q ↔ s.turn (.sched c) = .loaded q ∨ s.turn (.sched c) = .parked q
  /-- no slot has two CPUs -/
  once : ∀ c d q, (s.turn (.sched c)).busy = some q → (s.turn (.sched d)).busy = some q → c = d
  running : ∀ q, s.state q = .running → ∃ c, (s.turn (.sched c)).busy = some q
  known : ∀ c, (s.turn (onCpu s.cur c)).Knows s.state
  own : ∀ c p, s.cur c = some p → s.state p = .running ∨ ∃ st, s.turn (.proc p) = .left p st
  /-- a thread that is not executed will go on with its slot's lock held -/
  rest : ∀ p, (∀ c, s.cur c ≠ some p) →
    s.state p = .runnable ∨ s.state p = .sleeping ∨ s.state p = .running →
    s.turn (.proc p) = .holds p
  claim : ∀ t q, q ∈ s.claims t → s.state q = .used ∧ s.turn (.proc q) = .holds q
  claimOnce : ∀ t t' q, q ∈ s.claims t → q ∈ s.claims t' → t = t'
  claimNodup : ∀ t, (s.claims t).Nodup
  making : ∀ c q, s.turn (onCpu s.cur c) = .making q → ∀ t, q ∉ s.claims t

/-! ## What a write does -/

namespace Write

variable {t : Thread γ σ} {τ τ' : Turn σ} {a st : Procstate} {r r' : List σ} {q : σ}

/-- The writer holds the slot's lock before and after. -/
theorem slot (h : Write q t τ a r τ' st r') : τ.slot = some q ∧ τ'.slot = some q := by
  cases h <;> exact ⟨rfl, rfl⟩

/-- A scheduler takes no CPU-owning turn but by the choice of a runnable slot. -/
theorem busy (h : Write q t τ a r τ' st r') :
    τ.busy = none ∧ (τ'.busy = none ∧ st ≠ .running ∨ τ' = .chosen q ∧ a = .runnable ∧ st = .running ∧
      ∃ c, t = .sched c) := by
  cases h <;> simp [Turn.busy]
  case quit h => rintro rfl; cases h

theorem knows (h : Write q t τ a r τ' st r') {state : σ → Procstate} (hq : state q = st) :
    τ'.Knows state := by
  cases h <;> simp_all [Turn.Knows]

/-- Only the slot's own thread leaves, and nobody writes on the way out. -/
theorem left (h : Write q t τ a r τ' st r') : ∀ p st', τ ≠ .left p st' := by
  cases h <;> simp

theorem sublist (h : Write q t τ a r τ' st r') : r'.Sublist r := by
  cases h <;> simp

end Write

namespace Slots

variable {s s' : Slots γ σ} {c d : γ} {p q : σ}

namespace Inv

/-- Two CPUs never execute one thread. -/
theorem onCpu_inj (h : s.Inv) (he : onCpu s.cur c = onCpu s.cur d) : c = d := by
  cases hd : s.cur d with
  | none =>
    rw [onCpu_none hd] at he
    exact (onCpu_eq_sched he).1
  | some p =>
    rw [onCpu_some hd] at he
    have hc := onCpu_eq_proc he
    exact h.once c d p (by rw [h.back c p hc]; rfl) (by rw [h.back d p hd]; rfl)

/-- A lock has one holder. -/
theorem slot_inj (h : s.Inv) (hc : (s.turn (onCpu s.cur c)).slot = some q)
    (hd : (s.turn (onCpu s.cur d)).slot = some q) : c = d :=
  Option.some.inj (((h.lock c q).mpr hc).symm.trans ((h.lock d q).mpr hd))

/-- The slot whose thread CPU `c` executes is running, or the thread is on its way out. -/
theorem cur_state (h : s.Inv) (hc : s.cur c = some p) :
    s.state p = .running ∨ ∃ st, s.turn (.proc p) = .left p st ∧ s.state p = st ∧ off st = true := by
  rcases h.own c p hc with hr | ⟨st, hleft⟩
  · exact .inl hr
  · have hknown := h.known c
    rw [onCpu_some hc, hleft] at hknown
    exact .inr ⟨st, hleft, hknown⟩

/-- A slot in use by nobody yet is executed by nobody. -/
theorem not_cur (h : s.Inv) (hq : s.state q = .unused ∨ s.state q = .used) (c : γ) :
    s.cur c ≠ some q := by
  intro hc
  rcases h.cur_state hc with hr | ⟨st, -, hst, hoff⟩
  · rw [hr] at hq
    rcases hq with hq | hq <;> cases hq
  · rw [hst] at hq
    rcases hq with rfl | rfl <;> cases hoff

/-- A slot whose lock `c` holds, with another CPU's scheduler given to it, is running. -/
theorem busy_other (h : s.Inv) (hc : (s.turn (onCpu s.cur c)).slot = some q)
    (hd : (s.turn (.sched d)).busy = some q) (hne : d ≠ c) : s.state q = .running := by
  cases hcur : s.cur d with
  | none =>
    have hslot : (s.turn (onCpu s.cur d)).slot = some q := by
      rw [onCpu_none hcur]
      exact Turn.slot_of_busy hd
    exact absurd (h.slot_inj hslot hc) hne
  | some p =>
    rw [h.back d p hcur] at hd
    obtain rfl : p = q := Option.some.inj hd
    rcases h.own d p hcur with hrun | ⟨st, hleft⟩
    · exact hrun
    · have hslot : (s.turn (onCpu s.cur d)).slot = some p := by rw [onCpu_some hcur, hleft]; rfl
      exact absurd (h.slot_inj hslot hc) hne

theorem making_state (h : s.Inv) (ht : s.turn (onCpu s.cur c) = .making q) : s.state q = .used := by
  have hknown := h.known c
  rw [ht] at hknown
  exact hknown

/-- A slot about to be switched to is executed by nobody, and its thread is ready. -/
theorem ready (h : s.Inv) (hc : s.cur c = none) (ht : s.turn (.sched c) = .loaded q) :
    (∀ d, s.cur d ≠ some q) ∧ s.turn (.proc q) = .holds q := by
  have hnone : ∀ d, s.cur d ≠ some q := by
    intro d hd
    have he : d = c := h.once d c q (by rw [h.back d q hd]; rfl) (by rw [ht]; rfl)
    rw [he, hc] at hd
    cases hd
  have hrun := h.known c
  rw [onCpu_none hc, ht] at hrun
  exact ⟨hnone, h.rest q hnone (.inr (.inr hrun))⟩

/-- The writer knows the state it writes over: what is left of the slot's past is one of these. -/
theorem write_cases (h : s.Inv) {τ : Turn σ} {st : Procstate} {r : List σ}
    (hw : Write q (onCpu s.cur c) (s.turn (onCpu s.cur c)) (s.state q)
      (s.claims (onCpu s.cur c)) τ st r) :
    (s.state q = .unused ∧ (st = .unused ∨ st = .used) ∧ r = s.claims (onCpu s.cur c)) ∨
    (s.state q = .used ∧ st = .unused ∧ τ = .holds q ∧ r = s.claims (onCpu s.cur c) ∧
      ∀ t, q ∉ s.claims t) ∨
    (s.state q = .used ∧ (st = .unused ∨ st = .runnable) ∧ τ = .holds q ∧
      s.claims (onCpu s.cur c) = q :: r) ∨
    (s.state q = .sleeping ∧ st = .runnable ∧ τ = .holds q ∧ r = s.claims (onCpu s.cur c)) ∨
    (s.state q = .zombie ∧ st = .unused ∧ τ = .holds q ∧ r = s.claims (onCpu s.cur c)) ∨
    (s.state q = .runnable ∧ st = .running ∧ τ = .chosen q ∧ s.cur c = none ∧
      r = s.claims (onCpu s.cur c)) ∨
    (s.state q = .running ∧ off st = true ∧ τ = .left q st ∧ s.cur c = some q ∧
      r = s.claims (onCpu s.cur c)) := by
  have hknown := h.known c
  have hclaim := h.claim (onCpu s.cur c) q
  have hmaking := h.making c q
  have hown := h.own c q
  generalize ht : onCpu s.cur c = t at *
  generalize hτ : s.turn t = τ₀ at *
  generalize hr : s.claims t = r₀ at *
  generalize hs : s.state q = a at *
  cases hw with
  | find => exact .inl ⟨rfl, .inl rfl, rfl⟩
  | use => exact .inl ⟨hs ▸ hknown, .inr rfl, rfl⟩
  | abort => exact .inr (.inl ⟨hs ▸ hknown, rfl, rfl, rfl, hmaking rfl⟩)
  | unuse => exact .inr (.inr (.inl ⟨(hclaim (List.mem_cons_self ..)).1, .inl rfl, rfl, rfl⟩))
  | publish => exact .inr (.inr (.inl ⟨(hclaim (List.mem_cons_self ..)).1, .inr rfl, rfl, rfl⟩))
  | wake => exact .inr (.inr (.inr (.inl ⟨rfl, rfl, rfl, rfl⟩)))
  | reap => exact .inr (.inr (.inr (.inr (.inl ⟨rfl, rfl, rfl, rfl⟩))))
  | choose d =>
    obtain ⟨-, hc⟩ := onCpu_eq_sched ht
    exact .inr (.inr (.inr (.inr (.inr (.inl ⟨rfl, rfl, rfl, hc, rfl⟩)))))
  | quit _ _ _ hoff =>
    have hc := onCpu_eq_proc ht
    have hrun : a = .running := by
      rcases hown hc with hr | ⟨st, hleft⟩
      · exact hr
      · rw [hτ] at hleft
        cases hleft
    exact .inr (.inr (.inr (.inr (.inr (.inr ⟨hrun, hoff, rfl, hc, rfl⟩)))))

end Inv

/-! ## Every step keeps the invariant -/

section Steps

variable [DecidableEq γ] [DecidableEq σ]

/-- A new turn for the thread on `c`, seen from the CPUs. -/
theorem turn_onCpu (h : s.Inv) (τ : Turn σ) (d : γ) :
    update s.turn (onCpu s.cur c) τ (onCpu s.cur d) =
      if d = c then τ else s.turn (onCpu s.cur d) := by
  rw [update_apply]
  by_cases hd : d = c
  · rw [hd, if_pos rfl, if_pos rfl]
  · rw [if_neg hd, if_neg fun he => hd (h.onCpu_inj he)]

theorem update_sched {β : Type} (f : Thread γ σ → β) (cur : γ → Option σ) (b : β) (d : γ) :
    update f (onCpu cur c) b (.sched d) = if d = c ∧ cur c = none then b else f (.sched d) := by
  rw [update_apply]
  refine if_congr ⟨fun he => ?_, fun he => ?_⟩ rfl rfl
  · obtain ⟨rfl, hc⟩ := onCpu_eq_sched he.symm
    exact ⟨rfl, hc⟩
  · rw [onCpu_none he.2, he.1]

theorem update_proc {β : Type} (f : Thread γ σ → β) (cur : γ → Option σ) (b : β) (p : σ) :
    update f (onCpu cur c) b (.proc p) = if cur c = some p then b else f (.proc p) := by
  rw [update_apply]
  exact if_congr ⟨fun he => onCpu_eq_proc he.symm, fun he => (onCpu_some he).symm⟩ rfl rfl

omit [DecidableEq σ] in
theorem onCpu_update (cur : γ → Option σ) (x : Option σ) (d : γ) :
    onCpu (update cur c x) d = if d = c then (match x with | none => .sched c | some p => .proc p)
      else onCpu cur d := by
  rw [onCpu, onCpu, update_apply]
  by_cases hd : d = c
  · rw [if_pos hd, if_pos hd, hd]
  · rw [if_neg hd, if_neg hd]

attribute [local grind] Turn.slot Turn.busy Turn.Knows off
attribute [local grind =] Function.update_apply
attribute [local grind cases] Turn

/-- A thread in the making is none of those that are executed. -/
theorem turn_make (h : s.Inv) (ht : s.turn (onCpu s.cur c) = .making q) (d : γ) :
    update (update s.turn (.proc q) (.holds q)) (onCpu s.cur c) (.holds q) (onCpu s.cur d) =
      if d = c then .holds q else s.turn (onCpu s.cur d) := by
  have hne : onCpu s.cur d ≠ .proc q := fun he =>
    h.not_cur (.inr (h.making_state ht)) d (onCpu_eq_proc he)
  by_cases hd : d = c
  · rw [hd, update_self, if_pos rfl]
  · rw [update_of_ne fun he => hd (h.onCpu_inj he), update_of_ne hne, if_neg hd]

variable (h : s.Inv) (hs : Step c s s')
include h hs

theorem lock_step (d : γ) (x : σ) :
    s'.lock x = some d ↔ (s'.turn (onCpu s'.cur d)).slot = some x := by
  have hlock := h.lock
  cases hs with
  | acquire =>
    simp only [turn_onCpu h]
    grind
  | release q ht =>
    simp only [turn_onCpu h]
    have hc := hlock c q
    rw [ht] at hc
    grind
  | write q τ st r hw =>
    have hslot := hw.slot
    simp only [turn_onCpu h]
    grind
  | make q ht =>
    simp only [turn_make h ht]
    grind
  | load q hc ht | unload q hc ht =>
    rw [← onCpu_none hc] at ht
    simp only [← onCpu_none hc, turn_onCpu h]
    grind
  | enter q hc ht =>
    have hready := h.ready hc ht
    simp only [onCpu_update]
    grind [onCpu]
  | leave p st τ hc ht hτ =>
    have hback := h.back c p hc
    have hc' := hlock c x
    have hinj : onCpu s.cur c = onCpu s.cur d → c = d := h.onCpu_inj
    rw [onCpu_some hc, ht] at hc'
    simp only [onCpu_update]
    grind [onCpu]

theorem back_step (d : γ) (p : σ) (hd : s'.cur d = some p) : s'.turn (.sched d) = .parked p := by
  have hback := h.back
  cases hs with
  | acquire | release | write | make =>
    simp only [update_sched]
    grind
  | load | enter | leave | unload => grind

theorem proc_step (d : γ) (x : σ) : s'.proc d = some x ↔
    s'.turn (.sched d) = .loaded x ∨ s'.turn (.sched d) = .parked x := by
  have hproc := h.proc
  cases hs with
  | acquire | release | make =>
    simp only [update_sched]
    grind [onCpu_none]
  | write q τ st r hw =>
    have hbusy := hw.busy
    simp only [update_sched]
    grind [onCpu_none]
  | load | enter | leave | unload => grind

theorem once_step (d e : γ) (x : σ) (hd : (s'.turn (.sched d)).busy = some x)
    (he : (s'.turn (.sched e)).busy = some x) : d = e := by
  have honce := h.once
  cases hs with
  | acquire | release | make =>
    simp only [update_sched] at hd he
    grind
  | write q τ st r hw =>
    have hbusy := hw.busy
    have hother := fun d hd hne => h.busy_other (d := d) hw.slot.1 hd hne
    simp only [update_sched] at hd he
    grind
  | load | enter | leave | unload => grind

theorem running_step (x : σ) (hx : s'.state x = .running) :
    ∃ d, (s'.turn (.sched d)).busy = some x := by
  have hrunning := h.running
  cases hs with
  | acquire | release | make =>
    obtain ⟨d, hd⟩ := h.running x hx
    refine ⟨d, ?_⟩
    simp only [update_sched]
    grind [onCpu_none]
  | write q τ st r hw =>
    have hbusy := hw.busy
    by_cases hxq : x = q
    · have hst : st = .running := by simpa [hxq] using hx
      obtain ⟨hτ, -, -, e, he⟩ := hbusy.2.resolve_left fun hno => hno.2 hst
      obtain ⟨rfl, hc⟩ := onCpu_eq_sched he
      exact ⟨c, by simp [he, hτ, hxq, Turn.busy]⟩
    · obtain ⟨d, hd⟩ := h.running x (by simpa [hxq] using hx)
      refine ⟨d, ?_⟩
      simp only [update_sched]
      grind [onCpu_none]
  | load | enter | leave =>
    obtain ⟨d, hd⟩ := h.running x hx
    exact ⟨d, by grind⟩
  | unload q hc ht =>
    have := h.known c
    rw [onCpu_none hc, ht] at this
    obtain ⟨d, hd⟩ := h.running x hx
    exact ⟨d, by grind⟩

theorem known_step (d : γ) : (s'.turn (onCpu s'.cur d)).Knows s'.state := by
  have hknown := h.known d
  cases hs with
  | acquire | release q ht =>
    simp only [turn_onCpu h]
    grind
  | write q τ st r hw =>
    simp only [turn_onCpu h]
    split
    · exact hw.knows (update_self ..)
    · next hd =>
      have hne : (s.turn (onCpu s.cur d)).slot ≠ some q := fun hslot =>
        hd (h.slot_inj hslot hw.slot.1)
      exact hknown.update hne st
  | make q ht =>
    simp only [turn_make h ht]
    grind
  | load q hc ht =>
    have hc' := h.known c
    rw [← onCpu_none hc] at ht
    simp only [← onCpu_none hc, turn_onCpu h]
    grind
  | enter q hc ht =>
    have hready := h.ready hc ht
    simp only [onCpu_update]
    grind [onCpu]
  | leave p st τ hc ht hτ =>
    have hback := h.back c p hc
    have hc' := h.known c
    have hinj : onCpu s.cur c = onCpu s.cur d → c = d := h.onCpu_inj
    rw [onCpu_some hc, ht] at hc'
    simp only [onCpu_update]
    grind [onCpu]
  | unload q hc ht =>
    rw [← onCpu_none hc] at ht
    simp only [← onCpu_none hc, turn_onCpu h]
    grind

theorem own_step (d : γ) (p : σ) (hd : s'.cur d = some p) :
    s'.state p = .running ∨ ∃ st, s'.turn (.proc p) = .left p st := by
  cases hs with
  | acquire | release q ht =>
    have hown := h.own d p hd
    simp only [update_proc]
    grind [onCpu_some]
  | write q τ st r hw =>
    have hown := h.own d p hd
    have hleft := hw.left
    simp only [update_proc]
    by_cases hpq : p = q
    · rcases hown with hrun | ⟨st', hl⟩
      · -- a running slot is written over by its own thread only, on its way out
        have hcases := h.write_cases hw
        rw [← hpq, hrun] at hcases
        simp only [reduceCtorEq, false_and, true_and, false_or] at hcases
        exact .inr ⟨st, by rw [if_pos hcases.2.2.1, hcases.2.1]⟩
      · refine .inr ⟨st', ?_⟩
        rw [if_neg fun hc => hleft p st' (by rw [onCpu_some hc]; exact hl)]
        exact hl
    · grind [onCpu_some]
  | make q ht =>
    have hown := h.own d p hd
    have hknown := h.known c
    have hnot := h.not_cur (q := q)
    simp only [update_proc]
    grind [onCpu_some]
  | load | unload =>
    have hown := h.own d p hd
    grind
  | enter q hc ht =>
    have hown := h.own d p
    have hknown := h.known c
    rw [onCpu_none hc] at hknown
    grind
  | leave =>
    have hown := h.own d p
    have hback := h.back
    have honce := h.once d c p
    grind

theorem rest_step (p : σ) (hp : ∀ d, s'.cur d ≠ some p)
    (hst : s'.state p = .runnable ∨ s'.state p = .sleeping ∨ s'.state p = .running) :
    s'.turn (.proc p) = .holds p := by
  cases hs with
  | acquire | release | make =>
    have hrest := h.rest p hp hst
    simp only [update_proc]
    grind
  | write q τ st r hw =>
    have hrest := h.rest p hp
    have hcases := h.write_cases hw
    have hclaim := h.claim (onCpu s.cur c) p
    simp only [update_proc, if_neg (hp c)]
    by_cases hpq : p = q
    · subst hpq
      simp only [update_self] at hst
      rcases h.write_cases hw with ⟨-, rfl | rfl, -⟩ | ⟨-, rfl, -⟩ | ⟨-, -, -, hr⟩ | ⟨ha, -⟩ |
        ⟨-, rfl, -⟩ | ⟨ha, -⟩ | ⟨-, -, -, hc, -⟩
      · simp at hst
      · simp at hst
      · simp at hst
      · exact (hclaim (by rw [hr]; exact List.mem_cons_self ..)).2
      · exact hrest (.inr (.inl ha))
      · simp at hst
      · exact hrest (.inl ha)
      · exact absurd hc (hp c)
    · exact hrest (by simpa [hpq] using hst)
  | load | unload =>
    have hrest := h.rest p hp hst
    grind
  | enter =>
    have hne : ∀ d, s.cur d ≠ some p := by
      intro d hd
      have hpd := hp d
      grind
    have hrest := h.rest p hne hst
    grind
  | leave p' st τ hc ht hτ =>
    by_cases hpp : p = p'
    · have hknown := h.known c
      rw [onCpu_some hc, ht] at hknown
      grind
    · have hne : ∀ d, s.cur d ≠ some p := by
        intro d hd
        have hpd := hp d
        grind
      have hrest := h.rest p hne hst
      grind

theorem claim_step (t : Thread γ σ) (x : σ) (hx : x ∈ s'.claims t) :
    s'.state x = .used ∧ s'.turn (.proc x) = .holds x := by
  cases hs with
  | acquire | release q ht =>
    have hclaim := h.claim t x hx
    have hnot := h.not_cur (.inr hclaim.1) c
    simp only [update_proc]
    grind
  | write q τ st r hw =>
    have hsub : x ∈ s.claims t := by
      by_cases he : t = onCpu s.cur c
      · rw [he] at hx ⊢
        exact hw.sublist.subset (by simpa using hx)
      · simpa [he] using hx
    have hclaim := h.claim t x hsub
    have hnot := h.not_cur (.inr hclaim.1) c
    simp only [update_proc, if_neg hnot]
    refine ⟨?_, hclaim.2⟩
    by_cases hxq : x = q
    · -- a claimed slot is written over by its claimant only, who gives the claim up
      exfalso
      subst hxq
      rcases h.write_cases hw with ⟨ha, -⟩ | ⟨-, -, -, -, hno⟩ | ⟨-, -, -, hr⟩ | ⟨ha, -⟩ |
        ⟨ha, -⟩ | ⟨ha, -⟩ | ⟨ha, -⟩
      · rw [hclaim.1] at ha; cases ha
      · exact hno t hsub
      · have hmem : x ∈ s.claims (onCpu s.cur c) := by rw [hr]; exact List.mem_cons_self ..
        obtain rfl := h.claimOnce t _ x hsub hmem
        have hnodup := h.claimNodup (onCpu s.cur c)
        rw [hr, List.nodup_cons] at hnodup
        exact hnodup.1 (by simpa using hx)
      · rw [hclaim.1] at ha; cases ha
      · rw [hclaim.1] at ha; cases ha
      · rw [hclaim.1] at ha; cases ha
      · rw [hclaim.1] at ha; cases ha
    · rw [update_of_ne hxq]
      exact hclaim.1
  | make q ht =>
    have hused := h.making_state ht
    have hclaim := h.claim t x
    have hnot := h.not_cur (.inr hused) c
    have hx' : x = q ∨ x ∈ s.claims t := by
      simp only [update_apply] at hx
      grind
    rcases hx' with rfl | hx'
    · simp only [update_proc, if_neg hnot, update_self]
      exact ⟨hused, trivial⟩
    · have hnot' := h.not_cur (.inr (hclaim hx').1) c
      simp only [update_proc, if_neg hnot']
      refine ⟨(hclaim hx').1, ?_⟩
      have hne : x ≠ q := by
        rintro rfl
        exact h.making c x ht t hx'
      rw [update_of_ne (mt Thread.proc.inj hne)]
      exact (hclaim hx').2
  | load | enter | unload =>
    have hclaim := h.claim t x hx
    grind
  | leave =>
    have hclaim := h.claim t x hx
    have hnot := h.not_cur (.inr hclaim.1) c
    grind

omit h in
/-- A claim is an old one, or that of the thread that has just made the slot. -/
theorem mem_claims (t : Thread γ σ) (x : σ) (hx : x ∈ s'.claims t) :
    x ∈ s.claims t ∨ t = onCpu s.cur c ∧ s.turn t = .making x := by
  cases hs with
  | write q τ st r hw =>
    have hsub := hw.sublist.subset (a := x)
    simp only [update_apply] at hx
    grind
  | make q ht =>
    simp only [update_apply] at hx
    grind
  | _ => exact .inl hx

theorem claimOnce_step (t t' : Thread γ σ) (x : σ) (hx : x ∈ s'.claims t)
    (hx' : x ∈ s'.claims t') : t = t' := by
  rcases mem_claims hs t x hx with hold | ⟨rfl, hm⟩
  · rcases mem_claims hs t' x hx' with hold' | ⟨rfl, hm'⟩
    · exact h.claimOnce t t' x hold hold'
    · exact absurd hold (h.making c x hm' t)
  · rcases mem_claims hs t' x hx' with hold' | ⟨rfl, -⟩
    · exact absurd hold' (h.making c x hm t')
    · rfl

theorem claimNodup_step (t : Thread γ σ) : (s'.claims t).Nodup := by
  have hnodup := h.claimNodup t
  cases hs with
  | write q τ st r hw =>
    have hsub := hw.sublist
    simp only [update_apply]
    split
    · next he =>
      rw [he] at hnodup
      exact hnodup.sublist hsub
    · exact hnodup
  | make q ht =>
    have hno := h.making c q ht
    simp only [update_apply]
    split
    · next he =>
      rw [he] at hnodup
      exact List.nodup_cons.mpr ⟨hno _, hnodup⟩
    · split
      · exact List.nodup_nil
      · exact hnodup
  | _ => exact hnodup

/-- A slot in the making was so before, or was unused. -/
theorem making_old (d : γ) (x : σ) (hd : s'.turn (onCpu s'.cur d) = .making x) :
    s.turn (onCpu s.cur d) = .making x ∧ (d = c → s.turn (onCpu s.cur c) ≠ .making x) ∨
      s.state x = .unused := by
  cases hs with
  | acquire | release q ht =>
    simp only [turn_onCpu h] at hd
    grind
  | write q τ st r hw =>
    simp only [turn_onCpu h] at hd
    have hcases := h.write_cases hw
    have hslot := hw.slot.2
    grind
  | make q ht =>
    simp only [turn_make h ht] at hd
    grind
  | load q hc ht | unload q hc ht =>
    simp only [← onCpu_none hc, turn_onCpu h] at hd
    grind
  | enter q hc ht =>
    have hready := h.ready hc ht
    simp only [onCpu_update] at hd
    grind [onCpu]
  | leave p st τ hc ht hτ =>
    have hback := h.back c p hc
    have hinj : onCpu s.cur c = onCpu s.cur d → c = d := h.onCpu_inj
    simp only [onCpu_update] at hd
    grind [onCpu]

theorem making_step (d : γ) (x : σ) (hd : s'.turn (onCpu s'.cur d) = .making x)
    (t : Thread γ σ) : x ∉ s'.claims t := by
  intro hx
  rcases making_old h hs d x hd with ⟨hm, hc⟩ | hunused
  · rcases mem_claims hs t x hx with hold | ⟨rfl, hm'⟩
    · exact h.making d x hm t hold
    · exact hc (h.slot_inj (by rw [hm]; rfl) (by rw [hm']; rfl)) hm'
  · rcases mem_claims hs t x hx with hold | ⟨rfl, hm'⟩
    · rw [(h.claim t x hold).1] at hunused
      cases hunused
    · rw [h.making_state hm'] at hunused
      cases hunused

theorem Inv.step : s'.Inv where
  lock := lock_step h hs
  back := back_step h hs
  proc := proc_step h hs
  once := once_step h hs
  running := running_step h hs
  known := known_step h hs
  own := own_step h hs
  rest := rest_step h hs
  claim := claim_step h hs
  claimOnce := claimOnce_step h hs
  claimNodup := claimNodup_step h hs
  making := making_step h hs

/-- Every step moves a slot's state along the life of a slot. -/
theorem Inv.moves (x : σ) : Moves (s.state x) (s'.state x) := by
  cases hs with
  | write q τ st r hw =>
    simp only [update_apply]
    split
    · next he =>
      rw [he]
      rcases h.write_cases hw with ⟨ha, rfl | rfl, -⟩ | ⟨ha, rfl, -⟩ | ⟨ha, rfl | rfl, -⟩ |
        ⟨ha, rfl, -⟩ | ⟨ha, rfl, -⟩ | ⟨ha, rfl, -⟩ | ⟨ha, hoff, -⟩ <;> rw [ha]
      · exact .stay _
      · exact .use
      · exact .unuse
      · exact .unuse
      · exact .publish
      · exact .wake
      · exact .reap
      · exact .dispatch
      · exact .quit st hoff
    · exact .stay _
  | _ => exact .stay _

/-- A slot stops being runnable when a scheduler chooses it. -/
theorem Inv.chosen {x : σ} (hx : s.state x = .runnable) (hx' : s'.state x ≠ .runnable) :
    s.cur c = none ∧ (s.turn (.sched c)).busy = none ∧ s'.turn (.sched c) = .chosen x := by
  cases hs with
  | write q τ st r hw =>
    by_cases he : x = q
    · subst he
      simp only [update_self] at hx'
      rcases h.write_cases hw with ⟨ha, -⟩ | ⟨ha, -⟩ | ⟨ha, -⟩ | ⟨ha, -⟩ | ⟨ha, -⟩ |
        ⟨-, -, rfl, hc, -⟩ | ⟨ha, -⟩
      case inr.inr.inr.inr.inr.inl =>
        have hbusy := hw.busy.1
        rw [onCpu_none hc] at hbusy
        refine ⟨hc, hbusy, ?_⟩
        simp only [onCpu_none hc, update_self]
      all_goals
        rw [hx] at ha
        cases ha
    · simp only [update_of_ne he] at hx'
      exact absurd hx hx'
  | _ => exact absurd hx hx'

end Steps

/-! ## What the invariant says -/

/-- No slot is two CPUs' own. -/
theorem Inv.exclusive (h : s.Inv) (hc : s.proc c = some p) (hd : s.proc d = some p) : c = d := by
  refine h.once c d p ?_ ?_
  · rcases (h.proc c p).mp hc with ht | ht <;> rw [ht] <;> rfl
  · rcases (h.proc d p).mp hd with ht | ht <;> rw [ht] <;> rfl

/-- A scheduler that has given its CPU to a slot nobody holds the lock of has switched to the slot's
thread, and the slot is running. -/
theorem Inv.executing (h : s.Inv) (hl : s.lock p = none)
    (hb : (s.turn (.sched c)).busy = some p) :
    s.proc c = some p ∧ s.cur c = some p ∧ s.state p = .running := by
  have hfree : (s.turn (onCpu s.cur c)).slot ≠ some p := by
    intro hslot
    rw [(h.lock c p).mpr hslot] at hl
    cases hl
  cases hcur : s.cur c with
  | none =>
    rw [onCpu_none hcur] at hfree
    exact absurd (Turn.slot_of_busy hb) hfree
  | some q =>
    have hback := h.back c q hcur
    rw [hback] at hb
    obtain rfl : q = p := Option.some.inj hb
    refine ⟨(h.proc c q).mpr (.inr hback), rfl, ?_⟩
    refine (h.own c q hcur).resolve_right fun ⟨st, hleft⟩ => hfree ?_
    rw [onCpu_some hcur, hleft]
    rfl

/-- A slot nobody holds the lock of is running exactly when it is some CPU's own, and then it is
one CPU's. -/
theorem Inv.running_iff (h : s.Inv) (hl : s.lock p = none) :
    s.state p = .running ↔ ∃! c, s.proc c = some p := by
  constructor
  · intro hrun
    obtain ⟨c, hc⟩ := h.running p hrun
    exact ⟨c, (h.executing hl hc).1, fun d hd => h.exclusive hd (h.executing hl hc).1⟩
  · rintro ⟨c, hc, -⟩
    have hb : (s.turn (.sched c)).busy = some p := by
      rcases (h.proc c p).mp hc with ht | ht <;> rw [ht] <;> rfl
    exact (h.executing hl hb).2.2

end Slots

end Xv6.Smp
