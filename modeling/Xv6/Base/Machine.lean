import Xv6.Base.Fault

/-!
# Machines and their runs

A machine has a state, events that may or may not be possible in a state, and an execution of
each possible event that answers the next state or ends the run with a fault. A `Run` is a
sequence of such steps from an initial state. It records the steps newest first, each as the
state it left and the event that happened there, so that a law can speak about every step and
every state of the run.

`Run.invariant` is the induction rule: what holds initially and is kept by every step holds at
the end of every run. The step hypothesis may use the condition the run's steps are known to
meet, which is how a law about the runs that avoid a certain step is proved. `replay` executes a
list of events, so that a concrete run can be computed.
-/

namespace Base

/-- States, events and their execution. -/
structure Machine (σ ε φ : Type) where
  init : σ
  enabled : ε → σ → Bool
  exec : ε → σ → Except φ σ

namespace Machine

variable {σ ε φ : Type} (M : Machine σ ε φ)

/-- The event is possible in `s` and takes the machine to `t`. -/
def Step (s : σ) (e : ε) (t : σ) : Prop := M.enabled e s = true ∧ M.exec e s = .ok t

/-- A run from the initial state, with its steps newest first. -/
inductive Run : List (σ × ε) → σ → Prop
  | nil : Run [] M.init
  | snoc {steps : List (σ × ε)} {s t : σ} {e : ε} :
      Run steps s → M.Step s e t → Run ((s, e) :: steps) t

/-- A state some run ends in. -/
def Reachable (s : σ) : Prop := ∃ steps, M.Run steps s

variable {M} {C : σ → ε → Prop} {I : σ → Prop} {steps first second : List (σ × ε)} {s t : σ}

/-- What holds initially and is kept by every step that meets `C` holds at the end of every run
whose steps all meet `C`. -/
theorem Run.invariant (h0 : I M.init) (hstep : ∀ s e t, I s → C s e → M.Step s e t → I t)
    (hrun : M.Run steps s) (hC : ∀ x ∈ steps, C x.1 x.2) : I s := by
  induction hrun with
  | nil => exact h0
  | @snoc steps s t e _ hs ih =>
    have hhead : C s e := hC (s, e) (List.mem_cons_self ..)
    exact hstep s e t (ih fun x hx => hC x (List.mem_cons_of_mem _ hx)) hhead hs

/-- What holds initially and is kept by every step holds in every reachable state. -/
theorem Reachable.invariant (h0 : I M.init) (hstep : ∀ s e t, I s → M.Step s e t → I t)
    (h : M.Reachable s) : I s := by
  obtain ⟨steps, hrun⟩ := h
  exact hrun.invariant (C := fun _ _ => True) h0 (fun s e t hs _ => hstep s e t hs)
    fun _ _ => trivial

theorem Reachable.step {e : ε} (h : M.Reachable s) (hs : M.Step s e t) :
    M.Reachable t := by
  obtain ⟨steps, hrun⟩ := h
  exact ⟨_, hrun.snoc hs⟩

/-- Every state a run has passed through is reachable. -/
theorem Run.reachable_mem (hrun : M.Run steps s) :
    ∀ x ∈ steps, M.Reachable x.1 := by
  induction hrun with
  | nil => intro x hx; cases hx
  | @snoc steps s t e hrun _ ih =>
    intro x hx
    rcases List.mem_cons.mp hx with rfl | hx
    · exact ⟨_, hrun⟩
    · exact ih x hx

/-- A stretch of steps from one state to another, newest first. -/
inductive Path (M : Machine σ ε φ) (s : σ) : List (σ × ε) → σ → Prop
  | nil : Path M s [] s
  | snoc {steps : List (σ × ε)} {t u : σ} {e : ε} :
      Path M s steps t → M.Step t e u → Path M s ((t, e) :: steps) u

/-- What every step that meets `C` keeps, a stretch of such steps keeps. -/
theorem Path.invariant (hstep : ∀ s e t, I s → C s e → M.Step s e t → I t)
    (hpath : M.Path s steps t) (hs : I s) (hC : ∀ x ∈ steps, C x.1 x.2) : I t := by
  induction hpath with
  | nil => exact hs
  | @snoc steps t u e _ hu ih =>
    have hhead : C t e := hC (t, e) (List.mem_cons_self ..)
    exact hstep t e u (ih fun x hx => hC x (List.mem_cons_of_mem _ hx)) hhead hu

/-- A run that ends with these steps comes to them and goes through them. -/
theorem Run.split (h : M.Run (second ++ first) t) :
    ∃ s, M.Run first s ∧ M.Path s second t := by
  induction second generalizing t with
  | nil => exact ⟨t, h, .nil⟩
  | cons x second ih =>
    cases h with
    | snoc hrun hstep =>
      obtain ⟨s, hfirst, hpath⟩ := ih hrun
      exact ⟨s, hfirst, hpath.snoc hstep⟩

theorem Run.append (h : M.Run first s) (h' : M.Path s second t) : M.Run (second ++ first) t := by
  induction h' with
  | nil => exact h
  | snoc _ hstep ih => exact ih.snoc hstep

theorem Path.append {u : σ} (h : M.Path s first t) (h' : M.Path t second u) :
    M.Path s (second ++ first) u := by
  induction h' with
  | nil => exact h
  | snoc _ hstep ih => exact ih.snoc hstep

/-- A stretch of steps goes through each of them. -/
theorem Path.split (h : M.Path s (second ++ first) t) :
    ∃ u, M.Path s first u ∧ M.Path u second t := by
  induction second generalizing t with
  | nil => exact ⟨t, h, .nil⟩
  | cons x second ih =>
    cases h with
    | snoc hpath hstep =>
      obtain ⟨u, hfirst, hsecond⟩ := ih hpath
      exact ⟨u, hfirst, hsecond.snoc hstep⟩

/-- After each of its steps it is at the next one, or at its end. -/
theorem Path.next_of_mem (h : M.Path s steps t) {x : σ × ε} (hx : x ∈ steps) :
    ∃ u, M.Step x.1 x.2 u ∧ (u = t ∨ ∃ y ∈ steps, u = y.1) := by
  induction h with
  | nil => cases hx
  | @snoc steps t u e _ hstep ih =>
    rcases List.mem_cons.mp hx with rfl | hx
    · exact ⟨u, hstep, .inl rfl⟩
    · obtain ⟨v, hv, hnext⟩ := ih hx
      refine ⟨v, hv, .inr ?_⟩
      rcases hnext with rfl | ⟨y, hy, rfl⟩
      · exact ⟨(v, e), List.mem_cons_self .., rfl⟩
      · exact ⟨y, List.mem_cons_of_mem _ hy, rfl⟩

theorem Reachable.path (h : M.Reachable s) (hpath : M.Path s steps t) : M.Reachable t := by
  obtain ⟨before, hrun⟩ := h
  exact ⟨_, hrun.append hpath⟩

/-- When a step from a state with `I` keeps it exactly if the step meets `C`, the runs that keep
`I` throughout are those whose steps all meet `C`. -/
theorem Run.always_iff (h0 : I M.init)
    (hstep : ∀ s e t, M.Reachable s → I s → M.Step s e t → (I t ↔ C s e)) (hrun : M.Run steps s) :
    (I s ∧ ∀ x ∈ steps, I x.1) ↔ ∀ x ∈ steps, C x.1 x.2 := by
  induction hrun with
  | nil => exact ⟨fun _ x hx => (nomatch hx), fun _ => ⟨h0, fun x hx => (nomatch hx)⟩⟩
  | @snoc steps s t e hrun hs ih =>
    rw [List.forall_mem_cons, List.forall_mem_cons]
    constructor
    · rintro ⟨ht, hI, hrest⟩
      exact ⟨(hstep s e t ⟨_, hrun⟩ hI hs).mp ht, ih.mp ⟨hI, hrest⟩⟩
    · rintro ⟨hC, hrest⟩
      obtain ⟨hI, hpast⟩ := ih.mpr hrest
      exact ⟨(hstep s e t ⟨_, hrun⟩ hI hs).mpr hC, hI, hpast⟩

/-- `P` holds of the run with these steps that ends in this state, and of all its beginnings. -/
def Throughout (P : List (σ × ε) → σ → Prop) : List (σ × ε) → σ → Prop
  | [], s => P [] s
  | (s, e) :: steps, t => P ((s, e) :: steps) t ∧ Throughout P steps s

/-- The same as `Run.always_iff` for a property of runs. -/
theorem Run.always_run_iff {P : List (σ × ε) → σ → Prop} (h0 : P [] M.init)
    (hstep : ∀ steps s e t, M.Run steps s → P steps s → M.Step s e t →
      (P ((s, e) :: steps) t ↔ C s e)) (hrun : M.Run steps s) :
    Throughout P steps s ↔ ∀ x ∈ steps, C x.1 x.2 := by
  have hend : ∀ {steps : List (σ × ε)} {s : σ}, Throughout P steps s → P steps s := by
    intro steps s h
    cases steps with
    | nil => exact h
    | cons => exact h.1
  induction hrun with
  | nil => exact ⟨fun _ x hx => (nomatch hx), fun _ => h0⟩
  | @snoc steps s t e hrun hs ih =>
    rw [List.forall_mem_cons, Throughout]
    constructor
    · rintro ⟨ht, hbefore⟩
      exact ⟨(hstep steps s e t hrun (hend hbefore) hs).mp ht, ih.mp hbefore⟩
    · rintro ⟨hC, hrest⟩
      have hbefore := ih.mpr hrest
      exact ⟨(hstep steps s e t hrun (hend hbefore) hs).mpr hC, hbefore⟩

variable (M)

/-- The state an event leads to, if it is possible and does not fault. -/
def next (e : ε) (s : σ) : Option σ := if M.enabled e s then (M.exec e s).toOption else none

/-- Execute a list of events, oldest first, keeping the steps. -/
def replay : List ε → List (σ × ε) → σ → Option (List (σ × ε) × σ)
  | [], steps, s => some (steps, s)
  | e :: es, steps, s =>
    if M.enabled e s then
      match M.exec e s with
      | .ok t => replay es ((s, e) :: steps) t
      | .error _ => none
    else none

variable {M}

theorem step_of_next {e : ε} (h : M.next e s = some t) : M.Step s e t := by
  rw [next] at h
  split at h
  · next henabled => exact ⟨henabled, ok_of_toOption h⟩
  · cases h

/-- A replay that ends is a run. -/
theorem run_of_replay {es : List ε} {steps' : List (σ × ε)} (hrun : M.Run steps s)
    (h : M.replay es steps s = some (steps', t)) : M.Run steps' t := by
  induction es generalizing steps s with
  | nil =>
    cases h
    exact hrun
  | cons e es ih =>
    simp only [replay] at h
    split at h
    · next henabled =>
      cases hexec : M.exec e s with
      | ok u =>
        rw [hexec] at h
        exact ih (hrun.snoc ⟨henabled, hexec⟩) h
      | error f =>
        rw [hexec] at h
        cases h
    · cases h

/-- A replay from any state is a stretch of steps. -/
theorem path_of_replay {es : List ε} {steps' : List (σ × ε)} {u : σ} (hpath : M.Path s steps t)
    (h : M.replay es steps t = some (steps', u)) :
    M.Path s steps' u := by
  induction es generalizing steps t with
  | nil =>
    cases h
    exact hpath
  | cons e es ih =>
    simp only [replay] at h
    split at h
    · next henabled =>
      cases hexec : M.exec e t with
      | ok v =>
        rw [hexec] at h
        exact ih (hpath.snoc ⟨henabled, hexec⟩) h
      | error f =>
        rw [hexec] at h
        cases h
    · cases h

/-- A replay whose end passes a test shows that there is such a run. -/
theorem exists_run (es : List ε) (test : List (σ × ε) → σ → Bool)
    (h : (M.replay es [] M.init).any (fun r => test r.1 r.2) = true) :
    ∃ steps s, M.Run steps s ∧ test steps s = true := by
  cases hr : M.replay es [] M.init with
  | none =>
    rw [hr] at h
    cases h
  | some r =>
    rw [hr] at h
    exact ⟨r.1, r.2, run_of_replay .nil hr, h⟩

end Machine

end Base
