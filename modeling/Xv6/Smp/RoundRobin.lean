import Xv6.Smp.Dispatch

/-!
# The round-robin scheduler overtakes nobody

Each CPU's scheduler walks the table in a circle, and runs a process in the middle of its walk. So
between two dispatches of one process it comes by every other slot. Whoever is runnable when it comes
by is dispatched before the walk goes on: a process stops being runnable by being dispatched and in
no other way, and the walk does not leave a runnable process behind.
-/

namespace Xv6.Smp

open Base Base.Machine Function

variable {n : Nat} {b : Build} {s t : State n} {e : Event n} {c d : Fin n} {p q : Slot}
  {steps : List (State n × Event n)} {reached : Slot → Prop}

/-! ## Dispatches -/

/-- The scheduler of CPU `c` dispatches the process in slot `q` in this step. -/
def State.dispatches (s : State n) (e : Event n) (c : Fin n) (q : Slot) : Prop :=
  (∃ o, e = .run c o) ∧ s.cur c = none ∧ s.sched c = .code (.test q) ∧
    (s.k.proc q).state = .runnable

/-- Where the scheduler stands, under the handler of an interrupt as well. -/
def Dispatcher.pc : Dispatcher → SchedPc
  | .code pc => pc
  | .handler _ pc => pc.1

theorem Dispatcher.pc_interrupt (x : Dispatcher) (c : Fin n) (i : Intr) :
    (x.interrupt c i).pc = x.pc := by
  cases x with
  | handler t pc => rfl
  | code pc =>
    rw [Dispatcher.interrupt]
    split
    · split <;> rfl
    · rfl

/-- A scheduler moves on by its own steps only: by the context switch, or by a step of its code. -/
theorem sched_moves (h : (smp b n).Step s e t) (c : Fin n) :
    (t.sched c).pc = (s.sched c).pc ∨
      ∃ o, e = .run c o ∧ s.cur c = none ∧
        ((∃ q, s.sched c = .code (.loaded q) ∧ t.sched c = .code (.parked q)) ∨
          ∃ pc pc', s.sched c = .code pc ∧
            pc.step b s.toMemory c o = .ok (t.toMemory, pc') ∧ t.sched c = .code pc') := by
  have hthread : ∀ (d : Fin n) (f : Stack → Stack), (s.onThread d f).sched = s.sched := by
    intro d f
    rw [State.onThread]
    split <;> rfl
  obtain ⟨-, h⟩ := h
  cases e with
  | run d o =>
    cases hd : s.cur d with
    | none =>
      simp only [smp, exec, hd] at h
      by_cases hc : c = d
      · subst hc
        simp only [State.runSched] at h
        split at h
        · next t' pc hsched =>
          -- a step of a handler
          left
          obtain ⟨⟨m, next⟩, -, hm⟩ := bind_ok h
          have hpc : (t.sched c).pc = pc.1 := by
            cases next with
            | none | some t' =>
              cases hm
              simp only [State.setSched, update_self]
              rfl
          rw [hpc, hsched]
          rfl
        · next q hsched =>
          cases h
          refine .inr ⟨o, rfl, hd, .inl ⟨q, hsched, ?_⟩⟩
          simp only [State.setSched, update_self]
        · next pc hne hsched =>
          obtain ⟨⟨m, pc'⟩, hstep, hm⟩ := bind_ok h
          cases hm
          refine .inr ⟨o, rfl, hd, .inr ⟨pc, pc', hsched, hstep, ?_⟩⟩
          simp only [State.setSched, update_self]
      · left
        have hsched : t.sched c = s.sched c := by
          simp only [State.runSched] at h
          split at h
          · obtain ⟨⟨m, next⟩, -, hm⟩ := bind_ok h
            cases next with
            | none | some t' =>
              cases hm
              simp only [State.setSched, update_of_ne hc]
          · cases h
            simp only [State.setSched, update_of_ne hc]
          · obtain ⟨⟨m, pc'⟩, -, hm⟩ := bind_ok h
            cases hm
            simp only [State.setSched, update_of_ne hc]
        rw [hsched]
    | some x =>
      left
      simp only [smp, exec, hd, State.runThread, Memory.onProc] at h
      split at h
      · cases h
      · obtain ⟨⟨m, next⟩, -, hm⟩ := bind_ok h
        cases hm
        cases next <;> rfl
  | intr d i =>
    left
    cases hd : s.cur d with
    | none =>
      simp only [smp, exec, hd] at h
      cases h
      by_cases hc : c = d
      · subst hc
        simp only [State.setSched, update_self, Dispatcher.pc_interrupt]
      · simp only [State.setSched, update_of_ne hc]
    | some x =>
      simp only [smp, exec, hd] at h
      cases h
      rw [hthread]
  | syscall d | exception d =>
    cases h
    rw [hthread]
    exact .inl rfl
  | call d f =>
    left
    cases f with
    | settickets =>
      simp only [smp, exec, Memory.onProc] at h
      split at h
      · cases h
      · cases h
        rfl
    | _ =>
      cases h
      rw [hthread]

/-- A scheduler that has chosen a process stands behind the choice, in no handler. -/
theorem pc_of_chosen {x : Dispatcher} (h : x.turn = .chosen q) : x.pc = .chosen q := by
  cases x with
  | handler t pc => cases t <;> cases h
  | code pc =>
    cases pc with
    | chosen x =>
      cases h
      rfl
    | userinit a => cases a <;> cases h
    | _ => cases h

theorem code_of_chosen {x : Dispatcher} (h : x.pc = .chosen q) : x = .code (.chosen q) := by
  cases x with
  | code pc => exact congrArg Dispatcher.code h
  | handler t pc =>
    have hstill := pc.2
    rw [show pc.1 = .chosen q from h] at hstill
    cases hstill

/-- The scheduler chooses a process where it has found it runnable. -/
theorem test_of_chosen {m m' : Memory n} {o : Outcome} {pc : SchedPc}
    (h : pc.step b m c o = .ok (m', .chosen q)) :
    pc = .test q ∧ (m.k.proc q).state = .runnable := by
  cases pc with
  | test x =>
    simp only [SchedPc.step] at h
    split at h
    · next hx =>
      obtain ⟨-, ha⟩ := update_val h
      cases ha
      exact ⟨rfl, hx⟩
    · cases h
  | boot =>
    simp only [SchedPc.step] at h
    split at h
    · cases h
    · split at h <;> cases h
  | userinit a =>
    obtain ⟨⟨m₁, next⟩, -, hm⟩ := bind_ok h
    cases next <;> cases hm
  | userinitIn x | requeueIn x =>
    obtain ⟨k', -, -, ha⟩ := update_ok h
    cases ha
  | userinitOut | totalOut | requeueOut =>
    obtain ⟨-, -, ha⟩ := release_ok h
    cases ha
  | start | chosen | parked =>
    obtain ⟨-, ha⟩ := update_val h
    cases ha
  | loop => cases b <;> cases h
  | total i sum =>
    simp only [SchedPc.step] at h
    rcases visit_ok h with ⟨-, -, ha⟩ | ⟨hi, -, -, ha⟩ | ⟨-, -, ha⟩ <;> cases ha
  | totalIn x sum =>
    simp only [SchedPc.step] at h
    split at h <;> cases h
  | draw sum =>
    simp only [SchedPc.step] at h
    split at h
    · obtain ⟨-, ha⟩ := update_val h
      cases ha
    · cases h
  | scan =>
    simp only [SchedPc.step] at h
    split at h
    · split at h
      · split at h <;> cases h
      · cases h
    · cases h
  | tie =>
    simp only [SchedPc.step] at h
    split at h
    · split at h
      · cases h
      · split at h <;> cases h
    · cases h
  | requeue i | rr i =>
    rcases visit_ok h with ⟨-, -, ha⟩ | ⟨hi, -, -, ha⟩ | ⟨-, -, ha⟩ <;> cases ha
  | search =>
    simp only [SchedPc.step] at h
    split at h
    · split at h
      · obtain ⟨x, -, hx⟩ := bind_ok h
        split at hx <;> cases hx
      · cases h
    · cases h
  | pick x =>
    rcases acquire_ok h with ⟨-, ha⟩ | ⟨-, -, ha⟩ <;> cases ha
  | loaded x => cases h
  | drop x =>
    obtain ⟨-, -, ha⟩ := release_ok h
    cases b <;> cases ha

/-- A process stops being runnable by being dispatched. -/
theorem dispatched_of_leaves (h : (smp b n).Reachable s) (hstep : (smp b n).Step s e t)
    (hq : (s.k.proc q).state = .runnable) (hq' : (t.k.proc q).state ≠ .runnable) :
    ∃ d, s.dispatches e d q := by
  have hI : (view s).Inv := (refines b n).invariant h
  rcases step_view hI hstep with heq | ⟨d, hd⟩
  · have hstate : (t.k.proc q).state = (s.k.proc q).state := congrFun (congrArg Slots.state heq) q
    rw [hstate] at hq'
    exact absurd hq hq'
  · obtain ⟨hcur, hbusy, hturn⟩ := hI.chosen hd hq hq'
    change (s.sched d).turn.busy = none at hbusy
    change (t.sched d).turn = .chosen q at hturn
    have hpc := pc_of_chosen hturn
    refine ⟨d, ?_⟩
    rcases sched_moves hstep d with hsame | ⟨o, he, hidle, hmove⟩
    · -- it stood there before, and owned the process already
      rw [hsame] at hpc
      rw [code_of_chosen hpc] at hbusy
      cases hbusy
    · rcases hmove with ⟨x, -, hparked⟩ | ⟨pc, pc', hpc₀, hcode, hpc₁⟩
      · rw [hparked] at hpc
        cases hpc
      · rw [hpc₁] at hpc
        obtain rfl : pc' = .chosen q := hpc
        obtain ⟨rfl, hrunnable⟩ := test_of_chosen hcode
        exact ⟨⟨o, he⟩, hidle, hpc₀, hrunnable⟩

/-! ## The walk -/

/-- How the round-robin scheduler walks the table. -/
inductive Walk (m : Memory n) : SchedPc → SchedPc → Prop
  | again : Walk m .loop (.rr 0)
  | spin (i : Nat) : Walk m (.rr i) (.rr i)
  | visit (q : Slot) : Walk m (.rr q) (.test q)
  | wrap (i : Nat) (hi : NPROC ≤ i) : Walk m (.rr i) .loop
  | choose (q : Slot) (hq : (m.k.proc q).state = .runnable) : Walk m (.test q) (.chosen q)
  | pass (q : Slot) (hq : (m.k.proc q).state ≠ .runnable) : Walk m (.test q) (.drop q)
  | load (q : Slot) : Walk m (.chosen q) (.loaded q)
  | enter (q : Slot) : Walk m (.loaded q) (.parked q)
  | unload (q : Slot) : Walk m (.parked q) (.drop q)
  | next (q : Slot) : Walk m (.drop q) (.rr (q + 1))

/-- The scheduler has begun its endless loop. -/
def SchedPc.walks : SchedPc → Bool
  | .loop | .rr _ | .test _ | .chosen _ | .loaded _ | .parked _ | .drop _ => true
  | _ => false

theorem walk_of_step {m m' : Memory n} {o : Outcome} {pc pc' : SchedPc} (hpc : pc.walks = true)
    (h : pc.step .rr m c o = .ok (m', pc')) : Walk m pc pc' := by
  cases pc with
  | loop =>
    cases h
    exact .again
  | rr i =>
    rcases visit_ok h with ⟨-, -, rfl⟩ | ⟨hi, -, -, rfl⟩ | ⟨-, hi, rfl⟩
    · exact .spin i
    · exact .visit ⟨i, hi⟩
    · exact .wrap i hi
  | test q =>
    simp only [SchedPc.step] at h
    split at h
    · next hq =>
      obtain ⟨-, rfl⟩ := update_val h
      exact .choose q hq
    · next hq =>
      cases h
      exact .pass q hq
  | chosen q =>
    obtain ⟨-, rfl⟩ := update_val h
    exact .load q
  | loaded q =>
    cases h
    exact .enter q
  | parked q =>
    obtain ⟨-, rfl⟩ := update_val h
    exact .unload q
  | drop q =>
    obtain ⟨-, -, rfl⟩ := release_ok h
    exact .next q
  | _ => cases hpc

/-- A scheduler in its loop stays where it is or walks on. -/
theorem sched_walks (h : (smp .rr n).Step s e t) (hc : (s.sched c).pc.walks = true) :
    (t.sched c).pc = (s.sched c).pc ∨
      (∃ o, e = .run c o) ∧ s.cur c = none ∧ s.sched c = .code (s.sched c).pc ∧
        Walk s.toMemory (s.sched c).pc (t.sched c).pc := by
  rcases sched_moves h c with hsame | ⟨o, he, hidle, hmove⟩
  · exact .inl hsame
  · right
    refine ⟨⟨o, he⟩, hidle, ?_⟩
    rcases hmove with ⟨q, hs, ht⟩ | ⟨pc, pc', hs, hstep, ht⟩
    · rw [hs, ht]
      exact ⟨rfl, .enter q⟩
    · rw [hs] at hc
      rw [hs, ht]
      exact ⟨rfl, walk_of_step hc hstep⟩

/-- The walk of CPU `c` is at slot `q`. -/
def State.reaches (s : State n) (c : Fin n) (q : Slot) : Prop :=
  (s.sched c).pc = .rr q ∨ (s.sched c).pc = .test q

/-- The walk does not go on from a runnable process before it is dispatched. -/
theorem reaches_step (h : (smp .rr n).Reachable s) (hstep : (smp .rr n).Step s e t)
    (hat : s.reaches c q) (hq : (s.k.proc q).state = .runnable) :
    (∃ d, s.dispatches e d q) ∨ t.reaches c q ∧ (t.k.proc q).state = .runnable := by
  by_cases hq' : (t.k.proc q).state = .runnable
  · have hwalks : (s.sched c).pc.walks = true := by
      rcases hat with hpc | hpc <;> rw [hpc] <;> rfl
    rcases sched_walks hstep hwalks with hsame | ⟨ho, hidle, hcode, hwalk⟩
    · refine .inr ⟨?_, hq'⟩
      rw [State.reaches, hsame]
      exact hat
    · rcases hat with hpc | hpc
      · rw [hpc] at hwalk
        generalize hpc' : (t.sched c).pc = pc' at hwalk
        generalize hi : q.val = i at hwalk
        cases hwalk with
        | spin => exact .inr ⟨.inl (hi ▸ hpc'), hq'⟩
        | visit x =>
          obtain rfl : q = x := Fin.ext hi
          exact .inr ⟨.inr hpc', hq'⟩
        | wrap _ hend =>
          omega
      · -- it has been dispatched by this very step
        rw [hpc] at hcode
        exact .inl ⟨c, ho, hidle, hcode, hq⟩
  · exact .inl (dispatched_of_leaves h hstep hq hq')

/-- A runnable process that the walk has reached is dispatched before the walk is elsewhere. -/
theorem dispatched_of_reaches (h : (smp .rr n).Reachable s) (hpath : (smp .rr n).Path s steps t)
    (hat : s.reaches c q) (hq : (s.k.proc q).state = .runnable) (haway : ¬ t.reaches c q) :
    ∃ x ∈ steps, ∃ d, x.1.dispatches x.2 d q := by
  have hstays : (∃ x ∈ steps, ∃ d, x.1.dispatches x.2 d q) ∨
      t.reaches c q ∧ (t.k.proc q).state = .runnable := by
    clear haway
    induction hpath with
    | nil => exact .inr ⟨hat, hq⟩
    | @snoc steps t u e hpath hstep ih =>
      rcases ih with ⟨x, hx, hd⟩ | ⟨hat', hq'⟩
      · exact .inl ⟨x, List.mem_cons_of_mem _ hx, hd⟩
      · rcases reaches_step (h.path hpath) hstep hat' hq' with hd | hkeep
        · exact .inl ⟨(t, e), List.mem_cons_self .., hd⟩
        · exact .inr hkeep
  exact hstays.resolve_right fun hkeep => haway hkeep.1

/-! ## The circle -/

/-- The slot the walk is at. -/
def SchedPc.slot : SchedPc → Option Nat
  | .rr i => some i
  | .test q | .chosen q | .loaded q | .parked q | .drop q => some q
  | _ => none

/-- The slots that a walk has come by since it dispatched `p`: those behind `p` up to where it is,
and from the table's start on once it has wrapped around. -/
inductive Swept (reached : Slot → Prop) (p : Slot) : SchedPc → Prop
  | chosen : Swept reached p (.chosen p)
  | loaded : Swept reached p (.loaded p)
  | parked : Swept reached p (.parked p)
  | drop : Swept reached p (.drop p)
  | behind {pc : SchedPc} (i : Nat) (hpc : pc.slot = some i) (hi : p < i)
      (h : ∀ q : Slot, p < q → q.val ≤ i → reached q) : Swept reached p pc
  | wrapped (h : ∀ q : Slot, p < q → reached q) : Swept reached p .loop
  | round {pc : SchedPc} (i : Nat) (hpc : pc.slot = some i)
      (h : ∀ q : Slot, p < q ∨ q.val ≤ i → reached q) : Swept reached p pc

theorem Swept.mono {reached' : Slot → Prop} {pc : SchedPc} (h : Swept reached p pc)
    (hsub : ∀ q, reached q → reached' q) : Swept reached' p pc := by
  cases h with
  | chosen => exact .chosen
  | loaded => exact .loaded
  | parked => exact .parked
  | drop => exact .drop
  | behind i hpc hi h => exact .behind i hpc hi fun q hq hle => hsub q (h q hq hle)
  | wrapped h => exact .wrapped fun q hq => hsub q (h q hq)
  | round i hpc h => exact .round i hpc fun q hq => hsub q (h q hq)

theorem Swept.walks {pc : SchedPc} (h : Swept reached p pc) :
    pc.walks = true := by
  cases h with
  | behind i hpc hi h | round i hpc h => cases pc <;> first | rfl | cases hpc
  | _ => rfl

theorem Swept.stay {pc pc' : SchedPc} {i : Nat} (h : Swept reached p pc) (hpc : pc.slot = some i)
    (hpc' : pc'.slot = some i) (hp : i = p → Swept reached p pc') :
    Swept reached p pc' := by
  cases h with
  | behind j hj hi h =>
    cases hj.symm.trans hpc
    exact .behind i hpc' hi h
  | round j hj h =>
    cases hj.symm.trans hpc
    exact .round i hpc' h
  | wrapped h => cases hpc
  | _ =>
    cases hpc
    exact hp rfl

/-- Every move of the walk takes it to a slot it has then come by. -/
theorem Swept.step {m : Memory n} {pc pc' : SchedPc} (h : Swept reached p pc) (hw : Walk m pc pc')
    (hnew : ∀ q : Slot, pc' = .rr q → reached q) :
    Swept reached p pc' := by
  cases hw with
  | again =>
    cases h with
    | wrapped h =>
      refine .round 0 rfl fun q hq => ?_
      rcases hq with hq | hq
      · exact h q hq
      · exact hnew q (congrArg SchedPc.rr (Nat.le_zero.mp hq).symm)
    | behind i hpc => cases hpc
    | round i hpc => cases hpc
  | spin i => exact h
  | visit q =>
    cases h with
    | behind i hpc hi h =>
      cases hpc
      exact .behind q rfl hi h
    | round i hpc h =>
      cases hpc
      exact .round q rfl h
  | wrap i hi =>
    have hlt : ∀ q : Slot, q.val ≤ i := fun q => le_trans (Nat.le_of_lt q.isLt) hi
    cases h with
    | behind j hpc hj h =>
      cases hpc
      exact .wrapped fun q hq => h q hq (hlt q)
    | round j hpc h =>
      cases hpc
      exact .wrapped fun q hq => h q (.inl hq)
  | choose q hq => exact h.stay rfl rfl fun he => by rw [Fin.ext he]; exact .chosen
  | pass q hq | unload q => exact h.stay rfl rfl fun he => by rw [Fin.ext he]; exact .drop
  | load q => exact h.stay rfl rfl fun he => by rw [Fin.ext he]; exact .loaded
  | enter q => exact h.stay rfl rfl fun he => by rw [Fin.ext he]; exact .parked
  | next q =>
    have hlast : ∀ x : Slot, ¬ x.val ≤ q → x.val ≤ q + 1 → reached x := by
      intro x hx hle
      exact hnew x (congrArg SchedPc.rr (by omega))
    cases h with
    | drop =>
      exact .behind (p + 1) rfl (Nat.lt_succ_self _) fun x hx hle => hlast x (Nat.not_le.mpr hx) hle
    | behind i hpc hi h =>
      cases hpc
      refine .behind (q + 1) rfl (by omega) fun x hx hle => ?_
      by_cases hxq : x.val ≤ q
      · exact h x hx hxq
      · exact hlast x hxq hle
    | round i hpc h =>
      cases hpc
      refine .round (q + 1) rfl fun x hx => ?_
      by_cases hxq : p < x ∨ x.val ≤ q
      · exact h x hxq
      · rw [not_or] at hxq
        exact hlast x hxq.2 (hx.resolve_left hxq.1)

/-- A walk that is about to test `p` again has come by every slot. -/
theorem Swept.all (h : Swept reached p (.test p)) (q : Slot) :
    reached q := by
  cases h with
  | behind i hpc hi h =>
    cases hpc
    exact absurd hi (Nat.lt_irrefl _)
  | round i hpc h =>
    cases hpc
    exact h q (Nat.lt_or_ge p q)

/-- The walk comes by on the way from `s` to `t`. -/
def passes (c : Fin n) (steps : List (State n × Event n)) (t : State n) (q : Slot) : Prop :=
  t.reaches c q ∨ ∃ x ∈ steps, x.1.reaches c q

theorem swept_of_path (hpath : (smp .rr n).Path s steps t) (hs : (s.sched c).pc = .chosen p) :
    Swept (passes c steps t) p (t.sched c).pc := by
  induction hpath with
  | nil =>
    rw [hs]
    exact .chosen
  | @snoc steps t u e hpath hstep ih =>
    have hmono : ∀ q, passes c steps t q → passes c ((t, e) :: steps) u q := by
      rintro q (hat | ⟨x, hx, hat⟩)
      · exact .inr ⟨(t, e), List.mem_cons_self .., hat⟩
      · exact .inr ⟨x, List.mem_cons_of_mem _ hx, hat⟩
    have hswept := ih.mono hmono
    rcases sched_walks hstep ih.walks with hsame | ⟨-, -, -, hwalk⟩
    · rw [hsame]
      exact hswept
    · exact hswept.step hwalk fun q hq => .inl (.inl hq)

/-! ## No overtaking -/

theorem State.dispatches.chosen (hd : s.dispatches e c p) (hstep : (smp b n).Step s e t) :
    (t.sched c).pc = .chosen p ∧ (t.k.proc p).state = .running := by
  obtain ⟨⟨o, rfl⟩, hidle, hsched, hp⟩ := hd
  obtain ⟨-, h⟩ := hstep
  simp only [smp, exec, hidle, State.runSched, hsched, SchedPc.step, hp, if_true] at h
  cases h
  constructor
  · simp only [State.setSched, update_self]
    rfl
  · change ((s.k.modify p fun x => { x with state := .running }).proc p).state = .running
    rw [Kernel.modify_self]

/-- RR build, any number of CPUs, any interleaving. Between two dispatches of `p` by the scheduler of
CPU `c`, no other process stays runnable all the time; and a process that is runnable when the walk
of that scheduler is at its slot is dispatched, by some CPU, from then on and before `p` is. -/
theorem rr_no_overtaking {s₀ s₁ s₂ : State n} {e₀ e₂ : Event n}
    {steps : List (State n × Event n)} (h : (smp .rr n).Reachable s₀)
    (hfirst : s₀.dispatches e₀ c p) (hstep : (smp .rr n).Step s₀ e₀ s₁)
    (hpath : (smp .rr n).Path s₁ steps s₂) (hsecond : s₂.dispatches e₂ c p) (q : Slot)
    (hq : q ≠ p) :
    (∃ u, (u = s₂ ∨ ∃ x ∈ steps, u = x.1) ∧ (u.k.proc q).state ≠ .runnable) ∧
      ∀ later x earlier, steps = later ++ x :: earlier → x.1.reaches c q →
        (x.1.k.proc q).state = .runnable →
        ∃ y ∈ later ++ [x], ∃ d, y.1.dispatches y.2 d q := by
  have hend : (s₂.sched c).pc = .test p := by
    rw [hsecond.2.2.1]
    rfl
  have haway : ¬ s₂.reaches c q := by
    rw [State.reaches, hend]
    rintro (he | he)
    · cases he
    · cases he
      exact hq rfl
  have hnext : ∀ later x earlier, steps = later ++ x :: earlier → x.1.reaches c q →
      (x.1.k.proc q).state = .runnable →
      ∃ y ∈ later ++ [x], ∃ d, y.1.dispatches y.2 d q := by
    rintro later x earlier rfl hat hrunnable
    rw [show later ++ x :: earlier = (later ++ [x]) ++ earlier by simp] at hpath
    obtain ⟨u, hbefore, hafter⟩ := hpath.split
    obtain ⟨v, hx, -⟩ := hafter.split
    have hu : u = x.1 := by
      cases hx with
      | snoc hnil _ =>
        cases hnil
        rfl
    subst hu
    exact dispatched_of_reaches ((h.step hstep).path hbefore) hafter hat hrunnable haway
  refine ⟨?_, hnext⟩
  have hswept := swept_of_path hpath (hfirst.chosen hstep).1
  rw [hend] at hswept
  obtain ⟨x, hx, hat⟩ := (hswept.all q).resolve_left haway
  by_cases hrunnable : (x.1.k.proc q).state = .runnable
  · obtain ⟨later, earlier, hsplit⟩ := List.append_of_mem hx
    obtain ⟨y, hy, d, hd⟩ := hnext later x earlier hsplit hat hrunnable
    have hmem : y ∈ steps := by
      rw [hsplit]
      rcases List.mem_append.mp hy with hy | hy
      · exact List.mem_append_left _ hy
      · rw [List.mem_singleton.mp hy]
        exact List.mem_append_right _ (List.mem_cons_self ..)
    obtain ⟨u, hu, hplace⟩ := hpath.next_of_mem hmem
    refine ⟨u, hplace, ?_⟩
    rw [(hd.chosen hu).2]
    exact nofun
  · exact ⟨x.1, .inr ⟨x, hx, rfl⟩, hrunnable⟩

/-- The first process makes a child and is preempted; so is the child, before the first process is
dispatched again. -/
theorem rr_no_overtaking_child : ∃ (s₀ s₁ s₂ : State 2) (e₀ e₂ : Event 2)
    (steps : List (State 2 × Event 2)), (smp .rr 2).Step s₀ e₀ s₁ ∧ s₀.dispatches e₀ 1 0 ∧
      (smp .rr 2).Path s₁ steps s₂ ∧ s₂.dispatches e₂ 1 0 ∧ (s₂.k.proc 1).state = .runnable ∧
      ∃ u, (u = s₂ ∨ ∃ x ∈ steps, u = x.1) ∧ (u.k.proc 1).state ≠ .runnable := by
  obtain ⟨before, s₀, hrun, htest⟩ := exists_run (M := smp .rr 2)
    (List.replicate 10 (.run 0 ⟨⟨true, true⟩, true, false⟩) ++
      List.replicate 4 (.run 1 ⟨⟨true, true⟩, true, false⟩))
    (fun _ s => s.cur 1 == none && s.sched 1 == .code (.test 0) &&
      (s.k.proc 0).state == .runnable &&
      ((smp .rr 2).next (.run 1 ⟨⟨true, true⟩, true, false⟩) s).any fun s₁ =>
      ((smp .rr 2).replay (List.replicate 4 (.run 1 ⟨⟨true, true⟩, true, false⟩) ++
        .call 1 .fork :: List.replicate 17 (.run 1 ⟨⟨true, true⟩, true, false⟩) ++
        .intr 1 .timer :: List.replicate 13 (.run 1 ⟨⟨true, true⟩, true, false⟩) ++
        .intr 1 .timer :: List.replicate 198 (.run 1 ⟨⟨true, true⟩, true, false⟩)) [] s₁).any fun r =>
      r.2.cur 1 == none && r.2.sched 1 == .code (.test 0) && (r.2.k.proc 0).state == .runnable &&
        (r.2.k.proc 1).state == .runnable)
    (by decide +kernel)
  simp only [Bool.and_eq_true, beq_iff_eq, Option.any_eq_true] at htest
  obtain ⟨⟨⟨hidle, hsched⟩, hp⟩, s₁, hnext, r, hr, ⟨⟨hidle₂, hsched₂⟩, hp₂⟩, hq₂⟩ := htest
  have hfirst : s₀.dispatches (.run 1 ⟨⟨true, true⟩, true, false⟩) 1 0 :=
    ⟨⟨_, rfl⟩, hidle, hsched, hp⟩
  have hsecond : r.2.dispatches (.run 1 ⟨⟨true, true⟩, true, false⟩) 1 0 :=
    ⟨⟨_, rfl⟩, hidle₂, hsched₂, hp₂⟩
  have hstep := step_of_next hnext
  have hpath := path_of_replay .nil hr
  exact ⟨s₀, s₁, r.2, _, _, r.1, hstep, hfirst, hpath, hsecond, hq₂,
    (rr_no_overtaking ⟨before, hrun⟩ hfirst hstep hpath hsecond 1 (by decide)).1⟩

end Xv6.Smp
