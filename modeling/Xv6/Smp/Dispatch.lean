import Xv6.Smp.View
import Xv6.Base.Refinement

/-!
# The dispatch of processes

Every step of the machine is a step of the protocol, or the protocol does not see it: `refines`
puts the pieces of `Xv6.Smp.View` together. What the protocol guarantees therefore holds of the
kernel, in every state and for every interleaving of its CPUs (`dispatch_exclusive`).
-/

namespace Xv6.Smp

open Base Base.Machine Function

variable {n : Nat}


section Refinement

variable {s : State n} {m m' : Memory n} {c : Fin n} {b : Build} {p : Slot}

theorem placeOf_thread (sched : Fin n → Dispatcher) (thread : Slot → Stack) (p : Slot)
    (st : Stack) :
    placeOf sched (update thread p st) = update (placeOf sched thread) (.proc p) (st.place p) := by
  funext t
  cases t with
  | sched d => rw [update_of_ne (by simp)]; rfl
  | proc q =>
    by_cases hq : q = p
    · subst hq
      simp [placeOf]
    · rw [update_of_ne (by simpa using hq)]
      simp [placeOf, hq]

theorem placeOf_sched (sched : Fin n → Dispatcher) (thread : Slot → Stack) (c : Fin n)
    (d : Dispatcher) :
    placeOf (update sched c d) thread = update (placeOf sched thread) (.sched c) d.place := by
  funext t
  cases t with
  | proc p => rw [update_of_ne (by simp)]; rfl
  | sched e =>
    by_cases he : e = c
    · subst he
      simp [placeOf]
    · rw [update_of_ne (by simpa using he)]
      simp [placeOf, he]

/-- Moving one thread to another place changes its turn and its claims. -/
theorem seen_update (m : Memory n) (cur : Fin n → Option Slot)
    (place : Thread (Fin n) Slot → Place) (t : Thread (Fin n) Slot) (x : Place) :
    m.seen cur (update place t x) =
      { m.seen cur place with
        turn := update (m.seen cur place).turn t x.1
        claims := update (m.seen cur place).claims t x.2 } := by
  refine Slots.ext rfl rfl rfl rfl ?_ ?_
  · exact comp_update Prod.fst place t x
  · exact comp_update Prod.snd place t x

theorem myproc_of_cpus {k k' : Kernel n} (h : k'.cpus = k.cpus) : k'.myproc = k.myproc := by
  funext d
  rw [Kernel.myproc, Kernel.myproc, h]

theorem view_after {x : Place} (t : Thread (Fin n) Slot) (hth : m'.thread = s.thread)
    (hcpu : m'.k.cpus = s.k.cpus) :
    m'.seen s.cur (update (placeOf s.sched m'.thread) t x) =
      { view s with
        state := m'.states
        lock := m'.locks
        turn := update (view s).turn t x.1
        claims := update (view s).claims t x.2 } := by
  rw [seen_update, hth]
  refine Slots.ext rfl rfl ?_ rfl rfl rfl
  exact myproc_of_cpus hcpu

/-- An action is a step of the protocol, or the protocol does not see it. -/
theorem Act.follows {x : Place}
    (h : Act c (onCpu s.cur c) s.toMemory (placeOf s.sched s.thread (onCpu s.cur c)) m' x) :
    m'.seen s.cur (update (placeOf s.sched m'.thread) (onCpu s.cur c) x) = view s ∨
      (view s).Step c (m'.seen s.cur (update (placeOf s.sched m'.thread) (onCpu s.cur c) x)) := by
  generalize hat : placeOf s.sched s.thread (onCpu s.cur c) = at₀ at h
  have hturn : (view s).turn (onCpu s.cur c) = at₀.1 := congrArg Prod.fst hat
  have hclaims : (view s).claims (onCpu s.cur c) = at₀.2 := congrArg Prod.snd hat
  cases h with
  | quiet hst hl hth hcpu =>
    left
    rw [view_after _ hth hcpu, hst, hl, ← hturn, ← hclaims, update_eq_self, update_eq_self]
    rfl
  | acquire q hfree hst hl hth hcpu =>
    right
    rw [view_after _ hth hcpu, hst, hl, ← hclaims, update_eq_self]
    exact .acquire (view s) q hturn hfree
  | release q hst hl hth hcpu =>
    right
    rw [view_after _ hth hcpu, hst, hl, ← hclaims, update_eq_self]
    exact .release (view s) q hturn
  | write q hw hst hl hth hcpu =>
    right
    rw [view_after _ hth hcpu, hst, hl]
    refine .write (view s) q _ _ _ ?_
    rw [show (view s).cur = s.cur from rfl, hturn, hclaims]
    exact hw
  | @make r _ q hst hl hth hcpu =>
    right
    have hr : (view s).claims (onCpu s.cur c) = r := hclaims
    have hv : m'.seen s.cur (update (placeOf s.sched m'.thread) (onCpu s.cur c)
        (.holds q, q :: (view s).claims (onCpu s.cur c))) =
        { view s with
          turn := update (update (view s).turn (.proc q) (.holds q)) (onCpu s.cur c) (.holds q)
          claims := update (update (view s).claims (.proc q) []) (onCpu s.cur c)
            (q :: (view s).claims (onCpu s.cur c)) } := by
      rw [seen_update, hth, placeOf_thread, seen_update]
      exact Slots.ext hst hl (myproc_of_cpus hcpu) rfl rfl rfl
    rw [← hr, hv]
    exact .make (view s) q hturn

/-- The code a CPU executes is that of its own process. -/
theorem myproc_of_cur (hI : (view s).Inv) (hc : s.cur c = some p) :
    s.k.myproc c = some p :=
  (hI.proc c p).mpr (.inr (hI.back c p hc))

theorem view_setSched (d : Dispatcher) (hc : s.cur c = none) :
    view (s.setSched c m' d) =
      m'.seen s.cur (update (placeOf s.sched m'.thread) (onCpu s.cur c) d.place) := by
  rw [onCpu_none hc, ← placeOf_sched]
  rfl

theorem view_go (st : Stack) (hc : s.cur c = some p) :
    view (s.advance c p m' (.go st)) =
      m'.seen s.cur (update (placeOf s.sched m'.thread) (onCpu s.cur c) (st.place p)) := by
  rw [onCpu_some hc, ← placeOf_thread]
  rfl

theorem view_turn {d : Dispatcher} (h : s.sched c = d) : (view s).turn (.sched c) = d.turn := by
  rw [← h]
  rfl

theorem view_claims {d : Dispatcher} (h : s.sched c = d) :
    (view s).claims (.sched c) = d.claims := by
  rw [← h]
  rfl

theorem view_setCpu (x : Option Slot) (d : Dispatcher) (hd : d.claims = (s.sched c).claims) :
    view (s.setSched c { s.toMemory with k := s.k.setCpu c x } d) =
      { view s with
        proc := update (view s).proc c x
        turn := update (view s).turn (.sched c) d.turn } := by
  rw [view, State.setSched, placeOf_sched, seen_update]
  refine Slots.ext rfl rfl ?_ rfl rfl ?_
  · funext e
    simp only [Memory.seen, view, Kernel.myproc, Kernel.setCpu, update_apply]
    split <;> rfl
  · exact update_eq_self_iff.mpr hd

theorem runSched_view {s' : State n} {o : Outcome} (hI : (view s).Inv) (hc : s.cur c = none)
    (h : s.runSched b c o = .ok s') : view s' = view s ∨ (view s).Step c (view s') := by
  rw [State.runSched] at h
  have hcode : ∀ pc m' pc', s.sched c = .code pc → pc.hands = false →
      pc.step b s.toMemory c o = .ok (m', pc') →
      view (s.setSched c m' (.code pc')) = view s ∨
        (view s).Step c (view (s.setSched c m' (.code pc'))) := by
    intro pc m' pc' hpc hhands hstep
    rw [view_setSched (.code pc') hc]
    refine Act.follows ?_
    rw [onCpu_none hc, placeOf, hpc]
    exact sched_act hhands hstep
  split at h
  · next t pc hpc =>
    obtain ⟨⟨m', t'⟩, hstep, h⟩ := bind_ok h
    have hact : Act c (onCpu s.cur c) s.toMemory (placeOf s.sched s.thread (onCpu s.cur c)) m'
        (Task.place pc.1.claims t') := by
      rw [onCpu_none hc, placeOf, hpc]
      exact task_act hstep
    cases t' with
    | some t' =>
      cases h
      rw [view_setSched (.handler t' pc) hc]
      exact hact.follows
    | none =>
      cases h
      rw [view_setSched (.code pc) hc]
      have hplace : (Dispatcher.code pc).place = Task.place pc.1.claims none := by
        rw [Dispatcher.place, Dispatcher.turn, (SchedPc.turn_of_still pc.2).1]
        rfl
      rw [hplace]
      exact hact.follows
  · next p hpc =>
    cases h
    have hturn : (view s).turn (.sched c) = .loaded p := view_turn hpc
    have hv : view { s.setSched c s.toMemory (.code (.parked p)) with
        cur := update s.cur c (some p) } =
        { view s with
          cur := update (view s).cur c (some p)
          turn := update (view s).turn (.sched c) (.parked p) } := by
      rw [view, State.setSched, placeOf_sched, seen_update]
      exact Slots.ext rfl rfl rfl rfl rfl (update_eq_self_iff.mpr (view_claims hpc).symm)
    rw [hv]
    exact .inr (.enter (view s) p hc hturn)
  · next pc hne hpc =>
    cases pc with
    | start =>
      obtain ⟨⟨m', pc'⟩, hstep, h⟩ := bind_ok h
      cases h
      obtain ⟨rfl, rfl⟩ := update_val hstep
      rw [view_setCpu none (.code .loop) (by rw [hpc]; rfl)]
      have hturn : (view s).turn (.sched c) = .out := view_turn hpc
      have hproc : (view s).proc c = none := by
        rw [Option.eq_none_iff_forall_ne_some]
        intro q hq
        rcases (hI.proc c q).mp hq with h | h <;> rw [hturn] at h <;> cases h
      refine .inl (Slots.ext rfl rfl ?_ rfl ?_ rfl)
      · exact update_eq_self_iff.mpr hproc.symm
      · exact update_eq_self_iff.mpr hturn.symm
    | chosen p =>
      obtain ⟨⟨m', pc'⟩, hstep, h⟩ := bind_ok h
      cases h
      obtain ⟨rfl, rfl⟩ := update_val hstep
      rw [view_setCpu (some p) (.code (.loaded p)) (by rw [hpc]; rfl)]
      exact .inr (.load (view s) p hc (view_turn hpc))
    | loaded p => exact absurd rfl (hne p)
    | parked p =>
      obtain ⟨⟨m', pc'⟩, hstep, h⟩ := bind_ok h
      cases h
      obtain ⟨rfl, rfl⟩ := update_val hstep
      rw [view_setCpu none (.code (.drop p)) (by rw [hpc]; rfl)]
      exact .inr (.unload (view s) p hc (view_turn hpc))
    | _ =>
      obtain ⟨⟨m', pc'⟩, hstep, h⟩ := bind_ok h
      cases h
      exact hcode _ _ _ hpc rfl hstep

theorem runThread_view {s' : State n} {o : Outcome} (hI : (view s).Inv) (hc : s.cur c = some p)
    (h : s.runThread b c p o = .ok s') :
    view s' = view s ∨ (view s).Step c (view s') := by
  rw [State.runThread, Memory.onProc, myproc_of_cur hI hc] at h
  obtain ⟨⟨m', next⟩, hstep, h⟩ := bind_ok h
  cases h
  have hgoes := frame_act hstep
  generalize hat : Frame.place p (s.thread p).rest (s.thread p).top = at₀ at hgoes
  have hplace : placeOf s.sched s.thread (.proc p) = at₀ := hat
  cases hgoes with
  | @go _ _ st hact =>
    rw [view_go st hc]
    refine Act.follows ?_
    rw [onCpu_some hc, hplace]
    exact hact
  | @swtch r st a hst hr =>
    have hv : view (s.advance c p s.toMemory (.swtch st)) =
        { view s with
          cur := update (view s).cur c none
          turn := update (view s).turn (.proc p) (st.top.turn p) } := by
      rw [view, State.advance, State.setThread, placeOf_thread, seen_update]
      refine Slots.ext rfl rfl rfl rfl rfl (update_eq_self_iff.mpr ?_)
      exact hr.trans (congrArg Prod.snd hplace).symm
    rw [hv]
    exact .inr (.leave (view s) p a _ hc (congrArg Prod.fst hplace) hst)

/-- Putting the process on a CPU on another stack at the same place changes nothing. -/
theorem view_onThread (f : Stack → Stack)
    (hf : ∀ p, s.cur c = some p → (f (s.thread p)).place p = (s.thread p).place p) :
    view (s.onThread c f) = view s := by
  rw [State.onThread]
  split
  · rfl
  · next p hp =>
    have hplace : placeOf s.sched (update s.thread p (f (s.thread p))) =
        placeOf s.sched s.thread := by
      rw [placeOf_thread]
      exact update_eq_self_iff.mpr (hf p hp)
    exact Slots.ext rfl rfl rfl rfl (congrArg (fun g t => (g t).1) hplace)
      (congrArg (fun g t => (g t).2) hplace)

theorem place_push (st : Stack) {f : Frame} (h : st.top.still = true) (hf : f.turn p = .out)
    (hr : f.claims = []) :
    Stack.place p ⟨f, ⟨st.top, h⟩ :: st.rest⟩ = st.place p := by
  rw [Stack.place, Stack.place, Frame.turn_of_still h, hf, Stack.claims, hr]
  rfl

theorem place_replace {st : Stack} {f : Frame} (ht : st.top.turn p = .out) (hr : st.top.claims = [])
    (hf : f.turn p = .out) (hr' : f.claims = []) :
    Stack.place p ⟨f, st.rest⟩ = st.place p := by
  rw [Stack.place, Stack.place, ht, hf, Stack.claims, Stack.claims, hr, hr']

theorem Intr.task_turn {i : Intr} {t : Task} (h : i.task c = some t) : t.turn = .out := by
  cases i with
  | timer =>
    rw [Intr.task] at h
    split at h
    · cases h
      rfl
    · cases h
  | device chans =>
    cases chans with
    | nil => cases h
    | cons =>
      cases h
      rfl

theorem handle_place {i : Intr} (f : Below) (rest : List Below) :
    (Stack.handle (i.task c) f rest).place p = Stack.place p ⟨f.1, rest⟩ := by
  cases ht : i.task c with
  | none => rfl
  | some t =>
    have hturn : (Frame.task t).turn p = .out := Intr.task_turn ht
    exact place_push ⟨f.1, rest⟩ f.2 hturn rfl

theorem interrupt_place (st : Stack) (i : Intr) :
    (st.interrupt c i).place p = st.place p := by
  rw [Stack.interrupt]
  split
  · next huser =>
    rw [handle_place]
    exact place_replace (by rw [huser]; rfl) (by rw [huser]; rfl) rfl rfl
  · split
    · next hstill =>
      rw [handle_place]
      exact place_push _ hstill rfl rfl
    · rfl

theorem dispatcher_interrupt (d : Dispatcher) (i : Intr) :
    (d.interrupt c i).place = d.place := by
  cases d with
  | handler t pc => rfl
  | code pc =>
    rw [Dispatcher.interrupt]
    split
    · next hstill =>
      split
      · rfl
      · next t ht =>
        refine Prod.ext ?_ rfl
        exact (Intr.task_turn ht).trans (SchedPc.turn_of_still hstill).1.symm
    · rfl

/-- Calls into this code come from the system calls outside it, and from `exit` closing files. -/
theorem call_from {f : Call} (hc : s.cur c = some p) (he : enabled (.call c f) s = true) :
    (∃ v, (s.thread p).top = .kernel v) ∨
      ((∃ status, (s.thread p).top = .exitFiles status) ∧
        ∃ chan, f = .sleep chan ∨ f = .wakeup chan) := by
  simp only [enabled, State.frame, hc, Option.map_some] at he
  split at he
  · next htop => exact .inl ⟨_, Option.some.inj htop⟩
  · next htop => exact .inl ⟨_, Option.some.inj htop⟩
  · next htop => exact .inr ⟨⟨_, Option.some.inj htop⟩, _, .inl rfl⟩
  · next htop => exact .inr ⟨⟨_, Option.some.inj htop⟩, _, .inr rfl⟩
  · next htop _ _ => exact .inl ⟨_, Option.some.inj htop⟩
  · cases he

theorem call_place {f : Call} (hc : s.cur c = some p) (he : enabled (.call c f) s = true) :
    (f.stack (s.thread p)).place p = (s.thread p).place p := by
  have hpush : ∀ f : Frame, f.turn p = .out → f.claims = [] →
      ((s.thread p).call f).place p = (s.thread p).place p := by
    intro f hf hr
    rw [Stack.call]
    split
    · next hstill => exact place_push _ hstill hf hr
    · rfl
  rcases call_from hc he with ⟨v, htop⟩ | ⟨-, chan, rfl | rfl⟩
  · have ht : (s.thread p).top.turn p = .out := by rw [htop]; rfl
    have hr : (s.thread p).top.claims = [] := by rw [htop]; rfl
    cases f with
    | sleep chan | wakeup chan => exact hpush _ rfl rfl
    | settickets => rfl
    | _ => exact place_replace ht hr rfl rfl
  · exact hpush _ rfl rfl
  · exact hpush _ rfl rfl

theorem settickets_view {tickets : Int} :
    view { s with k := s.k.sysSettickets p tickets } = view s := by
  refine Slots.ext (funext fun q => ?_) rfl rfl rfl rfl rfl
  have hq : ((s.k.sysSettickets p tickets).proc q).state = (s.k.proc q).state := by
    rw [Kernel.sysSettickets, Kernel.modify_proc]
    split
    · next he => rw [he]
    · rfl
  exact hq

theorem trap_view {f : Frame} (huser : s.frame c = some .user) (hf : ∀ p, f.turn p = .out)
    (hr : f.claims = []) : view (s.onThread c fun st => ⟨f, st.rest⟩) = view s := by
  refine view_onThread _ fun p hp => ?_
  rw [State.frame, hp] at huser
  have htop : (s.thread p).top = .user := Option.some.inj huser
  exact place_replace (by rw [htop]; rfl) (by rw [htop]; rfl) (hf p) hr

/-- Every step of the machine is a step of the protocol, or the protocol does not see it. -/
theorem step_view {s' : State n} {e : Event n} (hI : (view s).Inv)
    (h : (smp b n).Step s e s') : view s' = view s ∨ ∃ c, (view s).Step c (view s') := by
  obtain ⟨he, h⟩ := h
  cases e with
  | run c o =>
    cases hc : s.cur c with
    | none =>
      simp only [smp, exec, hc] at h
      exact (runSched_view hI hc h).imp_right fun h => ⟨c, h⟩
    | some p =>
      simp only [smp, exec, hc] at h
      exact (runThread_view hI hc h).imp_right fun h => ⟨c, h⟩
  | intr c i =>
    left
    cases hc : s.cur c with
    | none =>
      simp only [smp, exec, hc] at h
      cases h
      rw [view_setSched _ hc, dispatcher_interrupt, onCpu_none hc]
      have hplace : update (placeOf s.sched s.thread) (.sched c) (s.sched c).place =
          placeOf s.sched s.thread := update_eq_self (Thread.sched c) (placeOf s.sched s.thread)
      rw [hplace]
      rfl
    | some p =>
      simp only [smp, exec, hc] at h
      cases h
      exact view_onThread _ fun p _ => interrupt_place _ i
  | syscall c | exception c =>
    cases h
    exact .inl (trap_view (decide_eq_true_eq.mp he) (fun _ => rfl) rfl)
  | call c f =>
    left
    have hcall : view (s.onThread c f.stack) = view s :=
      view_onThread _ fun p hp => call_place hp he
    cases f with
    | settickets =>
      simp only [smp, exec, Memory.onProc] at h
      split at h
      · cases h
      · cases h
        exact settickets_view
    | _ =>
      cases h
      exact hcall

theorem boot_inv : (view (boot n)).Inv where
  lock := by
    intro c q
    exact ⟨nofun, nofun⟩
  back := nofun
  proc := by
    intro c q
    exact ⟨nofun, by rintro (h | h) <;> cases h⟩
  once := nofun
  running := nofun
  known := fun _ => trivial
  own := nofun
  rest := by
    intro p _ h
    rcases h with h | h | h <;> cases h
  claim := nofun
  claimOnce := nofun
  claimNodup := by
    intro t
    cases t <;> exact List.nodup_nil
  making := nofun

/-- The kernel at lock granularity follows the protocol of the slots. -/
theorem refines (b : Build) (n : Nat) :
    (smp b n).Refines view Slots.Inv fun v v' => ∃ c, v.Step c v' where
  init := boot_inv
  step := fun _ _ _ => step_view
  keeps := fun _ _ hI ⟨_, h⟩ => hI.step h

end Refinement

/-! ## Dispatch -/

/-- For every build and any number of CPUs, in every state that any interleaving reaches: no process
is `c->proc` of two CPUs; a process whose lock is free is `RUNNING` exactly when one CPU has it as
`c->proc`; and the next step moves the state of a slot along `Moves` only. -/
theorem dispatch_exclusive {b : Build} {n : Nat} {s : State n} (h : (smp b n).Reachable s) :
    (∀ p c d, s.k.myproc c = some p → s.k.myproc d = some p → c = d) ∧
      (∀ p, s.lock (.proc p) = none →
        ((s.k.proc p).state = .running ↔ ∃! c, s.k.myproc c = some p)) ∧
      ∀ e t p, (smp b n).Step s e t → Moves (s.k.proc p).state (t.k.proc p).state := by
  have hI : (view s).Inv := (refines b n).invariant h
  refine ⟨fun p c d => hI.exclusive, fun p => hI.running_iff, fun e t p hstep => ?_⟩
  rcases step_view hI hstep with heq | ⟨c, hc⟩
  · have hstate : (t.k.proc p).state = (s.k.proc p).state := congrFun (congrArg Slots.state heq) p
    rw [hstate]
    exact .stay _
  · exact hI.moves hc p

/-- The first process has been dispatched on the second of two CPUs and has released its lock. -/
theorem dispatch_exclusive_first : ∃ s : State 2, (smp .rr 2).Reachable s ∧
    s.lock (.proc 0) = none ∧ (s.k.proc 0).state = .running ∧
    ∃! c, s.k.myproc c = some 0 := by
  obtain ⟨steps, s, hrun, htest⟩ := exists_run (M := smp .rr 2)
    (List.replicate 10 (.run 0 ⟨⟨true, true⟩, true, false⟩) ++
      List.replicate 9 (.run 1 ⟨⟨true, true⟩, true, false⟩))
    (fun _ s => s.lock (.proc 0) == none && (s.k.proc 0).state == .running)
    (by decide +kernel)
  simp only [Bool.and_eq_true, beq_iff_eq] at htest
  obtain ⟨hlock, hrunning⟩ := htest
  have hreach : (smp .rr 2).Reachable s := ⟨steps, hrun⟩
  exact ⟨s, hreach, hlock, hrunning, ((dispatch_exclusive hreach).2.1 0 hlock).mp hrunning⟩

end Xv6.Smp
