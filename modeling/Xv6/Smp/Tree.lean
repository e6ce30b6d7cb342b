import Xv6.Smp.Kinship

/-!
# Parents, children and exits

What the protocol of the process table guarantees, in the kernel's own terms: which process is the
parent of which, who reaps whom, and that no parent sleeps over an exited child.
-/

namespace Xv6.Smp

open Base Base.Machine Function

variable {n : Nat} {b : Build} {s : State n}

/-! ## No exit is lost -/

/-- In every reachable state in which `wait_lock` is free, a process asleep in `wait` or `waitx` has
no exited child. -/
theorem wait_no_lost_exit (h : (smp b n).Reachable s) (hfree : s.lock .wait = none) (p q : Slot)
    (hsleep : (s.k.proc p).state = .sleeping ∧ (s.k.proc p).chan = .proc p)
    (hchild : (s.k.proc q).parent = some p) : (s.k.proc q).state ≠ .zombie :=
  (good_of_reachable h).table.awake hfree (.inl hsleep) hchild

/-- The first process sleeps in `wait` over a child that has not exited. -/
theorem wait_no_lost_exit_child : ∃ s : State 1, (smp .rr 1).Reachable s ∧
    (s.k.proc 0).state = .sleeping ∧ (s.k.proc 1).parent = some 0 ∧
    (s.k.proc 1).state ≠ .zombie := by
  obtain ⟨steps, s, hrun, htest⟩ := exists_run (M := smp .rr 1)
    (List.replicate 17 (.run 0 ⟨⟨true, true⟩, true, false⟩) ++ .call 0 .fork ::
      (List.replicate 17 (.run 0 ⟨⟨true, true⟩, true, false⟩) ++ .call 0 .wait ::
        List.replicate 79 (.run 0 ⟨⟨true, true⟩, true, false⟩)))
    (fun _ s => s.lock .wait == none && (s.k.proc 0).state == .sleeping &&
      (s.k.proc 0).chan == .proc 0 && (s.k.proc 1).parent == some 0)
    (by decide +kernel)
  simp only [Bool.and_eq_true, beq_iff_eq] at htest
  obtain ⟨⟨⟨hfree, hsleep⟩, hchan⟩, hchild⟩ := htest
  have hreach : (smp .rr 1).Reachable s := ⟨steps, hrun⟩
  exact ⟨s, hreach, hsleep, hchild, wait_no_lost_exit hreach hfree 0 1 ⟨hsleep, hchan⟩ hchild⟩

/-! ## Who forked whom, and who was reaped -/

/-- The process whose `fork` makes itself the parent of `q` in this step. -/
def State.forks (s : State n) (e : Event n) (q : Slot) : Option Slot :=
  match e with
  | .run c _ =>
    match s.frame c with
    | some (.forkParent np _) => if np = q then s.cur c else none
    | _ => none
  | _ => none

/-- The process, by its slot and its pid, whose `fork` made the last process in slot `q`. -/
def forkedBy : List (State n × Event n) → Slot → Option (Slot × Int)
  | [], _ => none
  | (s, e) :: steps, q =>
    match s.forks e q with
    | some p => some (p, (s.k.proc p).pid)
    | none => forkedBy steps q

/-- The pids of the processes reaped in a run. -/
def reaped : List (State n × Event n) → State n → List Int
  | [], _ => []
  | (s, _) :: steps, t =>
    ((slots.filter fun q => (s.k.proc q).state = .zombie ∧ (t.k.proc q).state = .unused).map fun q =>
      (s.k.proc q).pid) ++ reaped steps s

/-- The process `p` is alive and the parent of `q`. -/
def reaps (s : State n) (p q : Slot) : Prop :=
  (s.k.proc q).parent = some p ∧ (s.k.proc p).state ≠ .unused ∧ (s.k.proc p).state ≠ .zombie

section Step

variable {t : State n} {e : Event n} {q : Slot}

theorem top_of_linking {f : Frame} {rest : List Below} (h : (f.spot rest).phase = .linking q) :
    ∃ pid, f = .forkParent q pid := by
  cases f with
  | forkParent np pid =>
    cases h
    exact ⟨pid, rfl⟩
  | task t =>
    change t.phase (rest.head?.map Subtype.val) = _ at h
    unfold Task.phase at h
    split at h <;> cases h
  | killed a | killedIn a | killedOut a => cases a <;> cases h
  | sleep chan lk | sleepIn chan lk => cases lk <;> cases h
  | _ => cases h

theorem top_of_looking {f : Frame} {rest : List Below} {seen : Set Slot}
    (h : (f.spot rest).phase = .looking seen q) : ∃ x, f = .waitIn x q := by
  cases f with
  | waitIn x pp =>
    cases h
    exact ⟨x, rfl⟩
  | task t =>
    change t.phase (rest.head?.map Subtype.val) = _ at h
    unfold Task.phase at h
    split at h <;> cases h
  | killed a | killedIn a | killedOut a => cases a <;> cases h
  | sleep chan lk | sleepIn chan lk => cases lk <;> cases h
  | _ => cases h

/-- Only the code of the kernel itself changes states and parents. -/
theorem kin_of_outside (h : (smp b n).Step s e t) (he : ∀ c o, e ≠ .run c o) (q : Slot) :
    kin (t.k.proc q) = kin (s.k.proc q) := by
  obtain ⟨-, h⟩ := h
  have hthread : ∀ (c : Fin n) (f : Stack → Stack), (s.onThread c f).k = s.k := by
    intro c f
    rw [State.onThread]
    split <;> rfl
  cases e with
  | run c o => exact absurd rfl (he c o)
  | intr c i =>
    simp only [smp, exec] at h
    split at h
    · cases h
      rfl
    · cases h
      rw [hthread]
  | syscall c | exception c =>
    cases h
    rw [hthread]
  | call c f =>
    cases f with
    | settickets =>
      simp only [smp, exec, Memory.onProc] at h
      split at h
      · cases h
      · cases h
        rw [Kernel.sysSettickets, Kernel.modify_proc]
        split
        · next hq => rw [hq]; rfl
        · rfl
    | _ =>
      cases h
      rw [hthread]

/-- A `fork` that links a child is that of the process on the CPU. -/
theorem forks_iff {p : Slot} : s.forks e q = some p ↔
    ∃ c o pid, e = .run c o ∧ s.cur c = some p ∧ (s.thread p).top = .forkParent q pid := by
  constructor
  · intro hp
    cases e with
    | run c o =>
      simp only [State.forks] at hp
      split at hp
      · next np pid hframe =>
        split at hp
        · next hnp =>
          subst hnp
          rw [State.frame, hp] at hframe
          exact ⟨c, o, pid, rfl, hp, Option.some.inj hframe⟩
        · cases hp
      · cases hp
    | _ => cases hp
  · rintro ⟨c, o, pid, rfl, hc, htop⟩
    have hframe : s.frame c = some (.forkParent q pid) := by
      rw [State.frame, hc]
      exact congrArg some htop
    simp only [State.forks, hframe, if_pos]
    exact hc

/-- A process gets its first parent from the `fork` of that parent. -/
theorem forks_of_parent (hG : Good s) (h : (smp b n).Step s e t) {p : Slot}
    (hnone : (s.k.proc q).parent = none) (hsome : (t.k.proc q).parent = some p) :
    s.forks e q = some p := by
  obtain ⟨hcur, hphase⟩ := (step_table hG h).1.linked_by hnone hsome
  obtain ⟨pid, htop⟩ := top_of_linking hphase
  cases e with
  | run c o => exact forks_iff.mpr ⟨c, o, pid, rfl, hcur, htop⟩
  | _ =>
    have hsame := congrArg Member.parent (kin_of_outside h nofun q)
    change (t.k.proc q).parent = (s.k.proc q).parent at hsame
    rw [hsame, hnone] at hsome
    cases hsome

theorem parent_of_forks (hG : Good s) (h : (smp b n).Step s e t) {p : Slot}
    (hp : s.forks e q = some p) :
    (s.k.proc p).state = .running ∧ (t.k.proc q).parent = some p := by
  obtain ⟨c, o, pid, rfl, hc, htop⟩ := forks_iff.mp hp
  constructor
  · refine (hG.view.own c p hc).resolve_right ?_
    rintro ⟨st, hturn⟩
    change (s.thread p).top.turn p = _ at hturn
    rw [htop] at hturn
    cases hturn
  · obtain ⟨-, h⟩ := h
    simp only [smp, exec, hc] at h
    rw [State.runThread, Memory.onProc, myproc_of_cur hG.view hc, htop] at h
    cases h
    simp only [State.advance, State.setThread, Kernel.modify_proc, if_pos]

/-- A process is reaped by its parent, at a child found in `wait` or `waitx`. -/
theorem reaped_in_wait (hG : Good s) (h : (smp b n).Step s e t) (hz : (s.k.proc q).state = .zombie)
    (hu : (t.k.proc q).state = .unused) :
    ∃ c o p x, e = .run c o ∧ s.cur c = some p ∧ (s.thread p).top = .waitIn x q ∧
      (s.k.proc q).parent = some p := by
  obtain ⟨p, seen, hcur, hphase, hparent⟩ := hG.table.reaped_by (step_table hG h).1 hz hu
  obtain ⟨x, htop⟩ := top_of_looking hphase
  cases e with
  | run c o => exact ⟨c, o, p, x, rfl, hcur, htop, hparent⟩
  | _ =>
    have hsame := congrArg Member.state (kin_of_outside h nofun q)
    change (t.k.proc q).state = (s.k.proc q).state at hsame
    rw [hsame, hz] at hu
    cases hu

end Step

theorem live_of_parent (hG : Good s) {p q : Slot} (hp : (s.k.proc q).parent = some p) :
    (s.k.proc p).state ≠ .unused ∧ (s.k.proc p).state ≠ .zombie := by
  have hlive : (s.k.proc p).state.live = true := hG.table.alive q p hp
  constructor
  · intro he
    rw [he] at hlive
    cases hlive
  · intro he
    rw [he] at hlive
    cases hlive

/-! ## Along a run -/

variable {steps : List (State n × Event n)}

theorem good_of_run (h : (smp b n).Run steps s) : Good s := good_of_reachable ⟨steps, h⟩

/-- The parent of a process is the one that forked it, or the first process. -/
theorem parent_forked (h : (smp b n).Run steps s) {p q : Slot} (hp : (s.k.proc q).parent = some p) :
    s.k.initproc = some p ∨ forkedBy steps q = some (p, (s.k.proc p).pid) := by
  induction h generalizing p q with
  | nil => cases hp
  | @snoc steps s t e hrun hstep ih =>
    have hG := good_of_run hrun
    have htable := (step_table hG hstep).1
    have hpid : ∀ {x : Slot}, (s.k.proc x).state.live = true →
        (t.k.proc x).pid = (s.k.proc x).pid := fun hx => hG.table.pid_live htable hx
    cases hforks : s.forks e q with
    | some p' =>
      obtain ⟨hrun', hparent⟩ := parent_of_forks hG hstep hforks
      obtain rfl : p' = p := Option.some.inj (hparent.symm.trans hp)
      right
      rw [hpid (by rw [hrun']; rfl)]
      simp only [forkedBy, hforks]
    | none =>
      have hsame : forkedBy ((s, e) :: steps) q = forkedBy steps q := by
        simp only [forkedBy, hforks]
      cases hold : (s.k.proc q).parent with
      | none =>
        have hnew := forks_of_parent hG hstep hold hp
        rw [hforks] at hnew
        cases hnew
      | some p₀ =>
        rcases hG.table.parent_step htable hold hp with rfl | hinit
        · rw [hsame, hpid (hG.table.alive q p hold)]
          refine (ih hold).imp_left fun hi => ?_
          rcases htable.init with he | ⟨hnone, -⟩
          · exact he.trans hi
          · rw [show s.k.initproc = none from hnone] at hi
            cases hi
        · exact .inl hinit

/-- The pids of reaped processes are all different, and nobody has them any more. -/
theorem reaped_gone (h : (smp b n).Run steps s) :
    (reaped steps s).Nodup ∧
      ∀ x ∈ reaped steps s, x ≠ 0 ∧ x < s.k.nextpid ∧ ∀ q, (s.k.proc q).pid ≠ x := by
  induction h with
  | nil => exact ⟨List.nodup_nil, nofun⟩
  | @snoc steps s t e hrun hstep ih =>
    have hG := good_of_run hrun
    have htable := (step_table hG hstep).1
    obtain ⟨hnodup, hgone⟩ := ih
    have hpid : ∀ q, (s.k.proc q).state = .zombie → (s.k.proc q).pid ≠ 0 := by
      intro q hq
      refine hG.table.named q ?_
      change (s.k.proc q).state ≠ _
      rw [hq]
      exact nofun
    -- what this step reaps
    have hnew : ∀ x ∈ (slots.filter fun q => (s.k.proc q).state = .zombie ∧
        (t.k.proc q).state = .unused).map fun q => (s.k.proc q).pid,
        ∃ q, (s.k.proc q).state = .zombie ∧ (t.k.proc q).state = .unused ∧ (s.k.proc q).pid = x := by
      intro x hx
      obtain ⟨q, hq, rfl⟩ := List.mem_map.mp hx
      have htest := (List.mem_filter.mp hq).2
      rw [decide_eq_true_eq] at htest
      exact ⟨q, htest.1, htest.2, rfl⟩
    constructor
    · refine List.Nodup.append ?_ hnodup ?_
      · refine List.Nodup.map_on ?_ ((List.nodup_finRange NPROC).filter _)
        intro p hp q _ hpq
        have htest := (List.mem_filter.mp hp).2
        rw [decide_eq_true_eq] at htest
        exact hG.table.distinct p q hpq (hpid p htest.1)
      · intro x hx hold
        obtain ⟨q, -, -, hq⟩ := hnew x hx
        exact (hgone x hold).2.2 q hq
    · intro x hx
      rcases List.mem_append.mp hx with hx | hx
      · obtain ⟨q, hz, hu, rfl⟩ := hnew x hx
        refine ⟨hpid q hz, htable.pid_gone (hpid q hz) (hG.table.pid q).2 fun r hr => ?_⟩
        obtain rfl := hG.table.distinct r q hr fun h0 => hpid q hz (hr.symm.trans h0)
        exact hG.table.reaped_pid htable hz hu
      · obtain ⟨h0, hlt, hnone⟩ := hgone x hx
        exact ⟨h0, htable.pid_gone h0 hlt fun q hq => absurd hq (hnone q)⟩

/-- An exited process has a parent, which is alive. -/
theorem zombie_parent (hG : Good s) {q : Slot} (hz : (s.k.proc q).state = .zombie) :
    ∃ p, reaps s p q := by
  have hparent : (s.k.proc q).parent ≠ none := by
    refine (hG.table.kept q (.inr hz)).resolve_left fun hinit => ?_
    have hlive := hG.table.init q hinit
    change (s.k.proc q).state.live = true at hlive
    rw [hz] at hlive
    cases hlive
  obtain ⟨p, hp⟩ := Option.ne_none_iff_exists'.mp hparent
  exact ⟨p, hp, live_of_parent hG hp⟩

/-- The process tree, in every state of every run: pids of slots in use are distinct; an `UNUSED` slot
has no parent; while `wait_lock` is free, the parent of a process is alive, and is the process that
forked it or the first process; whoever reaps a process is its parent, at a child found in `wait` or
`waitx`; an exited process has exactly one process that may reap it; and no process is reaped
twice. -/
theorem process_tree (h : (smp b n).Run steps s) :
    (∀ p q, (s.k.proc p).state ≠ .unused → (s.k.proc q).state ≠ .unused →
        (s.k.proc p).pid = (s.k.proc q).pid → p = q) ∧
      (∀ q, (s.k.proc q).state = .unused → (s.k.proc q).parent = none) ∧
      (s.lock .wait = none → ∀ p q, (s.k.proc q).parent = some p →
        ((s.k.proc p).state ≠ .unused ∧ (s.k.proc p).state ≠ .zombie) ∧
          (s.k.initproc = some p ∨ forkedBy steps q = some (p, (s.k.proc p).pid))) ∧
      (∀ e t q, (smp b n).Step s e t → (s.k.proc q).state = .zombie →
        (t.k.proc q).state = .unused →
        ∃ c o p x, e = .run c o ∧ s.cur c = some p ∧ (s.thread p).top = .waitIn x q ∧
          (s.k.proc q).parent = some p ∧
          (s.k.initproc = some p ∨ forkedBy steps q = some (p, (s.k.proc p).pid))) ∧
      (∀ q, (s.k.proc q).state = .zombie → ∃! p, reaps s p q) ∧
      (reaped steps s).Nodup := by
  have hG := good_of_run h
  refine ⟨fun p q hp _ he => ?_, fun q hq => ?_, fun _ p q hp => ?_, fun e t q hstep hz hu => ?_,
    fun q hz => ?_, (reaped_gone h).1⟩
  · exact hG.table.distinct p q he (hG.table.named p hp)
  · refine hG.table.lone q (.inl hq) fun t ht => ?_
    have hused := (hG.table.links t q ht).1
    change (s.k.proc q).state = _ at hused
    rw [hq] at hused
    cases hused
  · exact ⟨live_of_parent hG hp, parent_forked h hp⟩
  · obtain ⟨c, o, p, x, he, hc, htop, hparent⟩ := reaped_in_wait hG hstep hz hu
    exact ⟨c, o, p, x, he, hc, htop, hparent, parent_forked h hparent⟩
  · obtain ⟨p, hp⟩ := zombie_parent hG hz
    exact ⟨p, hp, fun p' hp' => Option.some.inj (hp'.1.symm.trans hp.1)⟩

/-- The first process forks, waits, and has its child exit. -/
theorem process_tree_exit : ∃ (steps : List (State 1 × Event 1)) (s : State 1),
    (smp .rr 1).Run steps s ∧ s.lock .wait = none ∧ (s.k.proc 1).state = .zombie ∧
      forkedBy steps 1 = some (0, 1) ∧ ∃! p, reaps s p 1 := by
  obtain ⟨steps, s, hrun, htest⟩ := exists_run (M := smp .rr 1)
    (List.replicate 17 (.run 0 ⟨⟨true, true⟩, true, false⟩) ++ .call 0 .fork ::
      (List.replicate 17 (.run 0 ⟨⟨true, true⟩, true, false⟩) ++ .call 0 .wait ::
        (List.replicate 86 (.run 0 ⟨⟨true, true⟩, true, false⟩) ++ .syscall 0 ::
          (List.replicate 3 (.run 0 ⟨⟨true, true⟩, true, false⟩) ++ .call 0 (.exit 0) ::
            List.replicate 263 (.run 0 ⟨⟨true, true⟩, true, false⟩)))))
    (fun steps s => s.lock .wait == none && (s.k.proc 1).state == .zombie &&
      forkedBy steps 1 == some (0, 1))
    (by decide +kernel)
  simp only [Bool.and_eq_true, beq_iff_eq] at htest
  obtain ⟨⟨hfree, hzombie⟩, hforked⟩ := htest
  exact ⟨steps, s, hrun, hfree, hzombie, hforked, (process_tree hrun).2.2.2.2.1 1 hzombie⟩

end Xv6.Smp
