import Xv6.Laws.Fields
import Xv6.Laws.System

/-!
# `kill`

`kill` looks for its pid in all slots of the table, the free ones included, whose pid is 0. So
`kill(0)` marks a free slot as killed, and since `allocproc` leaves the mark alone, the process that
gets the slot starts killed. With every other argument `kill` does what it should, and in the runs
without a `kill(0)` that finds a free slot no free slot is marked and no process starts killed that
nobody has killed (`kill_sound_iff`).
-/

namespace Xv6

open Base Base.Machine

variable {n : Nat} {k k' : Kernel n} {p q : Slot} {c : Fin n} {cfg : Config} {e : Event n}
  {steps : List (Kernel n × Event n)}

/-! ## What everything but `kill` does to the mark -/

/-- The record is not marked as killed, and if it has the mark, it is still that of the same process
and its thread has not gone back to the start. -/
structure Proc.Spared (x x' : Proc) : Prop where
  killed : x'.killed = true → x.killed = true
  same : x'.killed = true → x.state ≠ .unused → x'.pid = x.pid ∧ x'.state ≠ .unused ∧
    (x'.context = .forkret → x.context = .forkret)

/-- A record that keeps its mark and pid is spared. -/
theorem Proc.Spared.keep {x x' : Proc} (hkilled : x'.killed = x.killed) (hpid : x'.pid = x.pid)
    (hstate : x'.state = x.state ∨ x'.state ≠ .unused)
    (hctx : x'.context = x.context ∨ x'.context ≠ .forkret) : Proc.Spared x x' where
  killed h := hkilled ▸ h
  same _ hused := by
    refine ⟨hpid, ?_, fun h => ?_⟩
    · rcases hstate with he | hne
      · rwa [he]
      · exact hne
    · rcases hctx with he | hne
      · rwa [← he]
      · exact absurd h hne

/-- An unused record is spared while no mark is set on it. -/
theorem Proc.Spared.of_unused {x x' : Proc} (hx : x.state = .unused)
    (hkilled : x'.killed = true → x.killed = true) : Proc.Spared x x' :=
  ⟨hkilled, fun _ hused => absurd hx hused⟩

/-- A record without a mark is spared. -/
theorem Proc.Spared.of_clear {x x' : Proc} (h : x'.killed = false) : Proc.Spared x x' where
  killed hk := by
    rw [h] at hk
    cases hk
  same hk := by
    rw [h] at hk
    cases hk

/-- All that the kernel does to a record, the mark apart, spares it. -/
theorem spared_lasting : Lasting Proc.Spared where
  refl _ := .keep rfl rfl (.inl rfl) (.inl rfl)
  trans x y z h h' := by
    refine ⟨fun hz => h.killed (h'.killed hz), fun hz hx => ?_⟩
    obtain ⟨hpid, hused, hctx⟩ := h.same (h'.killed hz) hx
    obtain ⟨hpid', hused', hctx'⟩ := h'.same hz hused
    exact ⟨hpid'.trans hpid, hused', fun hf => hctx (hctx' hf)⟩
  queue _ _ _ := .keep rfl rfl (.inl rfl) (.inl rfl)
  move x s chan hs := by
    refine .keep rfl rfl (.inr fun he => ?_) (.inl rfl)
    change s = .unused at he
    rw [he] at hs
    cases hs
  tidy _ := .keep rfl rfl (.inl rfl) (.inl rfl)
  context _ _ hctx := .keep rfl rfl (.inl rfl) (.inr hctx)
  kernelFrame _ _ _ _ _ := .keep rfl rfl (.inl rfl) (.inl rfl)
  trapframe _ _ := .keep rfl rfl (.inl rfl) (.inl rfl)
  rtime _ _ := .keep rfl rfl (.inl rfl) (.inl rfl)
  reparent _ _ _ := .keep rfl rfl (.inl rfl) (.inl rfl)
  publish _ _ := .keep rfl rfl (.inr nofun) (.inl rfl)
  own _ _ _ _ _ _ _ _ _ _ := .keep rfl rfl (.inl rfl) (.inl rfl)
  claim _ _ hx _ hkilled := .of_unused hx fun hy => hkilled ▸ hy
  free _ := .of_clear rfl
  leave _ _ _ := .keep rfl rfl (.inr nofun) (.inl rfl)

/-- All records are spared. -/
abbrev Spared (k k' : Kernel n) : Prop := ∀ x, Proc.Spared (k.proc x) (k'.proc x)

/-! ## Events -/

/-- The pid of an event that is a `kill`. -/
def Event.kills : Event n → Option Int
  | .kill _ pid => some pid
  | _ => none

/-- What an event that is no `kill` does to the marks: an exception marks the process that caused
it, which is on its way out then. -/
inductive Marks (k k' : Kernel n) : Prop
  | spared (h : Spared k k')
  | fault (p : Slot) (hother : ∀ x, x ≠ p → k'.proc x = k.proc x)
      (hpid : (k'.proc p).pid = (k.proc p).pid) (hstate : (k'.proc p).state = (k.proc p).state)
      (hctx : (k'.proc p).context = .exiting) (hused : (k.proc p).state ≠ .unused)

/-- A step that is no `kill` marks none but the process that trapped. -/
theorem exec_marks (hk : Inv k) (hs : (system cfg n).Step k e k') (he : e.kills = none) :
    Marks k k' := by
  have hspared : (e.marks = true → ∀ x : Proc, x.Spared { x with killed := true }) → Marks k k' :=
    fun hmark => .spared ((spared_lasting.exec cfg k e hmark).of_ok hs.2)
  cases e with
  | kill c pid => cases he
  | exception c u =>
    refine (onProc_answers (k := k) (c := c) (Q := fun k' => Marks k k') fun p hp => ?_).of_ok hs.2
    have hself : (k.usertrapException p u).proc p =
        { k.proc p with
          trapframe := { (k.proc p).trapframe with epc := u.pc, regs := u.regs }
          killed := true, context := .exiting } := by
      simp only [Kernel.usertrapException, Kernel.setkilled, Kernel.saveUser, Kernel.modify_modify,
        Kernel.modify_self]
    refine .fault p (fun x hx => ?_) ?_ ?_ ?_ ?_
    · simp only [Kernel.usertrapException, Kernel.setkilled, Kernel.saveUser, Kernel.modify_modify]
      exact Kernel.modify_of_ne _ _ _ hx
    · rw [hself]
    · rw [hself]
    · rw [hself]
    · rw [hk.harts.current c p hp]
      exact fun h => by cases h
  | _ => exact hspared fun h => by cases h

/-! ## What `kill` should do -/

/-- `kill(pid)` answers 0 and marks a process with this pid, if there is one, and otherwise answers
-1 and changes nothing. -/
def KillsRight (k : Kernel n) (pid : Int) : Prop :=
  (∃ p k', (k.proc p).state ≠ .unused ∧ (k.proc p).pid = pid ∧ k.kill pid = .ok (k', 0) ∧
    (k'.proc p).killed = true ∧ ∀ x, x ≠ p → k'.proc x = k.proc x) ∨
  (k.kill pid = .ok (k, -1) ∧ ∀ p, (k.proc p).state ≠ .unused → (k.proc p).pid ≠ pid)

/-- The pid is not that of free slots, or there are none. -/
def Killable (k : Kernel n) (pid : Int) : Prop := pid ≠ 0 ∨ ∀ p, (k.proc p).state ≠ .unused

/-- Only slots in use have a pid that can be killed. -/
theorem Killable.used (hk : Inv k) {pid : Int} (h : Killable k pid) (hp : (k.proc p).pid = pid) :
    (k.proc p).state ≠ .unused := by
  intro hunused
  rcases h with hne | hfull
  · exact hne (hp.symm.trans (hk.pids.unused p hunused))
  · exact hfull p hunused

/-- `kill` sets the mark. -/
theorem KillStep.killed (h : KillStep k p k') : (k'.proc p).killed = true := by
  rcases h.self with ⟨-, he⟩ | ⟨-, he⟩ <;> rw [he]

/-- `kill` is right exactly for a pid that is not that of free slots. -/
theorem killsRight_iff (hk : Inv k) (pid : Int) : KillsRight k pid ↔ Killable k pid := by
  constructor
  · intro h
    by_contra hnot
    simp only [Killable, not_or, not_not, not_forall] at hnot
    obtain ⟨rfl, q, hq⟩ := hnot
    have hzero := hk.pids.unused q hq
    rcases h with ⟨p, k', hused, hpid, -⟩ | ⟨hkill, -⟩
    · have hpos := hk.pids.pos p hused
      omega
    · rcases kill_spec hk 0 with ⟨-, hnone⟩ | ⟨p, k', -, hkill', -⟩
      · exact hnone q hzero
      · rw [hkill] at hkill'
        cases hkill'
  · intro h
    rcases kill_spec hk pid with ⟨hkill, hnone⟩ | ⟨p, k', hpid, hkill, -, hstep⟩
    · exact .inr ⟨hkill, fun p _ => hnone p⟩
    · exact .inl ⟨p, k', h.used hk hpid, hpid, hkill, hstep.killed, fun x hx => hstep.other hx⟩

/-- The process in slot `q` has been killed by its pid. -/
def calledOff (steps : List (Kernel n × Event n)) (k : Kernel n) (q : Slot) : Prop :=
  ∃ x ∈ steps, x.2.kills = some (k.proc q).pid ∧ (x.1.proc q).state ≠ .unused ∧
    (x.1.proc q).pid = (k.proc q).pid

/-- No free slot is marked, and a process that has not started is marked only if it has been killed
by its pid. -/
structure Fair (steps : List (Kernel n × Event n)) (k : Kernel n) : Prop where
  unused : ∀ q, (k.proc q).state = .unused → (k.proc q).killed = false
  fresh : ∀ q, (k.proc q).state ≠ .unused → (k.proc q).context = .forkret →
    (k.proc q).killed = true → calledOff steps k q

/-- A call stays in the history as it grows. -/
theorem calledOff.cons (h : calledOff steps k q) (hpid : (k'.proc q).pid = (k.proc q).pid)
    (x : Kernel n × Event n) : calledOff (x :: steps) k' q := by
  obtain ⟨y, hy, hkills, hused, hsame⟩ := h
  rw [← hpid] at hkills hsame
  exact ⟨y, List.mem_cons_of_mem x hy, hkills, hused, hsame⟩

/-- What was fair for a record stays so while the record stays. -/
theorem Fair.same (h : Fair steps k) (he : k'.proc q = k.proc q) (x : Kernel n × Event n) :
    ((k'.proc q).state = .unused → (k'.proc q).killed = false) ∧
      ((k'.proc q).state ≠ .unused → (k'.proc q).context = .forkret →
        (k'.proc q).killed = true → calledOff (x :: steps) k' q) := by
  rw [he]
  refine ⟨h.unused q, fun hused hctx hkilled => ?_⟩
  exact (h.fresh q hused hctx hkilled).cons (congrArg Proc.pid he) x

/-- A step that spares everyone is fair. -/
theorem Fair.of_spared (h : Fair steps k) (hs : Spared k k') (x : Kernel n × Event n) :
    Fair (x :: steps) k' := by
  -- a marked slot had a process before
  have hbefore : ∀ q, (k'.proc q).killed = true → (k.proc q).state ≠ .unused := by
    intro q hq hunused
    have hclear := h.unused q hunused
    rw [(hs q).killed hq] at hclear
    cases hclear
  refine ⟨fun q hq => ?_, fun q hused hctx hkilled => ?_⟩
  · cases hkilled : (k'.proc q).killed with
    | false => rfl
    | true => exact absurd hq ((hs q).same hkilled (hbefore q hkilled)).2.1
  · obtain ⟨hpid, -, hback⟩ := (hs q).same hkilled (hbefore q hkilled)
    exact (h.fresh q (hbefore q hkilled) (hback hctx) ((hs q).killed hkilled)).cons hpid x

/-- So is one that marks only the process that trapped. -/
theorem Fair.of_marks (h : Fair steps k) (hm : Marks k k') (x : Kernel n × Event n) :
    Fair (x :: steps) k' := by
  cases hm with
  | spared hs => exact h.of_spared hs x
  | fault p hother hpid hstate hctx hused =>
    have hp : (k'.proc p).state ≠ .unused := by rwa [hstate]
    refine ⟨fun q hq => ?_, fun q hq hfork => ?_⟩
    · have hne : q ≠ p := fun he => hp (he ▸ hq)
      exact (h.same (hother q hne) x).1 hq
    · have hne : q ≠ p := by
        rintro rfl
        rw [hctx] at hfork
        cases hfork
      exact (h.same (hother q hne) x).2 hq hfork

/-- So is a `kill`, which the history now records. -/
theorem Fair.of_kill (h : Fair steps k) {pid : Int} (hp : (k.proc p).pid = pid)
    (hused : (k.proc p).state ≠ .unused) (hstep : KillStep k p k') {x : Event n}
    (hx : x.kills = some pid) : Fair ((k, x) :: steps) k' := by
  have hself : (k'.proc p).pid = (k.proc p).pid ∧ (k'.proc p).state ≠ .unused := by
    rcases hstep.self with ⟨-, he⟩ | ⟨-, he⟩
    · rw [he]
      exact ⟨rfl, hused⟩
    · rw [he]
      exact ⟨rfl, fun h => by cases h⟩
  refine ⟨fun q hq => ?_, fun q hq hctx hkilled => ?_⟩
  · have hne : q ≠ p := fun he => hself.2 (he ▸ hq)
    exact (h.same (hstep.other hne) (k, x)).1 hq
  · by_cases hne : q = p
    · subst hne
      refine ⟨(k, x), List.mem_cons_self .., ?_, hused, hself.1.symm⟩
      rw [hx, ← hp, hself.1]
    · exact (h.same (hstep.other hne) (k, x)).2 hq hctx hkilled

/-- A step keeps the marks fair exactly when it is no `kill` that finds a free slot. -/
theorem Fair.step (h : Fair steps k) (hk : Inv k) (hs : (system cfg n).Step k e k') :
    Fair ((k, e) :: steps) k' ↔ ∀ pid, e.kills = some pid → Killable k pid := by
  cases e with
  | kill c pid =>
    obtain ⟨-, hexec⟩ := hs
    simp only [system, Kernel.exec] at hexec
    rcases kill_spec hk pid with ⟨hkill, hnone⟩ | ⟨p, k₁, hpid, hkill, -, hstep⟩
    · rw [hkill] at hexec
      cases hexec
      refine iff_of_true (h.of_spared (fun x => spared_lasting.refl _) _) fun pid' he => ?_
      cases he
      by_cases hzero : pid = 0
      · refine .inr fun p hp => hnone p ?_
        rw [hk.pids.unused p hp, hzero]
      · exact .inl hzero
    · rw [hkill] at hexec
      cases hexec
      constructor
      · intro hfair pid' he
        cases he
        by_contra hnot
        simp only [Killable, not_or, not_not, not_forall] at hnot
        obtain ⟨rfl, -⟩ := hnot
        -- the slot found is free, and is marked now
        have hunused : (k.proc p).state = .unused := by
          by_contra hused
          have hpos := hk.pids.pos p hused
          omega
        have hstate : (k₁.proc p).state = .unused := by
          rcases hstep.self with ⟨-, he⟩ | ⟨hsleep, -⟩
          · rw [he]
            exact hunused
          · rw [hunused] at hsleep
            cases hsleep
        have hclear := hfair.unused p hstate
        rw [hstep.killed] at hclear
        cases hclear
      · intro hC
        exact h.of_kill hpid ((hC pid rfl).used hk hpid) hstep rfl
  | _ =>
    refine iff_of_true (h.of_marks (exec_marks hk hs rfl) _) fun pid he => ?_
    cases he

/-- At boot nobody is marked. -/
theorem fair_boot (n : Nat) : Fair [] (Kernel.boot n) where
  unused _ _ := rfl
  fresh _ hused := absurd rfl hused

/-- In every state of every run and for every argument, `kill` does what it should exactly when the
argument is not 0 or no slot is free. And in every run, it has never happened that a free slot was
marked, or a process that had not started and that nobody had killed, exactly when no `kill` has
been called with 0 while a slot was free. -/
theorem kill_sound_iff (h : (system cfg n).Run steps k) :
    (∀ pid, KillsRight k pid ↔ Killable k pid) ∧
      (Throughout Fair steps k ↔
        ∀ x ∈ steps, ∀ pid, x.2.kills = some pid → Killable x.1 pid) := by
  refine ⟨killsRight_iff (inv_reachable ⟨steps, h⟩), ?_⟩
  exact Run.always_run_iff (C := fun s e => ∀ pid, e.kills = some pid → Killable s pid)
    (fair_boot n) (fun steps s e t hrun hfair hs => hfair.step (inv_reachable ⟨steps, hrun⟩) hs) h

/-- A process kills its child, and nothing is amiss. -/
theorem kill_sound_child : ∃ (steps : List (Kernel 1 × Event 1)) (k : Kernel 1),
    (system mlfqConfig 1).Run steps k ∧ (k.proc 1).killed = true ∧ Throughout Fair steps k := by
  obtain ⟨steps, k, hrun, htest⟩ := exists_run (M := system mlfqConfig 1)
    [.userinit ⟨true, true⟩, .scheduler 0, .forkret 0, .fork 0 ⟨true, true⟩ true, .forkEnd 0,
      .kill 0 2]
    (fun steps k => (k.proc 1).killed && steps.all fun x => x.2.kills != some 0)
    (by decide +kernel)
  simp only [Bool.and_eq_true, List.all_eq_true, bne_iff_ne] at htest
  obtain ⟨hkilled, hkills⟩ := htest
  refine ⟨steps, k, hrun, hkilled, (kill_sound_iff hrun).2.mpr fun x hx pid he => .inl ?_⟩
  rintro rfl
  exact hkills x hx he

/-- A process calls `kill(0)`, which answers 0 and marks a free slot. The child it then makes gets
that slot and is marked before it has started, though no `kill` has been called with its pid. -/
theorem kill_zero_marks_child : ∃ (steps : List (Kernel 1 × Event 1)) (k : Kernel 1),
    (system mlfqConfig 1).Run steps k ∧ (k.proc 1).state = .runnable ∧
      (k.proc 1).context = .forkret ∧ (k.proc 1).killed = true ∧
      (∀ x ∈ steps, x.2.kills ≠ some (k.proc 1).pid) ∧
      ∃ x ∈ steps, x.2.kills = some 0 ∧ ((x.1.kill 0).map Prod.snd).toOption = some 0 ∧
        ¬ KillsRight x.1 0 := by
  obtain ⟨steps, k, hrun, htest⟩ := exists_run (M := system mlfqConfig 1)
    [.userinit ⟨true, true⟩, .scheduler 0, .forkret 0, .kill 0 0, .fork 0 ⟨true, true⟩ true,
      .forkEnd 0]
    (fun steps k => (k.proc 1).state == .runnable && (k.proc 1).context == .forkret &&
      (k.proc 1).killed && steps.all (fun x => x.2.kills != some (k.proc 1).pid) &&
      steps.any fun x => x.2.kills == some 0 && (x.1.proc 1).state == .unused &&
        ((x.1.kill 0).map Prod.snd).toOption == some 0)
    (by decide +kernel)
  simp only [Bool.and_eq_true, beq_iff_eq, List.all_eq_true, List.any_eq_true, bne_iff_ne] at htest
  obtain ⟨⟨⟨⟨hstate, hctx⟩, hkilled⟩, hpid⟩, x, hx, ⟨hzero, hunused⟩, hanswer⟩ := htest
  refine ⟨steps, k, hrun, hstate, hctx, hkilled, hpid, x, hx, hzero, hanswer, fun hright => ?_⟩
  rcases (killsRight_iff (inv_reachable (hrun.reachable_mem x hx)) 0).mp hright with hne | hfull
  · exact hne rfl
  · exact hfull 1 hunused

end Xv6
