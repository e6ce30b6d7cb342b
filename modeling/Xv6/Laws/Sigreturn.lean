import Xv6.Laws.Alarm

/-!
# Coming back from an alarm handler

The frame that a firing alarm saves is kept, whatever the process goes through, until it calls
`sigreturn` or exits; `sigreturn` then puts the user's registers and program counter back as they
were at the interrupt (`alarm_transparent`).

`sys_sigreturn` copies from `alarm_tf` without looking at it. It is safe exactly when an alarm is in
progress: the process's alarm has fired since the process was allocated, and it has not called
`sigreturn` since then (`sigreturn_answers_iff`). A program that calls `sigreturn` at any other time
makes the kernel follow a null pointer.
-/

namespace Xv6

open Base Base.Machine

variable {n : Nat} {k k' : Kernel n} {p q : Slot} {c : Fin n} {cfg : Config} {e : Event n}

/-! ## The saved frame -/

/-- A process that lives and has been diverted to its handler, with `tf` saved. -/
structure Diverted (tf : Trapframe) (x : Proc) : Prop where
  frame : x.alarmTf = some tf
  flag : x.inAlarmHandler = true
  alive : x.state.alive = true

/-- The process `p` returns from its handler, or exits. -/
def ends (k : Kernel n) (p : Slot) : Event n → Bool
  | .sigreturn c | .exit c _ => k.myproc c = some p
  | _ => false

namespace Diverted

variable {tf : Trapframe}

theorem of_alarm {x x' : Proc} (h : Diverted tf x) (hframe : x'.alarm.alarmTf = x.alarm.alarmTf)
    (hflag : x'.alarm.inAlarmHandler = x.alarm.inAlarmHandler)
    (hlives : x.state.alive = true → x'.state.alive = true) : Diverted tf x' :=
  ⟨hframe.trans h.frame, hflag.trans h.flag, hlives h.alive⟩

theorem keeps {x x' : Proc} (h : Diverted tf x) (hk : Proc.Keeps x x') : Diverted tf x' := by
  have halarm : x'.alarm = x.alarm := congrArg Own.alarm hk.own
  exact h.of_alarm (by rw [halarm]) (by rw [halarm]) hk.lives

/-- Nothing but its own `sigreturn` or `exit` takes the saved frame from a process. -/
theorem step (h : Diverted tf (k.proc p)) (he : ends k p e = false)
    (hs : (system cfg n).Step k e k') : Diverted tf (k'.proc p) := by
  obtain ⟨o, ho, hstep⟩ := own_step hs p
  cases hstep with
  | kept hk => exact h.keeps hk
  | exited c status hc _ => exact absurd hc (of_decide_eq_false he)
  | fresh t hslot _ =>
    have hstate := h.alive
    rw [freeSlot_unused hslot] at hstate
    cases hstate
  | wrote hw _ hlives =>
    have halarm : (k'.proc p).alarm = o.alarm := congrArg Own.alarm ho
    refine h.of_alarm ?_ ?_ hlives <;> rw [halarm]
    all_goals cases hw with
    | alarm c u page tf' a htick =>
      cases htick with
      | off | counted => rfl
      | fired _ _ hout =>
        -- inside the handler no further alarm fires
        rw [show (k.proc p).alarm.inAlarmHandler = true from h.flag] at hout
        cases hout
    | counted | sigalarm | settickets => rfl
    | sigreturn c hc => exact absurd hc (of_decide_eq_false he)

end Diverted

/-- A timer interrupt that sets the flag has saved the user's registers and program counter. -/
theorem timer_diverts {u : UserRegs} {page : Bool} (hinv : Inv k) (hc : k.myproc c = some p)
    (hs : (system cfg n).Step k (.timer c u page) k')
    (hbefore : (k.proc p).inAlarmHandler = false) (hafter : (k'.proc p).inAlarmHandler = true) :
    ∃ tf, tf.epc = u.pc ∧ tf.regs = u.regs ∧ Diverted tf (k'.proc p) := by
  have hkept : ∀ {x x' : Proc}, Proc.Keeps x x' → x'.inAlarmHandler = x.inAlarmHandler := fun hx =>
    congrArg (fun o => o.alarm.inAlarmHandler) hx.own
  cases owned_step hs with
  | keeps _ hk =>
    rw [hkept (hk.slot p), hbefore] at hafter
    cases hafter
  | counted _ _ he => cases he
  | alarm _ _ _ q tf a hq hepc hregs htick ht =>
    have heq : q = p := Option.some.inj (hq.symm.trans hc)
    subst heq
    have halarm : (k'.proc q).alarm = a := congrArg Own.alarm ht.own
    have hflag : (k'.proc q).alarm.inAlarmHandler = true := hafter
    have hflag₀ : (k.proc q).alarm.inAlarmHandler = false := hbefore
    rw [halarm] at hflag
    cases htick with
    | off =>
      rw [hflag₀] at hflag
      cases hflag
    | counted =>
      rw [show (k.proc q).alarm.inAlarmHandler = true from hflag] at hflag₀
      cases hflag₀
    | fired _ _ _ =>
      refine ⟨tf, hepc, hregs, congrArg Alarm.alarmTf halarm, hafter, ht.lives ?_⟩
      rw [hinv.harts.current c q hc]
      rfl

theorem sysSigreturn_some (cfg : Config) (c : Fin n) {tf : Trapframe}
    (h : (k.proc p).alarmTf = some tf) :
    ∃ k', k.sysSigreturn cfg c p = .ok k' ∧ k'.cpus = k.cpus ∧ (k'.proc p).context = .user ∧
      (k'.proc p).trapframe = { tf with
        kernelSatp := cfg.satp, kernelSp := kstackTop p, kernelTrap := cfg.usertrapAddr
        kernelHartid := UInt64.ofNat c } := by
  rw [Kernel.sysSigreturn, h]
  refine ⟨_, rfl, rfl, ?_, ?_⟩
  · rw [Kernel.usertrapret, Kernel.modify_self]
  · rw [Kernel.usertrapret, Kernel.modify_self, Kernel.modify_self]

/-- For every user register file and program counter at which a timer interrupt diverts `p` to its
handler, and every sequence of steps in which `p` neither calls `sigreturn` nor exits: `sigreturn`
then brings `p` back to user mode with these registers and this program counter, and with the
kernel's fields as the current `usertrapret` sets them. -/
theorem alarm_transparent {k₀ k₁ k₂ : Kernel n} {u : UserRegs} {page : Bool}
    {steps : List (Kernel n × Event n)} {d : Fin n} (hreach : (system cfg n).Reachable k₀)
    (hc : k₀.myproc c = some p) (hfire : (system cfg n).Step k₀ (.timer c u page) k₁)
    (hbefore : (k₀.proc p).inAlarmHandler = false) (hafter : (k₁.proc p).inAlarmHandler = true)
    (hpath : (system cfg n).Path k₁ steps k₂) (hstay : ∀ s ∈ steps, ends s.1 p s.2 = false)
    (hd : k₂.myproc d = some p) (hcall : (system cfg n).enabled (.sigreturn d) k₂ = true) :
    ∃ k₃, (system cfg n).Step k₂ (.sigreturn d) k₃ ∧ k₃.myproc d = some p ∧
      k₃.thread d = some .user ∧ (k₃.proc p).trapframe =
        { epc := u.pc, regs := u.regs, kernelSatp := cfg.satp, kernelSp := kstackTop p
          kernelTrap := cfg.usertrapAddr, kernelHartid := UInt64.ofNat d } := by
  obtain ⟨tf, hepc, hregs, hdiverted⟩ :=
    timer_diverts (inv_reachable hreach) hc hfire hbefore hafter
  have hsaved : Diverted tf (k₂.proc p) :=
    hpath.invariant (C := fun s e => ends s p e = false) (I := fun s => Diverted tf (s.proc p))
      (fun s e t hI he hs => hI.step he hs) hdiverted hstay
  obtain ⟨k₃, hexec, hcpus, hcontext, hframe⟩ :=
    sysSigreturn_some cfg d hsaved.frame
  have hproc : k₃.myproc d = some p := by
    rw [Kernel.myproc, hcpus]
    exact hd
  refine ⟨k₃, ⟨hcall, ?_⟩, hproc, ?_, ?_⟩
  · show k₂.onProc d (fun p => k₂.sysSigreturn cfg d p) = .ok k₃
    rw [Kernel.onProc, hd]
    exact hexec
  · rw [Kernel.thread, hproc, Option.map_some, hcontext]
  · rw [hframe, hepc, hregs]

/-- User registers to recognise: each holds 5, and the program counter is 7. -/
def someRegs : UserRegs := ⟨7, fun _ => 5⟩

/-- The first process asks for an alarm and is interrupted; in its handler it is interrupted again,
asks for another alarm and forks a child before it returns. -/
theorem alarm_transparent_first : ∃ k₃ : Kernel 1, (k₃.proc 0).trapframe.epc = 7 ∧
    (k₃.proc 0).trapframe.regs = (fun _ => 5) ∧ k₃.thread 0 = some .user := by
  obtain ⟨before, k₀, hrun, htest⟩ := exists_run (M := system mlfqConfig 1)
    (firstRun 0 ++ [.syscall 0 zeroRegs 24, .sigalarm 0 1 0, .ret 0 0])
    (fun _ k₀ => k₀.myproc 0 == some 0 && !(k₀.proc 0).inAlarmHandler &&
      ((system mlfqConfig 1).next (.timer 0 someRegs true) k₀).any fun k₁ =>
        (k₁.proc 0).inAlarmHandler &&
        ((system mlfqConfig 1).replay [.scheduler 0, .resume 0, .timer 0 zeroRegs true,
          .syscall 0 zeroRegs 24, .sigalarm 0 3 0, .ret 0 0, .syscall 0 zeroRegs 1,
          .fork 0 ⟨true, true⟩ true, .forkEnd 0, .ret 0 2, .syscall 0 zeroRegs 25] [] k₁).any
          fun r => r.2.myproc 0 == some 0 && (system mlfqConfig 1).enabled (.sigreturn 0) r.2 &&
            r.1.all fun s => ends s.1 0 s.2 == false)
    (by decide +kernel)
  simp only [Bool.and_eq_true, beq_iff_eq, Option.any_eq_true, List.all_eq_true,
    Bool.not_eq_true'] at htest
  obtain ⟨⟨hc, hbefore⟩, k₁, hfire, hafter, ⟨later, k₂⟩, hlater, ⟨hd, hcall⟩, hstay⟩ := htest
  obtain ⟨k₃, -, -, huser, hframe⟩ := alarm_transparent ⟨before, hrun⟩ hc (step_of_next hfire)
    hbefore hafter (path_of_replay .nil hlater) hstay hd hcall
  exact ⟨k₃, by rw [hframe]; rfl, by rw [hframe]; rfl, huser⟩

/-! ## `sigreturn` at any time -/

/-- Whether an alarm of `p` is in progress at the end `t` of a run: it has fired, and since then `p`
has not called `sigreturn` and its slot has not been given to a new process. -/
def inProgress (p : Slot) : List (Kernel n × Event n) → Kernel n → Bool
  | [], _ => false
  | (s, e) :: steps, t =>
    match e with
    | .timer .. => inProgress p steps s ||
        (!(s.proc p).inAlarmHandler && (t.proc p).inAlarmHandler)
    | .sigreturn c => if s.myproc c = some p then false else inProgress p steps s
    | .userinit _ => if s.freeSlot = some p then false else inProgress p steps s
    | .fork _ a _ =>
      if s.freeSlot = some p ∧ a.trapframe = true ∧ a.pagetable = true then false
      else inProgress p steps s
    | _ => inProgress p steps s

section InProgress

variable {steps : List (Kernel n × Event n)} {t : Kernel n}

theorem inProgress_of_kept (he : e.writes = false)
    (hflag : (t.proc p).inAlarmHandler = (k.proc p).inAlarmHandler) :
    inProgress p ((k, e) :: steps) t = inProgress p steps k := by
  cases e with
  | timer => simp [inProgress, hflag]
  | userinit | fork | sigreturn => cases he
  | _ => rfl

/-- An allocation ends what the slot's last process left behind. -/
theorem inProgress_allocated {x : Int} (ha : Allocated k q x t)
    (hstep : inProgress p ((k, e) :: steps) t =
      if k.freeSlot = some p then false else inProgress p steps k)
    (hkept : p ≠ q → (t.proc p).alarmTf.isSome = inProgress p steps k) :
    (t.proc p).alarmTf.isSome = inProgress p ((k, e) :: steps) t := by
  rw [hstep]
  by_cases hq : p = q
  · subst hq
    have halarm : (t.proc p).alarm = (k.proc p).alarm.fresh := congrArg Own.alarm ha.own
    rw [if_pos ha.slot]
    exact congrArg (fun a : Alarm => a.alarmTf.isSome) halarm
  · rw [if_neg fun hslot => hq (Option.some.inj (hslot.symm.trans ha.slot))]
    exact hkept hq

/-- The saved frame is there exactly while an alarm is in progress: one step. -/
theorem alarmTf_step (h : ∀ p, (k.proc p).alarmTf.isSome = inProgress p steps k)
    (hs : (system cfg n).Step k e t) (p : Slot) :
    (t.proc p).alarmTf.isSome = inProgress p ((k, e) :: steps) t := by
  have hsame : (t.proc p).alarm.alarmTf = (k.proc p).alarm.alarmTf →
      (t.proc p).alarmTf.isSome = inProgress p steps k := fun hframe =>
    (congrArg Option.isSome hframe).trans (h p)
  have hkept : Proc.Keeps (k.proc p) (t.proc p) → (t.proc p).alarmTf.isSome =
      inProgress p steps k ∧ (t.proc p).inAlarmHandler = (k.proc p).inAlarmHandler := by
    intro hp
    have halarm : (t.proc p).alarm = (k.proc p).alarm := congrArg Own.alarm hp.own
    exact ⟨hsame (by rw [halarm]), congrArg Alarm.inAlarmHandler halarm⟩
  cases owned_step hs with
  | keeps he hk =>
    obtain ⟨hframe, hflag⟩ := hkept (hk.slot p)
    rw [inProgress_of_kept he hflag]
    exact hframe
  | passed c hk => exact (hkept (hk p)).1
  | exited c status q hc hl =>
    by_cases hq : p = q
    · subst hq
      have halarm : (t.proc p).alarm = (k.proc p).alarm := congrArg Own.alarm hl.own
      exact hsame (by rw [halarm])
    · exact (hkept (hl.other p hq)).1
  | booted a q ha _ =>
    exact inProgress_allocated ha rfl fun hq => (hkept (ha.other p hq)).1
  | forked c a uvmcopy hf =>
    have hcan : k.canAlloc a → inProgress p ((k, .fork c a uvmcopy) :: steps) t =
        if k.freeSlot = some p then false else inProgress p steps k := by
      intro hcan
      simp only [inProgress, hcan.1, hcan.2.1, and_self, and_true]
    cases hf with
    | failed hk hfail =>
      have hcond : ¬ (k.freeSlot = some p ∧ a.trapframe = true ∧ a.pagetable = true) :=
        fun hslot => hfail ⟨hslot.2.1, hslot.2.2, by rw [hslot.1]; rfl⟩
      rw [inProgress, if_neg hcond]
      exact (hkept (hk.slot p)).1
    | undone q ha _ ha' | made q ha _ ha' =>
      exact inProgress_allocated ha (hcan ha') fun hq => (hkept (ha.other p hq)).1
  | alarm c u page q tf a hc _ _ htick ht =>
    by_cases hq : p = q
    · subst hq
      have halarm : (t.proc p).alarm = a := congrArg Own.alarm ht.own
      have hflag : (t.proc p).inAlarmHandler = a.inAlarmHandler :=
        congrArg Alarm.inAlarmHandler halarm
      cases htick with
      | off | counted =>
        rw [inProgress_of_kept rfl hflag]
        exact hsame (by rw [halarm])
      | fired _ _ hout =>
        rw [inProgress, hflag, show (k.proc p).inAlarmHandler = false from hout]
        have hframe : (t.proc p).alarmTf = some tf := congrArg Alarm.alarmTf halarm
        simp [hframe]
    · obtain ⟨hframe, hflag⟩ := hkept (ht.other p hq)
      rw [inProgress_of_kept rfl hflag]
      exact hframe
  | counted c q he hc ht =>
    have hstep : inProgress p ((k, e) :: steps) t = inProgress p steps k := by
      cases e <;> first | rfl | cases he
    rw [hstep]
    by_cases hq : p = q
    · subst hq
      exact hsame (congrArg (fun o : Own => o.alarm.alarmTf) ht.own)
    · exact (hkept (ht.other p hq)).1
  | sigalarm c ticks handler q hc ht | settickets c tickets q hc ht =>
    by_cases hq : p = q
    · subst hq
      exact hsame (congrArg (fun o : Own => o.alarm.alarmTf) ht.own)
    · exact (hkept (ht.other p hq)).1
  | sigreturn c q hc ht =>
    rw [inProgress]
    by_cases hq : p = q
    · subst hq
      rw [if_pos hc]
      exact congrArg (fun o : Own => o.alarm.alarmTf.isSome) ht.own
    · rw [if_neg fun hp => hq (Option.some.inj (hp.symm.trans hc))]
      exact (hkept (ht.other p hq)).1

/-- The saved frame is there exactly while an alarm is in progress. -/
theorem alarmTf_isSome (hrun : (system cfg n).Run steps k) :
    ∀ p, (k.proc p).alarmTf.isSome = inProgress p steps k := by
  induction hrun with
  | nil => exact fun _ => rfl
  | @snoc steps s t e hrun hs ih => exact alarmTf_step ih hs

end InProgress

/-- At the end of any run, a call of `sigreturn` by `p` is answered, and leaves the process as it is
if no alarm is in progress, exactly when an alarm is in progress. -/
theorem sigreturn_answers_iff {steps : List (Kernel n × Event n)}
    (hrun : (system cfg n).Run steps k) (hc : k.myproc c = some p)
    (hcall : (system cfg n).enabled (.sigreturn c) k = true) :
    (∃ k', (system cfg n).Step k (.sigreturn c) k' ∧ (inProgress p steps k = false →
        (k'.proc p).trapframe = (k.proc p).trapframe ∧ (k'.proc p).alarm = (k.proc p).alarm)) ↔
      inProgress p steps k = true := by
  rw [← alarmTf_isSome hrun p]
  have hexec : (system cfg n).exec (.sigreturn c) k = k.sysSigreturn cfg c p := by
    show k.onProc c (fun p => k.sysSigreturn cfg c p) = _
    rw [Kernel.onProc, hc]
  constructor
  · rintro ⟨k', ⟨-, hstep⟩, -⟩
    rw [hexec, Kernel.sysSigreturn] at hstep
    split at hstep
    · cases hstep
    · next tf htf =>
      rw [htf]
      rfl
  · intro hsome
    obtain ⟨tf, htf⟩ := Option.isSome_iff_exists.mp hsome
    obtain ⟨k', hk', -⟩ := sysSigreturn_some cfg c htf
    refine ⟨k', ⟨hcall, hexec.trans hk'⟩, fun hnone => ?_⟩
    rw [hsome] at hnone
    cases hnone

/-- The first process asks for an alarm, is interrupted, and calls `sigreturn` in its handler. -/
theorem sigreturn_answers_first : ∃ (steps : List (Kernel 1 × Event 1)) (k k' : Kernel 1),
    (system mlfqConfig 1).Run steps k ∧ inProgress 0 steps k = true ∧
      (system mlfqConfig 1).Step k (.sigreturn 0) k' := by
  obtain ⟨steps, k, hrun, htest⟩ := exists_run (M := system mlfqConfig 1)
    (firstRun 0 ++ [.syscall 0 zeroRegs 24, .sigalarm 0 1 0, .ret 0 0, .timer 0 someRegs true,
      .scheduler 0, .resume 0, .syscall 0 zeroRegs 25])
    (fun steps k => k.myproc 0 == some 0 && (system mlfqConfig 1).enabled (.sigreturn 0) k &&
      inProgress 0 steps k) (by decide +kernel)
  simp only [Bool.and_eq_true, beq_iff_eq] at htest
  obtain ⟨⟨hc, hcall⟩, hprogress⟩ := htest
  obtain ⟨k', hstep, -⟩ := (sigreturn_answers_iff hrun hc hcall).mpr hprogress
  exact ⟨steps, k, k', hrun, hprogress, hstep⟩

/-- The first process calls `sigreturn` as its first system call, and the kernel follows a null
pointer. -/
theorem sigreturn_null : ∃ k : Kernel 1, (system mlfqConfig 1).Reachable k ∧
    (system mlfqConfig 1).enabled (.sigreturn 0) k = true ∧
    ∀ k', (system mlfqConfig 1).exec (.sigreturn 0) k ≠ .ok k' := by
  obtain ⟨steps, k, hrun, htest⟩ := exists_run (M := system mlfqConfig 1)
    (firstRun 0 ++ [.syscall 0 zeroRegs 25])
    (fun _ k => (system mlfqConfig 1).enabled (.sigreturn 0) k &&
      match (system mlfqConfig 1).exec (.sigreturn 0) k with
      | .ok _ => false
      | .error f => f == .null "alarm_tf") (by decide +kernel)
  simp only [Bool.and_eq_true] at htest
  refine ⟨k, ⟨steps, hrun⟩, htest.1, fun k' hk' => ?_⟩
  have h := htest.2
  rw [hk'] at h
  cases h

end Xv6
