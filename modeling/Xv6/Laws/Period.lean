import Xv6.Laws.Alarm
import Xv6.Laws.Counters

/-!
# The period of an alarm

The counter `cur_ticks` advances at every timer tick a process takes in user mode, whether or not an
alarm is set. The tick that brings it up to `ticks` diverts the process to its handler, unless the
process is inside the handler already. The counter goes back to 0 when the alarm fires and when the
handler returns, but not when `sigalarm` sets the alarm. So every later period is exact, and the
first one is exact only if the counter was at 0 when the alarm was set, or if the period is a single
tick. A process in a slot whose flag `in_alarm_handler` was left set is never diverted.
-/

namespace Xv6

open Base Base.Machine

variable {n : Nat} {k k' : Kernel n} {p q : Slot} {c : Fin n} {cfg : Config} {e : Event n}

/-! ## Ticks -/

/-- A timer tick that `p` takes in user mode. A process that has been killed exits instead. -/
def userTick (p : Slot) (k : Kernel n) : Event n → Bool
  | .timer c _ _ => k.myproc c = some p ∧ (k.proc p).context = .user ∧ (k.proc p).killed = false
  | _ => false

/-- The process `p` calls `sigreturn`. -/
def returns (p : Slot) (k : Kernel n) : Event n → Bool
  | .sigreturn c => k.myproc c = some p
  | _ => false

/-- The process `p` sets another alarm, or exits. -/
def disturbs (p : Slot) (k : Kernel n) : Event n → Bool
  | .sigalarm c _ _ | .exit c _ => k.myproc c = some p
  | _ => false

/-- The next tick brings the counter up to the alarm, and the process is not marked as being inside
its handler. -/
def Alarm.Due (a : Alarm) : Prop :=
  0 < a.ticks ∧ a.ticks ≤ int32 (a.curTicks + 1) ∧ a.inAlarmHandler = false

/-- The alarm of a process fires at a tick in user mode, with the trapframe `tf` saved. -/
def Alarm.fire (tf : Trapframe) (a : Alarm) : Alarm :=
  { a with curTicks := 0, inAlarmHandler := true, alarmTf := some tf }

/-- The alarm of a process counts a tick in user mode. -/
def Alarm.count (a : Alarm) : Alarm := { a with curTicks := int32 (a.curTicks + 1) }

/-- What a tick in user mode does to the process that takes it. -/
inductive Ticks (p : Slot) (k k' : Kernel n) : Prop
  | fired (tf : Trapframe) (hdue : (k.proc p).alarm.Due)
      (ha : (k'.proc p).alarm = (k.proc p).alarm.fire tf)
      (hepc : (k'.proc p).trapframe.epc = (k.proc p).handler)
  | counted (hdue : ¬ (k.proc p).alarm.Due) (ha : (k'.proc p).alarm = (k.proc p).alarm.count)

theorem alarm_ticks (hrun : (k.proc p).state = .running) (page : Bool) :
    Answers (k.alarm p page) (Ticks p k) := by
  rw [Kernel.alarm, if_pos hrun]
  simp only [Kernel.modify_self, Kernel.modify_modify]
  split
  · next hdue =>
    split
    · exact answers_error _ _
    · refine .fired (k.proc p).trapframe hdue ?_ ?_
      · rw [Kernel.modify_self]
        rfl
      · rw [Kernel.modify_self]
  · next hdue =>
    refine .counted hdue ?_
    rw [Kernel.modify_self]
    rfl

theorem Proc.Keeps.alarm {x x' : Proc} (h : Proc.Keeps x x') : x'.alarm = x.alarm :=
  congrArg Own.alarm h.own

/-- What comes before the alarm part makes no difference to it. -/
theorem Ticks.after {k₁ : Kernel n} (h : Proc.Keeps (k.proc p) (k₁.proc p)) (ht : Ticks p k₁ k') :
    Ticks p k k' := by
  have halarm := h.alarm
  cases ht with
  | fired tf hdue ha hepc =>
    rw [halarm] at hdue ha
    exact .fired tf hdue ha (hepc.trans (congrArg Alarm.handler halarm))
  | counted hdue ha =>
    rw [halarm] at hdue ha
    exact .counted hdue ha

/-- Nor does what comes after it. -/
theorem Ticks.before {k₁ : Kernel n} (ht : Ticks p k k₁) (h : Proc.Keeps (k₁.proc p) (k'.proc p))
    (hu : Proc.SameUser (k₁.proc p) (k'.proc p)) : Ticks p k k' := by
  cases ht with
  | fired tf hdue ha hepc => exact .fired tf hdue (h.alarm.trans ha) (hu.epc.trans hepc)
  | counted hdue ha => exact .counted hdue (h.alarm.trans ha)

/-- `usertrap` on a timer interrupt counts the tick for its process, unless that has been killed. -/
theorem usertrapTimer_ticks (hinv : Inv k) (hc : k.myproc c = some p) (u : UserRegs)
    (page : Bool) : Answers (k.usertrapTimer cfg c p u page) fun k' =>
      if (k.proc p).killed then (k'.proc p).alarm = (k.proc p).alarm else Ticks p k k' := by
  have haside := saveUser_aside k p u
  have hc' : (k.saveUser p u).myproc c = some p := hc
  have hclock : Answers ((k.saveUser p u).timerintr c) _ := timerintr_spec (haside.inv hinv) c
  rw [hc'] at hclock
  rw [Kernel.usertrapTimer]
  refine (hclock.and (keeps_harmless.timerintr (k.saveUser p u) c)).bind fun k₁ h₁ => ?_
  obtain ⟨⟨hinv₁, htick⟩, hwithin⟩ := h₁
  have hkeep : Proc.Keeps (k.proc p) (k₁.proc p) :=
    ((keeps_harmless.saveUser k p u).slot p).trans (hwithin.slot p)
  have hkilled : (k₁.proc p).killed = (k.proc p).killed := htick.self.2.trans haside.killed
  have hcurrent : k₁.myproc c = some p := by
    rw [Kernel.myproc, htick.cpus]
    exact hc
  rw [hkilled]
  cases (k.proc p).killed with
  | true =>
    refine (keeps_harmless.goes k₁ p fun he => ?_).slot p |>.alarm.trans hkeep.alarm
    cases he
  | false =>
    refine (alarm_ticks (hinv₁.harts.current c p hcurrent) page).bind fun k₂ h₂ => ?_
    have hticks : Ticks p k k₂ := h₂.after hkeep
    split
    · refine ((keeps_harmless.mlfqTick cfg k₂ c p).and (sameUser_gentle.mlfqTick cfg k₂ c p)).mono
        fun k' h' => ?_
      exact hticks.before (h'.1.slot p) (h'.2.slot p)
    · have hctx : Context.trapret ≠ .forkret := by decide
      exact hticks.before ((keeps_harmless.yield k₂ c p (.inl hctx)).slot p)
        ((sameUser_gentle.yield k₂ c p (.inl hctx)).slot p)

/-- A timer interrupt counts a tick exactly for the process it finds in user mode. -/
theorem timer_ticks (hinv : Inv k) {u : UserRegs} {page : Bool}
    (hs : (system cfg n).Step k (.timer c u page) k') :
    if userTick p k (.timer c u page) then Ticks p k k'
    else (k'.proc p).alarm = (k.proc p).alarm := by
  have hexec : k.timer cfg c u page = .ok k' := hs.2
  by_cases hc : k.myproc c = some p
  · have hthread : k.thread c = some (k.proc p).context := by
      rw [Kernel.thread, hc]
      rfl
    by_cases hu : (k.proc p).context = .user
    · rw [Kernel.timer, hthread, hu, if_pos rfl, Kernel.onProc, hc] at hexec
      have hticks := (usertrapTimer_ticks hinv hc u page).of_ok hexec
      cases hkilled : (k.proc p).killed with
      | true =>
        rw [hkilled, if_pos rfl] at hticks
        simpa [userTick, hkilled] using hticks
      | false =>
        rw [hkilled, if_neg Bool.false_ne_true] at hticks
        simpa [userTick, hc, hu, hkilled] using hticks
    · rw [Kernel.timer, hthread, if_neg fun he => hu (Option.some.inj he)] at hexec
      have hkept := ((keeps_harmless.kerneltrapTimer k c).of_ok hexec).slot p |>.alarm
      simpa [userTick, hu] using hkept
  · have hkept : (k'.proc p).alarm = (k.proc p).alarm := by
      cases owned_step hs with
      | keeps _ hk => exact (hk.slot p).alarm
      | counted _ _ he => cases he
      | alarm _ _ _ q tf a hq _ _ _ ht =>
        refine (ht.other p fun heq => hc ?_).alarm
        rw [heq]
        exact hq
    simpa [userTick, hc] using hkept

/-- A tick in user mode completes if there is a page for the trapframe. -/
theorem exists_userTick (hinv : Inv k) {u : UserRegs}
    (htick : userTick p k (.timer c u true) = true) :
    ∃ k', (system cfg n).Step k (.timer c u true) k' := by
  obtain ⟨hc, huser, -⟩ := of_decide_eq_true htick
  have hthread : k.thread c = some .user := by
    rw [Kernel.thread, hc, ← huser]
    rfl
  have hspec : Post (fun _ => True) (k.usertrapTimer cfg c p u true) _ :=
    usertrapTimer_spec hinv hc cfg u fun h => by cases h
  cases hexec : k.usertrapTimer cfg c p u true with
  | error f => exact absurd trivial (hspec.of_error hexec)
  | ok k' =>
    refine ⟨k', ?_, ?_⟩
    · show k.interruptible c = true
      rw [Kernel.interruptible, hthread]
    · show k.timer cfg c u true = .ok k'
      rw [Kernel.timer, if_pos hthread, Kernel.onProc, hc]
      exact hexec

/-! ## Steps -/

/-- What an event does to the alarm of a process that sets no other alarm and does not exit. -/
inductive AlarmStep (p : Slot) (k : Kernel n) (e : Event n) (k' : Kernel n) : Prop
  | ticked (htick : userTick p k e = true) (hret : returns p k e = false) (h : Ticks p k k')
  | returned (htick : userTick p k e = false) (hret : returns p k e = true)
      (hsome : (k.proc p).alarmTf.isSome = true)
      (ha : (k'.proc p).alarm = { (k.proc p).alarm with
        alarmTf := none, alarmOn := false, curTicks := 0, inAlarmHandler := false })
  | kept (htick : userTick p k e = false) (hret : returns p k e = false)
      (ha : (k'.proc p).alarm = (k.proc p).alarm)

/-- `sigreturn` follows the pointer to the saved frame. -/
theorem sigreturn_saved (hc : k.myproc c = some p)
    (hs : (system cfg n).Step k (.sigreturn c) k') : (k.proc p).alarmTf.isSome = true := by
  have hexec : k.onProc c (fun p => k.sysSigreturn cfg c p) = .ok k' := hs.2
  rw [Kernel.onProc, hc] at hexec
  cases htf : (k.proc p).alarmTf with
  | some tf => rfl
  | none =>
    simp only [Kernel.sysSigreturn, htf] at hexec
    cases hexec

/-- A living process lives on until it exits. -/
theorem alive_step (hs : (system cfg n).Step k e k') (hp : (k.proc p).state.alive = true)
    (he : disturbs p k e = false) : (k'.proc p).state.alive = true := by
  obtain ⟨o, -, hstep⟩ := own_step hs p
  cases hstep with
  | kept hk => exact hk.lives hp
  | exited c status hc _ => exact absurd hc (of_decide_eq_false he)
  | fresh t hslot _ =>
    rw [freeSlot_unused hslot] at hp
    cases hp
  | wrote _ _ hlives => exact hlives hp

/-- The events that are no tick, no `sigreturn` and no disturbance leave the alarm alone. -/
theorem alarm_kept (hs : (system cfg n).Step k e k') (hp : (k.proc p).state.alive = true)
    (htimer : ∀ c u page, e ≠ .timer c u page) (hret : returns p k e = false)
    (he : disturbs p k e = false) : (k'.proc p).alarm = (k.proc p).alarm := by
  obtain ⟨o, ho, hstep⟩ := own_step hs p
  refine (congrArg Own.alarm ho).trans ?_
  cases hstep with
  | kept | exited => rfl
  | fresh t hslot _ =>
    rw [freeSlot_unused hslot] at hp
    cases hp
  | wrote hw _ _ =>
    cases hw with
    | alarm c u page => exact absurd rfl (htimer c u page)
    | counted | settickets => rfl
    | sigalarm c ticks handler hc => exact absurd hc (of_decide_eq_false he)
    | sigreturn c hc => exact absurd hc (of_decide_eq_false hret)

theorem alarm_step (hinv : Inv k) (hs : (system cfg n).Step k e k')
    (hp : (k.proc p).state.alive = true) (he : disturbs p k e = false) : AlarmStep p k e k' := by
  cases e with
  | timer c u page =>
    have hticks := timer_ticks (p := p) hinv hs
    cases htick : userTick p k (.timer c u page) with
    | true =>
      rw [htick, if_pos rfl] at hticks
      exact .ticked htick rfl hticks
    | false =>
      rw [htick, if_neg Bool.false_ne_true] at hticks
      exact .kept htick rfl hticks
  | sigreturn c =>
    by_cases hc : k.myproc c = some p
    · cases owned_step hs with
      | keeps hw => cases hw
      | counted _ _ hw => cases hw
      | sigreturn _ q hq ht =>
        have heq : q = p := Option.some.inj (hq.symm.trans hc)
        subst heq
        exact .returned rfl (decide_eq_true hc) (sigreturn_saved hc hs) (congrArg Own.alarm ht.own)
    · have hret : returns p k (.sigreturn c) = false := decide_eq_false hc
      exact .kept rfl hret (alarm_kept hs hp (fun _ _ _ h => by cases h) hret he)
  | _ => exact .kept rfl rfl (alarm_kept hs hp (fun _ _ _ h => by cases h) rfl he)

/-! ## Periods -/

/-- The ticks `p` has taken in user mode since its last `sigreturn`, or since the beginning of these
steps. -/
def elapsed (p : Slot) : List (Kernel n × Event n) → Nat
  | [] => 0
  | (k, e) :: steps =>
    if returns p k e then 0 else if userTick p k e then elapsed p steps + 1 else elapsed p steps

/-- The step from `k` to `k'` diverts `p`: its trapframe has been saved for the handler's return. -/
def Diverts (p : Slot) (k k' : Kernel n) : Prop :=
  (k.proc p).alarmTf = none ∧ (k'.proc p).alarmTf.isSome = true

/-- From `k` on, and as long as `p` sets no other alarm, `p` is diverted exactly at those ticks in
user mode that complete a period of `ticks` of them, outside the handler and counted from here or
from the last return; and it is diverted to `handler`. Such a tick does come about if there is a page
for the trapframe. -/
def Periodic (cfg : Config) (p : Slot) (ticks : Int) (handler : UInt64) (k : Kernel n) : Prop :=
  (∀ steps s e t, (system cfg n).Path k steps s → (system cfg n).Step s e t →
    (∀ x ∈ (s, e) :: steps, disturbs p x.1 x.2 = false) →
    (Diverts p s t ↔ userTick p s e = true ∧ (s.proc p).alarmTf = none ∧
      (elapsed p steps : Int) + 1 = ticks) ∧
    (Diverts p s t → (t.proc p).trapframe.epc = handler)) ∧
  ∀ steps s c u, (system cfg n).Path k steps s → (∀ x ∈ steps, disturbs p x.1 x.2 = false) →
    userTick p s (.timer c u true) = true → (s.proc p).alarmTf = none →
    (elapsed p steps : Int) + 1 = ticks → ∃ t, (system cfg n).Step s (.timer c u true) t ∧
      Diverts p s t ∧ (t.proc p).trapframe.epc = handler

/-- What holds of the ticks that complete holds of those that are due. -/
theorem Periodic.of_steps {ticks : Int} {handler : UInt64} (hreach : (system cfg n).Reachable k)
    (h : ∀ steps s e t, (system cfg n).Path k steps s → (system cfg n).Step s e t →
      (∀ x ∈ (s, e) :: steps, disturbs p x.1 x.2 = false) →
      (Diverts p s t ↔ userTick p s e = true ∧ (s.proc p).alarmTf = none ∧
        (elapsed p steps : Int) + 1 = ticks) ∧
      (Diverts p s t → (t.proc p).trapframe.epc = handler)) : Periodic cfg p ticks handler k := by
  refine ⟨h, fun steps s c u hpath hquiet htick hnone hlast => ?_⟩
  obtain ⟨t, hs⟩ := exists_userTick (inv_reachable (hreach.path hpath)) htick
  obtain ⟨hiff, hepc⟩ := h steps s _ t hpath hs (List.forall_mem_cons.mpr ⟨rfl, hquiet⟩)
  have hd := hiff.mpr ⟨htick, hnone, hlast⟩
  exact ⟨t, hs, hd, hepc hd⟩

/-- An alarm for every `ticks` ticks that this process sets now starts with a whole period: the
flag is clear, and the counter is at 0, or the period is one tick and the counter does not wrap. -/
def Punctual (ticks : Int) (x : Proc) : Prop :=
  x.inAlarmHandler = false ∧
    (x.curTicks = 0 ∨ ticks = 1 ∧ 0 ≤ x.curTicks ∧ x.curTicks + 1 < 2 ^ 31)

/-- A step is a diversion exactly if it is a tick at which the alarm is due outside the handler. -/
theorem AlarmStep.diverts_iff (h : AlarmStep p k e k') :
    Diverts p k k' ↔ userTick p k e = true ∧ (k.proc p).alarmTf = none ∧ (k.proc p).alarm.Due := by
  have hsaved : ∀ {a : Alarm}, (k'.proc p).alarm = a → (k'.proc p).alarmTf = a.alarmTf := fun ha =>
    congrArg Alarm.alarmTf ha
  unfold Diverts
  cases h with
  | ticked htick _ ht =>
    cases ht with
    | fired tf hdue ha _ =>
      rw [hsaved ha]
      exact ⟨fun h => ⟨htick, h.1, hdue⟩, fun h => ⟨h.2.1, rfl⟩⟩
    | counted hdue ha =>
      rw [hsaved ha]
      constructor
      · rintro ⟨hnone, hsome⟩
        rw [show (k.proc p).alarm.count.alarmTf = none from hnone] at hsome
        cases hsome
      · exact fun h => absurd h.2.2 hdue
  | returned htick _ _ ha =>
    rw [hsaved ha, htick]
    constructor
    · rintro ⟨-, hsome⟩
      cases hsome
    · rintro ⟨hno, -⟩
      cases hno
  | kept htick _ ha =>
    rw [hsaved ha, htick]
    constructor
    · rintro ⟨hnone, hsome⟩
      rw [show (k.proc p).alarm.alarmTf = none from hnone] at hsome
      cases hsome
    · exact fun h => by cases h.1

theorem AlarmStep.epc (h : AlarmStep p k e k') (hd : Diverts p k k') :
    (k'.proc p).trapframe.epc = (k.proc p).handler := by
  obtain ⟨htick, -, hdue⟩ := h.diverts_iff.mp hd
  cases h with
  | ticked _ _ ht =>
    cases ht with
    | fired _ _ _ hepc => exact hepc
    | counted hnot _ => exact absurd hdue hnot
  | returned hno _ _ _ | kept hno _ _ =>
    rw [hno] at htick
    cases htick

/-! ## The exact periods -/

/-- The alarm of a process that set it for every `ticks` ticks, starting with a whole period, and
has taken `m` ticks since then or since it last returned from its handler. -/
structure Scheduled (ticks : Int) (handler : UInt64) (m : Nat) (a : Alarm) : Prop where
  period : a.ticks = ticks
  target : a.handler = handler
  inside : a.alarmTf.isSome = true → a.inAlarmHandler = true
  outside : a.alarmTf = none → a.inAlarmHandler = false ∧ (m : Int) < ticks ∧
    (a.curTicks = m ∨ ticks = 1 ∧ 0 ≤ a.curTicks ∧ a.curTicks + 1 < 2 ^ 31)

section Schedule

variable {ticks : Int} {handler : UInt64} {a : Alarm} {m : Nat}
  (hpos : 0 < ticks) (hlt : ticks < 2 ^ 31)

include hpos hlt

namespace Scheduled

/-- The alarm is due at the next tick exactly if that is the last of the period. -/
theorem due_iff (h : Scheduled ticks handler m a) :
    a.Due ↔ a.alarmTf = none ∧ (m : Int) + 1 = ticks := by
  cases htf : a.alarmTf with
  | some tf =>
    have hin : a.inAlarmHandler = true := h.inside (by rw [htf]; rfl)
    simp [Alarm.Due, hin]
  | none =>
    obtain ⟨hflag, hm, hcur⟩ := h.outside htf
    have hnext : int32 (a.curTicks + 1) = a.curTicks + 1 :=
      int32_of_range (by omega) (by omega)
    rw [Alarm.Due, h.period, hnext]
    simp only [hflag, true_and, and_true]
    omega

theorem count (h : Scheduled ticks handler m a) (hdue : ¬ a.Due) :
    Scheduled ticks handler (m + 1) a.count := by
  refine ⟨h.period, h.target, h.inside, fun htf => ?_⟩
  have htf : a.alarmTf = none := htf
  obtain ⟨hflag, hm, hcur⟩ := h.outside htf
  have hlast : (m : Int) + 1 ≠ ticks := fun heq => hdue ((h.due_iff hpos hlt).mpr ⟨htf, heq⟩)
  have hnext : a.count.curTicks = a.curTicks + 1 :=
    int32_of_range (by omega) (by omega)
  refine ⟨hflag, by push_cast; omega, .inl ?_⟩
  rw [hnext]
  push_cast
  omega

variable {steps : List (Kernel n × Event n)}

theorem step (h : Scheduled ticks handler (elapsed p steps) (k.proc p).alarm)
    (hs : AlarmStep p k e k') :
    Scheduled ticks handler (elapsed p ((k, e) :: steps)) (k'.proc p).alarm := by
  cases hs with
  | ticked htick hret ht =>
    rw [elapsed, hret, htick, if_neg Bool.false_ne_true, if_pos rfl]
    cases ht with
    | fired tf _ ha _ =>
      rw [ha]
      exact ⟨h.period, h.target, fun _ => rfl, nofun⟩
    | counted hdue ha =>
      rw [ha]
      exact h.count hpos hlt hdue
  | returned htick hret _ ha =>
    rw [elapsed, hret, if_pos rfl, ha]
    refine ⟨h.period, h.target, fun htf => ?_, fun _ => ⟨rfl, hpos, .inl rfl⟩⟩
    cases htf
  | kept htick hret ha =>
    rw [elapsed, hret, htick, if_neg Bool.false_ne_true, if_neg Bool.false_ne_true, ha]
    exact h

/-- A whole first period is followed by whole periods only. -/
theorem path (h : Scheduled ticks handler 0 (k.proc p).alarm) (hreach : (system cfg n).Reachable k)
    (hp : (k.proc p).state.alive = true) (hpath : (system cfg n).Path k steps k')
    (hquiet : ∀ x ∈ steps, disturbs p x.1 x.2 = false) :
    Scheduled ticks handler (elapsed p steps) (k'.proc p).alarm ∧
      (k'.proc p).state.alive = true := by
  induction hpath with
  | nil => exact ⟨h, hp⟩
  | @snoc steps s t e hpath hs ih =>
    obtain ⟨hhead, hrest⟩ := List.forall_mem_cons.mp hquiet
    obtain ⟨hon, hlive⟩ := ih hrest
    have hinv := inv_reachable (hreach.path hpath)
    exact ⟨hon.step hpos hlt (alarm_step hinv hs hlive hhead), alive_step hs hlive hhead⟩

end Scheduled

/-! ## The first period -/

/-- The alarm of a process that has taken `m` ticks since it set it, with the counter at `c₀` and the
flag `f₀`, and has not been diverted. -/
structure Counting (ticks : Int) (handler : UInt64) (c₀ : Int) (f₀ : Bool) (m : Nat) (a : Alarm) :
    Prop where
  period : a.ticks = ticks
  outside : a.alarmTf = none
  flag : a.inAlarmHandler = f₀
  counter : a.curTicks = int32 (c₀ + m)
  early : m ≠ 0 → f₀ = false → a.curTicks < ticks

namespace Counting

variable {c₀ : Int} {f₀ : Bool} {steps : List (Kernel n × Event n)}

omit hlt in
theorem count (h : Counting ticks handler c₀ f₀ m a) (hdue : ¬ a.Due) :
    Counting ticks handler c₀ f₀ (m + 1) a.count := by
  have hcounter : a.count.curTicks = int32 (c₀ + (m + 1 : Nat)) := by
    show int32 (a.curTicks + 1) = _
    rw [h.counter, int32_add_left]
    push_cast
    rw [add_assoc]
  refine ⟨h.period, h.outside, h.flag, hcounter, fun _ hf => ?_⟩
  by_contra hge
  have hge : ticks ≤ int32 (a.curTicks + 1) := not_lt.mp hge
  refine hdue ⟨?_, ?_, h.flag.trans hf⟩
  · rw [h.period]
    exact hpos
  · rw [h.period]
    exact hge

omit hlt in
theorem step (h : Counting ticks handler c₀ f₀ (elapsed p steps) (k.proc p).alarm)
    (hs : AlarmStep p k e k') (hout : (k'.proc p).alarmTf = none) :
    Counting ticks handler c₀ f₀ (elapsed p ((k, e) :: steps)) (k'.proc p).alarm := by
  cases hs with
  | ticked htick hret ht =>
    rw [elapsed, hret, htick, if_neg Bool.false_ne_true, if_pos rfl]
    cases ht with
    | fired tf _ ha _ =>
      have hsome : (k'.proc p).alarmTf = some tf := congrArg Alarm.alarmTf ha
      rw [hout] at hsome
      cases hsome
    | counted hdue ha =>
      rw [ha]
      exact h.count hpos hdue
  | returned _ _ hsome _ =>
    rw [show (k.proc p).alarmTf = none from h.outside] at hsome
    cases hsome
  | kept htick hret ha =>
    rw [elapsed, hret, htick, if_neg Bool.false_ne_true, if_neg Bool.false_ne_true, ha]
    exact h

omit hlt in
theorem path (h : Counting ticks handler c₀ f₀ 0 (k.proc p).alarm)
    (hreach : (system cfg n).Reachable k) (hp : (k.proc p).state.alive = true)
    (hpath : (system cfg n).Path k steps k') (hquiet : ∀ x ∈ steps, disturbs p x.1 x.2 = false)
    (hout : ∀ x ∈ steps, (x.1.proc p).alarmTf = none) (hend : (k'.proc p).alarmTf = none) :
    Counting ticks handler c₀ f₀ (elapsed p steps) (k'.proc p).alarm ∧
      (k'.proc p).state.alive = true := by
  induction hpath with
  | nil => exact ⟨h, hp⟩
  | @snoc steps s t e hpath hs ih =>
    obtain ⟨hhead, hrest⟩ := List.forall_mem_cons.mp hquiet
    obtain ⟨hsnone, hout⟩ := List.forall_mem_cons.mp hout
    obtain ⟨hcount, hlive⟩ := ih hrest hout hsnone
    have hinv := inv_reachable (hreach.path hpath)
    exact ⟨hcount.step hpos (alarm_step hinv hs hlive hhead) hend, alive_step hs hlive hhead⟩

/-- An alarm that is due for the first time at the last tick of its first period started with a
whole period. -/
theorem punctual (h : Counting ticks handler c₀ f₀ m a) (hdue : a.Due)
    (hlast : (m : Int) + 1 = ticks) (hlow : -2 ^ 31 ≤ c₀) (hhigh : c₀ < 2 ^ 31) :
    f₀ = false ∧ (c₀ = 0 ∨ ticks = 1 ∧ 0 ≤ c₀ ∧ c₀ + 1 < 2 ^ 31) := by
  obtain ⟨-, hreach, hflag⟩ := hdue
  have hf : f₀ = false := h.flag.symm.trans hflag
  refine ⟨hf, ?_⟩
  rw [h.period] at hreach
  have hcur := int32_range (c₀ + m)
  rw [← h.counter] at hcur
  by_cases hm : m = 0
  · -- one tick: the counter, wrapped or not, has to be positive after it
    right
    have hc : a.curTicks = c₀ := by
      rw [h.counter, hm, Nat.cast_zero, add_zero]
      exact int32_of_range hlow hhigh
    rw [hc, int32, Int.bmod_def] at hreach
    split at hreach <;> omega
  · -- more ticks: the counter was below the alarm at the tick before
    left
    have hbelow := h.early hm hf
    rw [int32_of_range (x := a.curTicks + 1) (by omega) (by omega)] at hreach
    have hwrap : int32 (c₀ + m) = m := by
      rw [← h.counter]
      omega
    rw [int32, Int.bmod_def] at hwrap
    split at hwrap <;> omega

end Counting

end Schedule

/-! ## The counter is an `int` -/

/-- Every process's counter is an `int`. -/
def CounterRange (k : Kernel n) : Prop :=
  ∀ p, -2 ^ 31 ≤ (k.proc p).curTicks ∧ (k.proc p).curTicks < 2 ^ 31

theorem CounterRange.step (h : CounterRange k) (hs : (system cfg n).Step k e k') :
    CounterRange k' := by
  intro x
  obtain ⟨o, ho, hstep⟩ := own_step hs x
  show -2 ^ 31 ≤ (k'.proc x).own.alarm.curTicks ∧ (k'.proc x).own.alarm.curTicks < 2 ^ 31
  rw [ho]
  have hzero : -2 ^ 31 ≤ (0 : Int) ∧ (0 : Int) < 2 ^ 31 := ⟨by decide, by decide⟩
  cases hstep with
  | fresh t _ _ => exact hzero
  | wrote hw _ _ =>
    cases hw with
    | sigreturn => exact hzero
    | alarm _ _ _ tf a htick =>
      cases htick with
      | off => exact h x
      | counted => exact int32_range _
      | fired _ _ _ => exact hzero
    | _ => exact h x
  | _ => exact h x

theorem counterRange_reachable (h : (system cfg n).Reachable k) : CounterRange k := by
  refine h.invariant (fun p => ?_) fun _ _ _ hs hstep => hs.step hstep
  show -2 ^ 31 ≤ (0 : Int) ∧ (0 : Int) < 2 ^ 31
  exact ⟨by decide, by decide⟩

/-! ## The law -/

/-- `sigalarm` sets the alarm and its handler, and nothing else of the alarm. -/
theorem sigalarm_alarm {ticks : Int} {handler : UInt64} (hc : k.myproc c = some p)
    (hs : (system cfg n).Step k (.sigalarm c ticks handler) k') :
    (k'.proc p).alarm = { (k.proc p).alarm with ticks := int32 ticks, handler := handler } ∧
      ((k.proc p).state.alive = true → (k'.proc p).state.alive = true) := by
  cases owned_step hs with
  | keeps hw => cases hw
  | counted _ _ hw => cases hw
  | sigalarm _ _ _ q hq ht =>
    have heq : q = p := Option.some.inj (hq.symm.trans hc)
    subst heq
    exact ⟨congrArg Own.alarm ht.own, ht.lives⟩

/-- A process `p` that is outside its handler calls `sigalarm(ticks, handler)`, after any history
and in any build. If its flag is clear and its counter at 0 (or the period is one tick), then as
long as it makes no other `sigalarm` call it is diverted to the handler at exactly the `ticks`-th
user-mode tick after the call, and at exactly the `ticks`-th after each return. And if it comes to
the `ticks`-th tick after the call without a diversion, or to a diversion before it, then that
diversion comes with that tick only under this condition. -/
theorem alarm_period_iff {k₁ : Kernel n} {ticks : Int} {handler : UInt64}
    (hreach : (system cfg n).Reachable k) (hc : k.myproc c = some p)
    (hs : (system cfg n).Step k (.sigalarm c ticks handler) k₁) (hpos : 0 < ticks)
    (hlt : ticks < 2 ^ 31) (hout : (k.proc p).alarmTf = none) :
    (Punctual ticks (k.proc p) → Periodic cfg p ticks handler k₁) ∧
    ∀ steps s e t, (system cfg n).Path k₁ steps s → (system cfg n).Step s e t →
      (∀ x ∈ (s, e) :: steps, disturbs p x.1 x.2 = false ∧ (x.1.proc p).alarmTf = none) →
      userTick p s e = true → (Diverts p s t ∨ (elapsed p steps : Int) + 1 = ticks) →
      ((Diverts p s t ∧ (elapsed p steps : Int) + 1 = ticks) ↔ Punctual ticks (k.proc p)) := by
  obtain ⟨hset, hlives⟩ := sigalarm_alarm hc hs
  rw [int32_of_range (by omega) hlt] at hset
  have hreach₁ := hreach.step hs
  have hlive : (k₁.proc p).state.alive = true := by
    apply hlives
    rw [(inv_reachable hreach).harts.current c p hc]
    rfl
  have hwhole : Punctual ticks (k.proc p) → Periodic cfg p ticks handler k₁ := by
    intro hpunctual
    refine .of_steps hreach₁ fun steps s e t hpath hstep hquiet => ?_
    have hstart : Scheduled ticks handler 0 (k₁.proc p).alarm := by
      rw [hset]
      refine ⟨rfl, rfl, fun hsome => ?_, fun _ => ⟨hpunctual.1, hpos, hpunctual.2⟩⟩
      rw [show (k.proc p).alarm.alarmTf = none from hout] at hsome
      cases hsome
    obtain ⟨hhead, hrest⟩ := List.forall_mem_cons.mp hquiet
    obtain ⟨hon, halive⟩ := hstart.path hpos hlt hreach₁ hlive hpath hrest
    have hmove := alarm_step (inv_reachable (hreach₁.path hpath)) hstep halive hhead
    refine ⟨?_, fun hd => (hmove.epc hd).trans hon.target⟩
    rw [hmove.diverts_iff, hon.due_iff hpos hlt]
    exact ⟨fun h => ⟨h.1, h.2.2⟩, fun h => ⟨h.1, h.2.1, h.2⟩⟩
  refine ⟨hwhole, fun steps s e t hpath hstep hquiet htick hcase => ⟨?_, fun hpunctual => ?_⟩⟩
  · rintro ⟨hd, hlast⟩
    have hstart : Counting ticks handler (k.proc p).curTicks (k.proc p).inAlarmHandler 0
        (k₁.proc p).alarm := by
      have hrange := counterRange_reachable hreach p
      rw [hset]
      refine ⟨rfl, hout, rfl, ?_, fun h => absurd rfl h⟩
      rw [Nat.cast_zero, add_zero, int32_of_range hrange.1 hrange.2]
      rfl
    obtain ⟨hhead, hrest⟩ := List.forall_mem_cons.mp hquiet
    obtain ⟨hcount, halive⟩ := hstart.path hpos hreach₁ hlive hpath (fun x hx => (hrest x hx).1)
      (fun x hx => (hrest x hx).2) hhead.2
    have hmove := alarm_step (inv_reachable (hreach₁.path hpath)) hstep halive hhead.1
    have hrange := counterRange_reachable hreach p
    exact hcount.punctual hpos hlt (hmove.diverts_iff.mp hd).2.2 hlast hrange.1 hrange.2
  · obtain ⟨hiff, -⟩ := (hwhole hpunctual).1 steps s e t hpath hstep fun x hx => (hquiet x hx).1
    have hnone := (hquiet (s, e) (List.mem_cons_self ..)).2
    rcases hcase with hd | hlast
    · exact ⟨hd, (hiff.mp hd).2.2⟩
    · exact ⟨hiff.mpr ⟨htick, hnone, hlast⟩, hlast⟩

/-- The first process asks for an alarm every two ticks in its first system call. It takes a tick, is
demoted, dispatched again, and diverted to the handler by the next tick. -/
theorem alarm_period_second : ∃ (k k₁ s t : Kernel 1) (steps : List (Kernel 1 × Event 1)),
    (system mlfqConfig 1).Reachable k ∧ (system mlfqConfig 1).Step k (.sigalarm 0 2 64) k₁ ∧
      Punctual 2 (k.proc 0) ∧ Periodic mlfqConfig 0 2 64 k₁ ∧
      (system mlfqConfig 1).Path k₁ steps s ∧ elapsed 0 steps = 1 ∧
      (system mlfqConfig 1).Step s (.timer 0 zeroRegs true) t ∧ Diverts 0 s t ∧
      (t.proc 0).trapframe.epc = 64 := by
  let M := system mlfqConfig 1
  obtain ⟨before, k, hrun, htest⟩ := exists_run (M := M)
    (firstRun 0 ++ [.syscall 0 zeroRegs 24])
    (fun _ k => k.myproc 0 == some 0 && (k.proc 0).alarmTf.isNone && !(k.proc 0).inAlarmHandler &&
      (k.proc 0).curTicks == 0 && (M.next (.sigalarm 0 2 64) k).any fun k₁ =>
        (M.replay [.ret 0 0, .timer 0 zeroRegs true, .scheduler 0, .resume 0] [] k₁).any fun r =>
          r.1.all (fun x => !disturbs 0 x.1 x.2) && userTick 0 r.2 (.timer 0 zeroRegs true) &&
            (r.2.proc 0).alarmTf.isNone && elapsed 0 r.1 == 1)
    (by decide +kernel)
  simp only [Bool.and_eq_true, beq_iff_eq, Option.isNone_iff_eq_none, Bool.not_eq_true',
    Option.any_eq_true, List.all_eq_true] at htest
  obtain ⟨⟨⟨⟨hc, hout⟩, hflag⟩, hzero⟩, k₁, hnext, r, hr, ⟨⟨hquiet, htick⟩, hnone⟩, hone⟩ := htest
  have hs := step_of_next hnext
  have hpunctual : Punctual 2 (k.proc 0) := ⟨hflag, .inl hzero⟩
  have hperiodic :=
    (alarm_period_iff ⟨before, hrun⟩ hc hs (by decide) (by decide) hout).1 hpunctual
  have hpath := path_of_replay .nil hr
  obtain ⟨t, ht, hd, hepc⟩ := hperiodic.2 r.1 r.2 0 zeroRegs hpath hquiet htick hnone
    (by rw [hone]; rfl)
  exact ⟨k, k₁, r.2, t, r.1, ⟨before, hrun⟩, hs, hpunctual, hperiodic, hpath, hone, ht, hd, hepc⟩

/-- The first process takes a tick and then asks for an alarm every two ticks: it is diverted at the
first tick. -/
theorem alarm_fires_early : ∃ k k₁ k₂ k₃ : Kernel 1, (system mlfqConfig 1).Reachable k ∧
    k.myproc 0 = some 0 ∧ (k.proc 0).alarmTf = none ∧ (k.proc 0).inAlarmHandler = false ∧
      (system mlfqConfig 1).Step k (.sigalarm 0 2 64) k₁ ∧
      (system mlfqConfig 1).Step k₁ (.ret 0 0) k₂ ∧
      (system mlfqConfig 1).Step k₂ (.timer 0 zeroRegs true) k₃ ∧
      userTick 0 k₂ (.timer 0 zeroRegs true) = true ∧ Diverts 0 k₂ k₃ := by
  let M := system mlfqConfig 1
  obtain ⟨steps, k, hrun, htest⟩ := exists_run (M := M)
    (firstRun 0 ++ [.timer 0 zeroRegs true, .scheduler 0, .resume 0, .syscall 0 zeroRegs 24])
    (fun _ k => k.myproc 0 == some 0 && (k.proc 0).alarmTf.isNone && !(k.proc 0).inAlarmHandler &&
      (M.next (.sigalarm 0 2 64) k).any fun k₁ => (M.next (.ret 0 0) k₁).any fun k₂ =>
        (M.next (.timer 0 zeroRegs true) k₂).any fun k₃ =>
          userTick 0 k₂ (.timer 0 zeroRegs true) && (k₂.proc 0).alarmTf.isNone &&
            (k₃.proc 0).alarmTf.isSome)
    (by decide +kernel)
  simp only [Bool.and_eq_true, beq_iff_eq, Option.isNone_iff_eq_none, Bool.not_eq_true',
    Option.any_eq_true] at htest
  obtain ⟨⟨⟨hc, hout⟩, hflag⟩, k₁, h₁, k₂, h₂, k₃, h₃, ⟨htick, hnone⟩, hsome⟩ := htest
  exact ⟨k, k₁, k₂, k₃, ⟨steps, hrun⟩, hc, hout, hflag, step_of_next h₁, step_of_next h₂,
    step_of_next h₃, htick, hnone, hsome⟩

end Xv6
