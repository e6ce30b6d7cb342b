import Xv6.Laws.Account
import Xv6.Laws.Fields

/-!
# The alarm's two marks

A process inside its alarm handler is marked twice: `in_alarm_handler` is set, and `alarm_tf` points
to the frame saved for it. The timer interrupt sets both and `sigreturn` clears both. `allocproc`
clears `alarm_tf` and leaves `in_alarm_handler` as the slot's last process left it, and `freeproc`
touches neither. So the marks agree along exactly the runs in which every process is allocated in a
slot whose flag is clear; a process that exits inside its handler hands the flag to the next one.
-/

namespace Xv6

open Base Base.Machine

variable {n : Nat} {k k' : Kernel n} {p x : Slot} {c : Fin n} {cfg : Config} {e : Event n}

/-! ## Who is alive -/

theorem UserTick.live (h : UserTick cfg k c p k') (hp : (k.proc p).state.live = true)
    (hx : (k'.proc x).state.live = true) : (k.proc x).state.live = true := by
  cases h with
  | exits _ =>
    rw [Kernel.modify_proc] at hx
    split at hx
    · next he => rw [he]; exact hp
    · exact hx
  | @mlfq k₁ k₂ _ _ _ halarm hcharge hsettle =>
    have hp₁ : (k₁.proc p).state.live = true := by
      rw [show (k₁.proc p).state = (k.proc p).state from congrArg Prod.fst halarm.core]
      exact hp
    have hp₂ : (k₂.proc p).state.live = true := by rw [(hcharge.same p).1]; exact hp₁
    rw [(hsettle.same hp₂ x).1, (hcharge.same x).1] at hx
    exact ((halarm.calm.slot x).live hx).1
  | @yields k₁ _ _ halarm =>
    by_cases he : x = p
    · rw [he]; exact hp
    · rw [yield_proc, if_neg he, halarm.other x he] at hx
      exact hx

/-- A process is live only if it was, or was in the making, or has just been created by `main`. -/
theorem live_step (hinv : Inv k) (hs : (system cfg n).Step k e k')
    (hx : (k'.proc x).state.live = true) :
    (k.proc x).state.alive = true ∨ (k.freeSlot = some x ∧ ∃ a, e = .userinit a) := by
  have hlive : (k.proc x).state.live = true → (k.proc x).state.alive = true := fun h =>
    alive_iff.mpr (.inr h)
  cases (step_spec hinv hs).2 with
  | calm _ hcalm => exact .inl (hlive ((hcalm.slot x).live hx).1)
  | passed c hp => exact .inl (hlive ((hp.steady.slot x).live hx).1)
  | spared => exact .inl (hlive hx)
  | killed c pid p _ hk =>
    by_cases he : x = p
    · rw [← he] at hk
      rcases hk.self with ⟨-, hself⟩ | ⟨hsleep, -⟩
      · rw [hself] at hx
        exact .inl (hlive hx)
      · exact .inl (by rw [hsleep]; rfl)
    · rw [hk.other he] at hx
      exact .inl (hlive hx)
  | booted a p hp _ hslot =>
    by_cases he : x = p
    · rw [he]
      exact .inr ⟨hslot, a, rfl⟩
    · exact .inl (hlive ((hp.other x he).live hx).1)
  | forked c p hp _ hused =>
    by_cases he : x = p
    · rw [he, hused]
      exact .inl rfl
    · exact .inl (hlive ((hp.other x he).live hx).1)
  | @userTick k₁ _ c u page p _ hc htick hu =>
    have hp : (k₁.proc p).state.live = true := by
      rw [show (k₁.proc p).state = (k.proc p).state from congrArg Prod.fst htick.self.1,
        hinv.harts.current c p hc]
      rfl
    exact .inl (hlive ((htick.slot x).live (hu.live hp hx)).1)
  | kernelTick c u page _ _ _ htick hcalm =>
    exact .inl (hlive ((htick.slot x).live ((hcalm.slot x).live hx).1).1)

/-! ## The marks -/

/-- The two marks agree. -/
def Alarm.Paired (a : Alarm) : Prop := a.inAlarmHandler = true ↔ a.alarmTf.isSome = true

/-- They agree for every process between its allocation and its exit. -/
def AlarmsPaired (k : Kernel n) : Prop :=
  ∀ x, (k.proc x).state.alive = true → (k.proc x).alarm.Paired

/-- The slots allocated by this event have a clear flag. -/
def ClearSlot (k : Kernel n) : Event n → Prop
  | .userinit _ => ∀ p, k.freeSlot = some p → (k.proc p).inAlarmHandler = false
  | .fork _ a uvmcopy => k.canAlloc a → uvmcopy = true →
      ∀ p, k.freeSlot = some p → (k.proc p).inAlarmHandler = false
  | _ => True

theorem clearSlot_of_not_writes (he : e.writes = false) : ClearSlot k e := by
  cases e with
  | userinit a => cases he
  | fork => cases he
  | _ => trivial

theorem Alarm.paired_fresh (a : Alarm) : a.fresh.Paired ↔ a.inAlarmHandler = false := by
  simp [Alarm.Paired, Alarm.fresh]

theorem Alarm.Paired.tick {tf : Trapframe} {a a' : Alarm} (h : a.Paired)
    (ht : AlarmTick tf a a') : a'.Paired := by
  cases ht with
  | off => exact h
  | counted => exact h
  | fired _ _ _ => simp [Alarm.Paired]

theorem Proc.Keeps.paired {y y' : Proc} (h : Proc.Keeps y y') (hy : y.alarm.Paired) :
    y'.alarm.Paired := by
  rw [show y'.alarm = y.alarm from congrArg Own.alarm h.own]
  exact hy

theorem Proc.Keeps.alive {y y' : Proc} (h : Proc.Keeps y y') (hy : y'.state.alive = true)
    (hlive : y'.state.live = true → y.state.alive = true) : y.state.alive = true := by
  rcases alive_iff.mp hy with hused | hl
  · rw [h.used hused]
    rfl
  · exact hlive hl

/-- An event by which the current process `p` changes its own alarm. -/
theorem AlarmsPaired.touched {o : Own} (h : AlarmsPaired k) (hinv : Inv k)
    (hs : (system cfg n).Step k e k') (he : ∀ a, e ≠ .userinit a) (hc : k.myproc c = some p)
    (ht : Touched k p o k') (hp : (k.proc p).alarm.Paired → o.alarm.Paired) : AlarmsPaired k' := by
  intro x hx
  by_cases hxp : x = p
  · rw [hxp, show (k'.proc p).alarm = o.alarm from congrArg Own.alarm ht.own]
    exact hp (h p (by rw [hinv.harts.current c p hc]; rfl))
  · refine (ht.other x hxp).paired (h x ((ht.other x hxp).alive hx fun hl => ?_))
    exact (live_step hinv hs hl).resolve_right fun ⟨_, a, ha⟩ => he a ha

theorem AlarmsPaired.left {status : Int} (h : AlarmsPaired k) (hinv : Inv k)
    (hs : (system cfg n).Step k (.exit c status) k') (hl : Left k p k') : AlarmsPaired k' := by
  intro x hx
  by_cases hxp : x = p
  · rw [hxp, hl.state] at hx
    cases hx
  · refine (hl.other x hxp).paired (h x ((hl.other x hxp).alive hx fun hl => ?_))
    exact (live_step hinv hs hl).resolve_right fun ⟨_, a, ha⟩ => nomatch ha

/-- An event that leaves all alarms alone and does not create the first process. -/
theorem AlarmsPaired.kept (h : AlarmsPaired k) (hinv : Inv k) (hs : (system cfg n).Step k e k')
    (he : ∀ a, e ≠ .userinit a) (hk : ∀ x, Proc.Keeps (k.proc x) (k'.proc x)) :
    AlarmsPaired k' := by
  intro x hx
  refine (hk x).paired (h x ((hk x).alive hx fun hl => ?_))
  exact (live_step hinv hs hl).resolve_right fun ⟨_, a, ha⟩ => he a ha

/-- An allocation keeps the marks paired exactly when it takes a slot with a clear flag, or when the
process does not stay. -/
theorem AlarmsPaired.allocated {t : Int} (h : AlarmsPaired k) (hinv : Inv k)
    (hs : (system cfg n).Step k e k') (ha : Allocated k p t k') :
    AlarmsPaired k' ↔ ((k'.proc p).state.alive = true → (k.proc p).inAlarmHandler = false) := by
  have hself : (k'.proc p).alarm.Paired ↔ (k.proc p).inAlarmHandler = false := by
    rw [show (k'.proc p).alarm = (k.proc p).alarm.fresh from congrArg Own.alarm ha.own]
    exact (k.proc p).alarm.paired_fresh
  constructor
  · intro h' halive
    exact hself.mp (h' p halive)
  · intro hclear x hx
    by_cases hxp : x = p
    · rw [hxp] at hx ⊢
      exact hself.mpr (hclear hx)
    · refine (ha.other x hxp).paired (h x ((ha.other x hxp).alive hx fun hl => ?_))
      refine (live_step hinv hs hl).resolve_right fun hnew => hxp ?_
      exact Option.some.inj (hnew.1.symm.trans ha.slot)

/-- One event keeps the marks paired exactly when it allocates no process in a slot with the flag
set. -/
theorem AlarmsPaired.step (hinv : Inv k) (h : AlarmsPaired k) (hs : (system cfg n).Step k e k') :
    AlarmsPaired k' ↔ ClearSlot k e := by
  have hclear : ∀ q, k.freeSlot = some q → ((k.proc q).inAlarmHandler = false ↔
      ∀ p, k.freeSlot = some p → (k.proc p).inAlarmHandler = false) := by
    intro q hq
    refine ⟨fun hf p hp => ?_, fun hall => hall q hq⟩
    rw [← Option.some.inj (hq.symm.trans hp)]
    exact hf
  cases owned_step hs with
  | keeps he hk =>
    refine iff_of_true (h.kept hinv hs (fun a ha => ?_) hk.slot) (clearSlot_of_not_writes he)
    rw [ha] at he
    cases he
  | passed c hk => exact iff_of_true (h.kept hinv hs (by simp) hk) trivial
  | exited c status p hc hl => exact iff_of_true (h.left hinv hs hl) trivial
  | booted a q ha hstate =>
    refine (h.allocated hinv hs ha).trans ?_
    rw [hstate]
    exact ⟨fun hf => (hclear q ha.slot).mp (hf rfl), fun hall _ => hall q ha.slot⟩
  | forked c a uvmcopy hf =>
    cases hf with
    | failed hk hfail =>
      exact iff_of_true (h.kept hinv hs (by simp) hk.slot) fun hcan => absurd hcan hfail
    | undone q ha hstate _ =>
      refine (h.allocated hinv hs ha).trans (iff_of_true (fun halive => ?_) fun _ hu => ?_)
      · rw [hstate] at halive
        cases halive
      · cases hu
    | made q ha hstate hcan =>
      refine (h.allocated hinv hs ha).trans ?_
      rw [hstate]
      exact ⟨fun hf _ _ => (hclear q ha.slot).mp (hf rfl), fun hall _ => hall hcan rfl q ha.slot⟩
  | alarm c u page p tf a hc _ _ htick ht =>
    exact iff_of_true (h.touched hinv hs (by simp) hc ht fun hp => hp.tick htick) trivial
  | counted c p he hc ht =>
    refine iff_of_true (h.touched hinv hs (fun a ha => ?_) hc ht fun hp => hp) ?_
    · rw [ha] at he
      cases he
    · cases e <;> trivial
  | sigalarm c ticks handler p hc ht | settickets c tickets p hc ht =>
    exact iff_of_true (h.touched hinv hs (by simp) hc ht fun hp => hp) trivial
  | sigreturn c p hc ht =>
    exact iff_of_true (h.touched hinv hs (by simp) hc ht fun _ => by simp [Alarm.Paired]) trivial

/-! ## Runs -/

/-- Along a run of any build on any number of harts, the marks agree in every state exactly when no
event allocates a process in a slot with the flag set. -/
theorem alarms_paired_iff {steps : List (Kernel n × Event n)} (hrun : (system cfg n).Run steps k) :
    (AlarmsPaired k ∧ ∀ s ∈ steps, AlarmsPaired s.1) ↔ ∀ s ∈ steps, ClearSlot s.1 s.2 := by
  refine hrun.always_iff (fun x hx => by cases hx) fun s e t hreach hs hstep => ?_
  exact hs.step (inv_reachable hreach) hstep

/-- The first process forks and waits; its child asks for an alarm and is interrupted, and both of
its marks are set. -/
theorem alarms_paired_fired : ∃ (steps : List (Kernel 1 × Event 1)) (k : Kernel 1),
    (system mlfqConfig 1).Run steps k ∧ (k.proc 1).state = .runnable ∧
      (k.proc 1).inAlarmHandler = true ∧ AlarmsPaired k ∧ ∀ s ∈ steps, AlarmsPaired s.1 := by
  obtain ⟨steps, k, hrun, htest⟩ := exists_run (M := system mlfqConfig 1)
    (forkRun 0 1 3 ++ [.syscall 0 zeroRegs 24, .sigalarm 0 1 0, .ret 0 0, .timer 0 zeroRegs true])
    (fun steps k => (k.proc 1).state == .runnable && (k.proc 1).inAlarmHandler &&
      steps.all fun s => s.1.freeSlot.all fun p => !(s.1.proc p).inAlarmHandler)
    (by decide +kernel)
  simp only [Bool.and_eq_true, beq_iff_eq, List.all_eq_true] at htest
  obtain ⟨⟨hrunnable, hflag⟩, hclear⟩ := htest
  refine ⟨steps, k, hrun, hrunnable, hflag, (alarms_paired_iff hrun).mpr fun s hs => ?_⟩
  have hslot : ∀ p, s.1.freeSlot = some p → (s.1.proc p).inAlarmHandler = false := by
    intro p hp
    have h := hclear s hs
    rw [hp] at h
    simpa using h
  cases he : s.2 with
  | userinit a => exact hslot
  | fork => exact fun _ _ => hslot
  | _ => trivial

/-- The child exits inside its handler, its parent reaps it and forks again: the new process has the
flag set and no saved frame. -/
theorem alarm_flag_inherited : ∃ k : Kernel 1, (system mlfqConfig 1).Reachable k ∧
    (k.proc 1).state = .used ∧ (k.proc 1).inAlarmHandler = true ∧
      (k.proc 1).alarmTf.isSome = false := by
  obtain ⟨steps, k, hrun, htest⟩ := exists_run (M := system mlfqConfig 1)
    (forkRun 0 1 3 ++ [.syscall 0 zeroRegs 24, .sigalarm 0 1 0, .ret 0 0, .timer 0 zeroRegs true,
      .scheduler 0, .resume 0, .syscall 0 zeroRegs 2, .exit 0 0, .scheduler 0, .resume 0,
      .wait 0 false, .ret 0 2, .syscall 0 zeroRegs 1, .fork 0 ⟨true, true⟩ true])
    (fun _ k => (k.proc 1).state == .used && (k.proc 1).inAlarmHandler &&
      (k.proc 1).alarmTf.isSome == false) (by decide +kernel)
  simp only [Bool.and_eq_true, beq_iff_eq] at htest
  exact ⟨k, ⟨steps, hrun⟩, htest.1.1, htest.1.2, htest.2⟩

end Xv6
