import Xv6.Laws.Slices

/-!
# Ticks run and ticks charged

The clock adds a tick to the run time of whoever is running; `usertrap` charges a tick to the
process it interrupts. On one hart the two agree for every live process exactly along the runs in
which every tick that finds a process running finds it in user mode and not killed, and no sleeper
with ticks on its account is killed. A tick in a system call is run and never charged; `kill` wakes
a sleeper with its ticks cleared, which `wakeup` puts back; and a killed process leaves for `exit`
before the charge.
-/

namespace Xv6

open Base Base.Machine

variable {k k' : Kernel 1} {p x : Slot} {c : Fin 1} {cfg : Config}

/-- Every live process has been charged the ticks it ran since it entered its level. -/
def Charging (k : Kernel 1) : Prop :=
  ∀ x, (k.proc x).state.live = true → (k.account x).used = (k.account x).ran

/-- The events after which the charges are still right. -/
def Chargeable (k : Kernel 1) : Event 1 → Prop
  | .timer c _ _ => ∀ p, k.myproc c = some p →
      (k.proc p).context = .user ∧ (k.proc p).killed = false
  | .kill _ pid => ∀ p, (k.proc p).pid = pid → (k.proc p).state = .sleeping →
      (k.proc p).queueticks = 0
  | _ => True

theorem chargeable_of_quiet {e : Event 1} (he : e.quiet = true) : Chargeable k e := by
  cases e with
  | timer => cases he
  | kill c pid => cases he
  | _ => trivial

theorem Charging.steady (h : Charging k) (hs : Steady k k') : Charging k' := by
  intro x hx
  rw [hs.account hx]
  exact h x ((hs.slot x).live hx).1

theorem Charging.publish (h : Charging k) (hp : Published k p k') : Charging k' := by
  intro x hx
  by_cases he : x = p
  · rw [he, hp.account_self]
    rfl
  · rw [hp.account_other he hx]
    exact h x ((hp.other x he).live hx).1

/-- A kill is right about the charges unless it wakes a sleeper with ticks on its account. -/
theorem Charging.kill (h : Charging k) (hk : KillStep k p k') :
    Charging k' ↔ ((k.proc p).state = .sleeping → (k.proc p).queueticks = 0) := by
  have hother : ∀ x, x ≠ p → (k'.proc x).state.live = true →
      (k'.account x).used = (k'.account x).ran := by
    intro x hx hl
    have hproc := hk.other hx
    have ha : k'.account x = k.account x :=
      account_eq (by rw [hproc]) (by rw [hproc]) (l := []) hk.hist (by simp)
    rw [ha]
    rw [hproc] at hl
    exact h x hl
  have hran : (k'.account p).ran = (k.account p).ran := by
    show ranSince p k'.hist = ranSince p k.hist
    rw [hk.hist]
  rcases hk.self with ⟨hs, he⟩ | ⟨hs, he⟩
  · refine ⟨fun _ hsleep => absurd hsleep hs, fun _ x hl => ?_⟩
    by_cases hx : x = p
    · rw [hx] at hl ⊢
      rw [hran]
      show (k'.proc p).queueticks = _
      rw [he] at hl ⊢
      exact h p hl
    · exact hother x hx hl
  · have hlive : (k.proc p).state.live = true := by rw [hs]; rfl
    have hused : (k'.account p).used = 0 := by
      show (k'.proc p).queueticks = 0
      rw [he]
    constructor
    · intro h' _
      have hp := h' p (by rw [he]; rfl)
      rw [hused, hran, ← h p hlive] at hp
      exact hp.symm
    · intro hzero x hl
      by_cases hx : x = p
      · rw [hx, hused, hran, ← h p hlive]
        exact (hzero hs).symm
      · exact hother x hx hl

/-- On one hart every timer interrupt is the clock's. -/
theorem Ticked.clocked {me : Option Slot} (h : Ticked c me k k') : Clocked me k k' := by
  rw [Ticked, if_pos (by omega)] at h
  exact h

/-- The clock's part of an interrupt: one more tick run for the process on the hart, if any. -/
theorem Clocked.ran {me : Option Slot} (hinv : Inv k) (h : Clocked me k k')
    (hx : (k'.proc x).state.live = true) :
    k'.account x = { k.account x with
      ran := (k.account x).ran + if k.myproc c = some x then 1 else 0 } := by
  have hiff : (k.proc x).state = .running ↔ k.myproc c = some x := by
    rw [Fin.fin_one_eq_zero c]
    exact ⟨hinv.harts.only, hinv.harts.current 0 x⟩
  rw [h.account hx, if_congr hiff rfl rfl]

theorem Charging.userTick {k₁ : Kernel 1} (hb : cfg.build = .mlfq) (hinv : Inv k)
    (h : Charging k) (hc : k.myproc c = some p) (htick : Ticked c (some p) k k₁)
    (hu : UserTick cfg k₁ c p k') : Charging k' ↔ (k.proc p).killed = false := by
  have hclock := htick.clocked
  have hrun : (k.proc p).state = .running := hinv.harts.current c p hc
  have hrun₁ : (k₁.proc p).state = .running :=
    (show (k₁.proc p).state = (k.proc p).state from congrArg Prod.fst htick.self.1).trans hrun
  rw [← htick.self.2]
  cases hu with
  | exits hkilled =>
    refine ⟨fun h' => ?_, fun hk => by rw [hkilled] at hk; cases hk⟩
    let k₂ := k₁.modify p fun x => { x with context := .exiting }
    have hcalm : Calm k₁ k₂ := Calm.modify k₁ (.keep rfl rfl rfl id (.inr rfl))
    have hlive : (k₂.proc p).state.live = true := by
      rw [Kernel.modify_self, hrun₁]
      rfl
    have hp := h' p hlive
    rw [hcalm.steady.account hlive, hclock.ran (c := c) hinv (by rw [hrun₁]; rfl), if_pos hc] at hp
    have hold := h p (by rw [hrun]; rfl)
    exact absurd (hp.symm.trans hold) (Nat.succ_ne_self _)
  | @mlfq k₂ k₃ _ hkilled _ halarm hcharge hsettle =>
    refine ⟨fun _ => hkilled, fun _ x hl => ?_⟩
    have hrun₂ : (k₂.proc p).state = .running :=
      (show (k₂.proc p).state = (k₁.proc p).state from congrArg Prod.fst halarm.core).trans hrun₁
    have hlive₃ : (k₃.proc p).state.live = true := by rw [(hcharge.same p).1, hrun₂]; rfl
    rw [(hsettle.same hlive₃ x).1, (hcharge.same x).1] at hl
    have hl₁ := ((halarm.calm.slot x).live hl).1
    have hold := h x ((hclock.slot x).live hl₁).1
    have ha : k₂.account x = { k.account x with
        ran := (k.account x).ran + if k.myproc c = some x then 1 else 0 } :=
      (halarm.calm.steady.account hl).trans (hclock.ran hinv hl₁)
    have hbooked := booked_account hcharge hsettle x
    rw [ha] at hbooked
    generalize k'.account x = a' at hbooked
    cases hbooked with
    | other hx =>
      have hne : ¬ k.myproc c = some x := fun he => hx (Option.some.inj (he.symm.trans hc))
      rw [if_neg hne]
      exact hold
    | boosted _ => rfl
    | demoted => rfl
    | charged q hx _ _ =>
      rw [if_pos (hx ▸ hc)]
      exact congrArg (· + 1) hold
  | yields _ hbuild _ => exact absurd hb hbuild

/-- A tick in the kernel is right about the charges only when the hart is idle. -/
theorem Charging.kernelTick {k₁ : Kernel 1} (hinv : Inv k) (h : Charging k)
    (hready : ∀ p, k.myproc c = some p → (k'.proc p).state = .runnable)
    (htick : Ticked c (k.myproc c) k k₁) (hcalm : Calm k₁ k') :
    Charging k' ↔ k.myproc c = none := by
  have hclock := htick.clocked
  have ha : ∀ x, (k'.proc x).state.live = true → k'.account x = { k.account x with
      ran := (k.account x).ran + if k.myproc c = some x then 1 else 0 } := fun x hl =>
    (hcalm.steady.account hl).trans (hclock.ran hinv ((hcalm.slot x).live hl).1)
  constructor
  · intro h'
    cases hc : k.myproc c with
    | none => rfl
    | some p =>
      have hlive : (k'.proc p).state.live = true := by rw [hready p hc]; rfl
      have hp := h' p hlive
      rw [ha p hlive, if_pos hc] at hp
      have hold := h p (by rw [hinv.harts.current c p hc]; rfl)
      exact absurd (hp.symm.trans hold) (Nat.succ_ne_self _)
  · intro hnone x hl
    rw [ha x hl, if_neg (by rw [hnone]; simp)]
    exact h x ((hclock.slot x).live ((hcalm.slot x).live hl).1).1

/-- One event keeps the charges right exactly when it is one of the chargeable ones. -/
theorem Charging.step {e : Event 1} (hb : cfg.build = .mlfq) (hinv : Inv k) (h : Charging k)
    (hs : (system cfg 1).Step k e k') : Charging k' ↔ Chargeable k e := by
  cases (step_spec hinv hs).2 with
  | calm he hcalm => exact iff_of_true (h.steady hcalm.steady) (chargeable_of_quiet he)
  | passed c hp => exact iff_of_true (h.steady hp.steady) trivial
  | spared c pid hpid => exact iff_of_true h fun p he => absurd he (hpid p)
  | killed c pid p hpid hk =>
    refine (h.kill hk).trans ⟨fun hz y hy hsleep => ?_, fun hz hsleep => hz p hpid hsleep⟩
    -- the pid found is the sleeper's own
    have hne : (k.proc y).state ≠ .unused := by rw [hsleep]; simp
    obtain rfl := hinv.pids.inj y p hne (hy.trans hpid.symm)
    exact hz hsleep
  | booted a p hp _ | forked c p hp _ => exact iff_of_true (h.publish hp) trivial
  | userTick c u page p huser hc htick hu =>
    refine (h.userTick hb hinv hc htick hu).trans ⟨fun hkilled y hy => ?_, fun hall => ?_⟩
    · obtain rfl : p = y := Option.some.inj (hc.symm.trans hy)
      rw [Kernel.thread, hc] at huser
      exact ⟨Option.some.inj huser, hkilled⟩
    · exact (hall p hc).2
  | kernelTick c u page huser _ hready htick hcalm =>
    refine (h.kernelTick hinv hready htick hcalm).trans ⟨fun hnone p hp => ?_, fun hall => ?_⟩
    · rw [hnone] at hp
      cases hp
    · cases hc : k.myproc c with
      | none => rfl
      | some p =>
        refine absurd ?_ huser
        rw [Kernel.thread, hc]
        exact congrArg some (hall p hc).1

/-- Along a run of the MLFQ build on one hart, ticks run and ticks charged agree in every state
exactly when every step is a chargeable one. -/
theorem charging_run_iff (hb : cfg.build = .mlfq) {steps : List (Kernel 1 × Event 1)}
    (hrun : (system cfg 1).Run steps k) :
    (Charging k ∧ ∀ s ∈ steps, Charging s.1) ↔ ∀ s ∈ steps, Chargeable s.1 s.2 := by
  refine hrun.always_iff (fun x hx => by cases hx) fun s e t hreach hs hstep => ?_
  exact hs.step hb (inv_reachable hreach) hstep

/-- The runs of the first process in which it is interrupted in user mode only are right. -/
theorem charging_run_user : ∃ (steps : List (Kernel 1 × Event 1)) (k : Kernel 1),
    (system mlfqConfig 1).Run steps k ∧ (k.proc 0).queueticks = 1 ∧
      Charging k ∧ ∀ s ∈ steps, Charging s.1 := by
  obtain ⟨steps, k, hrun, htest⟩ := exists_run (M := system mlfqConfig 1)
    (firstRun 0 ++ [.timer 0 zeroRegs true, .scheduler 0, .resume 0, .timer 0 zeroRegs true])
    (fun steps k => (k.proc 0).queueticks == 1 && steps.all fun s => match s.2 with
      | .timer c _ _ => s.1.myproc c = some 0 ∧ (s.1.proc 0).context = .user ∧
          (s.1.proc 0).killed = false
      | .kill _ _ => false
      | _ => true) (by decide +kernel)
  rw [Bool.and_eq_true, beq_iff_eq, List.all_eq_true] at htest
  refine ⟨steps, k, hrun, htest.1, (charging_run_iff rfl hrun).mpr fun s hs => ?_⟩
  have hok := htest.2 s hs
  cases he : s.2 with
  | timer =>
    rw [he] at hok
    obtain ⟨hc, hgood⟩ := of_decide_eq_true hok
    intro p hp
    obtain rfl : 0 = p := Option.some.inj (hc.symm.trans hp)
    exact hgood
  | kill c pid =>
    rw [he] at hok
    cases hok
  | _ => trivial

/-- The first process is interrupted in the kernel, on its way through `forkret`: the tick is on
its run time and on no account. -/
theorem kernel_tick_uncharged : ∃ k : Kernel 1, (system mlfqConfig 1).Reachable k ∧
    (k.proc 0).state = .runnable ∧ (k.proc 0).queueticks = 0 ∧ ranSince 0 k.hist = 1 := by
  obtain ⟨steps, k, hrun, htest⟩ := exists_run (M := system mlfqConfig 1)
    [.userinit ⟨true, true⟩, .scheduler 0, .forkret 0, .timer 0 zeroRegs true]
    (fun _ k => (k.proc 0).state == .runnable && (k.proc 0).queueticks == 0 &&
      ranSince 0 k.hist == 1) (by decide +kernel)
  simp only [Bool.and_eq_true, beq_iff_eq] at htest
  exact ⟨k, ⟨steps, hrun⟩, htest.1.1, htest.1.2, htest.2⟩

end Xv6
