import Xv6.Smp.Kinship

/-!
# The times of a process

`clockintr` advances `ticks` and then visits the slots one by one, charging each running process a
tick. `fork` and `exit` on other CPUs read `ticks` in between. The times of a process fit into its
life as long as nobody is charged the tick in which it was made, and no longer: a process made after
the clock has moved and dispatched before its slot is visited has run for longer than it has lived,
and `waitx` then reports a waiting time of four billion ticks.
-/

namespace Xv6.Smp

open Base Base.Machine Function

/-! ## The clock -/

namespace Family

variable {γ σ : Type} [DecidableEq γ] [DecidableEq σ] {f f' : Family γ σ} {c : γ} {l : Option σ}

theorem Step.ticks (hs : f.Step c l f') : f'.ticks = f.ticks ∨ f'.ticks = uint32 (f.ticks + 1) := by
  cases hs with
  | tick due => exact .inr rfl
  | _ => exact .inl rfl

theorem Step.charged {q : σ} (hs : f.Step c (some q) f') :
    (f.member q).state = .running ∧ f'.ticks = f.ticks ∧
      f'.member q = { f.member q with rtime := uint32 ((f.member q).rtime + 1) } := by
  cases hs with
  | charge q due hq hrun hd => exact ⟨hrun, rfl, update_self ..⟩

end Family

variable {n : Nat} {b : Build} {steps : List (State n × Event n)} {s : State n}

/-- The clock has not wrapped around in this run: it never falls. -/
def Unwrapped (steps : List (State n × Event n)) (s : State n) : Prop :=
  (s.k.ticks :: steps.map fun x => x.1.k.ticks).IsChain (· ≥ ·)

theorem ticks_lt (h : (smp b n).Run steps s) : s.k.ticks < 2 ^ 32 := by
  induction h with
  | nil => exact Nat.two_pow_pos 32
  | @snoc steps s t e hrun hstep ih =>
    rcases (step_table (good_of_reachable ⟨_, hrun⟩) hstep).1.ticks with ht | ht
    · change t.k.ticks = s.k.ticks at ht
      rwa [ht]
    · change t.k.ticks = uint32 (s.k.ticks + 1) at ht
      rw [ht]
      exact Nat.mod_lt _ (by decide)

/-- A step in which the clock does not fall advances it by at most one. -/
theorem ticks_step {t : State n} {e : Event n} (hG : Good s) (hstep : (smp b n).Step s e t)
    (hle : s.k.ticks ≤ t.k.ticks) : t.k.ticks = s.k.ticks ∨ t.k.ticks = s.k.ticks + 1 := by
  rcases (step_table hG hstep).1.ticks with ht | ht
  · exact .inl ht
  · change t.k.ticks = uint32 (s.k.ticks + 1) at ht
    have hmod : uint32 (s.k.ticks + 1) ≤ s.k.ticks + 1 := Nat.mod_le ..
    omega

/-! ## Times that fit -/

/-- The times of one process fit into its life; once it has exited, the waiting time that `waitx`
computes for it is the difference of the three. -/
structure Fits (ticks : Nat) (x : Proc) : Prop where
  living : x.state ≠ .unused → x.state ≠ .zombie → x.ctime ≤ ticks ∧ x.rtime ≤ ticks - x.ctime
  exited : x.state = .zombie → x.ctime ≤ x.etime ∧ x.rtime ≤ x.etime - x.ctime ∧
    uint32 (x.etime + 2 * 2 ^ 32 - x.ctime - x.rtime) = x.etime - x.ctime - x.rtime

theorem fits_of_timed (h : (table s).Timed) (hticks : s.k.ticks < 2 ^ 32) (q : Slot) :
    Fits s.k.ticks (s.k.proc q) where
  living _ _ := by
    have hsum : (s.k.proc q).ctime + (s.k.proc q).rtime ≤ s.k.ticks := h.sum q
    omega
  exited hz := by
    obtain ⟨hsum, hend⟩ := h.exited q hz
    change (s.k.proc q).ctime + (s.k.proc q).rtime ≤ (s.k.proc q).etime at hsum
    change (s.k.proc q).etime ≤ s.k.ticks at hend
    rw [uint32]
    omega

/-- A process charged the tick in which it was made has run for longer than it has lived. -/
theorem not_fits_of_charged {t : State n} {e : Event n} {q : Slot} (hG : Good s)
    (hstep : (smp b n).Step s e t) (hq : s.charged e = some q)
    (hnew : (s.k.proc q).ctime = s.k.ticks) (hfits : Fits s.k.ticks (s.k.proc q)) :
    ¬ Fits t.k.ticks (t.k.proc q) := by
  have htable := (step_table hG hstep).1
  rw [hq] at htable
  obtain ⟨hrun, hticks, hmember⟩ := htable.charged
  change (s.k.proc q).state = .running at hrun
  change t.k.ticks = s.k.ticks at hticks
  have hzero : (s.k.proc q).rtime = 0 := by
    have hbound := (hfits.living (by rw [hrun]; decide) (by rw [hrun]; decide)).2
    omega
  have hstate : (t.k.proc q).state = .running := (congrArg Member.state hmember).trans hrun
  have hctime : (t.k.proc q).ctime = (s.k.proc q).ctime := congrArg Member.ctime hmember
  have hrtime : (t.k.proc q).rtime = 1 := by
    have hnext : (t.k.proc q).rtime = uint32 ((s.k.proc q).rtime + 1) :=
      congrArg Member.rtime hmember
    rw [hnext, hzero]
    rfl
  intro h
  have hbound := (h.living (by rw [hstate]; decide) (by rw [hstate]; decide)).2
  omega

theorem timed_boot : (table (boot n)).Timed where
  sum _ := Nat.le_refl 0
  due _ _ h := absurd h (Nat.lt_irrefl 0)
  exited _ h := by cases h

/-- In a run in which the clock has not wrapped around and nobody has been charged the tick in which
it was made, the times are sound. -/
theorem timed_of_run (h : (smp b n).Run steps s) (hticks : Unwrapped steps s)
    (hnew : ∀ x ∈ steps, ∀ q, x.1.charged x.2 = some q → (x.1.k.proc q).ctime ≠ x.1.k.ticks) :
    (table s).Timed := by
  induction h with
  | nil => exact timed_boot
  | @snoc steps s t e hrun hstep ih =>
    rw [Unwrapped, List.map_cons, List.isChain_cons_cons] at hticks
    rw [List.forall_mem_cons] at hnew
    have hG := good_of_reachable ⟨_, hrun⟩
    exact (ih hticks.2 hnew.2).step (step_table hG hstep).1 (ticks_step hG hstep hticks.1) hnew.1

/-- In every run in which the clock has not wrapped around, the times of every process have fitted
into its life all along, and the subtraction of `waitx` has never wrapped around, exactly when no
step has charged a process the tick in which it was made. -/
theorem times_fit_iff (h : (smp b n).Run steps s) (hticks : Unwrapped steps s) :
    ((∀ q, Fits s.k.ticks (s.k.proc q)) ∧
        ∀ x ∈ steps, ∀ q, Fits x.1.k.ticks (x.1.k.proc q)) ↔
      ∀ x ∈ steps, ∀ q, x.1.charged x.2 = some q → (x.1.k.proc q).ctime ≠ x.1.k.ticks := by
  induction h with
  | nil => exact ⟨fun _ => nofun, fun _ => ⟨fits_of_timed timed_boot (Nat.two_pow_pos 32), nofun⟩⟩
  | @snoc steps s t e hrun hstep ih =>
    have hbefore : Unwrapped steps s := by
      rw [Unwrapped, List.map_cons, List.isChain_cons_cons] at hticks
      exact hticks.2
    rw [List.forall_mem_cons, List.forall_mem_cons]
    constructor
    · rintro ⟨ht, hs, hrest⟩
      refine ⟨fun q hq hnew => ?_, (ih hbefore).mp ⟨hs, hrest⟩⟩
      exact not_fits_of_charged (good_of_reachable ⟨_, hrun⟩) hstep hq hnew (hs q) (ht q)
    · rintro ⟨hnew, hrest⟩
      have htimed := timed_of_run (hrun.snoc hstep) hticks (List.forall_mem_cons.mpr ⟨hnew, hrest⟩)
      exact ⟨fits_of_timed htimed (ticks_lt (hrun.snoc hstep)), (ih hbefore).mpr hrest⟩

/-- The first process is charged the first tick. -/
theorem times_fit_first : ∃ (steps : List (State 1 × Event 1)) (s : State 1),
    (smp .rr 1).Run steps s ∧ Unwrapped steps s ∧ (s.k.proc 0).rtime = 1 ∧
      ∀ q, Fits s.k.ticks (s.k.proc q) := by
  obtain ⟨steps, s, hrun, htest⟩ := exists_run (M := smp .rr 1)
    (List.replicate 17 (.run 0 ⟨⟨true, true⟩, true, false⟩) ++ .intr 0 .timer ::
      List.replicate 3 (.run 0 ⟨⟨true, true⟩, true, false⟩))
    (fun steps s =>
      decide ((s.k.ticks :: steps.map fun x => x.1.k.ticks).IsChain (· ≥ ·)) &&
        (s.k.proc 0).rtime == 1 &&
        steps.all fun x => x.1.charged x.2 == none || (x.1.charged x.2 == some 0 &&
          (x.1.k.proc 0).ctime != x.1.k.ticks))
    (by decide +kernel)
  simp only [Bool.and_eq_true, decide_eq_true_eq, beq_iff_eq, List.all_eq_true, Bool.or_eq_true,
    bne_iff_ne] at htest
  obtain ⟨⟨hticks, hrtime⟩, hnew⟩ := htest
  refine ⟨steps, s, hrun, hticks, hrtime, ((times_fit_iff hrun hticks).mpr ?_).1⟩
  intro x hx q hq
  rcases hnew x hx with hnone | ⟨hzero, hne⟩
  · rw [hnone] at hq
    cases hq
  · rw [hzero] at hq
    cases hq
    exact hne

/-- Two CPUs: the clock on CPU 0 has moved to tick 1 and visited slot 0 when CPU 1 makes a process in
slot 1 and dispatches it. CPU 0 then charges that process tick 1. It exits within the tick, and
`waitx` reports that it has waited for 4294967295 ticks. -/
theorem waitx_wraps : ∃ (steps : List (State 2 × Event 2)) (s : State 2),
    (smp .rr 2).Run steps s ∧ Unwrapped steps s ∧
      s.frame 1 = some (.waitFound 1 ⟨2, some (4294967295, 1)⟩) ∧
      ∃ x ∈ steps, ¬ Fits x.1.k.ticks (x.1.k.proc 1) := by
  obtain ⟨steps, s, hrun, htest⟩ := exists_run (M := smp .rr 2)
    (List.replicate 10 (.run 0 ⟨⟨true, true⟩, true, false⟩) ++
      List.replicate 9 (.run 1 ⟨⟨true, true⟩, true, false⟩) ++ .intr 0 .timer ::
      List.replicate 4 (.run 0 ⟨⟨true, true⟩, true, false⟩) ++ .call 1 .fork ::
      List.replicate 17 (.run 1 ⟨⟨true, true⟩, true, false⟩) ++ .intr 1 .timer ::
      List.replicate 13 (.run 1 ⟨⟨true, true⟩, true, false⟩) ++
      List.replicate 3 (.run 0 ⟨⟨true, true⟩, true, false⟩) ++ .syscall 1 ::
      List.replicate 3 (.run 1 ⟨⟨true, true⟩, true, false⟩) ++ .call 1 (.exit 0) ::
      List.replicate 459 (.run 1 ⟨⟨true, true⟩, true, false⟩) ++ .call 1 .waitx ::
      List.replicate 5 (.run 1 ⟨⟨true, true⟩, true, false⟩))
    (fun steps s =>
      decide ((s.k.ticks :: steps.map fun x => x.1.k.ticks).IsChain (· ≥ ·)) &&
        s.frame 1 == some (.waitFound 1 ⟨2, some (4294967295, 1)⟩) &&
        steps.any fun x => (x.1.k.proc 1).state == .zombie && (x.1.k.proc 1).ctime == 1 &&
          (x.1.k.proc 1).rtime == 1 && (x.1.k.proc 1).etime == 1)
    (by decide +kernel)
  simp only [Bool.and_eq_true, decide_eq_true_eq, beq_iff_eq, List.any_eq_true] at htest
  obtain ⟨⟨hticks, hframe⟩, x, hx, ⟨⟨hz, hctime⟩, hrtime⟩, hetime⟩ := htest
  refine ⟨steps, s, hrun, hticks, hframe, x, hx, fun hfits => ?_⟩
  have hbound := (hfits.exited hz).2.1
  rw [hctime, hrtime, hetime] at hbound
  exact absurd hbound (by decide)

end Xv6.Smp
