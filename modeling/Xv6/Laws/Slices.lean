import Xv6.Laws.Account

/-!
# Levels and time slices

Along every run of the MLFQ build a process has used less than its slice between any two events,
it changes its level only when its slice is used up or by the boost, and between two entries into
a level it is charged no more than that level's slice. A killed process is the one exception to
the book-keeping: `kill` clears the ticks used of a sleeper. It is harmless here, because a killed
process exits at its next timer interrupt in user mode, before it is charged.
-/

namespace Xv6

open Base Base.Machine

variable {n : Nat} {k k' : Kernel n} {p x : Slot} {c : Fin n} {cfg : Config}

/-! ## One account -/

/-- The slice is not used up; a live process's level is the one it last entered; and what it used
is what it was charged, unless it was killed. -/
structure Sound (a : Account) (live killed : Bool) : Prop where
  slice : ∃ q : Fin 4, a.level = q ∧ a.used < timesliceq q
  entered : live = true → a.entered = some a.level
  charged : live = true → killed = false → a.charged = a.used

theorem timesliceq_pos (q : Fin 4) : 0 < timesliceq q := by
  match q with
  | 0 | 1 | 2 | 3 => decide

theorem Sound.entry (q : Fin 4) (live killed : Bool) : Sound (.entry q) live killed :=
  ⟨⟨q, rfl, timesliceq_pos q⟩, fun _ => rfl, fun _ _ => rfl⟩

theorem Sound.booked {mine boost : Prop} {a a' : Account} {live killed : Bool}
    (h : Sound a live killed) (hb : Booked mine boost a a') : Sound a' live killed := by
  cases hb with
  | other _ => exact h
  | boosted _ => exact .entry 0 live killed
  | charged q _ hq hleft =>
    refine ⟨⟨q, hq, hleft⟩, h.entered, fun hl hk => ?_⟩
    exact congrArg (· + 1) (h.charged hl hk)
  | demoted q _ _ _ => exact .entry (nextLevel q) live killed

theorem Sound.steady (h : Sound (k.account x) (k.proc x).state.live (k.proc x).killed)
    (hs : Proc.Steady (k.proc x) (k'.proc x))
    (ha : (k'.proc x).state.live = true → ∃ r, k'.account x = { k.account x with ran := r }) :
    Sound (k'.account x) (k'.proc x).state.live (k'.proc x).killed := by
  obtain ⟨q, hq, hleft⟩ := h.slice
  refine ⟨⟨q, hs.level.trans hq, ?_⟩, fun hl => ?_, fun hl hk => ?_⟩
  · rcases hs.ticks with ht | ⟨ht, -⟩
    · exact lt_of_eq_of_lt ht hleft
    · exact lt_of_eq_of_lt ht (timesliceq_pos q)
  · obtain ⟨r, hr⟩ := ha hl
    rw [hr]
    exact h.entered (hs.live hl).1
  · obtain ⟨r, hr⟩ := ha hl
    rw [hr]
    refine h.charged (hs.live hl).1 (Bool.eq_false_iff.mpr fun hkilled => ?_)
    rw [(hs.live hl).2 hkilled] at hk
    cases hk

/-! ## The history -/

/-- Nobody has been charged more than a slice since entering a level. -/
def WithinSlice (h : List Obs) : Prop :=
  ∀ p, ∀ q : Fin 4, levelEntered p h = some (q : Nat) → chargedSince p h ≤ timesliceq q

theorem withinSlice_nil : WithinSlice [] := fun p q hq => by cases hq

theorem chargedSince_cons {h : List Obs} {o : Obs} (hlevel : o.levelOf p = none)
    (ho : o ≠ .charged p) : chargedSince p (o :: h) = chargedSince p h := by
  rw [chargedSince, countSince_cons (by rw [hlevel]; rfl), if_neg (by simpa using ho)]
  rfl

theorem WithinSlice.cons {h : List Obs} {o : Obs} (ho : ∀ p, o ≠ .charged p)
    (hw : WithinSlice h) : WithinSlice (o :: h) := by
  intro p q hq
  cases hlevel : o.levelOf p with
  | none =>
    rw [levelEntered, List.findSome?_cons, hlevel] at hq
    rw [chargedSince_cons hlevel (ho p)]
    exact hw p q hq
  | some q' =>
    rw [chargedSince, countSince_reset (by rw [hlevel]; rfl)]
    exact Nat.zero_le _

theorem WithinSlice.charged {h : List Obs} (hw : WithinSlice h) {q : Fin 4}
    (hlevel : levelEntered p h = some (q : Nat)) (hleft : chargedSince p h < timesliceq q) :
    WithinSlice (.charged p :: h) := by
  intro x q' hq'
  have hlevel' : levelEntered x (.charged p :: h) = levelEntered x h := rfl
  rw [hlevel'] at hq'
  by_cases hx : x = p
  · rw [hx, hlevel] at hq'
    obtain rfl : q = q' := Fin.ext (Option.some.inj hq')
    rw [hx, chargedSince, countSince_cons (by simp [Obs.levelOf]), if_pos (by simp)]
    exact hleft
  · rw [chargedSince_cons rfl fun he => hx (Obs.charged.inj he).symm]
    exact hw x q' hq'

/-! ## The kernel -/

/-- All accounts are sound, and nobody was ever charged beyond a slice. -/
structure Billed (k : Kernel n) : Prop where
  sound : ∀ x, Sound (k.account x) (k.proc x).state.live (k.proc x).killed
  within : Always WithinSlice k.hist

theorem billed_boot (n : Nat) : Billed (Kernel.boot n) := by
  refine ⟨fun x => ⟨⟨0, rfl, timesliceq_pos 0⟩, fun hl => ?_, fun hl => ?_⟩,
    .nil withinSlice_nil⟩
  · cases hl
  · cases hl

theorem Billed.steady (h : Billed k) (hs : Steady k k') : Billed k' := by
  refine ⟨fun x => (h.sound x).steady (hs.slot x) fun hl => ⟨_, hs.account hl⟩, ?_⟩
  rw [hs.hist]
  exact h.within

theorem Billed.kill (h : Billed k) (hk : KillStep k p k') : Billed k' := by
  refine ⟨fun x => ?_, by rw [hk.hist]; exact h.within⟩
  by_cases hx : x = p
  · rw [hx]
    obtain ⟨q, hq, hleft⟩ := (h.sound p).slice
    have hentered := (h.sound p).entered
    rcases hk.self with ⟨hs, he⟩ | ⟨hs, he⟩
    · refine ⟨⟨q, ?_, ?_⟩, fun hl => ?_, fun _ hkilled => ?_⟩
      · show (k'.proc p).queueNumber = q
        rw [he]; exact hq
      · show (k'.proc p).queueticks < timesliceq q
        rw [he]; exact hleft
      · show levelEntered p k'.hist = some (k'.proc p).queueNumber
        rw [he] at hl ⊢
        rw [hk.hist]
        exact hentered hl
      · rw [he] at hkilled; cases hkilled
    · refine ⟨⟨q, ?_, ?_⟩, fun hl => ?_, fun _ hkilled => ?_⟩
      · show (k'.proc p).queueNumber = q
        rw [he]; exact hq
      · show (k'.proc p).queueticks < timesliceq q
        rw [he]; exact timesliceq_pos q
      · show levelEntered p k'.hist = some (k'.proc p).queueNumber
        rw [he, hk.hist]
        exact hentered (by rw [hs]; rfl)
      · rw [he] at hkilled; cases hkilled
  · have hproc := hk.other hx
    have ha : k'.account x = k.account x :=
      account_eq (by rw [hproc]) (by rw [hproc]) (l := []) hk.hist (by simp)
    rw [ha, hproc]
    exact h.sound x

theorem Published.account_other (h : Published k p k') (hx : x ≠ p)
    (hl : (k'.proc x).state.live = true) : k'.account x = k.account x := by
  have hcalm := h.other x hx
  refine account_eq hcalm.level ?_ (l := [.entered p 0]) h.hist fun o ho => ?_
  · rcases hcalm.ticks with ht | ⟨-, hdead⟩
    · exact ht
    · rw [hl] at hdead
      cases hdead
  · rw [List.mem_singleton.mp ho]
    simpa [Obs.spares] using hx.symm

theorem Published.account_self (h : Published k p k') : k'.account p = .entry 0 :=
  account_entry h.level h.charge (l := []) h.hist (by simp)

theorem Billed.publish (h : Billed k) (hp : Published k p k') : Billed k' := by
  refine ⟨fun x => ?_, ?_⟩
  · by_cases hx : x = p
    · rw [hx, hp.account_self]
      exact .entry 0 _ _
    · exact (h.sound x).steady (hp.other x hx).toSteady fun hl => ⟨_, hp.account_other hx hl⟩
  · rw [hp.hist]
    exact h.within.cons (h.within.now.cons (by simp))

theorem Billed.tick {me : Option Slot} (h : Billed k) (ht : Ticked c me k k') : Billed k' := by
  refine ⟨fun x => (h.sound x).steady (ht.slot x).toSteady ht.account, ?_⟩
  unfold Ticked at ht
  split at ht
  · rw [Clocked.hist ht]
    refine (h.within.cons (h.within.now.cons (by simp))).append fun o ho h' hw => ?_
    obtain ⟨y, -, rfl⟩ := List.mem_map.mp (List.mem_reverse.mp ho)
    exact hw.cons (by simp)
  · rw [ht.1.hist]
    exact h.within

/-- The charge, the boost and the demotion keep everybody within the slices. -/
theorem Charged.within {k₁ : Kernel n} (hcharge : Charged k p k₁) (h : Billed k)
    (hp : (k.proc p).state.live = true) (hkilled : (k.proc p).killed = false) :
    Always WithinSlice k₁.hist := by
  obtain ⟨q, hq, hleft⟩ := (h.sound p).slice
  have hlevel : levelEntered p k.hist = some (q : Nat) := by
    rw [← hq]
    exact (h.sound p).entered hp
  have hcount : chargedSince p k.hist < timesliceq q :=
    lt_of_eq_of_lt ((h.sound p).charged hp hkilled) hleft
  have hfirst : Always WithinSlice (k.charge p).hist :=
    h.within.cons (h.within.now.charged hlevel hcount)
  cases hcharge with
  | plain _ => exact hfirst
  | @boost k₂ _ hb =>
    have hmoves : Always WithinSlice k₂.hist := by
      rw [hb.hist]
      refine hfirst.append fun o ho h' hw => ?_
      obtain ⟨y, -, rfl⟩ := List.mem_map.mp (List.mem_reverse.mp ho)
      exact hw.cons (by simp)
    exact hmoves.cons (hmoves.now.cons (by simp))

theorem Settled.within (h : Settled cfg k c p k') (hw : Always WithinSlice k.hist) :
    Always WithinSlice k'.hist := by
  cases h with
  | demoted => exact hw.cons (hw.now.cons (by simp))
  | stayed q _ _ hp =>
    cases hp with
    | yielded j => exact hw
    | returned _ => exact hw

theorem Billed.userTick (hb : cfg.build = .mlfq) (h : Billed k) (hp : (k.proc p).state.live = true)
    (hu : UserTick cfg k c p k') : Billed k' := by
  cases hu with
  | exits _ => exact h.steady (Calm.modify k (.keep rfl rfl rfl id (.inr rfl))).steady
  | @mlfq k₁ k₂ _ hkilled _ halarm hcharge hsettle =>
    have h₁ := h.steady halarm.calm.steady
    have hp₁ : (k₁.proc p).state.live = true := by
      rw [show (k₁.proc p).state = (k.proc p).state from congrArg Prod.fst halarm.core]
      exact hp
    have hkilled₁ : (k₁.proc p).killed = false := halarm.killed.trans hkilled
    have hp₂ : (k₂.proc p).state.live = true := by rw [(hcharge.same p).1]; exact hp₁
    refine ⟨fun x => ?_, hsettle.within (hcharge.within h₁ hp₁ hkilled₁)⟩
    rw [(hsettle.same hp₂ x).1, (hsettle.same hp₂ x).2, (hcharge.same x).1, (hcharge.same x).2]
    exact (h₁.sound x).booked (booked_account hcharge hsettle x)
  | yields _ hbuild _ => exact absurd hb hbuild

/-- Every step bills within the slices. -/
theorem Billed.step {e : Event n} (hb : cfg.build = .mlfq) (hinv : Inv k) (h : Billed k)
    (hs : (system cfg n).Step k e k') : Billed k' := by
  cases (step_spec hinv hs).2 with
  | calm _ hcalm => exact h.steady hcalm.steady
  | passed c hp => exact h.steady hp.steady
  | spared => exact h
  | killed c pid p _ hk => exact h.kill hk
  | booted a p hp _ | forked c p hp _ => exact h.publish hp
  | @userTick k₁ _ c u page p _ hc htick hu =>
    refine (h.tick htick).userTick hb ?_ hu
    rw [show (k₁.proc p).state = (k.proc p).state from congrArg Prod.fst htick.self.1,
      hinv.harts.current c p hc]
    rfl
  | kernelTick c u page _ _ _ htick hcalm => exact (h.tick htick).steady hcalm.steady

/-- So does every run. -/
theorem billed_reachable (hb : cfg.build = .mlfq) (h : (system cfg n).Reachable k) : Billed k := by
  have hall : Inv k ∧ Billed k :=
    h.invariant (I := fun k => Inv k ∧ Billed k) ⟨inv_boot n, billed_boot n⟩
      fun s e t hs hstep => ⟨(step_spec hs.1 hstep).1, hs.2.step hb hs.1 hstep⟩
  exact hall.2

/-! ## Changes of level -/

/-- A live process changes its level in one step: the interrupted process when the tick uses its
slice up, or anybody by the boost. -/
inductive LevelChange (k : Kernel n) (p : Slot) (k' : Kernel n) : Event n → Prop
  | demoted (c : Fin n) (u : UserRegs) (page : Bool) (q : Fin 4)
      (hc : k.myproc c = some p) (huser : k.thread c = some .user)
      (hold : (k.proc p).queueNumber = q) (hused : (k.proc p).queueticks + 1 = timesliceq q)
      (hnew : (k'.proc p).queueNumber = min ((q : Nat) + 1) 3) : LevelChange k p k' (.timer c u page)
  | boosted (c : Fin n) (u : UserRegs) (page : Bool) (hticks : k'.ticks % 48 = 0)
      (hnew : (k'.proc p).queueNumber = 0) : LevelChange k p k' (.timer c u page)

theorem nextLevel_eq (q : Fin 4) : (nextLevel q : Nat) = min ((q : Nat) + 1) 3 := by
  match q with
  | 0 | 1 | 2 | 3 => rfl

theorem Charged.ticks (h : Charged k p k') : k'.ticks = k.ticks := by
  cases h with
  | plain _ => rfl
  | boost _ hb => rw [Kernel.note_ticks, hb.frame]; rfl

theorem Settled.ticks (h : Settled cfg k c p k') : k'.ticks = k.ticks := by
  cases h with
  | demoted => rfl
  | stayed q _ _ hp => cases hp <;> rfl

/-- The account of the interrupted process when it comes to be charged. -/
theorem Ticked.used {k₁ k₂ : Kernel n} (h : Ticked c (some p) k k₁) (halarm : Aside p k₁ k₂)
    (hlive : (k.proc p).state.live = true) :
    (k₂.account p).level = (k.account p).level ∧ (k₂.account p).used = (k.account p).used := by
  refine ⟨halarm.level.trans (h.slot p).level, halarm.ticks.trans ?_⟩
  rcases (h.slot p).ticks with ht | ⟨-, hdead⟩
  · exact ht
  · rw [show (k₁.proc p).state = (k.proc p).state from congrArg Prod.fst h.self.1, hlive] at hdead
    cases hdead

/-- A live process's level changes in no other way. -/
theorem level_change {e : Event n} (hb : cfg.build = .mlfq) (hinv : Inv k) (h : Billed k)
    (hs : (system cfg n).Step k e k') (hlive : (k.proc p).state.live = true)
    (hne : (k'.proc p).queueNumber ≠ (k.proc p).queueNumber) : LevelChange k p k' e := by
  cases (step_spec hinv hs).2 with
  | calm _ hcalm => exact absurd (hcalm.slot p).level hne
  | passed c hp => exact absurd (hp.steady.slot p).level hne
  | spared => exact absurd rfl hne
  | killed c pid y _ hk =>
    refine absurd ?_ hne
    by_cases hy : p = y
    · rw [← hy] at hk
      rcases hk.self with ⟨-, he⟩ | ⟨-, he⟩ <;> rw [he]
    · rw [hk.other hy]
  | booted a y hp _ | forked c y hp _ =>
    have hy : p ≠ y := fun he => by rw [he, hp.old] at hlive; cases hlive
    exact absurd (hp.other p hy).level hne
  | @userTick k₁ _ c u page y huser hc htick hu =>
    have hlevel₁ : (k₁.proc p).queueNumber = (k.proc p).queueNumber := (htick.slot p).level
    cases hu with
    | exits _ =>
      refine absurd ?_ hne
      rw [Kernel.modify_proc]
      split
      · next he => rw [← he]; exact hlevel₁
      · exact hlevel₁
    | @mlfq k₂ k₃ _ hkilled _ halarm hcharge hsettle =>
      have hticks : k'.ticks = k₂.ticks := hsettle.ticks.trans hcharge.ticks
      have hlevel₂ : (k₂.proc p).queueNumber = (k.proc p).queueNumber :=
        (halarm.calm.slot p).level.trans hlevel₁
      generalize ha' : k'.account p = a'
      have hbooked := booked_account hcharge hsettle p
      rw [ha'] at hbooked
      cases hbooked with
      | other _ | charged => exact absurd ((congrArg Account.level ha').trans hlevel₂) hne
      | boosted hboost =>
        exact .boosted c u page (by rw [hticks]; exact hboost) (congrArg Account.level ha')
      | demoted q hmine hq hused =>
        subst hmine
        obtain ⟨hlevel, hsame⟩ := htick.used halarm hlive
        rw [hlevel] at hq
        rw [hsame] at hused
        obtain ⟨q', hq', hleft⟩ := (h.sound p).slice
        obtain rfl : q = q' := Fin.ext (hq.symm.trans hq')
        refine .demoted c u page q hc huser hq (Nat.le_antisymm hleft hused) ?_
        rw [← nextLevel_eq]
        exact congrArg Account.level ha'
    | yields _ hbuild _ => exact absurd hb hbuild
  | kernelTick c u page _ _ _ htick hcalm =>
    exact absurd ((hcalm.slot p).level.trans (htick.slot p).level) hne

/-- Levels, slices and charges of the MLFQ build. -/
structure LevelsKept (cfg : Config) (k : Kernel n) : Prop where
  /-- every process has used less than the slice of its level -/
  slices : ∀ p, (k.proc p).state ≠ .unused →
    ∃ q : Fin 4, (k.proc p).queueNumber = q ∧ (k.proc p).queueticks < timesliceq q
  /-- a live process changes its level only by demotion, one level down, or by the boost -/
  changes : ∀ e k' p, (system cfg n).Step k e k' → (k.proc p).state.live = true →
    (k'.proc p).queueNumber ≠ (k.proc p).queueNumber → LevelChange k p k' e
  /-- at every moment so far, nobody had been charged beyond the slice of the level entered last -/
  charges : Always WithinSlice k.hist

/-- Levels and slices are kept in every reachable state of the MLFQ build. -/
theorem levels_kept {cfg : Config} (hb : cfg.build = .mlfq) (h : (system cfg n).Reachable k) :
    LevelsKept cfg k := by
  have hinv := inv_reachable h
  have hbilled := billed_reachable hb h
  refine ⟨fun p _ => (hbilled.sound p).slice, fun e k' p hs hlive hne => ?_, hbilled.within⟩
  exact level_change hb hinv hbilled hs hlive hne

/-- The first process is demoted at its first tick, is dispatched again and is charged a tick at
level 1. -/
theorem levels_kept_run : ∃ k : Kernel 1, (system mlfqConfig 1).Reachable k ∧
    (k.proc 0).queueNumber = 1 ∧ (k.proc 0).queueticks = 1 ∧ LevelsKept mlfqConfig k := by
  obtain ⟨steps, k, hrun, htest⟩ := exists_run (M := system mlfqConfig 1)
    (firstRun 0 ++ [.timer 0 zeroRegs true, .scheduler 0, .resume 0, .timer 0 zeroRegs true])
    (fun _ k => (k.proc 0).queueNumber == 1 && (k.proc 0).queueticks == 1) (by decide +kernel)
  simp only [Bool.and_eq_true, beq_iff_eq] at htest
  exact ⟨k, ⟨steps, hrun⟩, htest.1, htest.2, levels_kept rfl ⟨steps, hrun⟩⟩

end Xv6
