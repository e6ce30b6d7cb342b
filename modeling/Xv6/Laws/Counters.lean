import Xv6.Laws.Alarm

/-!
# The system-call counters

A process changes its counters by a system call, by `exec`, by its allocation, and by a `wait` that
finds an exited child. `acts` reads these off a run, and `counts_path` says that the counters are
what they add up to: the kernel's own account, `tally`.

`wait` adds the child's counters when it finds the child, before it copies the exit status out. When
the copy fails it returns -1 and the child stays, to be found again. `waitx` adds nothing. `owed` is
the account in which every child is added once, where it is reaped. The two agree along exactly the
runs in which no `wait` fails over a child that has made a system call, and no `waitx` reaps one
(`counters_once_iff`).
-/

namespace Xv6

open Base Base.Machine

variable {n : Nat} {k k' : Kernel n} {p q : Slot} {c : Fin n} {cfg : Config} {e : Event n}
  {steps : List (Kernel n × Event n)}

/-! ## What a process does to its counters -/

/-- What a process does to its own counters. -/
inductive CountAct
  /-- a system call -/
  | call (num : Fin 32)
  /-- a `wait` that reaps a child with these counters -/
  | reap (counts : Fin 32 → Int)
  /-- a `wait` that finds such a child and fails to copy its status out -/
  | miss (counts : Fin 32 → Int)
  /-- a `waitx` that reaps such a child -/
  | skip (counts : Fin 32 → Int)
  | exec
  /-- the process is allocated -/
  | born
deriving DecidableEq

/-- What the event is to the counters of `p`. -/
def countAct (p : Slot) (s : Kernel n) : Event n → Option CountAct
  | .syscall c _ num =>
    if s.myproc c = some p ∧ (s.proc p).killed = false ∧ 0 < num.val ∧ num.val < 27 then
      some (.call num)
    else none
  | .exec c _ _ => if s.myproc c = some p then some .exec else none
  | .wait c copyoutFails =>
    if s.myproc c = some p then (s.exitedChild p).map fun pp =>
      if copyoutFails then .miss (s.proc pp).syscallCount else .reap (s.proc pp).syscallCount
    else none
  | .waitx c copyoutFails =>
    if s.myproc c = some p ∧ copyoutFails = false then
      (s.exitedChild p).map fun pp => .skip (s.proc pp).syscallCount
    else none
  | .userinit _ => if s.freeSlot = some p then some .born else none
  | .fork _ a _ =>
    if s.freeSlot = some p ∧ a.trapframe = true ∧ a.pagetable = true then some .born else none
  | _ => none

/-- What `p` has done to its counters along some steps, newest first. -/
def acts (p : Slot) (steps : List (Kernel n × Event n)) : List CountAct :=
  steps.filterMap fun s => countAct p s.1 s.2

/-- The counter `i` after an act, as the kernel adds it up. -/
def CountAct.tally (i : Fin 32) (x : Int) : CountAct → Int
  | .call num => x + if num = i then 1 else 0
  | .reap counts | .miss counts => x + counts i
  | .skip _ => x
  | .exec | .born => 0

/-- The counter `i` after an act, when a child counts where it is reaped. -/
def CountAct.owed (i : Fin 32) (x : Int) : CountAct → Int
  | .miss _ => x
  | .skip counts => x + counts i
  | a => a.tally i x

/-- The account from the value `x` on. -/
def tally (i : Fin 32) (x : Int) (l : List CountAct) : Int := l.foldr (fun a x => a.tally i x) x

def owed (i : Fin 32) (x : Int) (l : List CountAct) : Int := l.foldr (fun a x => a.owed i x) x

/-! ## `int` arithmetic -/

/-- Adding an `int` to an `int` changes it unless it is 0. -/
theorem int32_add_eq_left (x y : Int) : int32 (x + int32 y) = int32 x ↔ int32 y = 0 := by
  rw [int32_add_right, int32, int32, int32, Int.bmod_eq_bmod_iff_bmod_sub_eq_zero,
    add_sub_cancel_left]

/-! ## The kernel's account -/

theorem Allocated.counts {t : Int} (h : Allocated k q t k') (p i) :
    (k'.proc p).syscallCount i = if k.freeSlot = some p then 0 else (k.proc p).syscallCount i := by
  by_cases hp : p = q
  · subst hp
    rw [if_pos h.slot]
    exact congrArg (fun o : Own => o.counts i) h.own
  · rw [if_neg fun hslot => hp (Option.some.inj (hslot.symm.trans h.slot))]
    exact congrArg (fun o : Own => o.counts i) (h.other p hp).own

/-- The counter `i` of `p` after an event, from the value `x` before. -/
def tallied (p : Slot) (i : Fin 32) (x : Int) (k : Kernel n) (e : Event n) : Int :=
  match countAct p k e with
  | some a => a.tally i x
  | none => x

/-- The act of an event by which `p` changes its counters. -/
theorem counts_tallied (he : e.counting = some c) (hc : k.myproc c = some p) {i : Fin 32} {x : Int}
    (hx : (k.proc p).syscallCount i = int32 x) :
    k.counts p e i = int32 (tallied p i x k e) := by
  cases e with
  | syscall d u num =>
    cases he
    cases hkilled : (k.proc p).killed with
    | true =>
      simp only [Kernel.counts, tallied, countAct, hkilled, Bool.true_eq_false, false_and, and_false,
        if_true, if_false]
      exact hx
    | false =>
      simp only [Kernel.counts, Kernel.countCall, tallied, countAct, hkilled, hc, true_and,
        Bool.false_eq_true, if_false]
      by_cases hnum : 0 < num.val ∧ num.val < 27
      · simp only [if_pos hnum, CountAct.tally, Function.update_apply]
        by_cases hi : i = num
        · rw [if_pos hi, if_pos hi.symm, ← hi, hx, int32_add_left]
        · rw [if_neg hi, if_neg (Ne.symm hi), add_zero]
          exact hx
      · simp only [if_neg hnum]
        exact hx
  | exec =>
    cases he
    simp only [Kernel.counts, tallied, countAct, hc, if_true, CountAct.tally]
    rfl
  | wait d copyoutFails =>
    cases he
    simp only [Kernel.counts, tallied, countAct, hc, if_true]
    cases k.exitedChild p with
    | none => exact hx
    | some pp =>
      simp only [Option.map_some]
      rw [hx, int32_add_left]
      cases copyoutFails <;> rfl
  | _ => cases he

/-- It is nothing to the counters of the others. -/
theorem tallied_other (he : e.counting = some c) (hc : k.myproc c = some q) (hp : p ≠ q)
    (i : Fin 32) (x : Int) : tallied p i x k e = x := by
  have hne : k.myproc c ≠ some p := fun h => hp (Option.some.inj (h.symm.trans hc))
  cases e with
  | syscall =>
    cases he
    rw [tallied, countAct, if_neg fun h => hne h.1]
  | exec | wait =>
    cases he
    rw [tallied, countAct, if_neg hne]
  | _ => cases he

theorem tallied_waitx (c : Fin n) (copyoutFails : Bool) (i : Fin 32) (x : Int) :
    tallied p i x k (.waitx c copyoutFails) = x := by
  rw [tallied, countAct]
  by_cases hc : k.myproc c = some p ∧ copyoutFails = false
  · rw [if_pos hc]
    cases k.exitedChild p <;> rfl
  · rw [if_neg hc]

/-- One event changes a counter as its act says. -/
theorem counts_step (hs : (system cfg n).Step k e k') {p : Slot} {i : Fin 32} {x : Int}
    (hx : (k.proc p).syscallCount i = int32 x) :
    (k'.proc p).syscallCount i = int32 (tallied p i x k e) := by
  have hown : ∀ {o : Own}, (k'.proc p).own = o → (k'.proc p).syscallCount i = o.counts i :=
    fun h => congrArg (fun o : Own => o.counts i) h
  have hkept : Proc.Keeps (k.proc p) (k'.proc p) → (k'.proc p).syscallCount i = int32 x :=
    fun h => (hown h.own).trans hx
  cases owned_step hs with
  | keeps he hk =>
    have hnone : tallied p i x k e = x := by
      cases e <;> first | rfl | exact tallied_waitx .. | cases he
    rw [hnone]
    exact hkept (hk.slot p)
  | passed c hk => exact hkept (hk p)
  | exited c status q hc hl =>
    by_cases hq : p = q
    · subst hq
      exact (hown hl.own).trans hx
    · exact hkept (hl.other p hq)
  | booted a q ha _ =>
    rw [ha.counts p i, tallied, countAct]
    split
    · rfl
    · exact hx
  | forked c a uvmcopy hf =>
    cases hf with
    | failed hk hfail =>
      have hcond : ¬ (k.freeSlot = some p ∧ a.trapframe = true ∧ a.pagetable = true) :=
        fun hslot => hfail ⟨hslot.2.1, hslot.2.2, by rw [hslot.1]; rfl⟩
      rw [tallied, countAct, if_neg hcond]
      exact hkept (hk.slot p)
    | undone q ha _ hcan | made q ha _ hcan =>
      rw [ha.counts p i, tallied, countAct]
      simp only [hcan.1, hcan.2.1, and_true]
      split
      · rfl
      · exact hx
  | alarm c u page q tf a hc _ _ htick ht | sigalarm c ticks handler q hc ht
  | sigreturn c q hc ht | settickets c tickets q hc ht =>
    by_cases hq : p = q
    · subst hq
      exact (hown ht.own).trans hx
    · exact hkept (ht.other p hq)
  | counted c q he hc ht =>
    by_cases hq : p = q
    · subst hq
      exact (hown ht.own).trans (counts_tallied he hc hx)
    · rw [tallied_other he hc hq]
      exact hkept (ht.other p hq)

theorem tally_cons (p : Slot) (i : Fin 32) (x : Int) (steps : List (Kernel n × Event n)) :
    tally i x (acts p ((k, e) :: steps)) = tallied p i (tally i x (acts p steps)) k e := by
  rw [acts, List.filterMap_cons, tallied]
  cases countAct p k e <;> rfl

/-- Along a stretch of steps, the counters are what the process's acts add up to. -/
theorem counts_path (hpath : (system cfg n).Path k steps k') {p : Slot} {i : Fin 32} {x : Int}
    (hx : (k.proc p).syscallCount i = int32 x) :
    (k'.proc p).syscallCount i = int32 (tally i x (acts p steps)) := by
  induction hpath with
  | nil => exact hx
  | snoc _ hs ih =>
    rw [tally_cons]
    exact counts_step hs ih

theorem counts_run (hrun : (system cfg n).Run steps k) (p : Slot) (i : Fin 32) :
    (k.proc p).syscallCount i = int32 (tally i 0 (acts p steps)) := by
  induction hrun with
  | nil => rfl
  | snoc _ hs ih =>
    rw [tally_cons]
    exact counts_step hs ih

/-! ## Failed waits -/

/-- Every counter is what is owed to the process. -/
def Counted (steps : List (Kernel n × Event n)) (k : Kernel n) : Prop :=
  ∀ p i, (k.proc p).syscallCount i = int32 (owed i 0 (acts p steps))

/-- If the event is a round of `wait` that answers -1 or sleeps, it leaves the caller's counters and
the slots of its children alone. -/
def WaitKeeps (k : Kernel n) : Event n → Prop
  | .wait c copyoutFails => ∀ p r, k.myproc c = some p → k.wait c p copyoutFails = .ok r →
      r.2 = none ∨ r.2 = some (-1) →
      (r.1.proc p).syscallCount = (k.proc p).syscallCount ∧
        ∀ x, x ≠ p → (k.proc x).parent = some p → r.1.proc x = k.proc x
  | _ => True

/-- If the event is a `wait` that fails to copy the status of an exited child out, or a `waitx` that
reaps an exited child, the child's counters are all 0. -/
def NoMiss (k : Kernel n) : Event n → Prop
  | .wait c true | .waitx c false => ∀ p pp, k.myproc c = some p → k.exitedChild p = some pp →
      ∀ i, (k.proc pp).syscallCount i = 0
  | _ => True

/-- The two accounts differ over a `wait` that fails over an exited child, and over a `waitx` that
reaps one. -/
theorem countAct_owed {a : CountAct} (h : countAct p k e = some a) :
    (∀ i x, a.owed i x = a.tally i x) ∨ ∃ c pp, k.myproc c = some p ∧ k.exitedChild p = some pp ∧
      (e = .wait c true ∧ a = .miss (k.proc pp).syscallCount ∨
        e = .waitx c false ∧ a = .skip (k.proc pp).syscallCount) := by
  cases e with
  | wait c copyoutFails =>
    rw [countAct] at h
    split at h
    · next hc =>
      obtain ⟨pp, hpp, hact⟩ := Option.map_eq_some_iff.mp h
      cases copyoutFails with
      | true => exact .inr ⟨c, pp, hc, hpp, .inl ⟨rfl, hact.symm⟩⟩
      | false =>
        cases hact
        exact .inl fun _ _ => rfl
    · cases h
  | waitx c copyoutFails =>
    rw [countAct] at h
    split at h
    · next hc =>
      obtain ⟨pp, hpp, hact⟩ := Option.map_eq_some_iff.mp h
      exact .inr ⟨c, pp, hc.1, hpp, .inr ⟨by rw [hc.2], hact.symm⟩⟩
    · cases h
  | syscall | exec | userinit | fork =>
    rw [countAct] at h
    split at h <;> cases h
    exact .inl fun _ _ => rfl
  | _ => cases h

theorem owed_cons (p : Slot) (i : Fin 32) (x : Int) (steps : List (Kernel n × Event n)) :
    owed i x (acts p ((k, e) :: steps)) = match countAct p k e with
      | some a => a.owed i (owed i x (acts p steps))
      | none => owed i x (acts p steps) := by
  rw [acts, List.filterMap_cons]
  cases countAct p k e <;> rfl

/-- What is owed stays the kernel's account exactly when the step misses nothing. -/
theorem Counted.step (h : Counted steps k) (hs : (system cfg n).Step k e k') :
    Counted ((k, e) :: steps) k' ↔ NoMiss k e := by
  constructor
  · intro h'
    have hzero : ∀ p pp, countAct p k e = some (.miss (k.proc pp).syscallCount) ∨
        countAct p k e = some (.skip (k.proc pp).syscallCount) →
        ∀ i, (k.proc pp).syscallCount i = 0 := by
      intro p pp hact i
      have hadded := counts_step hs (h p i)
      rw [h' p i, owed_cons, tallied] at hadded
      have hsum : int32 (owed i 0 (acts p steps) + (k.proc pp).syscallCount i) =
          int32 (owed i 0 (acts p steps)) := by
        rcases hact with hact | hact
        · rw [hact] at hadded
          exact hadded.symm
        · rw [hact] at hadded
          exact hadded
      rw [h pp i] at hsum ⊢
      exact (int32_add_eq_left _ _).mp hsum
    cases e with
    | wait c copyoutFails =>
      cases copyoutFails with
      | false => trivial
      | true =>
        intro p pp hc hpp
        refine hzero p pp (.inl ?_)
        rw [countAct, if_pos hc, hpp]
        rfl
    | waitx c copyoutFails =>
      cases copyoutFails with
      | true => trivial
      | false =>
        intro p pp hc hpp
        refine hzero p pp (.inr ?_)
        rw [countAct, if_pos ⟨hc, rfl⟩, hpp]
        rfl
    | _ => trivial
  · intro hmiss p i
    rw [counts_step hs (h p i), owed_cons, tallied]
    cases hact : countAct p k e with
    | none => rfl
    | some a =>
      rcases countAct_owed hact with hsame | ⟨c, pp, hc, hpp, hcase⟩
      · simp only [hsame]
      · have hzero : (k.proc pp).syscallCount i = 0 := by
          rcases hcase with ⟨rfl, -⟩ | ⟨rfl, -⟩
          · exact hmiss p pp hc hpp i
          · exact hmiss p pp hc hpp i
        rcases hcase with ⟨-, rfl⟩ | ⟨-, rfl⟩
        · simp only [CountAct.tally, CountAct.owed, hzero, add_zero]
        · simp only [CountAct.tally, CountAct.owed, hzero, add_zero]

theorem sleep_other (k : Kernel n) (c : Fin n) (p : Slot) (chan : Chan) :
    Answers (k.sleep c p chan) fun k' => ∀ x, x ≠ p → k'.proc x = k.proc x := by
  rw [Kernel.sleep]
  refine (dequeue_proc _ p _).bind fun k' h x hx => ?_
  rw [Kernel.setCpu_proc, h.1, Kernel.modify_of_ne _ _ _ hx]

/-- A round of `wait` that finds no exited child leaves counters and other slots alone. -/
theorem wait_none {r : Kernel n × Option Int} {copyoutFails : Bool} (hpp : k.exitedChild p = none)
    (h : k.wait c p copyoutFails = .ok r) :
    (r.1.proc p).syscallCount = (k.proc p).syscallCount ∧
      ∀ x, x ≠ p → r.1.proc x = k.proc x := by
  rw [Kernel.wait, hpp] at h
  simp only at h
  split at h
  · cases h
    exact ⟨rfl, fun _ _ => rfl⟩
  · have hsleep : Answers (k.sleep c p (.proc p)) fun k' =>
        (k'.proc p).syscallCount = (k.proc p).syscallCount ∧ ∀ x, x ≠ p → k'.proc x = k.proc x :=
      ((keeps_harmless.sleep k c p _).and (sleep_other k c p _)).mono fun k' hk =>
        ⟨congrArg Own.counts (hk.1.slot p).own, hk.2⟩
    have hbind : Answers (do return (← k.sleep c p (.proc p), none)) fun r : Kernel n × Option Int =>
        (r.1.proc p).syscallCount = (k.proc p).syscallCount ∧ ∀ x, x ≠ p → r.1.proc x = k.proc x :=
      hsleep.bind fun k' hk => hk
    exact hbind.of_ok h

/-- A `wait` that answers -1 or sleeps keeps counters and children when it misses nothing. -/
theorem NoMiss.waitKeeps (h : NoMiss k e) (hinv : Inv k)
    (hint : ∀ p i, ∃ x, (k.proc p).syscallCount i = int32 x) : WaitKeeps k e := by
  cases e with
  | wait c copyoutFails =>
    intro p r hc hr hanswer
    cases hpp : k.exitedChild p with
    | none =>
      obtain ⟨hcount, hother⟩ := wait_none hpp hr
      exact ⟨hcount, fun x hx _ => hother x hx⟩
    | some pp =>
      rw [Kernel.wait, hpp] at hr
      cases copyoutFails with
      | true =>
        cases hr
        refine ⟨?_, fun x hx _ => Function.update_of_ne hx _ _⟩
        rw [Kernel.modify_self]
        funext i
        obtain ⟨x, hx⟩ := hint p i
        show int32 ((k.proc p).syscallCount i + (k.proc pp).syscallCount i) = _
        rw [h p pp hc hpp i, add_zero, hx]
        exact Int.bmod_bmod ..
      | false =>
        -- the child is reaped, and its pid is not -1
        have hpos := hinv.pids.pos pp (by rw [(exitedChild_zombie hpp).2]; simp)
        have hpid : Answers (do
            let k' ← (k.modify p fun x =>
              { x with syscallCount := fun i =>
                  int32 (x.syscallCount i + (k.proc pp).syscallCount i) }).freeproc pp
            return (k', some (k.proc pp).pid)) fun r : Kernel n × Option Int =>
              r.2 = some (k.proc pp).pid := Answers.skip _ fun k' => rfl
        rw [hpid.of_ok hr] at hanswer
        rcases hanswer with h | h
        · cases h
        · have hminus := Option.some.inj h
          omega
  | _ => trivial

/-- Along every run of any build on any number of harts: every counter of every process is what is
owed to it, each child being added once, where it is reaped, and every round of `wait` that answers
-1 or sleeps leaves the caller's counters and its children's slots alone, exactly when no `wait`
fails to copy out the status of a child that has made a system call and no `waitx` reaps such a
child. -/
theorem counters_once_iff {steps : List (Kernel n × Event n)}
    (hrun : (system cfg n).Run steps k) :
    (Throughout Counted steps k ∧ ∀ s ∈ steps, WaitKeeps s.1 s.2) ↔
      ∀ s ∈ steps, NoMiss s.1 s.2 := by
  have halways : Throughout Counted steps k ↔ ∀ s ∈ steps, NoMiss s.1 s.2 :=
    hrun.always_run_iff (fun _ _ => rfl) fun _ _ _ _ _ h hs => h.step hs
  rw [halways]
  refine ⟨fun h => h.1, fun h => ⟨h, fun s hs => ?_⟩⟩
  obtain ⟨before, hbefore⟩ := hrun.reachable_mem s hs
  exact (h s hs).waitKeeps (inv_reachable ⟨before, hbefore⟩) fun p i => ⟨_, counts_run hbefore p i⟩

/-- The first process forks a child, which exits, and reaps it. -/
theorem counters_once_reaped : ∃ (steps : List (Kernel 1 × Event 1)) (k : Kernel 1),
    (system mlfqConfig 1).Run steps k ∧ (k.proc 1).state = .unused ∧
      (k.proc 0).syscallCount 2 = 1 ∧ Counted steps k := by
  obtain ⟨steps, k, hrun, htest⟩ := exists_run (M := system mlfqConfig 1)
    (forkRun 0 1 3 ++ [.syscall 0 zeroRegs 2, .exit 0 0, .scheduler 0, .resume 0, .wait 0 false])
    (fun steps k => (k.proc 1).state == .unused && (k.proc 0).syscallCount 2 == 1 &&
      steps.all fun s => match s.2 with
        | .wait _ true | .waitx _ _ => false
        | _ => true) (by decide +kernel)
  simp only [Bool.and_eq_true, beq_iff_eq, List.all_eq_true] at htest
  obtain ⟨⟨hfree, hcount⟩, hgood⟩ := htest
  have hmiss : ∀ s ∈ steps, NoMiss s.1 s.2 := by
    intro s hs
    have h := hgood s hs
    cases he : s.2 with
    | wait c copyoutFails =>
      rw [he] at h
      cases copyoutFails with
      | true => cases h
      | false => trivial
    | waitx =>
      rw [he] at h
      cases h
    | _ => trivial
  have halways := ((counters_once_iff hrun).mpr hmiss).1
  refine ⟨steps, k, hrun, hfree, hcount, ?_⟩
  cases steps with
  | nil => exact halways
  | cons => exact halways.1

/-- The first process forks a child, which exits, and calls `wait` with a bad address twice: the
child's only system call is added to its counters twice, and the child is still there. -/
theorem counters_added_twice : ∃ k : Kernel 1, (system mlfqConfig 1).Reachable k ∧
    (k.proc 1).state = .zombie ∧ (k.proc 1).syscallCount 2 = 1 ∧
      (k.proc 0).syscallCount 2 = 2 := by
  obtain ⟨steps, k, hrun, htest⟩ := exists_run (M := system mlfqConfig 1)
    (forkRun 0 1 3 ++ [.syscall 0 zeroRegs 2, .exit 0 0, .scheduler 0, .resume 0, .wait 0 true, .ret 0 0,
      .syscall 0 zeroRegs 3, .wait 0 true])
    (fun _ k => (k.proc 1).state == .zombie && (k.proc 1).syscallCount 2 == 1 &&
      (k.proc 0).syscallCount 2 == 2) (by decide +kernel)
  simp only [Bool.and_eq_true, beq_iff_eq] at htest
  exact ⟨k, ⟨steps, hrun⟩, htest.1.1, htest.1.2, htest.2⟩

end Xv6
