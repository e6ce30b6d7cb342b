import Xv6.Laws.Trap

/-!
# What a scheduler pass chooses

The first loop of an MLFQ pass puts every runnable process on its queue; by the invariant it is
there already, so the loop does nothing (`requeue_eq`). The search then finds the first runnable
entry of the highest level that has one (`schedulerMlfq_eq`). A pass of any build keeps the
invariant, for it does nothing but dispatch a runnable process.
-/

namespace Xv6

open Base

variable {n : Nat} {k k' : Kernel n} {S : Slot → Prop} {p : Slot} {c : Fin n}

theorem requeueOne_eq (h : Inv k) (p : Slot) : k.requeueOne p = .ok k := by
  rw [Kernel.requeueOne]
  split
  · next hrun =>
    rw [enqueue_eq_self h.queued (by rw [hrun]; rfl)]
    exact congrArg Except.ok (by simp only [Kernel.modify, Function.update_eq_self])
  · rfl

theorem requeue_eq (h : Inv k) (l : List Slot) : l.foldlM Kernel.requeueOne k = .ok k := by
  induction l with
  | nil => rfl
  | cons p l ih => rw [List.foldlM_cons, requeueOne_eq h p, ok_bind, ih]

/-- The first runnable entry of a level. -/
def Kernel.runnableAt (k : Kernel n) (q : Fin 4) : Option Slot :=
  (k.queue q).find? fun p => (k.proc p).state = .runnable

theorem firstRunnable_eq (h : Queued k S) (qs : List (Fin 4)) :
    k.firstRunnable qs = .ok (qs.findSome? k.runnableAt) := by
  induction qs with
  | nil => rfl
  | cons q qs ih =>
    rw [Kernel.firstRunnable, h.array q, ArrayQueue.findIdx_ofList, ok_bind, List.findSome?_cons]
    split
    · next j hj =>
      obtain ⟨p, hp, hread⟩ := ArrayQueue.deref_of_findIdx NPROC hj
      rw [hread, Kernel.runnableAt, hp]
      rfl
    · next hnone =>
      have hfind : k.runnableAt q = none := by
        rw [List.findIdx?_eq_none_iff] at hnone
        exact List.find?_eq_none.mpr fun x hx => by simpa using hnone x hx
      rw [hfind]
      exact ih

/-- The process an MLFQ pass chooses. -/
def Kernel.choice (k : Kernel n) : Option Slot := [0, 1, 2, 3].findSome? k.runnableAt

theorem schedulerMlfq_eq (h : Inv k) (c : Fin n) :
    k.schedulerMlfq c = .ok (match k.choice with
      | none => k
      | some p => k.dispatch c p) := by
  rw [Kernel.schedulerMlfq, requeue_eq h, ok_bind, firstRunnable_eq h.queued, ok_bind,
    Kernel.choice]
  cases [0, 1, 2, 3].findSome? k.runnableAt with
  | none => rfl
  | some p => rfl

/-- Nobody is chosen exactly when nobody is runnable. -/
theorem choice_eq_none (h : Inv k) :
    k.choice = none ↔ ∀ p, (k.proc p).state ≠ .runnable := by
  rw [Kernel.choice, List.findSome?_eq_none_iff]
  constructor
  · intro hnone p hp
    obtain ⟨q, hq, hmem⟩ := h.queued.mem_level (p := p) (by rw [hp]; rfl)
    have hq4 : q ∈ [0, 1, 2, 3] := by
      match q with
      | 0 | 1 | 2 | 3 => simp
    have hfind := List.find?_eq_none.mp (hnone q hq4) p hmem
    simp [hp] at hfind
  · intro hnone q _
    exact List.find?_eq_none.mpr fun x _ => by simpa using hnone x

/-- The one chosen is the first runnable entry of its level, and no runnable process is at a
level above. -/
theorem choice_spec (h : Inv k) (hp : k.choice = some p) :
    (k.proc p).state = .runnable ∧
      (∃ q : Fin 4, (k.proc p).queueNumber = q ∧ k.runnableAt q = some p) ∧
      ∀ x, (k.proc x).state = .runnable → (k.proc p).queueNumber ≤ (k.proc x).queueNumber := by
  obtain ⟨l₁, q, l₂, hsplit, hfind, hbefore⟩ := List.findSome?_eq_some_iff.mp hp
  have hmem : p ∈ k.queue q := List.mem_of_find?_eq_some hfind
  have hlevel := h.queued.level q p hmem
  refine ⟨by simpa using List.find?_some hfind, ⟨q, hlevel, hfind⟩, fun x hx => ?_⟩
  obtain ⟨r, hr, hxr⟩ := h.queued.mem_level (p := x) (by rw [hx]; rfl)
  rw [hlevel, hr]
  by_contra hlt
  -- a level above would have come first in the search
  have hearlier : r ∈ l₁ := by
    have hrq : (r : Nat) < q := Nat.lt_of_not_le hlt
    rcases l₁ with _ | ⟨a, _ | ⟨b, _ | ⟨d, _ | ⟨e, l⟩⟩⟩⟩
    · cases hsplit; omega
    · cases hsplit; simp; omega
    · cases hsplit; simp; omega
    · cases hsplit; simp; omega
    · simp at hsplit
  have hnone := List.find?_eq_none.mp (hbefore r hearlier) x hxr
  simp [hx] at hnone

/-! ## Passes keep the invariant -/

/-- What a pass does: nothing but its own variables changes, and then perhaps a dispatch of a
runnable process. -/
inductive Passed (k : Kernel n) (c : Fin n) : Kernel n → Prop
  | idle {k' : Kernel n} (hcalm : Calm k k') : Passed k c k'
  | dispatched {k₁ : Kernel n} (p : Slot) (hcalm : Calm k k₁) (hproc : k₁.proc = k.proc)
      (hrun : (k.proc p).state = .runnable) : Passed k c (k₁.dispatch c p)

theorem Passed.dispatch {k₁ : Kernel n} (hcalm : Calm k k₁) (hproc : k₁.proc = k.proc)
    (c : Fin n) (p : Slot) : Passed k c (k₁.dispatch c p) := by
  by_cases hrun : (k.proc p).state = .runnable
  · exact .dispatched p hcalm hproc hrun
  · rw [Kernel.dispatch, hproc, if_neg hrun]
    exact .idle hcalm

theorem schedulerRr_spec (h : Inv k) (hc : k.myproc c = none) :
    Inv (k.schedulerRr c) ∧ Passed k c (k.schedulerRr c) := by
  -- the loop variable is nobody else's
  have hscan : ∀ i, let k₁ : Kernel n :=
      { k with cpus := Function.update k.cpus c { k.cpus c with scan := i } }
      Inv k₁ ∧ Calm k k₁ ∧ k₁.myproc c = none := by
    intro i k₁
    have hmyproc : ∀ d, k₁.myproc d = k.myproc d := by
      intro d
      simp only [Kernel.myproc, k₁, Function.update_apply]
      split
      · next he => rw [he]
      · rfl
    exact ⟨h.congr (fun _ => ⟨rfl, rfl⟩) rfl hmyproc (le_refl _), ⟨rfl, rfl, rfl, fun _ => .refl _⟩,
      (hmyproc c).trans hc⟩
  simp only [Kernel.schedulerRr]
  split
  · exact ⟨(hscan 0).1, .idle (hscan 0).2.1⟩
  · next p _ =>
    obtain ⟨h₁, hcalm, hc₁⟩ := hscan (p + 1)
    exact ⟨h₁.dispatch hc₁ p, .dispatch hcalm rfl c p⟩

theorem schedulerLbs_spec (h : Inv k) (hc : k.myproc c = none) :
    Inv (k.schedulerLbs c) ∧ Passed k c (k.schedulerLbs c) := by
  have hseed : ∀ s, Inv { k with seed := s } ∧ Calm k { k with seed := s } ∧
      Kernel.myproc { k with seed := s } c = none := fun s =>
    ⟨h.congr (fun _ => ⟨rfl, rfl⟩) rfl (fun _ => rfl) (le_refl _), ⟨rfl, rfl, rfl, fun _ => .refl _⟩,
      hc⟩
  simp only [Kernel.schedulerLbs, Kernel.lbsPass]
  split
  · obtain ⟨h₁, hcalm, hc₁⟩ := hseed (lcg k.seed)
    rw [Kernel.lottery]
    split
    · exact ⟨h₁, .idle hcalm⟩
    · exact ⟨h₁.dispatch hc₁ _, .dispatch hcalm rfl c _⟩
  · exact ⟨h, .idle (.refl k)⟩

theorem scheduler_spec (h : Inv k) (hc : k.myproc c = none) (b : Build) :
    ∃ k', k.scheduler b c = .ok k' ∧ Inv k' ∧ Passed k c k' := by
  cases b with
  | rr => exact ⟨_, rfl, schedulerRr_spec h hc⟩
  | lbs => exact ⟨_, rfl, schedulerLbs_spec h hc⟩
  | mlfq =>
    refine ⟨_, schedulerMlfq_eq h c, ?_⟩
    split
    · exact ⟨h, .idle (.refl k)⟩
    · exact ⟨h.dispatch hc _, .dispatch (.refl k) rfl c _⟩

theorem Passed.steady (h : Passed k c k') : Steady k k' := by
  cases h with
  | idle hcalm => exact hcalm.steady
  | @dispatched k₁ p hcalm hproc hrun =>
    rw [Kernel.dispatch, hproc, if_pos hrun]
    refine ⟨hcalm.ticks, hcalm.hist, hcalm.init, fun x => ?_⟩
    rw [Kernel.setCpu_proc, Kernel.modify_proc, hproc]
    split
    · next he =>
      rw [he]
      exact ⟨rfl, .inl rfl, fun _ => ⟨by rw [hrun]; rfl, id⟩⟩
    · exact (Proc.Calm.refl _).toSteady

end Xv6
