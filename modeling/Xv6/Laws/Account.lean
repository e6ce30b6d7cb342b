import Xv6.Laws.Priority
import Xv6.Base.History

/-!
# The accounts of the MLFQ build

An account puts side by side what a process's record says (its level and the ticks used at it)
and what the history says (the ticks it ran and the ticks it was charged since it last entered a
level, and which level that was). Every part of a timer interrupt changes accounts in one of
three ways: a tick run, a tick charged, or a fresh entry into a level; everything else leaves
them alone.
-/

namespace Xv6

open Base Base.Machine

variable {n : Nat} {k k' : Kernel n} {p x : Slot} {c : Fin n}

/-! ## Reading the history -/

/-- The observation that `p` enters a level, and which. -/
def Obs.levelOf (p : Slot) : Obs → Option Nat
  | .entered p' q => if p' = p then some q else none
  | _ => none

/-- The level the process last entered. -/
def levelEntered (p : Slot) (h : List Obs) : Option Nat := h.findSome? (Obs.levelOf p)

/-- The ticks the process was running since it last entered a level. -/
def ranSince (p : Slot) (h : List Obs) : Nat :=
  countSince (fun o => (o.levelOf p).isSome) (· == .ran p) h

/-- The ticks the process was charged since it last entered a level. -/
def chargedSince (p : Slot) (h : List Obs) : Nat :=
  countSince (fun o => (o.levelOf p).isSome) (· == .charged p) h

/-- The observation is about another process or about none. -/
def Obs.spares (p : Slot) : Obs → Bool
  | .ran p' | .charged p' | .entered p' _ => p' ≠ p
  | .tick _ | .boost => true

theorem Obs.spares_iff {o : Obs} (h : o.spares p = true) :
    o.levelOf p = none ∧ o ≠ .ran p ∧ o ≠ .charged p := by
  cases o <;> simp_all [Obs.spares, Obs.levelOf]

theorem levelEntered_append {l : List Obs} (hl : ∀ o ∈ l, o.levelOf p = none) (h : List Obs) :
    levelEntered p (l ++ h) = levelEntered p h := by
  rw [levelEntered, List.findSome?_append, List.findSome?_eq_none_iff.mpr hl]
  rfl

theorem levelEntered_entered (p : Slot) (q : Nat) (h : List Obs) :
    levelEntered p (.entered p q :: h) = some q := by
  simp [levelEntered, Obs.levelOf]

/-! ## Accounts -/

/-- The account of a process. -/
@[ext]
structure Account where
  level : Nat
  used : Nat
  ran : Nat
  charged : Nat
  entered : Option Nat

/-- The account of a process that has just entered level `q`. -/
def Account.entry (q : Nat) : Account := ⟨q, 0, 0, 0, some q⟩

/-- The account after a charge. -/
def Account.charge (a : Account) : Account := { a with used := a.used + 1, charged := a.charged + 1 }

/-- The account of a process in a state of the kernel. -/
def Kernel.account (k : Kernel n) (p : Slot) : Account where
  level := (k.proc p).queueNumber
  used := (k.proc p).queueticks
  ran := ranSince p k.hist
  charged := chargedSince p k.hist
  entered := levelEntered p k.hist

theorem account_eq (hlevel : (k'.proc x).queueNumber = (k.proc x).queueNumber)
    (hticks : (k'.proc x).queueticks = (k.proc x).queueticks) {l : List Obs}
    (hhist : k'.hist = l ++ k.hist) (hl : ∀ o ∈ l, o.spares x = true) :
    k'.account x = k.account x := by
  have hspare : ∀ o ∈ l, o.levelOf x = none ∧ o ≠ .ran x ∧ o ≠ .charged x := fun o ho =>
    Obs.spares_iff (hl o ho)
  apply Account.ext
  · exact hlevel
  · exact hticks
  · show ranSince x k'.hist = ranSince x k.hist
    rw [hhist]
    exact countSince_append (fun o ho => by simp [hspare o ho]) _
  · show chargedSince x k'.hist = chargedSince x k.hist
    rw [hhist]
    exact countSince_append (fun o ho => by simp [hspare o ho]) _
  · show levelEntered x k'.hist = levelEntered x k.hist
    rw [hhist]
    exact levelEntered_append (fun o ho => (hspare o ho).1) _

theorem account_entry {q : Nat} (hlevel : (k'.proc x).queueNumber = q)
    (hticks : (k'.proc x).queueticks = 0) {l h : List Obs}
    (hhist : k'.hist = l ++ .entered x q :: h) (hl : ∀ o ∈ l, o.spares x = true) :
    k'.account x = .entry q := by
  have hspare : ∀ o ∈ l, o.levelOf x = none ∧ o ≠ .ran x ∧ o ≠ .charged x := fun o ho =>
    Obs.spares_iff (hl o ho)
  apply Account.ext
  · exact hlevel
  · exact hticks
  · show ranSince x k'.hist = 0
    rw [hhist]
    refine (countSince_append (fun o ho => by simp [hspare o ho]) _).trans ?_
    exact countSince_reset (by simp [Obs.levelOf]) _
  · show chargedSince x k'.hist = 0
    rw [hhist]
    refine (countSince_append (fun o ho => by simp [hspare o ho]) _).trans ?_
    exact countSince_reset (by simp [Obs.levelOf]) _
  · show levelEntered x k'.hist = some q
    rw [hhist, levelEntered_append fun o ho => (hspare o ho).1]
    exact levelEntered_entered x q h

theorem Steady.account (h : Steady k k') (hx : (k'.proc x).state.live = true) :
    k'.account x = k.account x := by
  refine account_eq (h.slot x).level ?_ h.hist (l := []) (by simp)
  rcases (h.slot x).ticks with ht | ⟨-, hdead⟩
  · exact ht
  · rw [hx] at hdead
    cases hdead

/-! ## What a timer interrupt does to accounts -/

theorem runners_nodup (k : Kernel n) : k.runners.Nodup := (List.nodup_finRange NPROC).filter _

theorem mem_runners : x ∈ k.runners ↔ (k.proc x).state = .running := by
  simp [Kernel.runners, slots]

/-- The clock adds a tick run to the accounts of the running, and nothing to the others. -/
theorem Clocked.account {me : Option Slot} (h : Clocked me k k')
    (hx : (k'.proc x).state.live = true) :
    k'.account x = { k.account x with
      ran := (k.account x).ran + if (k.proc x).state = .running then 1 else 0 } := by
  let l := (k.runners.map Obs.ran).reverse ++ [.tick (uint32 (k.ticks + 1))]
  have hhist : k'.hist = l ++ k.hist := by
    rw [h.hist, List.append_assoc]
    rfl
  have hcases : ∀ o ∈ l, (∃ y, o = .ran y) ∨ ∃ t, o = .tick t := by
    intro o ho
    rcases List.mem_append.mp ho with ho | ho
    · obtain ⟨y, -, rfl⟩ := List.mem_map.mp (List.mem_reverse.mp ho)
      exact .inl ⟨y, rfl⟩
    · exact .inr ⟨_, List.mem_singleton.mp ho⟩
  have hlevels : ∀ o ∈ l, o.levelOf x = none := fun o ho => by
    rcases hcases o ho with ⟨y, rfl⟩ | ⟨t, rfl⟩ <;> rfl
  have hticks : (k'.proc x).queueticks = (k.proc x).queueticks := by
    rcases (h.slot x).ticks with ht | ⟨-, hdead⟩
    · exact ht
    · rw [hx] at hdead
      cases hdead
  have hran : l.countP (· == .ran x) = if (k.proc x).state = .running then 1 else 0 := by
    have hmap : (k.runners.map Obs.ran).Nodup :=
      (runners_nodup k).map fun y z hyz => Obs.ran.inj hyz
    have hcount : l.count (.ran x) = if Obs.ran x ∈ k.runners.map Obs.ran then 1 else 0 := by
      simp only [l, List.count_append, List.count_reverse, hmap.count]
      simp
    refine hcount.trans (if_congr ?_ rfl rfl)
    rw [← mem_runners, List.mem_map]
    exact ⟨fun ⟨y, hy, he⟩ => Obs.ran.inj he ▸ hy, fun hy => ⟨x, hy, rfl⟩⟩
  apply Account.ext
  · exact (h.slot x).level
  · exact hticks
  · show ranSince x k'.hist = _
    rw [hhist, ← hran]
    exact countSince_append_count (fun o ho => by rw [hlevels o ho]; rfl) _
  · show chargedSince x k'.hist = chargedSince x k.hist
    rw [hhist]
    refine countSince_append (fun o ho => ⟨by rw [hlevels o ho]; rfl, ?_⟩) _
    rcases hcases o ho with ⟨y, rfl⟩ | ⟨t, rfl⟩ <;> rfl
  · show levelEntered x k'.hist = levelEntered x k.hist
    rw [hhist]
    exact levelEntered_append hlevels _

/-- On any hart a timer interrupt changes no more than the ticks run. -/
theorem Ticked.account {me : Option Slot} (h : Ticked c me k k')
    (hx : (k'.proc x).state.live = true) : ∃ r, k'.account x = { k.account x with ran := r } := by
  unfold Ticked at h
  split at h
  · exact ⟨_, Clocked.account h hx⟩
  · exact ⟨_, h.1.steady.account hx⟩

theorem charge_account_self (k : Kernel n) (p : Slot) :
    (k.charge p).account p = (k.account p).charge := by
  apply Account.ext
  · show ((k.charge p).proc p).queueNumber = _
    rw [Kernel.charge, Kernel.note_proc, Kernel.modify_self]
    rfl
  · show ((k.charge p).proc p).queueticks = _
    rw [Kernel.charge, Kernel.note_proc, Kernel.modify_self]
    rfl
  · exact (countSince_cons (by simp [Obs.levelOf]) _).trans (by simp [Account.charge]; rfl)
  · exact (countSince_cons (by simp [Obs.levelOf]) _).trans (by simp [Account.charge]; rfl)
  · rfl

theorem charge_account_other (k : Kernel n) (hx : x ≠ p) :
    (k.charge p).account x = k.account x := by
  have hproc : (k.charge p).proc x = k.proc x := by
    rw [Kernel.charge, Kernel.note_proc, Kernel.modify_of_ne _ _ _ hx]
  refine account_eq (by rw [hproc]) (by rw [hproc]) (l := [.charged p]) rfl fun o ho => ?_
  rw [List.mem_singleton.mp ho]
  simpa [Obs.spares] using hx.symm

/-- The boost opens new accounts. -/
theorem Boosted.account {l : List Slot} (h : Boosted l k k') :
    (x ∈ l ∧ k'.account x = .entry 0) ∨ (x ∉ l ∧ k'.account x = k.account x) := by
  by_cases hx : x ∈ l
  · refine .inl ⟨hx, ?_⟩
    have hproc := h.moved x hx
    -- the last of its entries decides
    obtain ⟨l₁, l₂, hsplit, hlast⟩ : ∃ l₁ l₂, l = l₁ ++ x :: l₂ ∧ x ∉ l₂ := by
      obtain ⟨l₁, l₂, hsplit, hnot⟩ := List.eq_append_cons_of_mem (List.mem_reverse.mpr hx)
      refine ⟨l₂.reverse, l₁.reverse, ?_, fun hmem => hnot (List.mem_reverse.mp hmem)⟩
      have := congrArg List.reverse hsplit
      simpa using this
    refine account_entry (l := (l₂.map (Obs.entered · 0)).reverse)
      (h := (l₁.map (Obs.entered · 0)).reverse ++ k.hist) (by rw [hproc]) (by rw [hproc]) ?_
      fun o ho => ?_
    · rw [h.hist, hsplit]
      simp
    · obtain ⟨y, hy, rfl⟩ := List.mem_map.mp (List.mem_reverse.mp ho)
      have hne : y ≠ x := fun he => hlast (he ▸ hy)
      simpa [Obs.spares] using hne
  · refine .inr ⟨hx, ?_⟩
    have hproc := h.other x hx
    refine account_eq (by rw [hproc]) (by rw [hproc]) h.hist fun o ho => ?_
    obtain ⟨y, hy, rfl⟩ := List.mem_map.mp (List.mem_reverse.mp ho)
    have hne : y ≠ x := fun he => hx (he ▸ hy)
    simpa [Obs.spares] using hne

theorem note_boost_account (k : Kernel n) : (k.note .boost).account x = k.account x :=
  account_eq rfl rfl (l := [.boost]) rfl fun o ho => by rw [List.mem_singleton.mp ho]; rfl

/-- A charge is booked, or the boost clears it. -/
theorem Charged.account (h : Charged k p k') :
    (k.ticks % 48 = 0 ∧ k'.account x = .entry 0) ∨
    (x = p ∧ k'.account x = (k.account x).charge) ∨ (x ≠ p ∧ k'.account x = k.account x) := by
  have hcharge : (x = p ∧ (k.charge p).account x = (k.account x).charge) ∨
      (x ≠ p ∧ (k.charge p).account x = k.account x) := by
    by_cases hx : x = p
    · rw [hx]; exact .inl ⟨rfl, charge_account_self k p⟩
    · exact .inr ⟨hx, charge_account_other k hx⟩
  cases h with
  | plain _ => exact .inr hcharge
  | boost hticks hb =>
    rw [note_boost_account]
    rcases hb.account (x := x) with ⟨-, he⟩ | ⟨-, he⟩
    · exact .inl ⟨hticks, he⟩
    · rw [he]; exact .inr hcharge

theorem yield_account (k : Kernel n) (c : Fin n) (p : Slot) (ctx : Context) :
    (k.yield c p ctx).account x = k.account x := by
  refine account_eq ?_ ?_ (l := []) rfl (by simp)
  all_goals
    rw [yield_proc]
    split
    · next he => rw [he]
    · rfl

theorem usertrapret_account (cfg : Config) (k : Kernel n) (c : Fin n) (p : Slot) :
    (k.usertrapret cfg c p).account x = k.account x := by
  refine account_eq ?_ ?_ (l := []) rfl (by simp)
  all_goals
    rw [Kernel.usertrapret, Kernel.modify_proc]
    split
    · next he => rw [he]
    · rfl

theorem Settled.account {cfg : Config} (h : Settled cfg k c p k') :
    (x = p ∧ ∃ q : Fin 4, (k.account p).level = q ∧ timesliceq q ≤ (k.account p).used ∧
      k'.account x = .entry (nextLevel q)) ∨
    ((x = p → ∃ q : Fin 4, (k.account p).level = q ∧ (k.account p).used < timesliceq q) ∧
      k'.account x = k.account x) := by
  cases h with
  | demoted q hq hmem hused =>
    rw [yield_account]
    by_cases hx : x = p
    · refine .inl ⟨hx, q, hq, hused, ?_⟩
      rw [hx]
      refine account_entry ?_ ?_ (l := []) rfl (by simp)
      all_goals rw [Kernel.note_proc, moved_self]
    · refine .inr ⟨fun he => absurd he hx, ?_⟩
      have hproc : ((k.moved p q (nextLevel q)).note (.entered p (nextLevel q))).proc x =
          k.proc x := by
        rw [Kernel.note_proc, moved_of_ne k q _ hx]
      refine account_eq (by rw [hproc]) (by rw [hproc]) (l := [.entered p (nextLevel q)]) rfl
        fun o ho => ?_
      rw [List.mem_singleton.mp ho]
      simpa [Obs.spares] using fun he : p = x => hx he.symm
  | stayed q hq hleft hp =>
    refine .inr ⟨fun _ => ⟨q, hq, hleft⟩, ?_⟩
    cases hp with
    | yielded j => exact yield_account k c p _
    | returned _ => exact usertrapret_account cfg k c p

theorem Charged.same (h : Charged k p k') (x : Slot) :
    (k'.proc x).state = (k.proc x).state ∧ (k'.proc x).killed = (k.proc x).killed := by
  have hcharge : ((k.charge p).proc x).state = (k.proc x).state ∧
      ((k.charge p).proc x).killed = (k.proc x).killed := by
    rw [Kernel.charge, Kernel.note_proc, Kernel.modify_proc]
    split
    · next he => rw [he]; exact ⟨rfl, rfl⟩
    · exact ⟨rfl, rfl⟩
  cases h with
  | plain _ => exact hcharge
  | @boost k₁ _ hb =>
    by_cases hx : x ∈ (k.charge p).boostList
    · rw [Kernel.note_proc, hb.moved x hx]; exact hcharge
    · rw [Kernel.note_proc, hb.other x hx]; exact hcharge

theorem Settled.same {cfg : Config} (h : Settled cfg k c p k')
    (hp : (k.proc p).state.live = true) (x : Slot) :
    (k'.proc x).state.live = (k.proc x).state.live ∧
      (k'.proc x).killed = (k.proc x).killed := by
  have hyield : ∀ (k₁ : Kernel n) (ctx : Context), (k₁.proc p).state.live = true →
      ((k₁.yield c p ctx).proc x).state.live = (k₁.proc x).state.live ∧
      ((k₁.yield c p ctx).proc x).killed = (k₁.proc x).killed := by
    intro k₁ ctx hp₁
    rw [yield_proc]
    split
    · next he => rw [he, hp₁]; exact ⟨rfl, rfl⟩
    · exact ⟨rfl, rfl⟩
  cases h with
  | demoted q _ _ _ =>
    have hmoved : ∀ y, ((k.moved p q (nextLevel q)).proc y).state = (k.proc y).state ∧
        ((k.moved p q (nextLevel q)).proc y).killed = (k.proc y).killed := by
      intro y
      by_cases hy : y = p
      · rw [hy, moved_self]; exact ⟨rfl, rfl⟩
      · rw [moved_of_ne k q _ hy]; exact ⟨rfl, rfl⟩
    have hstep := hyield ((k.moved p q (nextLevel q)).note (.entered p (nextLevel q))) (.usertrap 0)
      (by rw [Kernel.note_proc, (hmoved p).1]; exact hp)
    rw [Kernel.note_proc, (hmoved x).1, (hmoved x).2] at hstep
    exact hstep
  | stayed q _ _ hpre =>
    cases hpre with
    | yielded j => exact hyield k _ hp
    | returned _ =>
      rw [Kernel.usertrapret, Kernel.modify_proc]
      split
      · next he => rw [he]; exact ⟨rfl, rfl⟩
      · exact ⟨rfl, rfl⟩

/-- How a timer interrupt in user mode books the account of a process that is the interrupted one
(`mine`) or not, when the boost may be due or not. -/
inductive Booked (mine boost : Prop) (a : Account) : Account → Prop
  | other (h : ¬ mine) : Booked mine boost a a
  | boosted (h : boost) : Booked mine boost a (.entry 0)
  | charged (q : Fin 4) (h : mine) (hq : a.level = q) (hleft : a.used + 1 < timesliceq q) :
      Booked mine boost a a.charge
  | demoted (q : Fin 4) (h : mine) (hq : a.level = q) (hused : timesliceq q ≤ a.used + 1) :
      Booked mine boost a (.entry (nextLevel q))

/-- What a timer interrupt books. -/
theorem booked_account {cfg : Config} {k₁ : Kernel n} (hcharge : Charged k p k₁)
    (hsettle : Settled cfg k₁ c p k') (x : Slot) :
    Booked (x = p) (k.ticks % 48 = 0) (k.account x) (k'.account x) := by
  rcases hsettle.account (x := x) with ⟨rfl, q, hq, hused, he⟩ | ⟨hstay, he⟩
  · rw [he]
    rcases hcharge.account (x := x) with ⟨hticks, hb⟩ | ⟨-, hc⟩ | ⟨hne, -⟩
    · -- a process boosted in this interrupt has its whole slice at level 0 before it
      rw [hb] at hq hused
      obtain rfl : q = 0 := Fin.ext hq.symm
      exact absurd hused (by decide)
    · rw [hc] at hq hused
      exact .demoted q rfl hq hused
    · exact absurd rfl hne
  · rw [he]
    rcases hcharge.account (x := x) with ⟨hticks, hb⟩ | ⟨hx, hc⟩ | ⟨hne, hc⟩
    · rw [hb]
      exact .boosted hticks
    · obtain ⟨q, hq, hleft⟩ := hstay hx
      rw [← hx, hc] at hq hleft
      rw [hc]
      exact .charged q hx hq hleft
    · rw [hc]
      exact .other hne

end Xv6
