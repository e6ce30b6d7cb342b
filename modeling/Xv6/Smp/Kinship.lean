import Xv6.Smp.Deeds
import Xv6.Smp.Dispatch

/-!
# The process tree

Every step of the machine is a step of the protocol of `Xv6.Smp.Family` (`step_table`), so what that
protocol guarantees holds of the kernel in every state, for every interleaving of its CPUs.
-/

namespace Xv6.Smp

open Base Base.Machine Function

variable {n : Nat}

/-! ## What the threads look like -/

/-- The scheduler has yet to create the first process. -/
def Dispatcher.early (c : Fin n) : Dispatcher → Bool
  | .code .boot => c.val = 0
  | .code (.userinit _) | .code (.userinitIn _) => true
  | _ => false

/-- What the code keeps true of the stacks, beside the two protocols. -/
structure Shaped (s : State n) : Prop where
  stack : ∀ p, Shape s.k.initproc p (s.thread p).top (s.thread p).rest
  dozing : ∀ p, (s.thread p).spot.dozing = true → ∃ c, s.cur c = some p
  /-- the thread of a dead process is at its beginning or at its end -/
  gone : ∀ p, (s.k.proc p).state.live = false → (∀ c, s.cur c ≠ some p) → (s.thread p).Spent
  /-- only CPU 0 keeps the time -/
  clock : ∀ t, (spotOf s.sched s.thread t).clock = true → ∃ c, c.val = 0 ∧ onCpu s.cur c = t
  boot : ∀ c, (s.sched c).early c = true → c.val = 0 ∧ s.k.initproc = none

/-- What the code keeps true. -/
structure Good (s : State n) : Prop where
  view : (view s).Inv
  shaped : Shaped s
  table : (table s).Inv

/-- A thread at its beginning or end is of no concern. -/
theorem Stack.Spent.spot {st : Stack} (h : st.Spent) : st.spot = .idle := by
  obtain ⟨top, rest⟩ := st
  obtain ⟨hrest, htop⟩ := h
  cases hrest
  rcases htop with htop | htop
  · cases htop
    rfl
  · cases htop
    rfl

/-- Moving one thread moves one spot. -/
theorem spotOf_thread (sched : Fin n → Dispatcher) (thread : Slot → Stack) (p : Slot)
    (st : Stack) :
    spotOf sched (update thread p st) = update (spotOf sched thread) (.proc p) st.spot := by
  funext t
  cases t with
  | sched d => rw [update_of_ne (by simp)]; rfl
  | proc q =>
    by_cases hq : q = p
    · subst hq
      simp [spotOf]
    · rw [update_of_ne (by simpa using hq)]
      simp [spotOf, hq]

/-- Moving one scheduler moves one spot. -/
theorem spotOf_sched (sched : Fin n → Dispatcher) (thread : Slot → Stack) (c : Fin n)
    (d : Dispatcher) :
    spotOf (update sched c d) thread = update (spotOf sched thread) (.sched c) d.spot := by
  funext t
  cases t with
  | proc p => rw [update_of_ne (by simp)]; rfl
  | sched e =>
    by_cases he : e = c
    · subst he
      simp [spotOf]
    · rw [update_of_ne (by simpa using he)]
      simp [spotOf, he]

/-! ## A deed is a step of the protocol -/

section Follows

variable {s : State n} {m m' : Memory n} {c : Fin n} {b : Build}
  {spot : Thread (Fin n) Slot → Spot} {t : Thread (Fin n) Slot} {y : Spot} {p q : Slot} {st : Stack}
  {l : Option Slot} {at₀ : Place} {x : Spot} {s' : State n} {i : Intr} {rest : List Below}
  {f : Frame}

theorem phase_stays (hy : y.phase = (spot t).phase) :
    (fun p => (update spot t y (.proc p)).phase) = fun p => (spot (.proc p)).phase := by
  funext p
  by_cases hp : .proc p = t
  · subst hp
    rw [update_self, hy]
  · rw [update_of_ne hp]

theorem phase_moves (ht : t = .proc p) :
    (fun q => (update spot t y (.proc q)).phase) =
      update (fun q => (spot (.proc q)).phase) p y.phase := by
  subst ht
  funext q
  rw [update_apply, update_apply]
  by_cases hq : q = p
  · rw [if_pos (congrArg Thread.proc hq), if_pos hq]
  · rw [if_neg (by simpa using hq), if_neg hq]

theorem links_after : (fun t' => (update spot t y t').links) =
    update (fun t' => (spot t').links) t y.links :=
  comp_update Spot.links spot t y

theorem numbered_after : (fun t' => (update spot t y t').numbered) =
    update (fun t' => (spot t').numbered) t y.numbered :=
  comp_update Spot.numbered spot t y

/-- A thread that only wakes puts nobody to sleep. -/
theorem asleep_subset (hsleep : ∀ q, m'.sleeps q → m.sleeps q ∨ t = .proc q ∧ (spot t).dozing = true)
    (hdoze : y.dozing = true → (spot t).dozing = true) :
    m'.asleep (update spot t y) ⊆ m.asleep spot := by
  rintro q (hq | hq)
  · rcases hsleep q hq with hs | ⟨rfl, hd⟩
    · exact .inl hs
    · exact .inr hd
  · rw [update_apply] at hq
    split at hq
    · next he => exact .inr (by rw [he]; exact hdoze hq)
    · exact .inr hq

/-- Who sleeps is the same while nobody dozes off or wakes. -/
theorem asleep_stays (hsleep : ∀ q, m'.sleeps q ↔ m.sleeps q)
    (hdoze : y.dozing = (spot t).dozing) : m'.asleep (update spot t y) = m.asleep spot := by
  ext q
  refine or_congr (hsleep q) ?_
  by_cases hq : .proc q = t
  · subst hq
    rw [update_self, hdoze]
  · rw [update_of_ne hq]

/-- A tick still owed was owed before. -/
theorem due_subset (hdue : y.due ⊆ (spot t).due) : dueOf (update spot t y) ⊆ dueOf spot := by
  rintro q ⟨t', ht'⟩
  rw [update_apply] at ht'
  split at ht'
  · exact ⟨t, hdue ht'⟩
  · exact ⟨t', ht'⟩

theorem due_stays (hdue : y.due = (spot t).due) : dueOf (update spot t y) = dueOf spot := by
  ext q
  refine exists_congr fun t' => ?_
  by_cases ht : t' = t
  · subst ht
    rw [update_self, hdue]
  · rw [update_of_ne ht]

/-- A write to the record of a process that does not sleep. -/
theorem Rewrites.sleeps_iff {z : Member Slot} (h : Rewrites m m' q z)
    (hq : m.sleeps q → m'.sleeps q) (r : Slot) : m'.sleeps r ↔ m.sleeps r := by
  refine ⟨h.sleeps r, fun hr => ?_⟩
  by_cases he : r = q
  · subst he
    exact hq hr
  · exact h.others r he hr

theorem Relocks.member {holder : Option (Fin n)} (h : Relocks m m' holder) :
    m'.member = m.member := by
  funext q
  rw [Memory.member, Memory.member, h.k]

theorem Relocks.sleeps {holder : Option (Fin n)} (h : Relocks m m' holder) (q : Slot) :
    m'.sleeps q ↔ m.sleeps q := by
  rw [Memory.sleeps, Memory.sleeps, h.k]

section FamilyEq

variable {cur : Fin n → Option Slot} {asleep due : Set Slot} {member : Slot → Member Slot}
  {links numbered : Thread (Fin n) Slot → List Slot} {phase : Slot → Phase Slot}

/-- What the protocol sees after a step that keeps its data. -/
theorem Keeps.family_eq (h : Keeps m m') (hmember : m'.member = member)
    (hasleep : m'.asleep (update spot t y) = asleep) (hdue : dueOf (update spot t y) = due)
    (hlinks : (fun t' => (update spot t y t').links) = links)
    (hnumbered : (fun t' => (update spot t y t').numbered) = numbered)
    (hphase : (fun p => (update spot t y (.proc p)).phase) = phase) :
    m'.family cur (update spot t y) =
      { m.family cur spot with
        member := member, asleep := asleep, due := due, links := links, numbered := numbered
        phase := phase } :=
  Family.ext hmember h.init h.nextpid h.ticks hasleep hdue hlinks hnumbered h.lock rfl hphase

/-- What the protocol sees after a write to one record. -/
theorem Writes.family_eq {q : Slot} {z : Member Slot} (h : Writes m m' q z)
    (hq : m.sleeps q → m'.sleeps q) (hdoze : y.dozing = (spot t).dozing)
    (hdue : dueOf (update spot t y) = due)
    (hlinks : (fun t' => (update spot t y t').links) = links)
    (hnumbered : (fun t' => (update spot t y t').numbered) = numbered)
    (hphase : (fun p => (update spot t y (.proc p)).phase) = phase) :
    m'.family cur (update spot t y) =
      { m.family cur spot with
        member := update m.member q z, due := due, links := links, numbered := numbered
        phase := phase } :=
  h.toKeeps.family_eq h.member (asleep_stays (h.sleeps_iff hq) hdoze) hdue hlinks hnumbered hphase

/-- What the protocol sees after `wait_lock` changes hands. -/
theorem Relocks.family_eq {holder : Option (Fin n)} (h : Relocks m m' holder)
    (hasleep : m'.asleep (update spot t y) = asleep) (hdue : dueOf (update spot t y) = due)
    (hlinks : (fun t' => (update spot t y t').links) = links)
    (hnumbered : (fun t' => (update spot t y t').numbered) = numbered)
    (hphase : (fun p => (update spot t y (.proc p)).phase) = phase) :
    m'.family cur (update spot t y) =
      { m.family cur spot with
        asleep := asleep, due := due, links := links, numbered := numbered, lock := holder
        phase := phase } :=
  Family.ext h.member (congrArg Kernel.initproc h.k) (congrArg Kernel.nextpid h.k)
    (congrArg Kernel.ticks h.k) hasleep hdue hlinks hnumbered h.lock rfl hphase

end FamilyEq

/-- What a thread has linked is among its claims. -/
theorem links_claims (p : Slot) (h : q ∈ st.spot.links) :
    q ∈ (st.place p).2 := by
  obtain ⟨f, rest⟩ := st
  have hrest : ∀ {rest : List Below}, q ∈ linksOf rest → q ∈ rest.flatMap fun f => f.1.claims := by
    intro rest hq
    obtain ⟨g, hg, hq⟩ := List.mem_flatMap.mp hq
    refine List.mem_flatMap.mpr ⟨g, hg, ?_⟩
    obtain ⟨g, hstill⟩ := g
    cases g <;> first | exact hq | cases hq
  cases f with
  | task t | alloc a => exact List.mem_append_right _ (hrest h)
  | _ =>
    rcases List.mem_append.mp h with hq | hq
    · exact List.mem_append_left _ (by first | exact hq | cases hq)
    · exact List.mem_append_right _ (hrest hq)

/-- Every thread claims what it has linked. -/
theorem mem_claims (h : q ∈ (spotOf s.sched s.thread t).links) :
    q ∈ (view s).claims t := by
  cases t with
  | proc p => exact links_claims p h
  | sched d =>
    have hnil : (s.sched d).spot.links = [] := by
      cases s.sched d with
      | handler t pc => rfl
      | code pc => cases pc <;> rfl
    change q ∈ (s.sched d).spot.links at h
    rw [hnil] at h
    cases h

/-- What a thread alone has claimed and not linked is linked by nobody. -/
theorem unlinked (hI : (view s).Inv) (hclaim : q ∈ (view s).claims t)
    (hnew : q ∉ (spotOf s.sched s.thread t).links) (t' : Thread (Fin n) Slot) :
    q ∉ (spotOf s.sched s.thread t').links := by
  intro hq
  obtain rfl := hI.claimOnce t t' q hclaim (mem_claims hq)
  exact hnew hq

/-- A thread that has numbered a slot holds its lock. -/
theorem turn_of_numbered (h : q ∈ (spotOf s.sched s.thread t).numbered) :
    (view s).turn t = .found q := by
  have halloc : ∀ a : AllocPc, q ∈ a.numbered → a.turn = .found q := by
    intro a ha
    cases a with
    | used p =>
      obtain rfl := List.mem_singleton.mp ha
      rfl
    | _ => cases ha
  cases t with
  | proc p =>
    change q ∈ (s.thread p).spot.numbered at h
    change (s.thread p).top.turn p = _
    rw [Stack.spot] at h
    cases hf : (s.thread p).top with
    | alloc a =>
      rw [hf] at h
      exact halloc a h
    | _ =>
      rw [hf] at h
      cases h
  | sched d =>
    change q ∈ (s.sched d).spot.numbered at h
    change (s.sched d).turn = _
    cases hd : s.sched d with
    | handler t pc =>
      rw [hd] at h
      cases h
    | code pc =>
      rw [hd] at h
      cases pc with
      | userinit a => exact halloc a h
      | _ => cases h

/-- A thread that has numbered a slot is on a CPU. -/
theorem cur_of_numbered (hG : Good s) (h : q ∈ (spotOf s.sched s.thread t).numbered) :
    ∃ d, onCpu s.cur d = t := by
  have hturn := turn_of_numbered h
  cases t with
  | sched d =>
    cases hd : s.cur d with
    | none => exact ⟨d, onCpu_none hd⟩
    | some p =>
      rw [hG.view.back d p hd] at hturn
      cases hturn
  | proc p =>
    by_contra hnot
    have hcur : ∀ d, s.cur d ≠ some p := fun d hd => hnot ⟨d, onCpu_some hd⟩
    by_cases hlive : (s.k.proc p).state.live = true
    · have hstate : (view s).state p = .runnable ∨ (view s).state p = .sleeping ∨
          (view s).state p = .running := by
        change (s.k.proc p).state = _ ∨ (s.k.proc p).state = _ ∨ (s.k.proc p).state = _
        revert hlive
        cases (s.k.proc p).state <;> simp [Procstate.live]
      rw [hG.view.rest p hcur hstate] at hturn
      cases hturn
    · have hspent := hG.shaped.gone p (Bool.eq_false_iff.mpr hlive) hcur
      change q ∈ (s.thread p).spot.numbered at h
      rw [hspent.spot] at h
      cases h

/-- Before there is a first process, no CPU executes one. -/
theorem no_cur (hG : Good s) (hinit : s.k.initproc = none) (d : Fin n) : s.cur d = none := by
  rw [Option.eq_none_iff_forall_ne_some]
  intro p hd
  have hlive : (s.k.proc p).state.live ≠ true := fun hl => hG.table.root p hl hinit
  rcases hG.view.cur_state hd with hrun | ⟨st, -, hst, hoff⟩
  · exact hlive (by rw [show (s.k.proc p).state = .running from hrun]; rfl)
  · have hzombie : (s.k.proc p).state = .zombie := by
      rw [show (s.k.proc p).state = st from hst] at hlive ⊢
      revert hlive hoff
      cases st <;> simp [off, Procstate.live]
    rcases hG.table.kept p (.inr hzombie) with hi | hparent
    · rw [show (table s).init = none from hinit] at hi
      cases hi
    · obtain ⟨q, hq⟩ := Option.ne_none_iff_exists'.mp hparent
      exact hG.table.root q (hG.table.alive p q hq) hinit

/-- A thread on its way to sleep holds its own lock. -/
theorem turn_of_dozing (h : (s.thread p).spot.dozing = true) :
    (view s).turn (.proc p) = .holds p := by
  change (s.thread p).top.turn p = _
  rw [Stack.spot] at h
  cases hf : (s.thread p).top with
  | sleepSet => rfl
  | _ =>
    rw [hf] at h
    cases h

/-- At most one thread keeps the time. -/
theorem clock_once (hS : Shaped s) {t t' : Thread (Fin n) Slot}
    (h : (spotOf s.sched s.thread t).clock = true)
    (h' : (spotOf s.sched s.thread t').clock = true) : t = t' := by
  obtain ⟨c, hc, rfl⟩ := hS.clock t h
  obtain ⟨d, hd, rfl⟩ := hS.clock t' h'
  rw [Fin.ext (hc.trans hd.symm)]

/-- Ticks are owed only by the thread that keeps the time. -/
theorem clock_of_due (h : q ∈ (spotOf s.sched s.thread t).due) :
    (spotOf s.sched s.thread t).clock = true := by
  have htask : ∀ t : Task, q ∈ t.due → t.clock = true := by
    intro t ht
    cases t <;> first | rfl | cases ht
  cases t with
  | proc p =>
    change q ∈ (s.thread p).spot.due at h
    change (s.thread p).spot.clock = true
    rw [Stack.spot] at h ⊢
    cases hf : (s.thread p).top with
    | task t =>
      rw [hf] at h
      exact htask t h
    | _ =>
      rw [hf] at h
      cases h
  | sched d =>
    change q ∈ (s.sched d).spot.due at h
    change (s.sched d).spot.clock = true
    cases hd : s.sched d with
    | handler t pc =>
      rw [hd] at h
      exact htask t h
    | code pc =>
      rw [hd] at h
      cases pc <;> cases h

/-- A deed of the thread on a CPU is a step of the protocol. -/
theorem Deed.follows (hG : Good s)
    (h : Deed c (onCpu s.cur c) (placeOf s.sched s.thread (onCpu s.cur c)) s.toMemory l
      (spotOf s.sched s.thread (onCpu s.cur c)) m' y) :
    (table s).Step c l
      (m'.family s.cur (update (spotOf s.sched m'.thread) (onCpu s.cur c) y)) := by
  obtain ⟨hI, hS, -⟩ := id hG
  generalize hat : placeOf s.sched s.thread (onCpu s.cur c) = at₀ at h
  have hturn : (view s).turn (onCpu s.cur c) = at₀.1 := congrArg Prod.fst hat
  have hclaims : (view s).claims (onCpu s.cur c) = at₀.2 := congrArg Prod.snd hat
  generalize hx : spotOf s.sched s.thread (onCpu s.cur c) = x at h
  -- what a spot keeps, the protocol does not see change
  have hlinks : ∀ {y : Spot}, y.links = x.links →
      (fun t => (update (spotOf s.sched s.thread) (onCpu s.cur c) y t).links) = (table s).links := by
    intro y hy
    rw [links_after, hy, ← hx]
    exact update_eq_self ..
  have hnumbered : ∀ {y : Spot}, y.numbered = x.numbered →
      (fun t => (update (spotOf s.sched s.thread) (onCpu s.cur c) y t).numbered) =
        (table s).numbered := by
    intro y hy
    rw [numbered_after, hy, ← hx]
    exact update_eq_self ..
  have hphase : ∀ {y : Spot}, y.phase = x.phase →
      (fun p => (update (spotOf s.sched s.thread) (onCpu s.cur c) y (.proc p)).phase) =
        (table s).phase := fun hy => phase_stays (by rw [hx, hy])
  have hasleep : ∀ {y : Spot}, (∀ q, m'.sleeps q ↔ s.sleeps q) → y.dozing = x.dozing →
      m'.asleep (update (spotOf s.sched s.thread) (onCpu s.cur c) y) = (table s).asleep :=
    fun hsleep hy => asleep_stays hsleep (by rw [hx, hy])
  have hdue : ∀ {y : Spot}, y.due = x.due →
      dueOf (update (spotOf s.sched s.thread) (onCpu s.cur c) y) = (table s).due :=
    fun hy => due_stays (by rw [hx, hy])
  -- who does not sleep before a write to its record
  have hawake : ∀ {q : Slot} {st : Procstate}, (s.k.proc q).state = st → st ≠ .sleeping →
      s.sleeps q → m'.sleeps q := by
    intro q st hq hne hs
    exact absurd (hq.symm.trans hs.1) hne
  have hused : ∀ {q : Slot}, q ∈ at₀.2 → (s.k.proc q).state = .used := by
    intro q hq
    exact (hI.claim _ q (by rw [hclaims]; exact hq)).1
  have hknown : at₀.1.Knows (view s).state := hturn ▸ hI.known c
  have hown : ∀ {p : Slot}, onCpu s.cur c = .proc p → x.phase = (table s).phase p := by
    intro p hp
    rw [← hx, hp]
    rfl
  have hdozing : x.dozing = (spotOf s.sched s.thread (onCpu s.cur c)).dozing :=
    congrArg Spot.dozing hx.symm
  have hfree : ∀ {q : Slot}, q ∈ at₀.2 → q ∉ x.links → ∀ t, q ∉ (table s).links t :=
    fun hq hnew => unlinked hI (by rw [hclaims]; exact hq) (by rw [hx]; exact hnew)
  cases h with
  | calm hkeep hm hsleep hy =>
    rw [hkeep.thread]
    refine .cast (.calm _ _ _ hm (asleep_subset ?_ ?_) (due_subset ?_))
      (hkeep.family_eq rfl rfl rfl (hlinks hy.links) (hnumbered hy.numbered) (hphase hy.phase))
    · rw [hx]
      exact hsleep
    · rw [hx]
      exact hy.dozing
    · rw [hx]
      exact hy.due
  | tick due hclock hy =>
    subst hy
    exact .cast (.tick _) (Family.ext rfl rfl rfl rfl (hasleep (fun _ => .rfl) rfl) rfl (hlinks rfl)
      (hnumbered rfl) rfl rfl (hphase rfl))
  | charge q due hclock hq hrun hd hm hy =>
    subst hy
    rw [hm.thread]
    refine .cast (.charge q _ ⟨onCpu s.cur c, by rw [hx]; exact hq⟩ hrun ?_)
      (hm.family_eq (hawake hrun nofun) hdozing rfl (hlinks rfl) (hnumbered rfl) (hphase rfl))
    -- the other threads run no clock
    rintro r ⟨t, ht⟩
    by_cases he : t = onCpu s.cur c
    · subst he
      rw [update_self] at ht
      exact ⟨⟨onCpu s.cur c, by rw [hx]; exact (hd ht).1⟩, (hd ht).2⟩
    · rw [update_of_ne he] at ht
      exact absurd (clock_once hS (clock_of_due ht) (by rw [hx]; exact hclock)) he
  | take p φ ht hl hm hφ hy =>
    subst hy
    rw [hm.thread]
    exact .cast (.take p φ (onCpu_eq_proc ht) hl hφ) (hm.family_eq (hasleep hm.sleeps rfl)
      (hdue rfl) (hlinks rfl) (hnumbered rfl) (phase_moves ht))
  | drop p ht hheld hm hy =>
    subst hy
    rw [hm.thread]
    exact .cast (.drop p (onCpu_eq_proc ht) (hown ht ▸ hheld)) (hm.family_eq
      (hasleep hm.sleeps rfl) (hdue rfl) (hlinks rfl) (hnumbered rfl) (phase_moves ht))
  | doze p ht hscan hm hy =>
    subst hy
    rw [hm.thread]
    refine .cast (.doze p _ (onCpu_eq_proc ht) (hown ht ▸ hscan) ?_)
      (hm.family_eq rfl (hdue rfl) (hlinks rfl) (hnumbered rfl) (phase_moves ht))
    rintro q (hq | hq)
    · exact .inr (.inl ((hm.sleeps q).mp hq))
    · by_cases he : q = p
      · exact .inl he
      · rw [ht, update_of_ne (by simpa using he)] at hq
        exact .inr (.inr hq)
  | link p q ht hlinking hlive hclaim hnew hm hy =>
    subst hy
    rw [hm.thread]
    refine .cast (.link p q (onCpu_eq_proc ht) (hown ht ▸ hlinking) hlive (hused hclaim)
      (hfree hclaim hnew)) (hm.family_eq (hawake (hused hclaim) nofun) hdozing (hdue rfl) ?_
        (hnumbered rfl) (phase_moves ht))
    exact links_after.trans (by rw [← hx, ht]; rfl)
  | publish q r hclaim hr hnew hm hy =>
    subst hy
    rw [hm.thread]
    refine .cast (.publish _ q r (by rw [← hr, ← hx]; rfl) fun t' hq => ?_)
      (hm.family_eq (hawake (hused hclaim) nofun) hdozing (hdue rfl) links_after (hnumbered rfl)
        (hphase rfl))
    by_cases he : t' = onCpu s.cur c
    · rw [he, update_self] at hq
      exact hnew hq
    · rw [update_of_ne he] at hq
      exact he (hI.claimOnce t' _ q (mem_claims hq) (by rw [hclaims]; exact hclaim))
  | think p φ ht hkeep hm hsleep hφ hy =>
    subst hy
    rw [hkeep.thread]
    exact .cast (.think p φ (onCpu_eq_proc ht) (hown ht ▸ hφ)) (hkeep.family_eq hm
      (hasleep hsleep rfl) (hdue rfl) (hlinks rfl) (hnumbered rfl) (phase_moves ht))
  | adopt p q gone ht hadopt hq hsleep hm hy =>
    subst hy
    rw [hm.thread]
    exact .cast (.adopt p q gone (onCpu_eq_proc ht) (hown ht ▸ hadopt) hq)
      (hm.family_eq hsleep hdozing (hdue rfl) (hlinks rfl) (hnumbered rfl) (phase_moves ht))
  | wake p q ht hslot hkeep hm hsleep hq hdoze hy =>
    subst hy
    rw [hkeep.thread]
    refine .cast (.wake p q _ _ (onCpu_eq_proc ht) hm
      (asleep_subset (fun r hr => .inl (hsleep r hr)) (by rw [hx]; exact id)) fun htarget => ?_)
      (hkeep.family_eq rfl rfl (hdue rfl) (hlinks rfl) (hnumbered rfl)
        (by rw [← hown ht]; exact phase_moves ht))
    rw [← hown ht] at htarget
    rintro (hs | hd)
    · exact hq htarget hs
    · rw [ht] at hd
      by_cases he : q = p
      · subst he
        rw [update_self, hdoze] at hd
        cases hd
      · -- a thread on its way to sleep holds the lock that this one holds
        rw [update_of_ne (by simpa using he)] at hd
        obtain ⟨d, hcur⟩ := hS.dozing q hd
        have hcd : c = d := by
          refine hI.slot_inj (q := q) ?_ ?_
          · exact (congrArg Turn.slot hturn).trans (hslot.resolve_right he)
          · rw [onCpu_some (show (view s).cur d = some q from hcur), turn_of_dozing hd]
            rfl
        subst hcd
        rw [onCpu_some hcur] at ht
        exact he (Thread.proc.inj ht)
  | die p ht hleave hrun hm hy =>
    subst hy
    rw [hm.thread]
    exact .cast (.die p (onCpu_eq_proc ht) (hown ht ▸ hleave) (congrArg Procstate.live hrun))
      (hm.family_eq (hawake hrun nofun) hdozing (hdue rfl) (hlinks rfl) (hnumbered rfl)
        (phase_moves ht))
  | reap p q seen ht hlook hq hm hy =>
    subst hy
    rw [hm.thread]
    exact .cast (.reap p q seen (onCpu_eq_proc ht) (hown ht ▸ hlook) hq)
      (hm.family_eq (hawake hq nofun) hdozing (hdue rfl) (hlinks rfl) (hnumbered rfl)
        (phase_moves ht))
  | number q hq hthread hinit hnext hticks hlock hm hy =>
    subst hy
    rw [hq] at hknown
    have hunused : (s.k.proc q).state = .unused := hknown
    rw [hthread]
    refine .cast (.number (onCpu s.cur c) q hunused) (Family.ext hm.member hinit hnext hticks
      (hasleep (hm.sleeps_iff (hawake hunused nofun)) rfl) (hdue rfl) (hlinks rfl) ?_ hlock rfl
      (hphase rfl))
    exact numbered_after.trans (by rw [← hx]; rfl)
  | use q r hq hr hnew hm hy =>
    subst hy
    rw [hq] at hknown
    have hunused : (s.k.proc q).state = .unused := hknown
    rw [hm.thread]
    refine .cast (.use _ q r (by rw [← hr, ← hx]; rfl) fun t' hmem => ?_)
      (hm.family_eq (hawake hunused nofun) hdozing (hdue rfl) (hlinks rfl) numbered_after
        (hphase rfl))
    by_cases he : t' = onCpu s.cur c
    · rw [he, update_self] at hmem
      exact hnew hmem
    · rw [update_of_ne he] at hmem
      obtain ⟨d, rfl⟩ := cur_of_numbered hG hmem
      refine he (congrArg (onCpu s.cur) (hI.slot_inj (q := q) ?_ ?_))
      · rw [show (view s).cur = s.cur from rfl, turn_of_numbered hmem]
        rfl
      · rw [show (view s).cur = s.cur from rfl, hturn, hq]
        rfl
  | make q hq hm =>
    have hstate : (s.k.proc q).state = .used := hI.making_state (hturn.trans hq)
    -- the thread of the slot was at a place of no concern before
    have hspent := hS.gone q (by rw [hstate]; rfl) fun d => hI.not_cur (.inr hstate) d
    have hsame : update (spotOf s.sched s.thread) (.proc q) Stack.fresh.spot =
        spotOf s.sched s.thread := update_eq_self_iff.mpr hspent.spot.symm
    rw [hm.thread, spotOf_thread, hsame]
    exact .cast (.make q hstate) (hm.family_eq (hawake hstate nofun) hdozing (hdue rfl) (hlinks rfl)
      (hnumbered rfl) (hphase rfl))
  | abort q hq hm =>
    have hstate : (s.k.proc q).state = .used := by
      rcases hq with hq | ⟨hq, -⟩
      · exact hI.making_state (hturn.trans hq)
      · exact hused hq
    rw [hm.thread]
    refine .cast (.abort q hstate fun t' ht' => ?_) (hm.family_eq (hawake hstate nofun) hdozing
      (hdue rfl) (hlinks rfl) (hnumbered rfl) (hphase rfl))
    rcases hq with hq | ⟨hq, hnew⟩
    · exact hI.making c q (hturn.trans hq) t' (mem_claims ht')
    · exact hfree hq hnew t' ht'
  | boot q hq hnew hinit hinit' hthread hnext hticks hlock hm =>
    rw [hthread]
    exact .cast (.boot q (hused hq) (hfree hq hnew) hinit (no_cur hG hinit))
      (Family.ext hm.member hinit' hnext hticks
        (hasleep (hm.sleeps_iff (hawake (hused hq) nofun)) rfl) (hdue rfl) (hlinks rfl)
        (hnumbered rfl) hlock rfl (hphase rfl))

/-! ## A deed keeps the stacks in shape -/

/-- A deed sets up at most one thread, that of a slot which has none yet. -/
theorem Deed.thread (h : Deed c t at₀ m l x m' y) :
    m'.thread = m.thread ∨ ∃ q, m'.thread = update m.thread q .fresh := by
  cases h with
  | calm hkeep | think _ _ _ hkeep | wake _ _ _ _ hkeep => exact .inl hkeep.thread
  | tick => exact .inl rfl
  | charge _ _ _ _ _ _ hm | take _ _ _ _ hm | drop _ _ _ hm | doze _ _ _ hm
  | link _ _ _ _ _ _ _ hm | publish _ _ _ _ _ hm | adopt _ _ _ _ _ _ _ hm | die _ _ _ _ hm
  | reap _ _ _ _ _ _ hm | use _ _ _ _ _ hm | abort _ _ hm => exact .inl hm.thread
  | number _ _ hthread | boot _ _ _ _ _ hthread => exact .inl hthread
  | make q _ hm => exact .inr ⟨q, hm.thread⟩

/-- Only an interrupt starts the clock. -/
theorem Deed.clock (h : Deed c t at₀ m l x m' y) (hy : y.clock = true) : x.clock = true := by
  cases h with
  | calm _ _ _ hstays => exact hstays.clock hy
  | tick _ hclock => exact hclock
  | charge _ _ hclock => exact hclock
  | _ => first | exact hy | (subst_vars; exact hy)

/-- Only a thread with a slot in hand chooses the first process. -/
theorem Deed.init (h : Deed c t at₀ m l x m' y) (hclaims : at₀.2 = []) :
    m'.k.initproc = m.k.initproc := by
  cases h with
  | calm hkeep | think _ _ _ hkeep | wake _ _ _ _ hkeep => exact hkeep.init
  | tick => rfl
  | charge _ _ _ _ _ _ hm | link _ _ _ _ _ _ _ hm | publish _ _ _ _ _ hm
  | adopt _ _ _ _ _ _ _ hm | die _ _ _ _ hm | reap _ _ _ _ _ _ hm | use _ _ _ _ _ hm
  | make _ _ hm | abort _ _ hm => exact hm.init
  | take _ _ _ _ hm | drop _ _ _ hm | doze _ _ _ hm => rw [hm.k]
  | number _ _ _ hinit => exact hinit
  | boot q hq =>
    rw [hclaims] at hq
    cases hq

/-- The stacks stay in shape when the thread on CPU `c` does a deed and goes on. -/
theorem Shaped.deed (hG : Good s) (h : Deed c (onCpu s.cur c) at₀ s.toMemory l x m' y)
    (hx : spotOf s.sched s.thread (onCpu s.cur c) = x) (hcur : s'.cur = s.cur)
    (hspot : spotOf s'.sched s'.thread = update (spotOf s.sched m'.thread) (onCpu s.cur c) y)
    (hthread : ∀ q, onCpu s.cur c ≠ .proc q → s'.thread q = m'.thread q)
    (hstack : ∀ q, onCpu s.cur c = .proc q →
      Shape s'.k.initproc q (s'.thread q).top (s'.thread q).rest)
    (hboot : ∀ d, (s'.sched d).early d = true → d.val = 0 ∧ s'.k.initproc = none)
    (hstep : (table s).Step c l (table s')) : Shaped s' := by
  obtain ⟨hI, hS, hF⟩ := hG
  -- the other threads are as before, or fresh
  have hother : ∀ q, onCpu s.cur c ≠ .proc q →
      s'.thread q = s.thread q ∨ s'.thread q = .fresh := by
    intro q hq
    rw [hthread q hq]
    rcases h.thread with he | ⟨r, he⟩
    · rw [he]
      exact .inl rfl
    · rw [he, update_apply]
      split
      · exact .inr rfl
      · exact .inl rfl
  refine ⟨fun q => ?_, fun q hq => ?_, fun q hdead hq => ?_, fun t ht => ?_, hboot⟩
  · by_cases hq : onCpu s.cur c = .proc q
    · exact hstack q hq
    · rcases hother q hq with he | he
      · rw [he]
        rcases hstep.init with hi | ⟨hnone, i, hi, hlive⟩
        · rw [show s'.k.initproc = s.k.initproc from hi]
          exact hS.stack q
        · by_cases hqi : q = i
          · -- the thread of the first process is fresh
            subst hqi
            have hnot : (s.k.proc q).state.live = false :=
              Bool.eq_false_iff.mpr fun hl => hF.root q hl hnone
            have hspent := hS.gone q hnot fun d hd => by
              rw [no_cur ⟨hI, hS, hF⟩ hnone d] at hd
              cases hd
            obtain ⟨hrest, htop⟩ := hspent
            rw [hrest]
            rcases htop with htop | htop
            · rw [htop]
              exact ⟨trivial, rfl⟩
            · rw [htop]
              exact ⟨trivial, rfl⟩
          · refine (hS.stack q).boot ?_
            rw [show s'.k.initproc = some i from hi]
            exact fun he => hqi (Option.some.inj he).symm
      · rw [he]
        exact ⟨trivial, rfl⟩
  · rw [hcur]
    by_cases hp : onCpu s.cur c = .proc q
    · exact ⟨c, onCpu_eq_proc hp⟩
    · rcases hother q hp with he | he
      · exact hS.dozing q (he ▸ hq)
      · rw [he] at hq
        cases hq
  · rw [hcur] at hq
    have hp : onCpu s.cur c ≠ .proc q := fun hp => hq c (onCpu_eq_proc hp)
    rcases hother q hp with he | he
    · rw [he]
      refine hS.gone q (Bool.eq_false_iff.mpr fun hlive => ?_) hq
      rcases hF.live_step hstep hlive with hl | ⟨-, -, d, hd⟩
      · exact Bool.eq_false_iff.mp hdead hl
      · exact hq d hd
    · rw [he]
      exact ⟨rfl, .inl rfl⟩
  · rw [hcur]
    rw [hspot] at ht
    by_cases htc : t = onCpu s.cur c
    · subst htc
      rw [update_self] at ht
      exact hS.clock _ (hx ▸ h.clock ht)
    · rw [update_of_ne htc] at ht
      refine hS.clock t ?_
      cases t with
      | sched d => exact ht
      | proc q =>
        have he := hother q (Ne.symm htc)
        rw [hthread q (Ne.symm htc)] at he
        change (m'.thread q).spot.clock = true at ht
        rcases he with he | he
        · rwa [he] at ht
        · rw [he] at ht
          cases ht

/-! ## The steps of a scheduler -/

/-- A scheduler that has yet to create the first process had to before. -/
theorem early_step {o : Outcome} {pc pc' : SchedPc} (h : pc.step b m c o = .ok (m', pc'))
    (he : (Dispatcher.code pc').early c = true) :
    (Dispatcher.code pc).early c = true ∧ pc.claims = [] := by
  cases pc with
  | boot =>
    simp only [SchedPc.step] at h
    split at h
    · next hc =>
      cases h
      exact ⟨decide_eq_true hc, rfl⟩
    · split at h
      · cases h
        cases he
      · cases h
        exact ⟨he, rfl⟩
  | userinit a => exact ⟨rfl, rfl⟩
  | userinitIn p | start | chosen p | parked p | requeueIn p =>
    obtain ⟨k', -, -, rfl⟩ := update_ok h
    cases he
  | userinitOut p | totalOut p sum | requeueOut p =>
    obtain ⟨-, -, rfl⟩ := release_ok h
    cases he
  | loaded p =>
    cases h
    cases he
  | loop =>
    cases h
    cases b <;> cases he
  | total i sum | requeue i | rr i =>
    simp only [SchedPc.step] at h
    rcases visit_ok h with ⟨-, -, rfl⟩ | ⟨hi, -, -, rfl⟩ | ⟨-, -, rfl⟩ <;> cases he
  | totalIn p sum =>
    simp only [SchedPc.step] at h
    split at h <;> cases h <;> cases he
  | draw total | test p =>
    simp only [SchedPc.step] at h
    split at h
    · obtain ⟨k', -, -, rfl⟩ := update_ok h
      cases he
    · cases h
      cases he
  | scan | tie =>
    simp only [SchedPc.step] at h
    repeat' split at h
    all_goals
      cases h
      cases he
  | search q j =>
    simp only [SchedPc.step] at h
    split at h
    · split at h
      · obtain ⟨p, -, h⟩ := bind_ok h
        split at h <;> cases h <;> cases he
      · cases h
        cases he
    · cases h
      cases he
  | pick p =>
    rcases acquire_ok h with ⟨-, rfl⟩ | ⟨-, -, rfl⟩ <;> cases he
  | drop p =>
    obtain ⟨-, -, rfl⟩ := release_ok h
    cases b <;> cases he

theorem table_setSched (d : Dispatcher) (hc : s.cur c = none) :
    table (s.setSched c m' d) =
      m'.family s.cur (update (spotOf s.sched m'.thread) (onCpu s.cur c) d.spot) := by
  rw [onCpu_none hc, ← spotOf_sched]
  rfl

/-- The process a scheduler's handler is about to charge a tick. -/
def Dispatcher.charges (m : Memory n) : Dispatcher → Option Slot
  | .handler t _ => t.charges m
  | .code _ => none

/-- A deed of a scheduler, which then goes on at `d`. -/
theorem sched_step {d : Dispatcher} (hG : Good s) (hc : s.cur c = none)
    (hd : Deed c (.sched c) (s.sched c).place s.toMemory l (s.sched c).spot m' d.spot)
    (hboot : ∀ e, (update s.sched c d e).early e = true → e.val = 0 ∧ m'.k.initproc = none) :
    (table s).Step c l (table (s.setSched c m' d)) ∧ Shaped (s.setSched c m' d) := by
  have hd' : Deed c (onCpu s.cur c) (placeOf s.sched s.thread (onCpu s.cur c)) s.toMemory l
      (spotOf s.sched s.thread (onCpu s.cur c)) m' d.spot := by
    rw [onCpu_none hc]
    exact hd
  have hstep : (table s).Step c l (table (s.setSched c m' d)) := by
    rw [table_setSched d hc]
    exact hd'.follows hG
  refine ⟨hstep, Shaped.deed hG hd' rfl rfl ?_ (fun _ _ => rfl) (fun q hq => ?_) hboot hstep⟩
  · rw [onCpu_none hc, ← spotOf_sched]
    rfl
  · rw [onCpu_none hc] at hq
    cases hq

/-- A scheduler that may be interrupted has nothing in hand. -/
theorem still_code {pc : SchedPc} (h : pc.still = true) :
    (Dispatcher.code pc).spot = .idle ∧ (Dispatcher.code pc).early c = false := by
  cases pc <;> first | exact ⟨rfl, rfl⟩ | cases h

/-- A scheduler switches to the process it chose. -/
theorem enter_step (hG : Good s) (hc : s.cur c = none) (hpc : s.sched c = .code (.loaded p)) :
    let s' := { s.setSched c s.toMemory (.code (.parked p)) with cur := update s.cur c (some p) }
    (table s).Step c none (table s') ∧ Shaped s' := by
  intro s'
  obtain ⟨hI, hS, -⟩ := hG
  have hspot : spotOf s'.sched s'.thread = spotOf s.sched s.thread := by
    change spotOf (update s.sched c _) s.thread = _
    rw [spotOf_sched]
    refine update_eq_self_iff.mpr ?_
    change _ = (s.sched c).spot
    rw [hpc]
    rfl
  have hfree : ∀ d, s.cur d ≠ some p := fun d hd => by
    have hbusy : ((view s).turn (.sched c)).busy = some p := by rw [view_turn hpc]; rfl
    have hcd := hI.once c d p hbusy (by rw [hI.back d p hd]; rfl)
    rw [← hcd, hc] at hd
    cases hd
  have hcur : ∀ {d : Fin n} {q : Slot}, s.cur d = some q → s'.cur d = some q := by
    intro d q hd
    refine (update_of_ne ?_ _ _).trans hd
    rintro rfl
    rw [hc] at hd
    cases hd
  refine ⟨?_, hS.stack, fun q hq => ?_, fun q hdead hq => hS.gone q hdead fun d hd => hq d (hcur hd),
    fun t ht => ?_, fun d hd => ?_⟩
  · have heq : table s' = { table s with cur := update (table s).cur c (some p) } := by
      rw [table, hspot]
      rfl
    rw [heq]
    exact .enter p hc hfree
  · obtain ⟨d, hd⟩ := hS.dozing q hq
    exact ⟨d, hcur hd⟩
  · rw [hspot] at ht
    obtain ⟨d, hd, rfl⟩ := hS.clock t ht
    refine ⟨d, hd, ?_⟩
    cases hcd : s.cur d with
    | some q => rw [onCpu_some hcd, onCpu_some (hcur hcd)]
    | none =>
      by_cases he : d = c
      · -- the scheduler that switches runs no handler
        subst he
        rw [onCpu_none hcd] at ht
        change (s.sched d).spot.clock = true at ht
        rw [hpc] at ht
        cases ht
      · rw [onCpu_none hcd, onCpu_none ((update_of_ne he _ _).trans hcd)]
  · change (update s.sched c _ d).early d = true at hd
    rw [update_apply] at hd
    split at hd
    · cases hd
    · exact hS.boot d hd

/-- A step of a scheduler is a step of the protocol. -/
theorem runSched_table {o : Outcome} (hG : Good s) (hc : s.cur c = none)
    (h : s.runSched b c o = .ok s') :
    (table s).Step c ((s.sched c).charges s.toMemory) (table s') ∧ Shaped s' := by
  have hother : ∀ {d : Dispatcher} {m' : Memory n}, m'.k.initproc = s.k.initproc →
      (d.early c = true → (s.sched c).early c = true) →
      ∀ e, (update s.sched c d e).early e = true → e.val = 0 ∧ m'.k.initproc = none := by
    intro d m' hinit hd e he
    rw [hinit]
    rw [update_apply] at he
    split at he
    · next hec =>
      subst hec
      exact hG.shaped.boot e (hd he)
    · exact hG.shaped.boot e he
  rw [State.runSched] at h
  split at h
  · next t pc hpc =>
    obtain ⟨⟨m', t'⟩, hstep, h⟩ := bind_ok h
    have hplace : (s.sched c).place = (t.turn, pc.1.claims) := by rw [hpc]; rfl
    have hspot : (s.sched c).spot = t.spot none [] := by rw [hpc]; rfl
    have hclaims : pc.1.claims = [] := (SchedPc.turn_of_still pc.2).2
    rw [show (s.sched c).charges s.toMemory = t.charges s.toMemory by rw [hpc]; rfl]
    cases t' with
    | some t' =>
      cases h
      have hdeed : Deed c (.sched c) (t.turn, pc.1.claims) s.toMemory (t.charges s.toMemory)
          (t.spot none []) m' (t'.spot none []) := task_deed (fun _ => rfl) hstep
      refine sched_step hG hc ?_ (hother (hdeed.init hclaims) fun h => by cases h)
      rw [hplace, hspot]
      exact hdeed
    | none =>
      cases h
      obtain ⟨rfl, chan, i, rfl, -⟩ := task_return hstep
      refine sched_step hG hc ?_ (hother rfl fun he => ?_)
      · rw [hspot, (still_code (c := c) pc.2).1]
        exact .idle ⟨rfl, rfl, rfl, id, subset_refl _, id⟩
      · rw [(still_code pc.2).2] at he
        cases he
  · next p hpc =>
    cases h
    rw [show (s.sched c).charges s.toMemory = none by rw [hpc]; rfl]
    exact enter_step hG hc hpc
  · next pc hne hpc =>
    obtain ⟨⟨m', pc'⟩, hstep, h⟩ := bind_ok h
    cases h
    have hplace : (s.sched c).place = pc.place := by rw [hpc]; rfl
    have hspot : (s.sched c).spot = (Dispatcher.code pc).spot := by rw [hpc]
    have hearly : ∀ p, pc = .userinitIn p → (s.sched c).early c = true := by
      rintro p rfl
      rw [hpc]
      rfl
    have hdeed := sched_deed (fun p hp => (hG.shaped.boot c (hearly p hp)).2) hstep
    rw [show (s.sched c).charges s.toMemory = none by rw [hpc]; rfl]
    refine sched_step hG hc (by rw [hplace, hspot]; exact hdeed) ?_
    by_cases hcl : pc.claims = []
    · exact hother (hdeed.init hcl) fun he => by rw [hpc]; exact (early_step hstep he).1
    · -- the first process is chosen, by the only scheduler that could
      intro e he
      rw [update_apply] at he
      split at he
      · next hec =>
        subst hec
        exact absurd (early_step hstep he).2 hcl
      · next hec =>
        have huser : ∃ p, pc = .userinitIn p := by
          cases pc with
          | userinitIn p => exact ⟨p, rfl⟩
          | _ => exact absurd rfl hcl
        obtain ⟨p, hp⟩ := huser
        have hc0 := (hG.shaped.boot c (hearly p hp)).1
        have he0 := (hG.shaped.boot e he).1
        exact absurd (Fin.ext (he0.trans hc0.symm)) hec

/-! ## The steps of a process -/

theorem table_go (st : Stack) (hc : s.cur c = some p) :
    table (s.advance c p m' (.go st)) =
      m'.family s.cur (update (spotOf s.sched m'.thread) (onCpu s.cur c) st.spot) := by
  rw [onCpu_some hc, ← spotOf_thread]
  rfl

/-- A deed of a process, which then goes on at `st`. -/
theorem go_step (hG : Good s) (hc : s.cur c = some p)
    (hd : Deed c (.proc p) ((s.thread p).place p) s.toMemory l (s.thread p).spot m' st.spot)
    (hs : Shape s.k.initproc p st.top st.rest) :
    (table s).Step c l (table (s.advance c p m' (.go st))) ∧
      Shaped (s.advance c p m' (.go st)) := by
  have hd' : Deed c (onCpu s.cur c) (placeOf s.sched s.thread (onCpu s.cur c)) s.toMemory l
      (spotOf s.sched s.thread (onCpu s.cur c)) m' st.spot := by
    rw [onCpu_some hc]
    exact hd
  have hstep : (table s).Step c l (table (s.advance c p m' (.go st))) := by
    rw [table_go st hc]
    exact hd'.follows hG
  have hinit : m'.k.initproc = s.k.initproc := by
    rcases hstep.init with hi | ⟨hnone, -⟩
    · exact hi
    · have hcur := no_cur hG hnone c
      rw [hc] at hcur
      cases hcur
  refine ⟨hstep, Shaped.deed hG hd' rfl rfl ?_ (fun q hq => ?_) (fun q hq => ?_) (fun d he => ?_)
    hstep⟩
  · rw [onCpu_some hc, ← spotOf_thread]
    rfl
  · rw [onCpu_some hc] at hq
    exact update_of_ne (fun he => hq (by rw [he])) _ _
  · rw [onCpu_some hc] at hq
    cases hq
    change Shape m'.k.initproc p (update m'.thread p st p).top (update m'.thread p st p).rest
    rw [update_self, hinit]
    exact hs
  · change _ ∧ m'.k.initproc = none
    rw [hinit]
    exact hG.shaped.boot d he

/-- A process switches back to its scheduler. -/
theorem leave_step {a : Procstate} (hG : Good s) (hc : s.cur c = some p)
    (hturn : (s.thread p).top.turn p = .left p a) (hspot : st.spot = (s.thread p).spot)
    (hphase : (s.thread p).spot.phase = .out) (hdoze : (s.thread p).spot.dozing = false)
    (hclock : (s.thread p).spot.clock = false) (hs : Shape s.k.initproc p st.top st.rest)
    (hspent : a.live = true ∨ st.Spent) :
    (table s).Step c none (table (s.advance c p s.toMemory (.swtch st))) ∧
      Shaped (s.advance c p s.toMemory (.swtch st)) := by
  obtain ⟨hI, hS, -⟩ := hG
  have hsame : spotOf s.sched (update s.thread p st) = spotOf s.sched s.thread := by
    rw [spotOf_thread]
    exact update_eq_self_iff.mpr hspot
  have hcur : ∀ {d : Fin n} {q : Slot}, q ≠ p → s.cur d = some q →
      update s.cur c none d = some q := by
    intro d q hq hd
    refine (update_of_ne ?_ _ _).trans hd
    rintro rfl
    exact hq (Option.some.inj (hd.symm.trans hc))
  refine ⟨?_, fun q => ?_, fun q hq => ?_, fun q hdead hq => ?_, fun t ht => ?_, hS.boot⟩
  · have heq : table (s.advance c p s.toMemory (.swtch st)) =
        { table s with cur := update (table s).cur c none } := by
      rw [table, State.advance, State.setThread, hsame]
      rfl
    rw [heq]
    exact .leave p hc hphase
  · change Shape s.k.initproc q (update s.thread p st q).top (update s.thread p st q).rest
    rw [update_apply]
    split
    · next he => rw [he]; exact hs
    · exact hS.stack q
  · change (update s.thread p st q).spot.dozing = true at hq
    rw [update_apply] at hq
    split at hq
    · rw [hspot, hdoze] at hq
      cases hq
    · next hne =>
      obtain ⟨d, hd⟩ := hS.dozing q hq
      exact ⟨d, hcur hne hd⟩
  · change (update s.thread p st q).Spent
    rw [update_apply]
    split
    · next he =>
      subst he
      refine hspent.resolve_left fun hlive => ?_
      have hknown := hI.known c
      rw [onCpu_some (show (view s).cur c = some q from hc),
        show (view s).turn (.proc q) = .left q a from hturn] at hknown
      have hstate : (s.k.proc q).state = a := hknown.1
      have hdead' : (s.k.proc q).state.live = false := hdead
      rw [hstate, hlive] at hdead'
      cases hdead'
    · next hne => exact hS.gone q hdead fun d hd => hq d (hcur hne hd)
  · change (spotOf s.sched (update s.thread p st) t).clock = true at ht
    rw [hsame] at ht
    obtain ⟨d, hd, rfl⟩ := hS.clock t ht
    have hdc : d ≠ c := by
      rintro rfl
      rw [onCpu_some hc] at ht
      change (s.thread p).spot.clock = true at ht
      rw [hclock] at ht
      cases ht
    refine ⟨d, hd, ?_⟩
    change onCpu (update s.cur c none) d = onCpu s.cur d
    rw [onCpu, onCpu, update_of_ne hdc]

/-- A step of a process is a step of the protocol. -/
theorem runThread_table {o : Outcome} (hG : Good s) (hc : s.cur c = some p)
    (h : s.runThread b c p o = .ok s') :
    (table s).Step c ((s.thread p).top.charges s.toMemory) (table s') ∧ Shaped s' := by
  have hme := myproc_of_cur hG.view hc
  rw [State.runThread, Memory.onProc, hme] at h
  obtain ⟨⟨m', next⟩, hstep, h⟩ := bind_ok h
  cases h
  have hown : (s.k.proc p).state = .running ∨ ∃ a, (s.thread p).top.turn p = .left p a :=
    hG.view.own c p hc
  generalize hl : (s.thread p).top.charges s.toMemory = l
  have hdoes := frame_does (hG.shaped.stack p) hme hown hstep
  rw [hl] at hdoes
  cases hdoes with
  | go hd hs => exact go_step hG hc hd hs
  | swtch a hturn hspot hphase hdoze hclock hs hspent =>
    exact leave_step hG hc hturn hspot hphase hdoze hclock hs hspent

/-! ## Interrupts and calls -/

/-- The protocol does not see who keeps the time. -/
theorem family_clock {cur : Fin n → Option Slot}
    (hy : y = { spot t with clock := y.clock }) :
    m.family cur (update spot t y) = m.family cur spot := by
  have hphase : y.phase = (spot t).phase := by rw [hy]
  have hlinks : y.links = (spot t).links := by rw [hy]
  have hnumbered : y.numbered = (spot t).numbered := by rw [hy]
  have hdoze : y.dozing = (spot t).dozing := by rw [hy]
  have hdue : y.due = (spot t).due := by rw [hy]
  refine Family.ext rfl rfl rfl rfl (asleep_stays (fun _ => .rfl) hdoze) (due_stays hdue) ?_ ?_ rfl
    rfl (phase_stays hphase)
  · exact links_after.trans (by rw [hlinks]; exact update_eq_self ..)
  · exact numbered_after.trans (by rw [hnumbered]; exact update_eq_self ..)

/-- A process goes on at a stack that means the same to the protocol. -/
theorem restack (hS : Shaped s) (hc : s.cur c = some p)
    (hspot : st.spot = { (s.thread p).spot with clock := st.spot.clock })
    (hclock : st.spot.clock = true → c.val = 0) (hs : Shape s.k.initproc p st.top st.rest) :
    table (s.setThread p st) = table s ∧ Shaped (s.setThread p st) := by
  refine ⟨?_, fun q => ?_, fun q hq => ?_, fun q hdead hq => ?_, fun t ht => ?_, hS.boot⟩
  · rw [table, State.setThread, spotOf_thread]
    exact family_clock hspot
  · change Shape s.k.initproc q (update s.thread p st q).top (update s.thread p st q).rest
    rw [update_apply]
    split
    · next he => rw [he]; exact hs
    · exact hS.stack q
  · change (update s.thread p st q).spot.dozing = true at hq
    rw [update_apply] at hq
    split at hq
    · next he => exact ⟨c, he ▸ hc⟩
    · exact hS.dozing q hq
  · change (update s.thread p st q).Spent
    rw [update_of_ne (by rintro rfl; exact hq c hc)]
    exact hS.gone q hdead hq
  · change (spotOf s.sched (update s.thread p st) t).clock = true at ht
    rw [spotOf_thread, update_apply] at ht
    split at ht
    · next he =>
      subst he
      exact ⟨c, hclock ht, onCpu_some hc⟩
    · exact hS.clock t ht

/-- A scheduler goes on at a place that means the same to the protocol. -/
theorem resched {d : Dispatcher} (hS : Shaped s) (hc : s.cur c = none)
    (hspot : d.spot = { (s.sched c).spot with clock := d.spot.clock })
    (hclock : d.spot.clock = true → c.val = 0)
    (hboot : d.early c = true → (s.sched c).early c = true) :
    table (s.setSched c s.toMemory d) = table s ∧ Shaped (s.setSched c s.toMemory d) := by
  refine ⟨?_, hS.stack, hS.dozing, hS.gone, fun t ht => ?_, fun e he => ?_⟩
  · rw [table, State.setSched, spotOf_sched]
    exact family_clock hspot
  · change (spotOf (update s.sched c d) s.thread t).clock = true at ht
    rw [spotOf_sched, update_apply] at ht
    split at ht
    · next he =>
      subst he
      exact ⟨c, hclock ht, onCpu_none hc⟩
    · exact hS.clock t ht
  · change (update s.sched c d e).early e = true at he
    rw [update_apply] at he
    split at he
    · next hec =>
      subst hec
      exact hS.boot e (hboot he)
    · exact hS.boot e he

/-- A handler begins with nothing to do, and only CPU 0 keeps the time. -/
theorem Intr.task_begins {t : Task} (h : i.task c = some t) :
    t.due = ∅ ∧ (t.clock = true → c.val = 0) := by
  cases i with
  | timer =>
    rw [Intr.task] at h
    split at h
    · next hc =>
      cases h
      exact ⟨rfl, fun _ => hc⟩
    · cases h
  | device chans =>
    cases chans with
    | nil => cases h
    | cons =>
      cases h
      exact ⟨rfl, fun h => by cases h⟩

/-- A handler above a function that does not hold `wait_lock`. -/
theorem handle_spot {g : Below} {init : Option Slot}
    (hphase : ∀ t : Task, t.phase (some g.1) = .out)
    (hspot : g.1.spot rest = ⟨.out, linksOf (g :: rest), [], false, ∅, false⟩)
    (hcalled : ∀ t : Task, t.calledBy g.1 = true) (hs : Shape init p g.1 rest) :
    let st := Stack.handle (i.task c) g rest
    st.spot = ⟨.out, linksOf (g :: rest), [], false, ∅, st.spot.clock⟩ ∧
      (st.spot.clock = true → c.val = 0) ∧ Shape init p st.top st.rest := by
  intro st
  cases ht : i.task c with
  | none =>
    have hst : st = ⟨g.1, rest⟩ := by
      change Stack.handle (i.task c) g rest = _
      rw [ht]
      rfl
    rw [hst]
    change g.1.spot rest = ⟨_, _, _, _, _, (g.1.spot rest).clock⟩ ∧
      ((g.1.spot rest).clock = true → _) ∧ Shape init p g.1 rest
    rw [hspot]
    exact ⟨rfl, nofun, hs⟩
  | some t =>
    have hst : st = ⟨.task t, g :: rest⟩ := by
      change Stack.handle (i.task c) g rest = _
      rw [ht]
      rfl
    obtain ⟨hdue, hclock⟩ := Intr.task_begins ht
    rw [hst]
    exact ⟨Spot.ext (hphase t) rfl rfl rfl hdue rfl, hclock, trivial, hcalled t, hs⟩

/-- Outside `wait_lock`, a thread's function is none that runs under it. -/
theorem waits_of_phase (h : (f.spot rest).phase = .out) :
    f.waits rest = false := by
  cases f with
  | task t =>
    exact Task.phase_eq_out.mp h
  | killed a | killedIn a | killedOut a => cases a <;> first | rfl | cases h
  | sleep chan lk | sleepIn chan lk => cases lk <;> first | rfl | cases h
  | _ => first | rfl | cases h

/-- The clock runs with interrupts off. -/
theorem clock_of_unmasked {init : Option Slot} (hs : Shape init p f rest)
    (h : Stack.unmasked ⟨f, rest⟩ = true) : f.clock = false := by
  cases f with
  | task t =>
    refine Bool.eq_false_iff.mpr fun hclock => ?_
    have ht : t.clock = true := hclock
    cases rest with
    | nil => exact Bool.eq_false_iff.mp hs.2 hclock
    | cons g rest =>
      obtain ⟨g, hg⟩ := g
      have hcalled : t.calledBy g = true := hs.2.1
      have hmask : g.masked = false := by
        simp only [Stack.unmasked, Bool.and_eq_true, List.all_cons, Bool.not_eq_true'] at h
        exact h.2.1
      have hplain : t.plain ≠ true := by
        cases t with
        | wakeup | wakeupIn | wakeupOut => cases ht
        | _ => exact nofun
      cases g with
      | kerneltrap tick => cases hmask
      | killed a =>
        cases a with
        | trap tick => cases hmask
        | _ => cases hcalled
      | reparent | exitLock status => exact hplain hcalled
      | kernel v | exitFiles status =>
        rw [Task.calledBy, ht] at hcalled
        cases hcalled
      | _ => cases hcalled
  | _ => rfl

/-- The protocol does not see an interrupt of a process. -/
theorem interrupt_step (hG : Good s) (hc : s.cur c = some p) (he : s.interruptible c = true) :
    table (s.setThread p ((s.thread p).interrupt c i)) = table s ∧
      Shaped (s.setThread p ((s.thread p).interrupt c i)) := by
  have hs := hG.shaped.stack p
  rw [State.interruptible, hc, Bool.and_eq_true] at he
  obtain ⟨hunlocked, hunmasked⟩ := he
  have hphase : (s.thread p).spot.phase = .out := by
    by_contra hne
    have hlock : s.lock .wait = some c := (hG.table.lock c).mpr ⟨p, hc, hne⟩
    simp only [Memory.unlocked, Bool.and_eq_true, decide_eq_true_eq] at hunlocked
    exact hunlocked.1 hlock
  have hopen : (s.thread p).unmasked = true := hunmasked
  generalize hst : s.thread p = st at hs hphase hopen
  obtain ⟨f, rest⟩ := st
  have hclock := clock_of_unmasked hs hopen
  have hquiet : f.quiet rest = true := by
    rw [Frame.quiet, waits_of_phase hphase, hclock]
    rfl
  rw [Stack.interrupt]
  split
  · next huser =>
    change f = .user at huser
    subst huser
    obtain ⟨hspot, hzero, hshape⟩ := handle_spot (c := c) (i := i)
      (g := ⟨.killed (.trap i.isTimer), rfl⟩) (fun _ => rfl) rfl (fun _ => rfl)
      (hs.move (g := .killed (.trap i.isTimer)) (fun _ _ => id) trivial id)
    refine restack hG.shaped hc (hspot.trans ?_) hzero hshape
    rw [hst]
    rfl
  · split
    · next hstill =>
      have hbelow : Shape s.k.initproc p (.kerneltrap i.isTimer) (⟨f, hstill⟩ :: rest) :=
        ⟨trivial, hquiet, hs⟩
      obtain ⟨hspot, hzero, hshape⟩ := handle_spot (c := c) (i := i)
        (g := ⟨.kerneltrap i.isTimer, rfl⟩) (fun _ => rfl) rfl (fun _ => rfl) hbelow
      refine restack hG.shaped hc (hspot.trans ?_) hzero hshape
      rw [hst, show Stack.spot ⟨f, rest⟩ = f.spot rest from rfl, Frame.spot_of_quiet hstill hquiet]
      rfl
    · rw [← hst]
      refine restack hG.shaped hc rfl (fun hc' => ?_) (hG.shaped.stack p)
      obtain ⟨d, hd, hd'⟩ := hG.shaped.clock (.proc p) hc'
      rw [← onCpu_some hc] at hd'
      rwa [hG.view.onCpu_inj hd'] at hd

/-- The protocol does not see an interrupt of a scheduler. -/
theorem sched_interrupt (hG : Good s) (hc : s.cur c = none) (he : s.interruptible c = true) :
    table (s.setSched c s.toMemory ((s.sched c).interrupt c i)) = table s ∧
      Shaped (s.setSched c s.toMemory ((s.sched c).interrupt c i)) := by
  rw [State.interruptible, hc, Bool.and_eq_true] at he
  cases hd : s.sched c with
  | handler t pc =>
    simp only [hd] at he
    cases he.2
  | code pc =>
    simp only [hd] at he
    have hstill : pc.still = true := he.2
    have hidle : (s.sched c).spot = .idle := by rw [hd]; exact (still_code (c := c) hstill).1
    rw [Dispatcher.interrupt]
    simp only [hstill, dif_pos]
    cases ht : i.task c with
    | none =>
      refine resched hG.shaped hc (by rw [hd]) (fun hclock => ?_) (by rw [hd]; exact id)
      rw [(still_code (c := c) hstill).1] at hclock
      cases hclock
    | some t =>
      obtain ⟨hdue, hclock⟩ := Intr.task_begins ht
      refine resched hG.shaped hc ?_ hclock fun h => by cases h
      rw [hidle]
      exact Spot.ext rfl rfl rfl rfl hdue rfl

/-- Nor a frame replaced by one that means the same to it. -/
theorem replace_step {f' : Frame} (hS : Shaped s) (hc : s.cur c = some p)
    (htop : (s.thread p).top = f) (hspot : ∀ rest, f'.spot rest = f.spot rest)
    (hidle : ∀ rest, (f.spot rest).clock = false)
    (hover : ∀ g r, f.over g r = true → f'.over g r = true) (hokay : f'.Okay s.k.initproc p)
    (hclock : f'.clock = true → f.clock = true) :
    table (s.setThread p ⟨f', (s.thread p).rest⟩) = table s ∧
      Shaped (s.setThread p ⟨f', (s.thread p).rest⟩) := by
  have hs := hS.stack p
  rw [htop] at hs
  have hsame : Stack.spot ⟨f', (s.thread p).rest⟩ = (s.thread p).spot := by
    rw [Stack.spot, hspot, Stack.spot, htop]
  refine restack hS hc (by rw [hsame]) (fun hcl => ?_) (hs.move hover hokay hclock)
  rw [Stack.spot, hspot, hidle] at hcl
  cases hcl

/-- Nor a call of a function that means the same to it. -/
theorem push_step {g : Frame} (hS : Shaped s) (hc : s.cur c = some p) (htop : (s.thread p).top = g)
    (hstill : g.still = true) (hspot : ∀ rest, f.spot (⟨g, hstill⟩ :: rest) = g.spot rest)
    (hidle : ∀ rest, (g.spot rest).clock = false) (hover : ∀ rest, f.over g rest = true)
    (hokay : f.Okay s.k.initproc p) :
    table (s.setThread p ((s.thread p).call f)) = table s ∧
      Shaped (s.setThread p ((s.thread p).call f)) := by
  subst htop
  have hcall : (s.thread p).call f = ⟨f, ⟨(s.thread p).top, hstill⟩ :: (s.thread p).rest⟩ := by
    rw [Stack.call, dif_pos hstill]
  rw [hcall]
  have hsame : Stack.spot ⟨f, ⟨(s.thread p).top, hstill⟩ :: (s.thread p).rest⟩ =
      (s.thread p).spot := hspot _
  refine restack hS hc (by rw [hsame]) (fun hcl => ?_) ⟨hokay, hover _, hS.stack p⟩
  rw [hsame, Stack.spot, hidle] at hcl
  cases hcl

/-- Nor a call from kernel code. -/
theorem call_step {f : Call} (hS : Shaped s) (hc : s.cur c = some p)
    (he : enabled (.call c f) s = true) :
    table (s.setThread p (f.stack (s.thread p))) = table s ∧
      Shaped (s.setThread p (f.stack (s.thread p))) := by
  have houtside : ∀ chan, f = .sleep chan ∨ f = .wakeup chan → outside chan = true := by
    intro chan hf
    rcases call_from hc he with ⟨v, htop⟩ | ⟨⟨status, htop⟩, -⟩
    · rcases hf with rfl | rfl <;>
        simpa only [enabled, State.frame, hc, Option.map_some, htop] using he
    · rcases hf with rfl | rfl <;>
        simpa only [enabled, State.frame, hc, Option.map_some, htop] using he
  rcases call_from hc he with ⟨v, htop⟩ | ⟨⟨status, htop⟩, chan, hf⟩
  · cases f with
    | sleep chan =>
      exact push_step hS hc htop rfl (fun _ => rfl) (fun _ => rfl) (fun _ => rfl)
        (houtside chan (.inl rfl))
    | wakeup chan =>
      exact push_step hS hc htop rfl (fun _ => rfl) (fun _ => rfl) (fun _ => rfl) trivial
    | settickets =>
      refine restack hS hc rfl (fun hcl => ?_) (hS.stack p)
      change (s.thread p).spot.clock = true at hcl
      rw [Stack.spot, htop] at hcl
      cases hcl
    | _ =>
      exact replace_step hS hc htop (fun _ => rfl) (fun _ => rfl) (fun _ _ => id) trivial
        (fun h => by cases h)
  · rcases hf with rfl | rfl
    · exact push_step hS hc htop rfl (fun _ => rfl) (fun _ => rfl) (fun _ => rfl)
        (houtside chan (.inl rfl))
    · exact push_step hS hc htop rfl (fun _ => rfl) (fun _ => rfl) (fun _ => rfl) trivial

/-- Nor `settickets`. -/
theorem settickets_table {tickets : Int} (hS : Shaped s) :
    table { s with k := s.k.sysSettickets p tickets } = table s ∧
      Shaped { s with k := s.k.sysSettickets p tickets } := by
  have hproc : ∀ {β : Type} (g : Proc → β), (∀ x t, g { x with tickets := t } = g x) → ∀ q,
      g ((s.k.sysSettickets p tickets).proc q) = g (s.k.proc q) := by
    intro β g hg q
    rw [Kernel.sysSettickets, Kernel.modify_proc]
    split
    · next he => rw [he, hg]
    · rfl
  refine ⟨?_, hS.stack, hS.dozing, fun q hdead => hS.gone q ?_, hS.clock, hS.boot⟩
  · refine Family.ext (funext (hproc kin fun _ _ => rfl)) rfl rfl rfl ?_ rfl rfl rfl rfl rfl rfl
    ext q
    change waiting q ((s.k.sysSettickets p tickets).proc q) ∨ _ ↔ waiting q (s.k.proc q) ∨ _
    rw [hproc (waiting q) fun _ _ => rfl]
  · have hstate := hproc (fun x => x.state.live) (fun _ _ => rfl) q
    exact hstate.symm.trans hdead

theorem user_of_frame (h : s.frame c = some .user) :
    ∃ p, s.cur c = some p ∧ (s.thread p).top = .user := by
  rw [State.frame] at h
  obtain ⟨p, hc, htop⟩ := Option.map_eq_some_iff.mp h
  exact ⟨p, hc, htop⟩

/-! ## Every step -/

/-- The CPU of an event. -/
def Event.cpu : Event n → Fin n
  | .run c _ | .intr c _ | .syscall c | .exception c | .call c _ => c

/-- The process that an event charges a tick. -/
def State.charged (s : State n) : Event n → Option Slot
  | .run c _ =>
    match s.cur c with
    | none => (s.sched c).charges s.toMemory
    | some p => (s.thread p).top.charges s.toMemory
  | _ => none

/-- Every step of the machine is a step of the protocol and keeps the stacks in shape. -/
theorem step_table {e : Event n} (hG : Good s) (h : (smp b n).Step s e s') :
    (table s).Step e.cpu (s.charged e) (table s') ∧ Shaped s' := by
  have hsame : ∀ {c : Fin n} {s' : State n}, table s' = table s ∧ Shaped s' →
      (table s).Step c none (table s') ∧ Shaped s' := by
    rintro c s' ⟨htable, hS⟩
    rw [htable]
    exact ⟨.idle c _, hS⟩
  obtain ⟨he, h⟩ := h
  cases e with
  | run c o =>
    cases hc : s.cur c with
    | none =>
      simp only [smp, exec, hc] at h
      simp only [State.charged, hc]
      exact runSched_table hG hc h
    | some p =>
      simp only [smp, exec, hc] at h
      simp only [State.charged, hc]
      exact runThread_table hG hc h
  | intr c i =>
    have hopen : s.interruptible c = true := by
      cases i with
      | timer => exact he
      | device chans => exact (Bool.and_eq_true_iff.mp he).1
    cases hc : s.cur c with
    | none =>
      simp only [smp, exec, hc] at h
      cases h
      exact hsame (sched_interrupt hG hc hopen)
    | some p =>
      simp only [smp, exec, hc] at h
      cases h
      simp only [State.onThread, hc]
      exact hsame (interrupt_step hG hc hopen)
  | syscall c | exception c =>
    cases h
    obtain ⟨p, hc, htop⟩ := user_of_frame (decide_eq_true_eq.mp he)
    simp only [State.onThread, hc]
    exact hsame (replace_step hG.shaped hc htop (fun _ => rfl) (fun _ => rfl) (fun _ _ => id) trivial
      fun h => by cases h)
  | call c f =>
    have hcall : table (s.onThread c f.stack) = table s ∧ Shaped (s.onThread c f.stack) := by
      cases hc : s.cur c with
      | none =>
        simp only [State.onThread, hc]
        exact ⟨trivial, hG.shaped⟩
      | some p =>
        simp only [State.onThread, hc]
        exact call_step hG.shaped hc he
    cases f with
    | settickets =>
      simp only [smp, exec, Memory.onProc] at h
      split at h
      · cases h
      · cases h
        exact hsame (settickets_table hG.shaped)
    | _ =>
      cases h
      exact hsame hcall

/-- All of this holds at boot. -/
theorem boot_good : Good (boot n) where
  view := boot_inv
  shaped :=
    { stack := fun _ => ⟨trivial, rfl⟩
      dozing := nofun
      gone := fun _ _ _ => ⟨rfl, .inl rfl⟩
      clock := fun t ht => by cases t <;> cases ht
      boot := fun c hc => ⟨by simpa [boot, Dispatcher.early] using hc, rfl⟩ }
  table :=
    { lock := fun c => ⟨nofun, fun ⟨p, hp, _⟩ => nomatch hp⟩
      rest := fun _ _ => rfl
      once := nofun
      knows := fun _ => trivial
      root := nofun
      init := nofun
      lone := fun _ _ _ => rfl
      alive := nofun
      kept := fun q hq => by rcases hq with hq | hq <;> cases hq
      links := fun t q hq => by cases t <;> cases hq
      nextpid := Int.one_pos
      pid := fun q => ⟨le_refl _, Int.one_pos⟩
      named := fun q hq => absurd rfl hq
      distinct := fun p q _ hne => absurd rfl hne
      numbered := fun t q hq => by cases t <;> cases hq
      lost := nofun }

/-- What the code keeps true holds in every reachable state. -/
theorem good_of_reachable (h : (smp b n).Reachable s) : Good s := by
  refine h.invariant boot_good fun s e t hG hstep => ?_
  obtain ⟨htable, hshaped⟩ := step_table hG hstep
  refine ⟨?_, hshaped, hG.table.step htable⟩
  rcases step_view hG.view hstep with heq | ⟨c, hc⟩
  · rw [heq]
    exact hG.view
  · exact hG.view.step hc

end Follows

end Xv6.Smp
