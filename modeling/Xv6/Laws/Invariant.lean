import Xv6.Kernel.System
import Xv6.Laws.Queue

/-!
# The process table's invariant
-/

namespace Xv6

open Base

variable {n : Nat} {k k' : Kernel n} {p : Slot}

/-- Pids: 0 marks an unused slot, and every other slot has one of its own below the counter. -/
structure Pids (k : Kernel n) : Prop where
  unused : ∀ p, (k.proc p).state = .unused → (k.proc p).pid = 0
  pos : ∀ p, (k.proc p).state ≠ .unused → 0 < (k.proc p).pid
  below : ∀ p, (k.proc p).pid < k.nextpid
  inj : ∀ p p', (k.proc p).state ≠ .unused → (k.proc p).pid = (k.proc p').pid → p = p'

/-- Harts: a process is running exactly when it is the current process of one hart. -/
structure Harts (k : Kernel n) : Prop where
  current : ∀ c p, k.myproc c = some p → (k.proc p).state = .running
  running : ∀ p, (k.proc p).state = .running → ∃ c, k.myproc c = some p
  inj : ∀ c c' p, k.myproc c = some p → k.myproc c' = some p → c = c'

/-- Threads: a child in the making has not run, a sleeper stands inside `sleep`, and a thread
inside `fork` has a child of its own that waits to be published. -/
structure Threads (k : Kernel n) : Prop where
  used : ∀ p, (k.proc p).state = .used → (k.proc p).context = .forkret
  sleeping : ∀ p, (k.proc p).state = .sleeping → ∃ b, (k.proc p).context = .asleep b
  forking : ∀ p np, (k.proc p).state.ready = true → (k.proc p).context = .forking np →
    (k.proc np).state = .used
  inj : ∀ p p' np, (k.proc p).state.ready = true → (k.proc p').state.ready = true →
    (k.proc p).context = .forking np → (k.proc p').context = .forking np → p = p'

/-- What holds between any two events. -/
structure Inv (k : Kernel n) : Prop where
  /-- exactly the runnable and running processes are queued -/
  queued : Queued k fun p => (k.proc p).state.ready = true
  level : ∀ p, (k.proc p).queueNumber < 4
  pids : Pids k
  harts : Harts k
  threads : Threads k

@[simp] theorem ready_eq_true {s : Procstate} :
    s.ready = true ↔ s = .runnable ∨ s = .running := by
  cases s <;> simp [Procstate.ready]

/-- The state before `main` creates the first process. -/
theorem inv_boot (n : Nat) : Inv (Kernel.boot n) := by
  have hqueue : ∀ q, (Kernel.boot n).queue q = [] := fun _ => rfl
  refine ⟨⟨fun q => rfl, fun q => ?_, fun q p hp => ?_, fun p => ?_, fun p p' hp => ?_⟩,
    fun p => Nat.zero_lt_succ 3, ⟨fun p _ => rfl, fun p hp => absurd rfl hp,
    fun p => Int.zero_lt_one, fun p p' hp => absurd rfl hp⟩, ⟨?_, ?_, ?_⟩, ⟨?_, ?_, ?_, ?_⟩⟩
  · rw [hqueue]; exact List.nodup_nil
  · rw [hqueue] at hp; cases hp
  · constructor
    · intro hp; cases hp
    · rintro ⟨q, hp⟩; rw [hqueue] at hp; cases hp
  · cases hp
  · intro c p hp; cases hp
  · intro p hp; cases hp
  · intro c c' p hp; cases hp
  · intro p hp; cases hp
  · intro p hp; cases hp
  · intro p np hp; cases hp
  · intro p p' np hp; cases hp

/-- The part of a record the invariant reads, the level apart. -/
def Proc.core (x : Proc) : Procstate × Int × Context := (x.state, x.pid, x.context)

theorem Inv.requeue (h : Inv k) (hcore : ∀ x, (k'.proc x).core = (k.proc x).core)
    (hlevel : ∀ x, (k'.proc x).queueNumber < 4)
    (hqueued : Queued k' fun x => (k.proc x).state.ready = true)
    (hc : ∀ c, k'.myproc c = k.myproc c) (hn : k.nextpid ≤ k'.nextpid) : Inv k' := by
  simp only [Proc.core, Prod.mk.injEq] at hcore
  have hstate x : (k'.proc x).state = (k.proc x).state := (hcore x).1
  have hpid x : (k'.proc x).pid = (k.proc x).pid := (hcore x).2.1
  have hctx x : (k'.proc x).context = (k.proc x).context := (hcore x).2.2
  obtain ⟨-, -, ⟨p1, p2, p3, p4⟩, ⟨h1, h2, h3⟩, ⟨t1, t2, t3, t4⟩⟩ := h
  refine ⟨hqueued.congr fun x => by rw [hstate x], hlevel, ⟨?_, ?_, fun x => ?_, ?_⟩,
    ⟨?_, ?_, ?_⟩, ⟨?_, ?_, ?_, ?_⟩⟩
  case refine_3 =>
    rw [hpid]
    exact lt_of_lt_of_le (p3 x) hn
  all_goals simp only [hstate, hpid, hctx, hc]; assumption

/-- Nothing but the cores, the levels, the arrays, the current processes and the pid counter
matters. -/
theorem Inv.congr (h : Inv k) (hcore : ∀ x, (k'.proc x).core = (k.proc x).core ∧
      (k'.proc x).queueNumber = (k.proc x).queueNumber)
    (hq : k'.multique = k.multique) (hc : ∀ c, k'.myproc c = k.myproc c)
    (hn : k.nextpid ≤ k'.nextpid) : Inv k' := by
  refine h.requeue (fun x => (hcore x).1) (fun x => by rw [(hcore x).2]; exact h.level x) ?_ hc hn
  refine h.queued.frame hq fun x => ⟨?_, (hcore x).2⟩
  have hx := (hcore x).1
  simp only [Proc.core, Prod.mk.injEq] at hx
  exact hx.2.1

/-- A process off the queues has a pid no queued process has. -/
theorem Inv.fresh (h : Inv k) (hp : (k.proc p).state.ready = false) :
    Queued.Fresh k (fun p => (k.proc p).state.ready = true) p := by
  intro x hx he
  have hne : (k.proc x).state ≠ .unused := by
    intro hu
    rw [hu] at hx
    cases hx
  have hxp := h.pids.inj x p hne he
  rw [hxp, hp] at hx
  cases hx

namespace Harts

theorem same (h : Harts k)
    (hs : ∀ x, (k'.proc x).state = .running ↔ (k.proc x).state = .running)
    (hc : ∀ c, k'.myproc c = k.myproc c) : Harts k' := by
  refine ⟨fun c x hx => ?_, fun x hx => ?_, fun c d x hx hy => ?_⟩
  · rw [hc] at hx
    exact (hs x).mpr (h.current c x hx)
  · obtain ⟨c, hx⟩ := h.running x ((hs x).mp hx)
    exact ⟨c, (hc c).trans hx⟩
  · rw [hc] at hx hy
    exact h.inj c d x hx hy

theorem park {c : Fin n} (h : Harts k) (hp : k.myproc c = some p)
    (hs : ∀ x, x ≠ p → ((k'.proc x).state = .running ↔ (k.proc x).state = .running))
    (hnot : (k'.proc p).state ≠ .running)
    (hc : ∀ d, k'.myproc d = if d = c then none else k.myproc d) : Harts k' := by
  have hkeep : ∀ d x, k'.myproc d = some x → x ≠ p ∧ k.myproc d = some x := by
    intro d x hx
    rw [hc] at hx
    split at hx
    · cases hx
    · next hd => exact ⟨fun he => hd (h.inj d c p (he ▸ hx) hp), hx⟩
  refine ⟨fun d x hx => ?_, fun x hx => ?_, fun d d' x hx hy => ?_⟩
  · obtain ⟨hxp, hx⟩ := hkeep d x hx
    exact (hs x hxp).mpr (h.current d x hx)
  · have hxp : x ≠ p := fun he => hnot (he ▸ hx)
    obtain ⟨d, hd⟩ := h.running x ((hs x hxp).mp hx)
    refine ⟨d, ?_⟩
    rw [hc, if_neg]
    · exact hd
    · intro hdc
      rw [hdc, hp] at hd
      exact hxp (Option.some.inj hd).symm
  · exact h.inj d d' x (hkeep d x hx).2 (hkeep d' x hy).2

theorem dispatch {c : Fin n} (h : Harts k) (hidle : k.myproc c = none)
    (hp : (k.proc p).state ≠ .running) (hrun : (k'.proc p).state = .running)
    (hs : ∀ x, x ≠ p → ((k'.proc x).state = .running ↔ (k.proc x).state = .running))
    (hc : ∀ d, k'.myproc d = if d = c then some p else k.myproc d) : Harts k' := by
  have hold : ∀ d, k.myproc d ≠ some p := fun d hd => hp (h.current d p hd)
  refine ⟨fun d x hx => ?_, fun x hx => ?_, fun d d' x hx hy => ?_⟩
  · rw [hc] at hx
    split at hx
    · rw [← Option.some.inj hx]; exact hrun
    · have hxp : x ≠ p := fun he => hold d (he ▸ hx)
      exact (hs x hxp).mpr (h.current d x hx)
  · by_cases hxp : x = p
    · exact ⟨c, by rw [hc, if_pos rfl, hxp]⟩
    · obtain ⟨d, hd⟩ := h.running x ((hs x hxp).mp hx)
      refine ⟨d, ?_⟩
      rw [hc, if_neg]
      · exact hd
      · intro hdc
        rw [hdc, hidle] at hd
        cases hd
  · rw [hc] at hx hy
    split at hx <;> split at hy
    · next h₁ h₂ => rw [h₁, h₂]
    · cases hx; exact absurd hy (hold d')
    · cases hy; exact absurd hx (hold d)
    · exact h.inj d d' x hx hy

end Harts

namespace Pids

theorem same (h : Pids k)
    (hlive : ∀ x, (k'.proc x).state = .unused ↔ (k.proc x).state = .unused)
    (hpid : ∀ x, (k'.proc x).pid = (k.proc x).pid) (hn : k.nextpid ≤ k'.nextpid) : Pids k' := by
  refine ⟨fun x hx => ?_, fun x hx => ?_, fun x => ?_, fun x y hx he => ?_⟩
  · rw [hpid]; exact h.unused x ((hlive x).mp hx)
  · rw [hpid]; exact h.pos x fun hu => hx ((hlive x).mpr hu)
  · rw [hpid]; exact lt_of_lt_of_le (h.below x) hn
  · rw [hpid, hpid] at he
    exact h.inj x y (fun hu => hx ((hlive x).mpr hu)) he

theorem alloc (h : Pids k) (hother : ∀ x, x ≠ p → k'.proc x = k.proc x)
    (hstate : (k'.proc p).state ≠ .unused) (hpid : (k'.proc p).pid = k.nextpid)
    (hpos : 0 < k.nextpid) (hn : k'.nextpid = k.nextpid + 1) : Pids k' := by
  have hbelow : ∀ x, (k'.proc x).pid ≤ k.nextpid ∧ (x ≠ p → (k'.proc x).pid < k.nextpid) := by
    intro x
    by_cases hx : x = p
    · rw [hx, hpid]; exact ⟨le_refl _, fun hne => absurd rfl hne⟩
    · rw [hother x hx]; exact ⟨le_of_lt (h.below x), fun _ => h.below x⟩
  refine ⟨fun x hx => ?_, fun x hx => ?_, fun x => ?_, fun x y hx he => ?_⟩
  · have hne : x ≠ p := fun he => hstate (he ▸ hx)
    rw [hother x hne] at hx ⊢
    exact h.unused x hx
  · by_cases hxp : x = p
    · rw [hxp, hpid]; exact hpos
    · rw [hother x hxp] at hx ⊢; exact h.pos x hx
  · rw [hn]; exact Int.lt_add_one_of_le (hbelow x).1
  · by_cases hxp : x = p <;> by_cases hyp : y = p
    · rw [hxp, hyp]
    · rw [hxp, hpid] at he
      exact absurd ((hbelow y).2 hyp) (he ▸ lt_irrefl _)
    · rw [hyp, hpid] at he
      exact absurd ((hbelow x).2 hxp) (he ▸ lt_irrefl _)
    · rw [hother x hxp] at hx he
      rw [hother y hyp] at he
      exact h.inj x y hx he

theorem free (h : Pids k) (hother : ∀ x, x ≠ p → k'.proc x = k.proc x)
    (hstate : (k'.proc p).state = .unused) (hpid : (k'.proc p).pid = 0) (hpos : 0 < k.nextpid)
    (hn : k'.nextpid = k.nextpid) : Pids k' := by
  have hlive : ∀ x, (k'.proc x).state ≠ .unused → x ≠ p ∧ (k.proc x).state ≠ .unused := by
    intro x hx
    have hne : x ≠ p := fun he => hx (he ▸ hstate)
    rw [hother x hne] at hx
    exact ⟨hne, hx⟩
  refine ⟨fun x hx => ?_, fun x hx => ?_, fun x => ?_, fun x y hx he => ?_⟩
  · by_cases hne : x = p
    · rw [hne]; exact hpid
    · rw [hother x hne] at hx ⊢; exact h.unused x hx
  · obtain ⟨hne, hx⟩ := hlive x hx
    rw [hother x hne]; exact h.pos x hx
  · rw [hn]
    by_cases hne : x = p
    · rw [hne, hpid]; exact hpos
    · rw [hother x hne]; exact h.below x
  · obtain ⟨hxp, hx⟩ := hlive x hx
    rw [hother x hxp] at he
    by_cases hyp : y = p
    · rw [hyp, hpid] at he
      exact absurd (h.pos x hx) (he ▸ lt_irrefl _)
    · rw [hother y hyp] at he
      exact h.inj x y hx he

theorem nextpid_pos (h : Pids k) (p : Slot) : 0 < k.nextpid := by
  by_cases hu : (k.proc p).state = .unused
  · exact h.unused p hu ▸ h.below p
  · exact lt_trans (h.pos p hu) (h.below p)

end Pids

/-- One process changes. The hypotheses say what the new record must satisfy, that a child in the
making stays one while some thread is about to publish it, and that a thread enters `fork` only
with a child of its own. -/
theorem Threads.change (h : Threads k) (hother : ∀ x, x ≠ p → k'.proc x = k.proc x)
    (hused : (k'.proc p).state = .used → (k'.proc p).context = .forkret)
    (hsleep : (k'.proc p).state = .sleeping → ∃ b, (k'.proc p).context = .asleep b)
    (hkept : ∀ x, x ≠ p → (k.proc x).state.ready = true → (k.proc x).context = .forking p →
      (k'.proc p).state = .used)
    (hfork : ∀ np, (k'.proc p).state.ready = true → (k'.proc p).context = .forking np →
      (k'.proc np).state = .used ∧
      ∀ x, x ≠ p → (k.proc x).state.ready = true → (k.proc x).context ≠ .forking np) :
    Threads k' := by
  refine ⟨fun x hx => ?_, fun x hx => ?_, fun x np hx hcx => ?_, fun x y np hx hy hcx hcy => ?_⟩
  · by_cases hxp : x = p
    · rw [hxp] at hx ⊢; exact hused hx
    · rw [hother x hxp] at hx ⊢; exact h.used x hx
  · by_cases hxp : x = p
    · rw [hxp] at hx ⊢; exact hsleep hx
    · rw [hother x hxp] at hx ⊢; exact h.sleeping x hx
  · by_cases hxp : x = p
    · rw [hxp] at hx hcx; exact (hfork np hx hcx).1
    · rw [hother x hxp] at hx hcx
      by_cases hnp : np = p
      · rw [hnp] at hcx ⊢; exact hkept x hxp hx hcx
      · rw [hother np hnp]; exact h.forking x np hx hcx
  · by_cases hxp : x = p <;> by_cases hyp : y = p
    · rw [hxp, hyp]
    · rw [hxp] at hx hcx
      rw [hother y hyp] at hy hcy
      exact absurd hcy ((hfork np hx hcx).2 y hyp hy)
    · rw [hyp] at hy hcy
      rw [hother x hxp] at hx hcx
      exact absurd hcx ((hfork np hy hcy).2 x hxp hx)
    · rw [hother x hxp] at hx hcx
      rw [hother y hyp] at hy hcy
      exact h.inj x y np hx hy hcx hcy

namespace Inv

theorem level_change (h : Inv k) (hother : ∀ x, x ≠ p → k'.proc x = k.proc x)
    (hlevel : (k'.proc p).queueNumber < 4) (x : Slot) : (k'.proc x).queueNumber < 4 := by
  by_cases hx : x = p
  · rw [hx]; exact hlevel
  · rw [hother x hx]; exact h.level x

/-- One live process changes: its state, its thread, its level, its queue and its hart. The pid
stays, and the process neither comes to be nor ends nor waits to be published. -/
theorem step (h : Inv k) (hother : ∀ x, x ≠ p → k'.proc x = k.proc x)
    (hpid : (k'.proc p).pid = (k.proc p).pid) (hn : k'.nextpid = k.nextpid)
    (hold : (k.proc p).state ≠ .unused ∧ (k.proc p).state ≠ .used)
    (hnew : (k'.proc p).state ≠ .unused ∧ (k'.proc p).state ≠ .used)
    (hlevel : (k'.proc p).queueNumber < 4)
    (hqueued : Queued k' fun p => (k'.proc p).state.ready = true) (hharts : Harts k')
    (hsleep : (k'.proc p).state = .sleeping → ∃ b, (k'.proc p).context = .asleep b)
    (hfork : ∀ np, (k'.proc p).state.ready = true → (k'.proc p).context = .forking np →
      (k.proc p).state.ready = true ∧ (k.proc p).context = .forking np) : Inv k' := by
  have hpids : Pids k' := by
    refine h.pids.same (fun x => ?_) (fun x => ?_) (le_of_eq hn.symm) <;> by_cases hx : x = p
    · rw [hx]; exact ⟨fun hu => absurd hu hnew.1, fun hu => absurd hu hold.1⟩
    · rw [hother x hx]
    · rw [hx, hpid]
    · rw [hother x hx]
  refine ⟨hqueued, h.level_change hother hlevel, hpids, hharts,
    h.threads.change hother (fun hu => absurd hu hnew.2) hsleep (fun x _ hx hcx => ?_)
    fun np hr hcp => ?_⟩
  · exact absurd (h.threads.forking x p hx hcx) hold.2
  · obtain ⟨hr, hcp⟩ := hfork np hr hcp
    have hu := h.threads.forking p np hr hcp
    refine ⟨?_, fun x hxp hx hcx => hxp (h.threads.inj x p np hx hr hcx hcp)⟩
    rw [hother np fun he => hold.2 (he ▸ hu)]
    exact hu

theorem modify_core (h : Inv k) {f : Proc → Proc}
    (hf : (f (k.proc p)).core = (k.proc p).core ∧
      (f (k.proc p)).queueNumber = (k.proc p).queueNumber) : Inv (k.modify p f) := by
  refine h.congr (fun x => ?_) rfl (fun _ => rfl) (le_refl _)
  rw [Kernel.modify_proc]
  split
  · next he => rw [he]; exact hf
  · exact ⟨rfl, rfl⟩

/-- The thread of a running process moves; it may enter `fork` with a child of its own. -/
theorem modify_running (h : Inv k) (hrun : (k.proc p).state = .running) {f : Proc → Proc}
    (hstate : (f (k.proc p)).state = .running) (hpid : (f (k.proc p)).pid = (k.proc p).pid)
    (hlevel : (f (k.proc p)).queueNumber = (k.proc p).queueNumber)
    (hctx : ∀ np, (f (k.proc p)).context = .forking np → (k.proc np).state = .used ∧
      ∀ x, x ≠ p → (k.proc x).state.ready = true → (k.proc x).context ≠ .forking np) :
    Inv (k.modify p f) := by
  have hself : (k.modify p f).proc p = f (k.proc p) := Kernel.modify_self ..
  have hother : ∀ x, x ≠ p → (k.modify p f).proc x = k.proc x := fun x hx =>
    Kernel.modify_of_ne _ _ _ hx
  have hstates : ∀ x, ((k.modify p f).proc x).state = (k.proc x).state := by
    intro x
    by_cases hx : x = p
    · rw [hx, hself, hstate, hrun]
    · rw [hother x hx]
  have hpids : ∀ x, ((k.modify p f).proc x).pid = (k.proc x).pid := by
    intro x
    by_cases hx : x = p
    · rw [hx, hself, hpid]
    · rw [hother x hx]
  refine ⟨(h.queued.modify p ⟨hpid, hlevel⟩).congr fun x => by rw [hstates x],
    h.level_change hother (by rw [hself, hlevel]; exact h.level p),
    h.pids.same (fun x => by rw [hstates x]) hpids (le_refl _),
    h.harts.same (fun x => by rw [hstates x]) fun _ => rfl,
    h.threads.change hother (by rw [hself, hstate]; simp) (by rw [hself, hstate]; simp) ?_ ?_⟩
  · intro x _ hx hcx
    have hu := h.threads.forking x p hx hcx
    rw [hrun] at hu
    cases hu
  · intro np _ hcp
    rw [hself] at hcp
    obtain ⟨hu, hnone⟩ := hctx np hcp
    exact ⟨by rw [hstates]; exact hu, hnone⟩

/-- An unused slot becomes a child in the making, with the next pid. -/
theorem alloc (h : Inv k) (hp : (k.proc p).state = .unused)
    (hother : ∀ x, x ≠ p → k'.proc x = k.proc x) (hstate : (k'.proc p).state = .used)
    (hpid : (k'.proc p).pid = k.nextpid) (hn : k'.nextpid = k.nextpid + 1)
    (hlevel : (k'.proc p).queueNumber = (k.proc p).queueNumber)
    (hctx : (k'.proc p).context = .forkret) (hq : k'.multique = k.multique)
    (hc : ∀ c, k'.myproc c = k.myproc c) : Inv k' := by
  refine ⟨(h.queued.off (by rw [hp]; simp) hq hother).congr fun x => ?_,
    h.level_change hother (by rw [hlevel]; exact h.level p),
    h.pids.alloc hother (by rw [hstate]; simp) hpid (h.pids.nextpid_pos p) hn,
    h.harts.same (fun x => ?_) hc,
    h.threads.change hother (fun _ => hctx) (by rw [hstate]; simp) (fun _ _ _ _ => hstate)
      (by rw [hstate]; simp)⟩
  all_goals
    by_cases hx : x = p
    · rw [hx, hp, hstate]; simp
    · rw [hother x hx]

/-- A process that is off the queues, and that no thread is about to publish, gives its slot
back. -/
theorem free (h : Inv k) (hp : (k.proc p).state = .used ∨ (k.proc p).state = .zombie)
    (hnone : ∀ x, (k.proc x).state.ready = true → (k.proc x).context ≠ .forking p)
    (hother : ∀ x, x ≠ p → k'.proc x = k.proc x) (hstate : (k'.proc p).state = .unused)
    (hpid : (k'.proc p).pid = 0) (hn : k'.nextpid = k.nextpid)
    (hlevel : (k'.proc p).queueNumber = (k.proc p).queueNumber)
    (hq : k'.multique = k.multique) (hc : ∀ c, k'.myproc c = k.myproc c) : Inv k' := by
  have hoff : ¬ ((k.proc p).state.ready = true) := by rcases hp with hp | hp <;> rw [hp] <;> simp
  have hrun : (k.proc p).state ≠ .running := by rcases hp with hp | hp <;> rw [hp] <;> simp
  refine ⟨(h.queued.off hoff hq hother).congr fun x => ?_,
    h.level_change hother (by rw [hlevel]; exact h.level p),
    h.pids.free hother hstate hpid (h.pids.nextpid_pos p) hn,
    h.harts.same (fun x => ?_) hc,
    h.threads.change hother (by rw [hstate]; simp) (by rw [hstate]; simp)
      (fun x _ hx hcx => absurd hcx (hnone x hx)) (by rw [hstate]; simp)⟩
  · by_cases hx : x = p
    · rw [hx, hstate]; exact ⟨fun hr => absurd hr hoff, (nomatch ·)⟩
    · rw [hother x hx]
  · by_cases hx : x = p
    · rw [hx, hstate]; exact ⟨(nomatch ·), fun hr => absurd hr hrun⟩
    · rw [hother x hx]

end Inv

end Xv6
