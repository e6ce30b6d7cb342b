import Xv6.Laws.Process

/-!
# The life of a process

The laws of `kill`, `exit`, `allocproc`, `freeproc`, `fork`, `wait` and `waitx`. Each of them
keeps the invariant and never ends in a fault of the queues; and all but `kill` and the end of
`fork` are calm, so that a law about the schedulers' accounts has to look at those two only.
-/

namespace Xv6

open Base Function

variable {n : Nat} {k k' : Kernel n} {p : Slot} {c : Fin n} {x : Proc}

/-- The invariant holds again, and the step was calm. -/
structure Kept (k k' : Kernel n) : Prop where
  inv : Inv k'
  calm : Calm k k'

theorem Kept.trans {k₁ k₂ k₃ : Kernel n} (h : Calm k₁ k₂) (h' : Kept k₂ k₃) : Kept k₁ k₃ :=
  ⟨h'.inv, h.trans h'.calm⟩

/-! ## `kill` -/

/-- What `kill` does to the process it finds. -/
inductive KillStep (k : Kernel n) (p : Slot) : Kernel n → Prop
  | mark : (k.proc p).state ≠ .sleeping →
      KillStep k p (k.modify p fun x => { x with killed := true })
  | wake (q : Fin 4) : (k.proc p).state = .sleeping → (k.proc p).queueNumber = q →
      KillStep k p ((k.modify p fun x => { x with killed := true, state := .runnable }).joined p q)

theorem KillStep.other {x : Slot} (h : KillStep k p k') (hx : x ≠ p) : k'.proc x = k.proc x := by
  cases h with
  | mark _ => exact Kernel.modify_of_ne _ _ _ hx
  | wake q _ _ => rw [joined_proc, if_neg hx, Kernel.modify_of_ne _ _ _ hx]

/-- The process is marked; a sleeper also wakes up, with its ticks cleared. -/
theorem KillStep.self (h : KillStep k p k') :
    ((k.proc p).state ≠ .sleeping ∧ k'.proc p = { k.proc p with killed := true }) ∨
    ((k.proc p).state = .sleeping ∧
      k'.proc p = { k.proc p with killed := true, state := .runnable, queueticks := 0 }) := by
  cases h with
  | mark hs => exact .inl ⟨hs, Kernel.modify_self ..⟩
  | wake q hs hq =>
    refine .inr ⟨hs, ?_⟩
    rw [joined_proc, if_pos rfl, Kernel.modify_self, ← hq]

theorem KillStep.hist (h : KillStep k p k') : k'.hist = k.hist := by
  cases h <;> rfl

/-- `kill` marks the first slot with the pid, or answers -1. -/
theorem kill_spec (h : Inv k) (pid : Int) :
    (k.kill pid = .ok (k, -1) ∧ ∀ p, (k.proc p).pid ≠ pid) ∨
      ∃ p k', (k.proc p).pid = pid ∧ k.kill pid = .ok (k', 0) ∧ Inv k' ∧ KillStep k p k' := by
  rw [Kernel.kill]
  split
  · next hnone =>
    refine .inl ⟨rfl, fun p => ?_⟩
    simpa using List.find?_eq_none.mp hnone p (List.mem_finRange p)
  · next p hp =>
    have hpid : (k.proc p).pid = pid := by simpa using List.find?_some hp
    refine .inr ⟨p, ?_⟩
    by_cases hs : (k.proc p).state = .sleeping
    · have hready : (k.proc p).state.ready = false := by rw [hs]; rfl
      let k₁ := k.modify p fun x => { x with killed := true, state := .runnable }
      let q : Fin 4 := ⟨_, h.level p⟩
      have henq : k₁.enqueue p (k.proc p).queueNumber = .ok (k₁.joined p q) :=
        enqueue_modify h hready rfl rfl q
      refine ⟨k₁.joined p q, hpid, ?_, ?_, .wake q hs rfl⟩
      · simp only [Kernel.modify_self, hs, if_true, Kernel.modify_modify]
        rw [henq]
        rfl
      · have hself : (k₁.joined p q).proc p =
            { k.proc p with killed := true, state := .runnable, queueticks := 0 } := by
          rw [joined_proc, if_pos rfl, Kernel.modify_self]
        refine h.join (q := q) (.inl hs) (fun x hx => ?_) (by rw [hself]) (by rw [hself])
          (by rw [hself]) (by rw [hself]) rfl (fun _ => rfl) rfl
        rw [joined_proc, if_neg hx, Kernel.modify_of_ne _ _ _ hx]
    · refine ⟨_, hpid, ?_, h.modify_core ⟨rfl, rfl⟩, .mark hs⟩
      simp only [Kernel.modify_self, hs, if_false]
      rfl

/-! ## `exit` -/

theorem reparent_spec (h : Inv k) (p : Slot) :
    Post QueueFault (k.reparent p) fun k' => Kept k k' ∧ k'.cpus = k.cpus := by
  refine Post.foldlM (I := fun k' => Kept k k' ∧ k'.cpus = k.cpus) slots ⟨⟨h, .refl k⟩, rfl⟩ ?_
  rintro a ⟨ha, hcpus⟩ x _
  split
  · have hparent : Calm a (a.modify x fun y => { y with parent := a.initproc }) :=
      .modify a (.keep rfl rfl rfl id (.inl rfl))
    refine (wakeup_spec (ha.inv.modify_core ⟨rfl, rfl⟩) (some p) _).mono fun b hb => ?_
    refine ⟨⟨hb.1, ha.calm.trans (hparent.trans hb.2.calm)⟩, ?_⟩
    rw [hb.2.cpus]
    exact hcpus
  · exact ⟨ha, hcpus⟩

theorem Calm.left (k : Kernel n) (p : Slot) (q : Fin 4) : Calm k (k.left p q) :=
  ⟨rfl, rfl, rfl, fun _ => .refl _⟩

theorem Calm.setCpu (k : Kernel n) (c : Fin n) (r : Option Slot) : Calm k (k.setCpu c r) :=
  ⟨rfl, rfl, rfl, fun _ => .refl _⟩

/-- `exit` keeps the invariant. -/
theorem exit_spec (h : Inv k) (hc : k.myproc c = some p) (status : Int) :
    Post QueueFault (k.exit c p status) (Kept k) := by
  rw [Kernel.exit]
  split
  · simp [QueueFault]
  · refine (reparent_spec h p).bind fun k₁ h₁ => ?_
    refine (wakeup_spec h₁.1.inv (some p) _).bind fun k₂ h₂ => ?_
    have hc₂ : k₂.myproc c = some p := by
      rw [Kernel.myproc, h₂.2.cpus, h₁.2]
      exact hc
    obtain ⟨q, -, -, hdeq, hinv⟩ := leave_spec h₂.1 hc₂ (f := fun x =>
      { x with xstate := status, state := .zombie, etime := k₂.ticks }) rfl rfl (.inl rfl)
    show Post QueueFault (Kernel.dequeue _ p _ >>= fun k => pure (k.setCpu c none)) _
    rw [hdeq]
    refine ⟨hinv, h₁.1.calm.trans (h₂.2.calm.trans (.trans (.modify k₂ ?_)
      ((Calm.left _ p q).trans (Calm.setCpu _ c none))))⟩
    refine .park rfl rfl (by simp) (nomatch ·) (nomatch ·) fun hr => ?_
    rw [h₂.1.harts.current c p hc₂] at hr
    cases hr

theorem sleep_kept (h : Inv k) (hc : k.myproc c = some p) (chan : Chan) :
    Post QueueFault (k.sleep c p chan) (Kept k) := by
  obtain ⟨q, b, -, -, hsleep, hinv⟩ := sleep_spec h hc chan
  rw [hsleep]
  have hrun := h.harts.current c p hc
  refine ⟨hinv, .trans (Calm.modify k (.park rfl rfl (by simp) (fun _ => ?_) (fun _ => rfl) ?_))
    ((Calm.left _ p q).trans (Calm.setCpu _ c none))⟩
  · rw [hrun]
    rfl
  · intro hr
    rw [hrun] at hr
    cases hr

/-! ## `freeproc` and `allocproc` -/

/-- No thread inside `fork` is about to publish `p`. -/
def Unclaimed (k : Kernel n) (p : Slot) : Prop :=
  ∀ x, (k.proc x).state.ready = true → (k.proc x).context ≠ .forking p

theorem Inv.unclaimed (h : Inv k) (hp : (k.proc p).state ≠ .used) : Unclaimed k p :=
  fun x hx hcx => hp (h.threads.forking x p hx hcx)

/-- `freeproc` of a process off the queues: the search for pid 0 finds nothing. -/
theorem freeproc_eq {S : Slot → Prop} (h : Queued k S) (hoff : ¬ S p)
    (hpos : ∀ x, S x → 0 < (k.proc x).pid) (hlevel : (k.proc p).queueNumber < 4) :
    k.freeproc p = .ok (k.modify p Proc.freed) := by
  have hqueued : Queued (k.modify p Proc.freed) S :=
    h.off hoff rfl fun x hx => Kernel.modify_of_ne _ _ _ hx
  have hfresh : Queued.Fresh (k.modify p Proc.freed) S p := by
    intro x hx
    have hne : x ≠ p := fun he => hoff (he ▸ hx)
    rw [Kernel.modify_of_ne _ _ _ hne, Kernel.modify_self]
    exact (hpos x hx).ne'
  rw [Kernel.freeproc, Kernel.modify_self]
  exact dequeue_eq_self hqueued hfresh ⟨_, hlevel⟩

theorem Inv.pid_pos (h : Inv k) {x : Slot} (hx : (k.proc x).state.ready = true) :
    0 < (k.proc x).pid :=
  h.pids.pos x fun hu => by rw [hu] at hx; cases hx

theorem freeproc_kept (h : Inv k)
    (hp : (k.proc p).state = .used ∨ (k.proc p).state = .zombie) (hnone : Unclaimed k p) :
    Post QueueFault (k.freeproc p) (Kept k) := by
  have hoff : ¬ ((k.proc p).state.ready = true) := by rcases hp with hp | hp <;> rw [hp] <;> simp
  rw [freeproc_eq h.queued hoff (fun x => h.pid_pos) (h.level p)]
  refine ⟨h.free hp hnone (fun x hx => Kernel.modify_of_ne _ _ _ hx) ?_ ?_ rfl ?_ rfl fun _ => rfl,
    .modify k (.park rfl rfl (by simp [Proc.freed]) (nomatch ·) (nomatch ·) fun hr => ?_)⟩
  case refine_4 => exact absurd (by rw [hr]; rfl) hoff
  all_goals rw [Kernel.modify_self]; rfl

theorem freeSlot_unused (h : k.freeSlot = some p) : (k.proc p).state = .unused := by
  simpa using List.find?_some h

/-- A slot taken with a new pid, whose record becomes `x`. -/
def Kernel.take (k : Kernel n) (p : Slot) (x : Proc) : Kernel n :=
  { k with nextpid := k.nextpid + 1, proc := update k.proc p x }

theorem take_self (k : Kernel n) (p : Slot) (x : Proc) : (k.take p x).proc p = x :=
  update_self ..

theorem take_of_ne (k : Kernel n) (p : Slot) (x : Proc) {y : Slot} (h : y ≠ p) :
    (k.take p x).proc y = k.proc y :=
  update_of_ne h ..

theorem take_modify (k : Kernel n) (p : Slot) (x : Proc) (f : Proc → Proc) :
    (k.take p x).modify p f = k.take p (f x) := by
  simp only [Kernel.modify, Kernel.take, update_self, update_idem]

theorem take_calm (k : Kernel n) (hx : Proc.Calm (k.proc p) x) :
    Calm k (k.take p x) := by
  refine ⟨rfl, rfl, rfl, fun y => ?_⟩
  by_cases hy : y = p
  · rw [hy, take_self]; exact hx
  · rw [take_of_ne _ _ _ hy]; exact .refl _

theorem allocpid_modify (k : Kernel n) (p : Slot) (f : Proc → Proc) :
    { k with nextpid := k.nextpid + 1 }.modify p f = k.take p (f (k.proc p)) := rfl

/-- An allocation that fails on the way: the pid is spent, and the slot is unused again. -/
theorem allocproc_undo (h : Inv k) (hp : (k.proc p).state = .unused)
    (hlevel : x.queueNumber = (k.proc p).queueNumber) (hctx : x.context = (k.proc p).context)
    (hticks : x.queueticks = (k.proc p).queueticks) :
    Post QueueFault ((k.take p x).freeproc p) (Kept k) := by
  have hoff : ¬ ((k.proc p).state.ready = true) := by rw [hp]; simp
  have hother : ∀ y, y ≠ p → (k.take p x).proc y = k.proc y := fun y hy => take_of_ne _ _ _ hy
  have hpos : ∀ y, (k.proc y).state.ready = true → 0 < ((k.take p x).proc y).pid := by
    intro y hy
    rw [hother y fun he => hoff (he ▸ hy)]
    exact h.pid_pos hy
  have hqueued : Queued (k.take p x) fun y => (k.proc y).state.ready = true :=
    h.queued.off hoff rfl hother
  rw [freeproc_eq hqueued hoff hpos
    (by rw [take_self, hlevel]; exact h.level p), take_modify]
  refine ⟨h.congr (fun y => ?_) rfl (fun _ => rfl) (le_of_lt (Int.lt_succ _)),
    take_calm k (.park hlevel hticks (by simp [Proc.freed]) (nomatch ·) (nomatch ·) fun hr => ?_)⟩
  case refine_2 => exact absurd (by rw [hr]; rfl) hoff
  by_cases hy : y = p
  · rw [hy, take_self]
    exact ⟨Prod.ext hp.symm (Prod.ext (h.pids.unused p hp).symm hctx), hlevel⟩
  · rw [take_of_ne _ _ _ hy]
    exact ⟨rfl, rfl⟩

/-- The record of a successful allocation. -/
def Proc.allocated (x : Proc) (pid tickets : Int) (ticks : Nat) : Proc :=
  Proc.fresh { x with pid := pid, state := .used, trapframe := .junk } tickets ticks

/-- `allocproc` succeeds in the slot `p`, or fails and leaves the table as it was. -/
theorem allocproc_spec (h : Inv k) (a : Alloc) :
    Post QueueFault (k.allocproc a) fun r =>
      (r.2 = none ∧ Kept k r.1) ∨
      ∃ p tickets, k.freeSlot = some p ∧
        r = (k.take p ((k.proc p).allocated k.nextpid tickets k.ticks), some p) := by
  rw [Kernel.allocproc]
  split
  · exact .inl ⟨rfl, h, .refl k⟩
  · next p hslot =>
    have hp := freeSlot_unused hslot
    rw [Kernel.allocpid]
    split
    · simp only [ok_bind, allocpid_modify, take_modify, take_self]
      split
      · refine Post.bind (allocproc_undo h hp ?_ ?_ ?_) fun k' hk => .inl ⟨rfl, hk⟩
        all_goals rfl
      · split
        · refine Post.bind (allocproc_undo h hp ?_ ?_ ?_) fun k' hk => .inl ⟨rfl, hk⟩
          all_goals rfl
        · exact .inr ⟨p, _, hslot, rfl⟩
    · simp [error_bind, QueueFault]

/-- Filling a free slot keeps the invariant. -/
theorem Inv.take (h : Inv k) (hp : (k.proc p).state = .unused) (hstate : x.state = .used)
    (hpid : x.pid = k.nextpid) (hlevel : x.queueNumber = (k.proc p).queueNumber)
    (hctx : x.context = .forkret) :
    Inv (k.take p x) := by
  refine h.alloc hp (fun y hy => take_of_ne _ _ _ hy) ?_ ?_ rfl ?_ ?_ rfl fun _ => rfl
  all_goals rw [take_self]; assumption

theorem take_unclaimed (h : Inv k) (hp : (k.proc p).state = .unused) (hstate : x.state = .used) :
    Unclaimed (k.take p x) p := by
  intro y hy hcy
  have hne : y ≠ p := fun he => by rw [he, take_self, hstate] at hy; cases hy
  rw [take_of_ne _ _ _ hne] at hy hcy
  exact h.unclaimed (by rw [hp]; simp) y hy hcy

/-! ## `userinit` and `fork` -/

/-- `enqueue` of a child nobody else claims: it becomes runnable at the end of level 0. -/
theorem publish_spec (h : Inv k) (hp : (k.proc p).state = .used) (hnone : Unclaimed k p)
    {f : Proc → Proc} (hstate : (f (k.proc p)).state = .runnable)
    (hpid : (f (k.proc p)).pid = (k.proc p).pid)
    (hlevel : (f (k.proc p)).queueNumber = (k.proc p).queueNumber)
    (hctx : (f (k.proc p)).context = (k.proc p).context) :
    (k.modify p f).enqueue p 0 = .ok ((k.modify p f).joined p 0) ∧
      Inv ((k.modify p f).joined p 0) := by
  have hself : ((k.modify p f).joined p 0).proc p =
      { f (k.proc p) with queueticks := 0, queueNumber := 0 } := by
    rw [joined_proc, if_pos rfl, Kernel.modify_self]
    rfl
  refine ⟨enqueue_modify h (by rw [hp]; rfl) hpid hlevel 0, h.join (q := 0) (.inr ⟨hp, hnone⟩)
    (fun x hx => ?_) (by rw [hself, hstate]) (by rw [hself, hpid]) (by rw [hself]; rfl)
    (by rw [hself, hctx]) rfl (fun _ => rfl) rfl⟩
  rw [joined_proc, if_neg hx, Kernel.modify_of_ne _ _ _ hx]

/-- A process enters level 0: it was not live, it is now, with nothing charged; the others are
calm, and the history says so. -/
structure Published (k : Kernel n) (p : Slot) (k' : Kernel n) : Prop where
  ticks : k'.ticks = k.ticks
  hist : k'.hist = .entered p 0 :: k.hist
  old : (k.proc p).state.live = false
  new : (k'.proc p).state = .runnable
  level : (k'.proc p).queueNumber = 0
  charge : (k'.proc p).queueticks = 0
  other : ∀ x, x ≠ p → Proc.Calm (k.proc x) (k'.proc x)

/-- `userinit` publishes the first process. -/
theorem userinit_spec (h : Inv k) (a : Alloc) :
    Post QueueFault (k.userinit a) fun k' =>
      Inv k' ∧ ∃ p, k.freeSlot = some p ∧ Published k p k' ∧ k'.initproc = some p := by
  refine (allocproc_spec h a).bind fun r hr => ?_
  rcases hr with ⟨hr, -⟩ | ⟨p, t, hslot, rfl⟩
  · rcases r with ⟨k', q⟩
    cases hr
    simp [QueueFault]
  · have hp := freeSlot_unused hslot
    have htake := h.take hp (x := (k.proc p).allocated k.nextpid t k.ticks) rfl rfl rfl rfl
    let k₁ : Kernel n :=
      { k.take p ((k.proc p).allocated k.nextpid t k.ticks) with initproc := some p }
    have h₁ : Inv k₁ := htake.congr (fun _ => ⟨rfl, rfl⟩) rfl (fun _ => rfl) (le_refl _)
    have hself : k₁.proc p = (k.proc p).allocated k.nextpid t k.ticks := take_self ..
    obtain ⟨henq, hinv⟩ := publish_spec h₁ (by rw [hself]; rfl) (take_unclaimed h hp rfl)
      (f := fun x => { x with
        trapframe := { x.trapframe with
          epc := 0, regs := update x.trapframe.regs .sp 4096 }
        state := .runnable, tickets := 1 }) rfl rfl rfl rfl
    show Post QueueFault (Kernel.enqueue _ p 0 >>= fun k => pure (k.note (.entered p 0))) _
    rw [henq]
    refine ⟨hinv.congr (fun _ => ⟨rfl, rfl⟩) rfl (fun _ => rfl) (le_refl _), p, hslot,
      ⟨rfl, rfl, ?_, ?_, ?_, ?_, ?_⟩, rfl⟩
    · rw [hp]; rfl
    · rw [Kernel.note_proc, joined_proc, if_pos rfl, Kernel.modify_self]
    · rw [Kernel.note_proc, joined_proc, if_pos rfl]; rfl
    · rw [Kernel.note_proc, joined_proc, if_pos rfl]
    · intro x hx
      rw [Kernel.note_proc, joined_proc, if_neg hx, Kernel.modify_of_ne _ _ _ hx]
      show Proc.Calm _ ((k.take p _).proc x)
      rw [take_of_ne _ _ _ hx]
      exact .refl _

theorem forkBegin_spec (h : Inv k) (hrun : (k.proc p).state = .running) (a : Alloc)
    (uvmcopy : Bool) : Post QueueFault (k.forkBegin p a uvmcopy) fun r => Kept k r.1 := by
  refine (allocproc_spec h a).bind fun r hr => ?_
  rcases hr with ⟨hr, hkept⟩ | ⟨np, t, hslot, rfl⟩
  · rcases r with ⟨k', q⟩
    cases hr
    exact hkept
  · have hnp := freeSlot_unused hslot
    let k₁ := k.take np ((k.proc np).allocated k.nextpid t k.ticks)
    have h₁ : Inv k₁ := h.take hnp rfl rfl rfl rfl
    have hself : k₁.proc np = (k.proc np).allocated k.nextpid t k.ticks := take_self ..
    have hused : (k₁.proc np).state = .used := by rw [hself]; rfl
    have hnone : Unclaimed k₁ np := take_unclaimed h hnp rfl
    have hcalm : Calm k k₁ := take_calm k ⟨⟨rfl, .inr ⟨rfl, rfl⟩, (nomatch ·)⟩, (nomatch ·),
      fun hr => by rw [hnp] at hr; cases hr⟩
    have hne : p ≠ np := fun he => by rw [he, hnp] at hrun; cases hrun
    show Post QueueFault (if !uvmcopy then _ else _) _
    split
    · exact (freeproc_kept h₁ (.inl hused) hnone).bind fun k₂ h₂ => .trans hcalm h₂
    · let k₂ := k₁.modify np fun x =>
        { x with trapframe := { (k₁.proc p).trapframe with
            regs := update (k₁.proc p).trapframe.regs .a0 0 } }
      have h₂ : Inv k₂ := h₁.modify_core ⟨rfl, rfl⟩
      have hp₂ : k₂.proc p = k.proc p := by
        rw [Kernel.modify_of_ne _ _ _ hne, take_of_ne _ _ _ hne]
      have hnp₂ : (k₂.proc np).state = .used := by rw [Kernel.modify_self]; exact hused
      have hnone₂ : Unclaimed k₂ np := by
        intro x hx hcx
        have hxn : x ≠ np := fun he => by rw [he, hnp₂] at hx; cases hx
        rw [Kernel.modify_of_ne _ _ _ hxn] at hx hcx
        exact hnone x hx hcx
      have hrun₂ : (k₂.proc p).state = .running := by rw [hp₂]; exact hrun
      let k₃ := k₂.modify p fun x => { x with context := .forking np }
      have h₃ : Inv k₃ := by
        refine h₂.modify_running hrun₂ hrun₂ rfl rfl fun np' he => ?_
        cases he
        exact ⟨hnp₂, fun x _ => hnone₂ x⟩
      have hcalm₂ : Calm k₁ k₂ := .modify k₁ (.keep rfl rfl rfl id (.inl rfl))
      have hcalm₃ : Calm k₂ k₃ := .modify k₂ ⟨⟨rfl, .inl rfl, fun hl => ⟨hl, id⟩⟩,
        fun hr => ⟨hr, fun _ he => (nomatch he)⟩, id⟩
      exact ⟨h₃, hcalm.trans (hcalm₂.trans hcalm₃)⟩

/-- `fork` publishes the child and answers its pid. -/
theorem forkEnd_spec (h : Inv k) {np : Slot} (hrun : (k.proc p).state = .running)
    (hctx : (k.proc p).context = .forking np) :
    ∃ k', k.forkEnd p np = .ok (k', (k.proc np).pid) ∧ Inv k' ∧ Published k np k' ∧
      k'.cpus = k.cpus ∧ k'.initproc = k.initproc ∧ (k'.proc np).parent = some p := by
  have hready : (k.proc p).state.ready = true := by rw [hrun]; rfl
  have hnp : (k.proc np).state = .used := h.threads.forking p np hready hctx
  have hne : p ≠ np := fun he => by rw [he, hnp] at hrun; cases hrun
  -- the thread leaves `fork` first, and the child is then nobody's
  have h₁ : Inv (k.modify p fun x => { x with context := .kernel }) :=
    h.modify_running hrun hrun rfl rfl (by simp)
  have hnp₁ : (k.modify p fun x => { x with context := .kernel }).proc np = k.proc np :=
    Kernel.modify_of_ne _ _ _ hne.symm
  have hnone : Unclaimed (k.modify p fun x => { x with context := .kernel }) np := by
    intro x hx hcx
    by_cases hxp : x = p
    · rw [hxp, Kernel.modify_self] at hcx
      cases hcx
    · rw [Kernel.modify_of_ne _ _ _ hxp] at hx hcx
      exact hxp (h.threads.inj x p np hx hready hcx hctx)
  obtain ⟨-, hinv⟩ := publish_spec h₁ (by rw [hnp₁]; exact hnp) hnone
    (f := fun x => { x with parent := some p, state := .runnable }) rfl rfl rfl rfl
  have henq := enqueue_modify h (by rw [hnp]; rfl) (p := np)
    (f := fun x => { x with parent := some p, state := .runnable }) rfl rfl 0
  let k₂ := (k.modify np fun x => { x with parent := some p, state := .runnable }).joined np 0
  have hself : k₂.proc np = { k.proc np with
      parent := some p, state := .runnable, queueticks := 0, queueNumber := 0 } := by
    rw [joined_proc, if_pos rfl, Kernel.modify_self]
    rfl
  have hother : ∀ x, x ≠ np → k₂.proc x = k.proc x := fun x hx => by
    rw [joined_proc, if_neg hx, Kernel.modify_of_ne _ _ _ hx]
  let k₃ := (k₂.note (.entered np 0)).modify p fun x => { x with context := .kernel }
  have hself₃ : k₃.proc np = k₂.proc np := Kernel.modify_of_ne _ _ _ hne.symm
  refine ⟨k₃, ?_, hinv.congr (fun x => ?_) rfl (fun _ => rfl) (le_refl _),
    ⟨rfl, rfl, by rw [hnp]; rfl, ?_, ?_, ?_, fun x hx => ?_⟩, rfl, rfl, ?_⟩
  · rw [Kernel.forkEnd, Kernel.modify_modify]
    show ((k.modify np fun x => { x with parent := some p, state := .runnable }).enqueue np
      ((0 : Fin 4) : Nat) >>= _) = _
    rw [henq]
    show Except.ok (k₃, (k₂.proc np).pid) = _
    rw [hself]
  · by_cases hxn : x = np
    · rw [hxn, hself₃, hself, joined_proc, if_pos rfl, Kernel.modify_self, hnp₁]
      exact ⟨rfl, rfl⟩
    · rw [joined_proc, if_neg hxn, Kernel.modify_of_ne _ _ _ hxn]
      by_cases hxp : x = p
      · rw [hxp, Kernel.modify_self, Kernel.modify_self, Kernel.note_proc, hother p hne]
        exact ⟨rfl, rfl⟩
      · rw [Kernel.modify_of_ne _ _ _ hxp, Kernel.modify_of_ne _ _ _ hxp, Kernel.note_proc,
          hother x hxn]
        exact ⟨rfl, rfl⟩
  · rw [hself₃, hself]
  · rw [hself₃, hself]
  · rw [hself₃, hself]
  · by_cases hxp : x = p
    · rw [hxp, Kernel.modify_self, Kernel.note_proc, hother p hne]
      exact .keep rfl rfl rfl id (.inr rfl)
    · rw [Kernel.modify_of_ne _ _ _ hxp, Kernel.note_proc, hother x hx]
      exact .refl _
  · rw [hself₃, hself]

/-! ## `wait` and `waitx` -/

theorem exitedChild_zombie {pp : Slot} (h : k.exitedChild p = some pp) :
    (k.proc pp).parent = some p ∧ (k.proc pp).state = .zombie := by
  simpa using List.find?_some h

/-- `wait` keeps the invariant. -/
theorem wait_spec (h : Inv k) (hc : k.myproc c = some p) (copyoutFails : Bool) :
    Post QueueFault (k.wait c p copyoutFails) fun r => Kept k r.1 := by
  rw [Kernel.wait]
  split
  · next pp hpp =>
    have hz := (exitedChild_zombie hpp).2
    have hne : pp ≠ p := fun he => by
      rw [he, h.harts.current c p hc] at hz
      cases hz
    let k₁ := k.modify p fun x =>
      { x with syscallCount := fun i => int32 (x.syscallCount i + (k.proc pp).syscallCount i) }
    have h₁ : Inv k₁ := h.modify_core ⟨rfl, rfl⟩
    have hcalm : Calm k k₁ := .modify k (.keep rfl rfl rfl id (.inl rfl))
    have hz₁ : (k₁.proc pp).state = .zombie := by
      rw [Kernel.modify_of_ne _ _ _ hne]
      exact hz
    show Post QueueFault (if copyoutFails then _ else _) _
    split
    · exact ⟨h₁, hcalm⟩
    · exact (freeproc_kept h₁ (.inr hz₁) (h₁.unclaimed (by rw [hz₁]; simp))).bind
        fun k₂ h₂ => .trans hcalm h₂
  · split
    · exact ⟨h, .refl k⟩
    · exact (sleep_kept h hc _).bind fun k₁ h₁ => h₁

theorem waitx_spec (h : Inv k) (hc : k.myproc c = some p) (copyoutFails : Bool) :
    Post QueueFault (k.waitx c p copyoutFails) fun r => Kept k r.1 := by
  rw [Kernel.waitx]
  split
  · next pp hpp =>
    have hz := (exitedChild_zombie hpp).2
    show Post QueueFault (if copyoutFails then _ else _) _
    split
    · exact ⟨h, .refl k⟩
    · exact (freeproc_kept h (.inr hz) (h.unclaimed (by rw [hz]; simp))).bind fun k₂ h₂ => h₂
  · split
    · exact ⟨h, .refl k⟩
    · exact (sleep_kept h hc _).bind fun k₁ h₁ => h₁

end Xv6
