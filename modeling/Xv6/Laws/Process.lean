import Xv6.Laws.Invariant

/-!
# What the process functions do between two context switches
-/

namespace Xv6

open Base

variable {n : Nat} {k k' : Kernel n} {p : Slot} {c : Fin n} {x : Proc} {f : Proc → Proc}
  {me : Option Slot}

/-- The faults the queues could cause: an index outside an array, a null entry. -/
def QueueFault (f : Fault) : Prop := f = .bounds ∨ f = .null "array cell"

@[simp] theorem myproc_setCpu (k : Kernel n) (c d : Fin n) (r : Option Slot) :
    (k.setCpu c r).myproc d = if d = c then r else k.myproc d := Kernel.setCpu_cpu k c r d

@[simp] theorem myproc_modify (k : Kernel n) (p : Slot) (f : Proc → Proc) (d : Fin n) :
    (k.modify p f).myproc d = k.myproc d := rfl

@[simp] theorem myproc_note (k : Kernel n) (o : Obs) (d : Fin n) :
    (k.note o).myproc d = k.myproc d := rfl

@[simp] theorem left_proc (k : Kernel n) (p : Slot) (q : Fin 4) : (k.left p q).proc = k.proc :=
  rfl

theorem joined_proc (k : Kernel n) (p x : Slot) (q : Fin 4) :
    (k.joined p q).proc x =
      if x = p then { k.proc p with queueticks := 0, queueNumber := q } else k.proc x := by
  rw [Kernel.joined, Kernel.modify_proc]
  rfl

/-! ## Calm steps -/

/-- The record changes in nothing the schedulers' accounts read: the level stays, the ticks used
at it stay (or are cleared, off the queues), and nobody comes alive or is pardoned. -/
structure Proc.Steady (x x' : Proc) : Prop where
  level : x'.queueNumber = x.queueNumber
  ticks : x'.queueticks = x.queueticks ∨ (x'.queueticks = 0 ∧ x'.state.live = false)
  live : x'.state.live = true → x.state.live = true ∧ (x.killed = true → x'.killed = true)

/-- And nobody is dispatched, or moved into the timer branch while running. -/
structure Proc.Calm (x x' : Proc) : Prop extends Proc.Steady x x' where
  run : x'.state = .running →
    x.state = .running ∧ ∀ i, x'.context = .usertrap i → x.context = .usertrap i
  stay : x.state = .runnable → x'.state = .runnable

theorem Proc.Steady.trans {y z : Proc} (h : Proc.Steady x y) (h' : Proc.Steady y z) :
    Proc.Steady x z := by
  refine ⟨h'.level.trans h.level, ?_, fun hz => ?_⟩
  · rcases h'.ticks with hz | hz
    · rcases h.ticks with hy | ⟨hy, hdead⟩
      · exact .inl (hz.trans hy)
      · refine .inr ⟨hz.trans hy, Bool.eq_false_iff.mpr fun hlive => ?_⟩
        rw [(h'.live hlive).1] at hdead
        cases hdead
    · exact .inr hz
  · have hy := h'.live hz
    have hx := h.live hy.1
    exact ⟨hx.1, fun hk => hy.2 (hx.2 hk)⟩

theorem Proc.Calm.trans {y z : Proc} (h : Proc.Calm x y) (h' : Proc.Calm y z) :
    Proc.Calm x z := by
  refine ⟨h.toSteady.trans h'.toSteady, fun hz => ?_, fun hx => h'.stay (h.stay hx)⟩
  obtain ⟨hy, hyz⟩ := h'.run hz
  obtain ⟨hx, hxy⟩ := h.run hy
  exact ⟨hx, fun i hi => hxy i (hyz i hi)⟩

theorem Proc.Calm.keep {x' : Proc} (hstate : x'.state = x.state)
    (hlevel : x'.queueNumber = x.queueNumber) (hticks : x'.queueticks = x.queueticks)
    (hkilled : x.killed = true → x'.killed = true)
    (hctx : x'.context = x.context ∨ x'.context.plain = true) : Proc.Calm x x' := by
  refine ⟨⟨hlevel, .inl hticks, fun hl => ⟨hstate ▸ hl, hkilled⟩⟩,
    fun hr => ⟨hstate ▸ hr, fun i hi => ?_⟩, fun hr => hstate.trans hr⟩
  rcases hctx with he | hplain
  · rw [← he, hi]
  · rw [hi] at hplain
    cases hplain

theorem Proc.Calm.refl (x : Proc) : Proc.Calm x x := .keep rfl rfl rfl id (.inl rfl)

/-- A process that is not running in the end, live only if it was, and runnable if it was. -/
theorem Proc.Calm.park {x' : Proc} (hlevel : x'.queueNumber = x.queueNumber)
    (hticks : x'.queueticks = x.queueticks) (hrun : x'.state ≠ .running)
    (hlive : x'.state.live = true → x.state.live = true)
    (hkilled : x'.state.live = true → x'.killed = x.killed)
    (hstay : x.state = .runnable → x'.state = .runnable) : Proc.Calm x x' :=
  ⟨⟨hlevel, .inl hticks, fun hl => ⟨hlive hl, fun hk => (hkilled hl).trans hk⟩⟩,
    fun hr => absurd hr hrun, hstay⟩

/-- Every record changes steadily, and the clock, the history and `initproc` stay. -/
structure Steady (k k' : Kernel n) : Prop where
  ticks : k'.ticks = k.ticks
  hist : k'.hist = k.hist
  init : k'.initproc = k.initproc
  slot : ∀ x, Proc.Steady (k.proc x) (k'.proc x)

/-- Every record changes calmly, and the clock, the history and `initproc` stay. -/
structure Calm (k k' : Kernel n) : Prop where
  ticks : k'.ticks = k.ticks
  hist : k'.hist = k.hist
  init : k'.initproc = k.initproc
  slot : ∀ x, Proc.Calm (k.proc x) (k'.proc x)

theorem Calm.refl (k : Kernel n) : Calm k k := ⟨rfl, rfl, rfl, fun _ => .refl _⟩

theorem Calm.trans {k₁ k₂ k₃ : Kernel n} (h : Calm k₁ k₂) (h' : Calm k₂ k₃) : Calm k₁ k₃ :=
  ⟨h'.ticks.trans h.ticks, h'.hist.trans h.hist, h'.init.trans h.init,
    fun x => (h.slot x).trans (h'.slot x)⟩

theorem Calm.steady (h : Calm k k') : Steady k k' :=
  ⟨h.ticks, h.hist, h.init, fun x => (h.slot x).toSteady⟩

theorem Calm.modify (k : Kernel n) (hf : Proc.Calm (k.proc p) (f (k.proc p))) :
    Calm k (k.modify p f) := by
  refine ⟨rfl, rfl, rfl, fun x => ?_⟩
  rw [Kernel.modify_proc]
  split
  · next he => rw [he]; exact hf
  · exact .refl _

/-! ## Wakeups -/

/-- What wakeups do: sleepers other than `me` may become runnable, and nothing else changes but
the arrays. -/
structure Woken (me : Option Slot) (k k' : Kernel n) : Prop where
  frame : k' = { k with proc := k'.proc, multique := k'.multique }
  slot : ∀ x, k'.proc x = k.proc x ∨ (some x ≠ me ∧ (k.proc x).state = .sleeping ∧
    k'.proc x = { k.proc x with state := .runnable })

theorem Woken.refl (me : Option Slot) (k : Kernel n) : Woken me k k :=
  ⟨rfl, fun _ => .inl rfl⟩

theorem Woken.trans {k₁ k₂ k₃ : Kernel n} (h : Woken me k₁ k₂) (h' : Woken me k₂ k₃) :
    Woken me k₁ k₃ := by
  refine ⟨?_, fun x => ?_⟩
  · rw [h'.frame, h.frame]
  · rcases h.slot x with h₁ | ⟨hs, hsl, h₁⟩ <;> rcases h'.slot x with h₂ | ⟨hs', hsl', h₂⟩
    · exact .inl (h₂.trans h₁)
    · rw [h₁] at hsl' h₂
      exact .inr ⟨hs', hsl', h₂⟩
    · exact .inr ⟨hs, hsl, h₂.trans h₁⟩
    · rw [h₁] at hsl'
      cases hsl'

theorem Woken.calm (h : Woken me k k') : Calm k k' := by
  refine ⟨?_, ?_, ?_, fun x => ?_⟩
  · rw [h.frame]
  · rw [h.frame]
  · rw [h.frame]
  · rcases h.slot x with he | ⟨-, hs, he⟩
    · rw [he]; exact .refl _
    · rw [he]
      exact .park rfl rfl (by simp) (fun _ => by rw [hs]; rfl) (fun _ => rfl) fun _ => rfl

theorem Woken.cpus (h : Woken me k k') : k'.cpus = k.cpus := by
  rw [h.frame]

theorem Woken.self (h : Woken (some p) k k') : k'.proc p = k.proc p := by
  rcases h.slot p with he | ⟨hne, -⟩
  · exact he
  · exact absurd rfl hne

/-- A record change that leaves pid and level number alone is invisible to `enqueue`. -/
theorem enqueue_modify (h : Inv k) (hready : (k.proc p).state.ready = false)
    (hpid : (f (k.proc p)).pid = (k.proc p).pid)
    (hlevel : (f (k.proc p)).queueNumber = (k.proc p).queueNumber) (q : Fin 4) :
    (k.modify p f).enqueue p q = .ok ((k.modify p f).joined p q) := by
  refine enqueue_eq_joined (h.queued.modify p ⟨hpid, hlevel⟩) (fun x hx => ?_) q
  have hne : x ≠ p := fun he => by rw [he, hready] at hx; cases hx
  rw [Kernel.modify_of_ne _ _ _ hne, Kernel.modify_self, hpid]
  exact h.fresh hready x hx

/-- A process that was not queued joins its queue. -/
theorem Inv.join (h : Inv k) {x : Slot} {q : Fin 4}
    (hold : (k.proc x).state = .sleeping ∨ ((k.proc x).state = .used ∧
      ∀ y, (k.proc y).state.ready = true → (k.proc y).context ≠ .forking x))
    (hother : ∀ y, y ≠ x → k'.proc y = k.proc y) (hstate : (k'.proc x).state = .runnable)
    (hpid : (k'.proc x).pid = (k.proc x).pid) (hlevel : (k'.proc x).queueNumber = q)
    (hctx : (k'.proc x).context = (k.proc x).context)
    (hmq : k'.multique = (k.joined x q).multique) (hc : ∀ c, k'.myproc c = k.myproc c)
    (hn : k'.nextpid = k.nextpid) : Inv k' := by
  have hready : (k.proc x).state.ready = false := by
    rcases hold with hs | ⟨hs, -⟩ <;> rw [hs] <;> rfl
  have hlive : (k.proc x).state ≠ .unused := by
    rcases hold with hs | ⟨hs, -⟩ <;> rw [hs] <;> simp
  have hrun : (k.proc x).state ≠ .running := by
    rcases hold with hs | ⟨hs, -⟩ <;> rw [hs] <;> simp
  refine ⟨?_, h.level_change hother (by rw [hlevel]; exact q.isLt), ?_, ?_, ?_⟩
  · refine ((h.queued.joined (h.fresh hready) q).frame hmq fun y => ?_).congr fun y => ?_
    · rw [joined_proc]
      split
      · next he => rw [he, hpid, hlevel]; exact ⟨rfl, rfl⟩
      · next hne => rw [hother y hne]; exact ⟨rfl, rfl⟩
    · by_cases hy : y = x
      · rw [hy, hstate]; simp
      · rw [hother y hy]; simp [hy]
  · refine h.pids.same (fun y => ?_) (fun y => ?_) (le_of_eq hn.symm) <;> by_cases hy : y = x
    · rw [hy, hstate]; exact ⟨(nomatch ·), fun hu => absurd hu hlive⟩
    · rw [hother y hy]
    · rw [hy, hpid]
    · rw [hother y hy]
  · refine h.harts.same (fun y => ?_) hc
    by_cases hy : y = x
    · rw [hy, hstate]; exact ⟨(nomatch ·), fun hr => absurd hr hrun⟩
    · rw [hother y hy]
  · refine h.threads.change hother (by rw [hstate]; simp) (by rw [hstate]; simp) ?_ ?_
    · intro y _ hy hcy
      rcases hold with hs | ⟨-, hnone⟩
      · have hu := h.threads.forking y x hy hcy
        rw [hs] at hu
        cases hu
      · exact absurd hcy (hnone y hy)
    · intro np _ hfork
      rw [hctx] at hfork
      rcases hold with hs | ⟨hs, -⟩
      · obtain ⟨b, hb⟩ := h.threads.sleeping x hs
        rw [hb] at hfork
        cases hfork
      · rw [h.threads.used x hs] at hfork
        cases hfork

theorem wakeupOne_spec {bad : Fault → Prop} (h : Inv k) (me : Option Slot) (chan : Chan)
    (x : Slot) : Post bad (Kernel.wakeupOne me chan k x) fun k' => Inv k' ∧ Woken me k k' := by
  rw [Kernel.wakeupOne]
  split
  · next hcond =>
    obtain ⟨hme, hsleep, -⟩ := hcond
    have hready : (k.proc x).state.ready = false := by rw [hsleep]; rfl
    let k₁ := k.modify x fun y => { y with state := .runnable }
    have henq : k₁.enqueue x (k₁.proc x).queueNumber = .ok (k₁.joined x ⟨_, h.level x⟩) := by
      rw [show (k₁.proc x).queueNumber = ((⟨_, h.level x⟩ : Fin 4) : Nat) by
        rw [Kernel.modify_self]]
      exact enqueue_modify h hready rfl rfl _
    show Post bad (k₁.enqueue x (k₁.proc x).queueNumber >>= _) _
    rw [henq]
    -- the level's ticks are put back, so only the state has changed
    let k₂ := (k₁.joined x ⟨_, h.level x⟩).modify x fun y =>
      { y with queueticks := (k₁.proc x).queueticks }
    have hother : ∀ y, y ≠ x → k₂.proc y = k.proc y := fun y hy => by
      rw [Kernel.modify_of_ne _ _ _ hy, joined_proc, if_neg hy, Kernel.modify_of_ne _ _ _ hy]
    have hself : k₂.proc x = { k.proc x with state := .runnable } := by
      rw [Kernel.modify_self, joined_proc, if_pos rfl, Kernel.modify_self]
    refine ⟨h.join (q := ⟨_, h.level x⟩) (.inl hsleep) hother (by rw [hself]) (by rw [hself])
      (by rw [hself]) (by rw [hself]) rfl (fun _ => rfl) rfl, rfl, fun y => ?_⟩
    by_cases hy : y = x
    · subst hy; exact .inr ⟨hme, hsleep, hself⟩
    · exact .inl (hother y hy)
  · exact ⟨h, .refl me k⟩

/-- `wakeup` keeps the invariant. -/
theorem wakeup_spec {bad : Fault → Prop} (h : Inv k) (me : Option Slot) (chan : Chan) :
    Post bad (k.wakeup me chan) fun k' => Inv k' ∧ Woken me k k' := by
  refine Post.foldlM (I := fun k' => Inv k' ∧ Woken me k k') slots ⟨h, .refl me k⟩ ?_
  intro a ha x _
  exact (wakeupOne_spec ha.1 me chan x).mono fun b hb => ⟨hb.1, ha.2.trans hb.2⟩

/-! ## Giving the hart up, and taking it -/

/-- The current process stops being ready: its record changes, it leaves its queue, and the hart
goes back to its scheduler. -/
theorem leave_spec (h : Inv k) (hc : k.myproc c = some p)
    (hpid : (f (k.proc p)).pid = (k.proc p).pid)
    (hlevel : (f (k.proc p)).queueNumber = (k.proc p).queueNumber)
    (hstate : (f (k.proc p)).state = .zombie ∨
      ((f (k.proc p)).state = .sleeping ∧ ∃ b, (f (k.proc p)).context = .asleep b)) :
    ∃ q : Fin 4, (k.proc p).queueNumber = q ∧ p ∈ k.queue q ∧
      (k.modify p f).dequeue p ((k.modify p f).proc p).queueNumber =
        .ok ((k.modify p f).left p q) ∧
      Inv (((k.modify p f).left p q).setCpu c none) := by
  have hrun : (k.proc p).state = .running := h.harts.current c p hc
  have hq₁ := h.queued.modify p ⟨hpid, hlevel⟩
  obtain ⟨q, hq, hmem, hdeq⟩ := dequeue_eq_left hq₁ (p := p) (by rw [hrun]; rfl)
  rw [Kernel.modify_self, hlevel] at hq
  refine ⟨q, hq, hmem, hdeq, ?_⟩
  let k' := ((k.modify p f).left p q).setCpu c none
  have hother : ∀ x, x ≠ p → k'.proc x = k.proc x := fun x hx => Kernel.modify_of_ne _ _ _ hx
  have hself : k'.proc p = f (k.proc p) := Kernel.modify_self ..
  have hnot : (f (k.proc p)).state.ready = false := by
    rcases hstate with hz | ⟨hs, -⟩
    · rw [hz]; rfl
    · rw [hs]; rfl
  have hqueued : Queued k' fun x => (k'.proc x).state.ready = true := by
    have hframe : Queued k' _ := (hq₁.left hmem).frame rfl fun x => ⟨rfl, rfl⟩
    refine hframe.congr fun x => ?_
    by_cases hx : x = p
    · rw [hx, hself, hnot]; simp
    · rw [hother x hx]; simp [hx]
  show Inv k'
  refine h.step (p := p) hother (by rw [hself, hpid]) rfl (by rw [hrun]; simp)
    ?_ (by rw [hself, hlevel]; exact h.level p) hqueued
    (h.harts.park hc (fun x hx => by rw [hother x hx]) ?_ fun d => myproc_setCpu _ c d none)
    ?_ ?_
  · rw [hself]
    rcases hstate with hz | ⟨hs, -⟩
    · rw [hz]; simp
    · rw [hs]; simp
  · rw [hself]
    intro hr
    rw [hr] at hnot
    cases hnot
  · rw [hself]
    rcases hstate with hz | ⟨-, hb⟩
    · rw [hz]; simp
    · exact fun _ => hb
  · intro np hr
    rw [hself, hnot] at hr
    cases hr

/-- `sleep` takes the process out of its queue. -/
theorem sleep_spec (h : Inv k) (hc : k.myproc c = some p) (chan : Chan) :
    ∃ q : Fin 4, ∃ b, (k.proc p).queueNumber = q ∧ p ∈ k.queue q ∧
      k.sleep c p chan = .ok (((k.modify p fun x =>
        { x with chan := chan, state := .sleeping, context := .asleep b }).left p q).setCpu c
          none) ∧
      Inv (((k.modify p fun x =>
        { x with chan := chan, state := .sleeping, context := .asleep b }).left p q).setCpu c
          none) := by
  obtain ⟨q, hq, hmem, hdeq, hinv⟩ := leave_spec h hc (f := fun x =>
    { x with chan := chan, state := .sleeping
             context := .asleep (decide ((k.proc p).context = .exiting)) })
    rfl rfl (.inr ⟨rfl, _, rfl⟩)
  refine ⟨q, _, hq, hmem, ?_, hinv⟩
  show (Kernel.dequeue _ p _ >>= fun k => pure (k.setCpu c none)) = _
  rw [hdeq]
  rfl

theorem yield_proc (k : Kernel n) (c : Fin n) (p x : Slot) (ctx : Context) :
    (k.yield c p ctx).proc x =
      if x = p then { k.proc p with state := .runnable, context := ctx } else k.proc x := by
  rw [Kernel.yield, Kernel.setCpu_proc, Kernel.modify_proc]

/-- `yield`: the process stays queued. A thread inside `fork` stays there. -/
theorem Inv.yield (h : Inv k) (hc : k.myproc c = some p) {ctx : Context}
    (hctx : ∀ np, ctx = .forking np → (k.proc p).context = .forking np) :
    Inv (k.yield c p ctx) := by
  have hrun : (k.proc p).state = .running := h.harts.current c p hc
  have hother : ∀ x, x ≠ p → (k.yield c p ctx).proc x = k.proc x := fun x hx => by
    rw [yield_proc, if_neg hx]
  have hself : (k.yield c p ctx).proc p =
      { k.proc p with state := .runnable, context := ctx } := by
    rw [yield_proc, if_pos rfl]
  refine h.step (p := p) hother (by rw [hself]) rfl (by rw [hrun]; simp) (by rw [hself]; simp)
    (by rw [hself]; exact h.level p) ?_
    (h.harts.park hc (fun x hx => by rw [hother x hx]) (by rw [hself]; simp)
      fun d => myproc_setCpu _ c d none) (by rw [hself]; simp) ?_
  · have hframe : Queued (k.yield c p ctx) _ := h.queued.frame rfl fun x => by
      by_cases hx : x = p
      · rw [hx, hself]; exact ⟨rfl, rfl⟩
      · rw [hother x hx]; exact ⟨rfl, rfl⟩
    refine hframe.congr fun x => ?_
    by_cases hx : x = p
    · rw [hx, hself, hrun]; simp
    · rw [hother x hx]
  · intro np _ hfork
    rw [hself] at hfork
    exact ⟨by rw [hrun]; rfl, hctx np hfork⟩

/-- Giving a process the CPU keeps it queued. -/
theorem Inv.dispatch (h : Inv k) (hc : k.myproc c = none) (p : Slot) :
    Inv (k.dispatch c p) := by
  rw [Kernel.dispatch]
  split
  · next hrun =>
    let k' := (k.modify p fun x => { x with state := .running }).setCpu c (some p)
    have hother : ∀ x, x ≠ p → k'.proc x = k.proc x := fun x hx => by
      rw [Kernel.setCpu_proc, Kernel.modify_of_ne _ _ _ hx]
    have hself : k'.proc p = { k.proc p with state := .running } := by
      rw [Kernel.setCpu_proc, Kernel.modify_self]
    show Inv k'
    refine h.step (p := p) hother (by rw [hself]) rfl (by rw [hrun]; simp)
      (by rw [hself]; simp) (by rw [hself]; exact h.level p) ?_
      (h.harts.dispatch hc (by rw [hrun]; simp) (by rw [hself])
        (fun x hx => by rw [hother x hx]) fun d => myproc_setCpu _ c d (some p))
      (by rw [hself]; simp) ?_
    · have hframe : Queued k' _ := h.queued.frame rfl fun x => by
        by_cases hx : x = p
        · rw [hx, hself]; exact ⟨rfl, rfl⟩
        · rw [hother x hx]; exact ⟨rfl, rfl⟩
      refine hframe.congr fun x => ?_
      by_cases hx : x = p
      · rw [hx, hself, hrun]; simp
      · rw [hother x hx]
    · intro np _ hfork
      rw [hself] at hfork
      exact ⟨by rw [hrun]; rfl, hfork⟩
  · exact h

end Xv6
