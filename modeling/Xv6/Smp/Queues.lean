import Xv6.Laws.Queue
import Xv6.Smp.Steps

/-!
# The queue arrays are lists

Each of the four arrays `multique[q]`, with its counter `sizeofq[q]`, is a list of processes: what
`enqueue` and `dequeue` do to the cells is to append to it and to remove from it. So the order in a
queue is the order of arrival. Every step of the kernel makes at most one such call, on any number
of CPUs and in every build, and two processes that stay in a queue keep their order there.
-/

namespace Base.ArrayQueue

variable {α : Type} {l : List α}

/-- The cells below the counter hold pointers, and the others are null. -/
structure Packed (cap : Nat) (a : ArrayQueue α) : Prop where
  length : a.cells.length = cap
  front : ∀ i, i < a.size → ∃ x, a.cells[i]? = some (some x)
  back : ∀ i, a.size ≤ i → i < cap → a.cells[i]? = some none

theorem map_filterMap {l : List (Option α)} (h : ∀ y ∈ l, ∃ x, y = some x) :
    (l.filterMap id).map some = l := by
  induction l with
  | nil => rfl
  | cons y l ih =>
    obtain ⟨x, rfl⟩ := h y (List.mem_cons_self ..)
    have hrest := ih fun y hy => h y (List.mem_cons_of_mem _ hy)
    show some x :: (l.filterMap id).map some = some x :: l
    rw [hrest]

/-- Such an array is the array of a list. -/
theorem Packed.eq_ofList {cap : Nat} {a : ArrayQueue α} (h : a.Packed cap) :
    a = ofList cap a.toList ∧ a.toList.length = a.size ∧ a.size ≤ cap := by
  have hsize : a.size ≤ cap := by
    by_contra hgt
    obtain ⟨x, hx⟩ := h.front cap (by omega)
    rw [List.getElem?_eq_none (Nat.le_of_eq h.length)] at hx
    cases hx
  have hfront : a.toList.map some = a.cells.take a.size := by
    refine map_filterMap fun y hy => ?_
    obtain ⟨i, hi, rfl⟩ := List.mem_iff_getElem.mp hy
    rw [List.length_take] at hi
    obtain ⟨x, hx⟩ := h.front i (by omega)
    rw [List.getElem_take]
    exact ⟨x, (List.getElem?_eq_some_iff.mp hx).2⟩
  have hlen : a.toList.length = a.size := by
    have hmap := congrArg List.length hfront
    rw [List.length_map, List.length_take, h.length] at hmap
    omega
  have hback : a.cells.drop a.size = List.replicate (cap - a.size) none := by
    refine List.eq_replicate_iff.mpr ⟨by rw [List.length_drop, h.length], fun y hy => ?_⟩
    obtain ⟨i, hi, rfl⟩ := List.mem_iff_getElem.mp hy
    rw [List.length_drop, h.length] at hi
    have hnone := h.back (a.size + i) (by omega) (by omega)
    rw [List.getElem_drop]
    exact (List.getElem?_eq_some_iff.mp hnone).2
  refine ⟨?_, hlen, hsize⟩
  have hcells : a.cells = (ofList cap a.toList).cells := by
    unfold ofList
    rw [hfront, hlen, ← hback, List.take_append_drop]
  show (⟨a.cells, a.size⟩ : ArrayQueue α) = ⟨(ofList cap a.toList).cells, a.toList.length⟩
  rw [← hcells, hlen]

theorem packed_ofList {cap : Nat} (h : l.length ≤ cap) : (ofList cap l).Packed cap := by
  refine ⟨?_, fun i hi => ?_, fun i hlo hhi => ?_⟩
  · unfold ofList
    rw [List.length_append, List.length_map, List.length_replicate]
    omega
  · have hi : i < l.length := hi
    refine ⟨l[i], ?_⟩
    unfold ofList
    rw [List.getElem?_append_left (by rwa [List.length_map]), List.getElem?_map,
      List.getElem?_eq_getElem hi]
    rfl
  · have hlo : l.length ≤ i := hlo
    unfold ofList
    rw [List.getElem?_append_right (by rwa [List.length_map]), List.length_map,
      List.getElem?_replicate, if_pos (by omega)]

/-! ## One change at a time -/

/-- At most one entry comes or goes: a new one that passes a test no entry passes, or the first one
that passes a test. -/
inductive Turn (a : ArrayQueue α) : ArrayQueue α → Prop
  | same : Turn a a
  | push {a' : ArrayQueue α} {x : α} {f : α → Bool} (hx : f x = true)
      (hnew : a.findIdx f = .ok none) (h : a.push x = .ok a') : Turn a a'
  | remove {a' : ArrayQueue α} {f : α → Bool} (h : a.removeFirst f = .ok a') : Turn a a'

/-- A turn of a packed queue: nothing, one more at the end or one fewer. -/
theorem Turn.list {cap : Nat} {a' : ArrayQueue α} (h : Turn (ofList cap l) a')
    (hcap : l.length ≤ cap) : ∃ l', a' = ofList cap l' ∧ l'.length ≤ cap ∧
      (l' = l ∨ (∃ x, x ∉ l ∧ l' = l ++ [x]) ∨ ∃ f, l' = l.eraseP f) := by
  cases h with
  | same => exact ⟨l, rfl, hcap, .inl rfl⟩
  | @push _ x f hx hnew h =>
    rw [findIdx_ofList] at hnew
    injection hnew with hnew
    have hmem : x ∉ l := fun hmem => by
      have hno := List.findIdx?_eq_none_iff.mp hnew x hmem
      rw [hx] at hno
      cases hno
    by_cases hroom : l.length < cap
    · rw [push_ofList hroom] at h
      cases h
      refine ⟨l ++ [x], rfl, ?_, .inr (.inl ⟨x, hmem, rfl⟩)⟩
      rw [List.length_append]
      exact hroom
    · rw [push_full (Nat.le_of_not_lt hroom)] at h
      cases h
  | @remove _ f h =>
    rw [removeFirst_ofList hcap] at h
    cases h
    exact ⟨l.eraseP f, rfl, Nat.le_trans (List.length_eraseP_le ..) hcap, .inr (.inr ⟨f, rfl⟩)⟩

/-- A turn lists nobody twice. -/
theorem Turn.nodup {l' : List α} (h : l.Nodup)
    (hl : l' = l ∨ (∃ x, x ∉ l ∧ l' = l ++ [x]) ∨ ∃ f, l' = l.eraseP f) : l'.Nodup := by
  rcases hl with rfl | ⟨x, hx, rfl⟩ | ⟨f, rfl⟩
  · exact h
  · exact List.Nodup.append h (List.nodup_singleton x) (List.disjoint_singleton.mpr hx)
  · exact h.sublist List.eraseP_sublist

/-- Removing one entry does not change the order of two others. -/
theorem pair_eraseP {f : α → Bool} {x y : α} (h : l.Nodup) (hxy : [x, y].Sublist l)
    (hx : x ∈ l.eraseP f) (hy : y ∈ l.eraseP f) : [x, y].Sublist (l.eraseP f) := by
  induction l with
  | nil => cases hx
  | cons a l ih =>
    obtain ⟨ha, hl⟩ := List.nodup_cons.mp h
    by_cases hf : f a = true
    · rw [List.eraseP_cons_of_pos hf] at hx hy ⊢
      cases hxy with
      | cons _ hrest => exact hrest
      | cons_cons _ _ => exact absurd hx ha
    · rw [List.eraseP_cons_of_neg hf] at hx hy ⊢
      cases hxy with
      | cons _ hrest =>
        have hne : ∀ z ∈ [x, y], z ≠ a := fun z hz he => ha (he ▸ hrest.subset hz)
        have hx := (List.mem_cons.mp hx).resolve_left (hne x (by simp))
        have hy := (List.mem_cons.mp hy).resolve_left (hne y (by simp))
        exact (ih hl hrest hx hy).cons a
      | cons_cons _ hrest =>
        have hne : y ≠ x := fun he => ha (he ▸ hrest.subset (List.mem_singleton.mpr rfl))
        have hy := (List.mem_cons.mp hy).resolve_left hne
        exact (List.singleton_sublist.mpr hy).cons_cons x

/-- Of two entries that stay, the one in front stays in front. -/
theorem Turn.order {l' : List α} (h : l.Nodup)
    (hl : l' = l ∨ (∃ x, x ∉ l ∧ l' = l ++ [x]) ∨ ∃ f, l' = l.eraseP f) {x y : α}
    (hxy : [x, y].Sublist l) (hx : x ∈ l') (hy : y ∈ l') : [x, y].Sublist l' := by
  rcases hl with rfl | ⟨z, -, rfl⟩ | ⟨f, rfl⟩
  · exact hxy
  · exact hxy.trans (List.sublist_append_left ..)
  · exact pair_eraseP h hxy hx hy

end Base.ArrayQueue

namespace Xv6

open Base Function

variable {n : Nat} {k k' : Kernel n} {p : Slot} {q : Fin 4}

/-! ## The two functions -/

/-- The array of level `q` holds a list: processes with different pids, and nulls behind them. -/
structure Kernel.Listed (k : Kernel n) (q : Fin 4) : Prop where
  packed : (k.multique q).Packed NPROC
  pids : ((k.queue q).map fun e => (k.proc e).pid).Nodup

/-- A queue is the array of its list. -/
theorem Kernel.Listed.array (h : k.Listed q) : k.multique q = .ofList NPROC (k.queue q) :=
  h.packed.eq_ofList.1

theorem Kernel.Listed.length (h : k.Listed q) :
    (k.queue q).length = (k.multique q).size ∧ (k.queue q).length ≤ NPROC := by
  obtain ⟨-, hlen, hcap⟩ := h.packed.eq_ofList
  exact ⟨hlen, hlen ▸ hcap⟩

theorem Kernel.Listed.setQueue_self (h : k.Listed q) : k.setQueue q (k.queue q) = k := by
  unfold Kernel.setQueue
  rw [← h.array, update_eq_self]

/-- A process that is not there joins at the end. -/
theorem enqueue_new (h : k.Listed q) (hroom : (k.multique q).size < NPROC)
    (hnew : ∀ e ∈ k.queue q, (k.proc e).pid ≠ (k.proc p).pid) :
    k.enqueue p q = .ok (k.joined p q) := by
  have hscan : (k.multique q).findIdx (fun e => (k.proc e).pid == (k.proc p).pid) = .ok none := by
    rw [h.array, ArrayQueue.findIdx_ofList, List.findIdx?_eq_none_iff.mpr fun e he => ?_]
    exact beq_eq_false_iff_ne.mpr (hnew e he)
  have hpush : (k.multique q).push p = .ok (.ofList NPROC (k.queue q ++ [p])) := by
    rw [h.array, ArrayQueue.push_ofList (by rw [h.length.1]; exact hroom)]
  simp only [Kernel.enqueue, level_fin, bind, Except.bind, hscan, hpush]
  rfl

/-- A process that is there stays where it is. -/
theorem enqueue_there (h : k.Listed q) {e : Slot} (he : e ∈ k.queue q)
    (hpid : (k.proc e).pid = (k.proc p).pid) : k.enqueue p q = .ok k := by
  obtain ⟨i, hi⟩ : ∃ i, (k.queue q).findIdx? (fun e => (k.proc e).pid == (k.proc p).pid) = some i := by
    refine Option.isSome_iff_exists.mp ?_
    rw [List.findIdx?_isSome, List.any_eq_true]
    exact ⟨e, he, beq_iff_eq.mpr hpid⟩
  have hscan : (k.multique q).findIdx (fun e => (k.proc e).pid == (k.proc p).pid) =
      .ok (some i) := by
    rw [h.array, ArrayQueue.findIdx_ofList, hi]
  simp only [Kernel.enqueue, level_fin, bind, Except.bind, hscan]
  rfl

/-- Removing the only entry that passes a test. -/
theorem eraseP_pid {l : List Slot} (h : (l.map fun e => (k.proc e).pid).Nodup) (p : Slot) :
    l.eraseP (fun e => (k.proc e).pid == (k.proc p).pid) =
      l.filter fun e => (k.proc e).pid ≠ (k.proc p).pid := by
  induction l with
  | nil => rfl
  | cons e l ih =>
    obtain ⟨he, hl⟩ := List.nodup_cons.mp h
    by_cases hpid : (k.proc e).pid = (k.proc p).pid
    · have hrest : l.filter (fun x => (k.proc x).pid ≠ (k.proc p).pid) = l := by
        refine List.filter_eq_self.mpr fun x hx => decide_eq_true fun hx' => he ?_
        exact List.mem_map.mpr ⟨x, hx, hx'.trans hpid.symm⟩
      rw [List.eraseP_cons_of_pos (by simp [hpid]), List.filter_cons_of_neg (by simp [hpid]), hrest]
    · rw [List.eraseP_cons_of_neg (by simp [hpid]), List.filter_cons_of_pos (by simp [hpid]), ih hl]

/-- `dequeue` removes the entries with the pid. -/
theorem dequeue_filter (h : k.Listed q) (p : Slot) : k.dequeue p q = .ok (k.setQueue q
    ((k.queue q).filter fun e => (k.proc e).pid ≠ (k.proc p).pid)) := by
  have hremove : (k.multique q).removeFirst (fun e => (k.proc e).pid == (k.proc p).pid) =
      .ok (.ofList NPROC ((k.queue q).filter fun e => (k.proc e).pid ≠ (k.proc p).pid)) := by
    rw [h.array, ArrayQueue.removeFirst_ofList h.length.2, eraseP_pid h.pids]
  by_cases hzero : (k.multique q).size = 0
  · have hnil : k.queue q = [] := List.length_eq_zero_iff.mp (h.length.1.trans hzero)
    have hself := h.setQueue_self
    rw [hnil] at hself
    simp only [Kernel.dequeue, level_fin, bind, Except.bind, hzero, if_true, hnil, List.filter_nil,
      hself]
    rfl
  · simp only [Kernel.dequeue, level_fin, bind, Except.bind, hzero, if_false, hremove]
    rfl

theorem Kernel.Listed.filtered (h : k.Listed q) (f : Slot → Bool) :
    (k.setQueue q ((k.queue q).filter f)).queue q = (k.queue q).filter f ∧
      (k.setQueue q ((k.queue q).filter f)).Listed q ∧
      (∀ q', q' ≠ q → (k.setQueue q ((k.queue q).filter f)).multique q' = k.multique q') ∧
      (k.setQueue q ((k.queue q).filter f)).proc = k.proc := by
  have hqueue : (k.setQueue q ((k.queue q).filter f)).queue q = (k.queue q).filter f := by
    rw [Kernel.setQueue_queue, if_pos rfl]
  refine ⟨hqueue, ⟨?_, ?_⟩, fun q' hq' => update_of_ne hq' .., rfl⟩
  · show ArrayQueue.Packed NPROC (update k.multique q _ q)
    rw [update_self]
    exact ArrayQueue.packed_ofList (Nat.le_trans (List.length_filter_le ..) h.length.2)
  · rw [hqueue]
    exact h.pids.sublist (List.filter_sublist.map _)

theorem Kernel.Listed.joined (h : k.Listed q) (hroom : (k.multique q).size < NPROC)
    (hnew : ∀ e ∈ k.queue q, (k.proc e).pid ≠ (k.proc p).pid) :
    (k.joined p q).queue q = k.queue q ++ [p] ∧ (k.joined p q).Listed q ∧
      (∀ q', q' ≠ q → (k.joined p q).multique q' = k.multique q') ∧
      (k.joined p q).proc p = { k.proc p with queueticks := 0, queueNumber := q } ∧
      ∀ x, x ≠ p → (k.joined p q).proc x = k.proc x := by
  have hqueue : (k.joined p q).queue q = k.queue q ++ [p] := by
    rw [Kernel.joined_queue, if_pos rfl]
  have hpid : ∀ x, ((k.joined p q).proc x).pid = (k.proc x).pid := by
    intro x
    show (((k.setQueue q _).modify p _).proc x).pid = _
    rw [Kernel.modify_proc]
    split
    · next he =>
      rw [he]
      rfl
    · rfl
  refine ⟨hqueue, ⟨?_, ?_⟩, fun q' hq' => update_of_ne hq' .., update_self ..,
    fun x hx => update_of_ne hx ..⟩
  · show ArrayQueue.Packed NPROC (update k.multique q _ q)
    rw [update_self]
    refine ArrayQueue.packed_ofList ?_
    rw [List.length_append, h.length.1]
    exact hroom
  · rw [hqueue]
    simp only [hpid, List.map_append, List.map_cons, List.map_nil]
    refine List.Nodup.append h.pids (List.nodup_singleton _) ?_
    refine List.disjoint_singleton.mpr fun hmem => ?_
    obtain ⟨e, he, hsame⟩ := List.mem_map.mp hmem
    exact hnew e he hsame

/-! ## Every step of the kernel -/

/-- Every queue changes by one entry at most. -/
def Turns (k k' : Kernel n) : Prop := ∀ q, (k.multique q).Turn (k'.multique q)

theorem Turns.of_eq (h : k'.multique = k.multique) : Turns k k' := fun q => by
  rw [h]
  exact .same

theorem Turns.refl (k : Kernel n) : Turns k k := .of_eq rfl

theorem Turns.update {a : ArrayQueue Slot} (h : (k.multique q).Turn a)
    (hk : k'.multique = update k.multique q a) : Turns k k' := by
  intro q'
  rw [hk, update_apply]
  split
  · next he =>
    rw [he]
    exact h
  · exact .same

theorem Turns.after {k₁ : Kernel n} (h : k₁.multique = k.multique) (h' : Turns k₁ k') :
    Turns k k' := fun q => by
  rw [← h]
  exact h' q

theorem Turns.before {k₁ : Kernel n} (h : Turns k k₁) (h' : k'.multique = k₁.multique) :
    Turns k k' := fun q => by
  rw [h']
  exact h q

theorem answers_ok {ε α : Type} (r : Except ε α) : Answers r fun a => r = .ok a := by
  cases r with
  | error e => exact not_false
  | ok a => exact rfl

/-- `enqueue` is a turn of one queue. -/
theorem enqueue_turns (k : Kernel n) (p : Slot) (priorityq : Nat) :
    Answers (k.enqueue p priorityq) (Turns k) := by
  unfold Kernel.enqueue
  refine Answers.skip _ fun q => (answers_ok _).bind fun found hscan => ?_
  cases found with
  | some i => exact Turns.refl k
  | none =>
    refine (answers_ok _).bind fun a hpush => ?_
    exact Turns.update (.push (beq_self_eq_true (k.proc p).pid) hscan hpush) rfl

/-- `dequeue` is a turn of one queue. -/
theorem dequeue_turns (k : Kernel n) (p : Slot) (priorityq : Nat) :
    Answers (k.dequeue p priorityq) (Turns k) := by
  unfold Kernel.dequeue
  refine Answers.skip _ fun q => ?_
  split
  · exact Turns.refl k
  · exact (answers_ok _).bind fun a hremove => Turns.update (.remove hremove) rfl

theorem freeproc_turns (k : Kernel n) (p : Slot) : Answers (k.freeproc p) (Turns k) :=
  (dequeue_turns _ p _).mono fun _ h => h.after rfl

theorem requeueOne_turns (k : Kernel n) (p : Slot) : Answers (k.requeueOne p) (Turns k) := by
  unfold Kernel.requeueOne
  split
  · exact (enqueue_turns k p _).bind fun k' h => h.before rfl
  · exact Turns.refl k

theorem wakeupOne_turns (self : Option Slot) (chan : Chan) (k : Kernel n) (p : Slot) :
    Answers (k.wakeupOne self chan p) (Turns k) := by
  unfold Kernel.wakeupOne
  split
  · exact (enqueue_turns _ p _).bind fun k' h => (h.after rfl).before rfl
  · exact Turns.refl k

end Xv6

namespace Xv6.Smp

open Base Base.Machine

variable {n : Nat} {α : Type} {m m' : Memory n} {c : Fin n}

/-- The code answers, with every queue changed by one entry at most. -/
def Kept (m : Memory n) (r : Except Fault (Memory n × α)) : Prop :=
  Answers r fun x => Turns m.k x.1.k

theorem Kept.ok (h : m'.k.multique = m.k.multique) (a : α) : Kept m (.ok (m', a)) := Turns.of_eq h

theorem Kept.update {k : Except Fault (Kernel n)} {next : α} (h : Answers k (Turns m.k)) :
    Kept m (m.update k next) := h.bind fun _ hk => hk

theorem Kept.acquire (lk : Lock) (spin taken : α) : Kept m (m.acquire c lk spin taken) := by
  unfold Memory.acquire
  split
  · exact .ok rfl _
  · split
    · exact not_false
    · exact .ok rfl _

theorem Kept.release (lk : Lock) (next : α) : Kept m (m.release c lk next) := by
  unfold Memory.release
  split
  · exact .ok rfl _
  · exact not_false

theorem Kept.visit (i : Nat) (spin : α) (taken : Slot → α) (done : α) :
    Kept m (m.visit c i spin taken done) := by
  unfold Memory.visit
  split
  · exact .acquire ..
  · exact .ok rfl _

theorem Kept.jump {r : Except Fault (Memory n × Frame)} (rest : List Below) (h : Kept m r) :
    Kept m (jump rest r) := h.bind fun _ hx => hx

theorem Kept.sched (p : Slot) (st : Stack) : Kept m (sched m c p st) := by
  unfold Smp.sched
  split
  · exact not_false
  · split
    · exact not_false
    · split
      · exact not_false
      · exact .ok rfl _

theorem Kept.ret (rest : List Below) : Kept m (do return (m, ← ret rest)) :=
  Answers.skip _ fun _ => Turns.refl _

/-- A step of a handler turns the queues. -/
theorem task_kept (t : Task) : Kept m (t.step m c) := by
  cases t with
  | clockintr => exact .update (Turns.of_eq rfl)
  | updateTime i =>
    rw [Task.step]
    exact .visit ..
  | updateTimeIn p =>
    refine .update ?_
    unfold Kernel.updateTimeOne
    split <;> exact Turns.of_eq rfl
  | updateTimeOut p | wakeupOut => exact .release ..
  | wakeup =>
    simp only [Task.step]
    split
    · exact .ok rfl _
    · exact .visit ..
  | wakeupIn => exact .update (wakeupOne_turns ..)

/-- A step of `allocproc` turns the queues. -/
theorem alloc_kept (o : Alloc) (a : AllocPc) : Kept m (a.step m c o) := by
  cases a with
  | next i =>
    rw [AllocPc.step]
    exact .visit ..
  | test p =>
    rw [AllocPc.step]
    split <;> exact .ok rfl _
  | skip p | undo p => exact .release ..
  | pid p =>
    refine .update ?_
    unfold Kernel.allocpid
    split
    · exact Turns.of_eq rfl
    · exact not_false
  | used p => exact .update (Turns.of_eq rfl)
  | pages p =>
    rw [AllocPc.step]
    split
    · exact .update (freeproc_turns ..)
    · split
      · exact .update ((freeproc_turns ..).mono fun _ h => h.after rfl)
      · exact .update (Turns.of_eq rfl)
  | init p => exact Turns.of_eq rfl

/-- A step of the scheduler turns the queues. -/
theorem sched_kept (b : Build) (o : Outcome) (pc : SchedPc) : Kept m (pc.step b m c o) := by
  cases pc with
  | boot =>
    simp only [SchedPc.step]
    split
    · exact .ok rfl _
    · split <;> exact .ok rfl _
  | userinit a =>
    refine (alloc_kept o.toAlloc a).bind fun x hx => ?_
    obtain ⟨m₁, next⟩ := x
    cases next with
    | more a => exact hx
    | made p => exact hx
    | failed => exact not_false
  | userinitIn p => exact .update ((enqueue_turns ..).mono fun _ h => h.after rfl)
  | userinitOut p => exact Kept.release (m := { m with started := true }) ..
  | start | chosen | parked => exact .update (Turns.of_eq rfl)
  | loop | loaded p => exact .ok rfl _
  | total | requeue | rr =>
    rw [SchedPc.step]
    exact .visit ..
  | totalIn p sum =>
    simp only [SchedPc.step]
    split <;> exact .ok rfl _
  | totalOut | requeueOut | drop => exact .release ..
  | draw sum | test p =>
    simp only [SchedPc.step]
    split
    · exact .update (Turns.of_eq rfl)
    · exact .ok rfl _
  | scan =>
    simp only [SchedPc.step]
    split
    · show Kept m (if _ then _ else _)
      split
      · split <;> exact .ok rfl _
      · exact .ok rfl _
    · exact .ok rfl _
  | tie =>
    simp only [SchedPc.step]
    split
    · show Kept m (if _ then _ else _)
      split
      · exact .ok rfl _
      · split <;> exact .ok rfl _
    · exact .ok rfl _
  | requeueIn p => exact .update (requeueOne_turns ..)
  | search q j =>
    simp only [SchedPc.step]
    split
    · split
      · refine Answers.skip _ fun p => ?_
        split <;> exact Turns.refl _
      · exact .ok rfl _
    · exact .ok rfl _
  | pick p => exact .acquire ..

section Frames

variable {p : Slot}

theorem takeCounts_multique (k : Kernel n) (x : Bool) (p pp : Slot) :
    (takeCounts k x p pp).multique = k.multique := by
  unfold takeCounts
  split <;> rfl

theorem waitChild_kept (x : Bool) (pp : Slot) (fails : Bool) : Kept m (waitChild m x p pp fails) := by
  simp only [waitChild]
  split
  · split
    · exact .update (Turns.of_eq (takeCounts_multique ..))
    · exact .update ((freeproc_turns ..).mono fun _ h => h.after (takeCounts_multique ..))
  · exact .ok rfl _

theorem killSlot_kept (pid : Int) (q : Slot) : Kept m (killSlot m pid q) := by
  simp only [killSlot]
  split
  · split
    · exact .update ((enqueue_turns ..).mono fun _ h => h.after rfl)
    · exact .update (Turns.of_eq rfl)
  · exact .ok rfl _

/-- A step of a frame turns the queues. -/
theorem frame_kept (b : Build) (o : Outcome) (f : Frame) (rest : List Below) :
    Kept m (f.step b m c p o rest) := by
  cases f with
  | user | usertrapret | exitFiles | exitWake | kernel | killedIn => exact .ok rfl _
  | zombie => exact not_false
  | task t =>
    refine (task_kept t).bind fun x hx => ?_
    obtain ⟨m₁, next⟩ := x
    cases next with
    | some t => exact hx
    | none => exact Answers.skip _ fun _ => hx
  | kerneltrap tick =>
    simp only [Frame.step]
    split
    · exact .ok rfl _
    · exact .ret rest
  -- locks
  | killed | setkilled | yield | sleep | forkWait | forkLock | exitWait | exitLock | wait | waitLock =>
    exact .jump rest (.acquire ..)
  | killedOut => exact .release ..
  | setkilledOut | forkret | sleepOut | forkUndo | forkOut | forkWaitOut | forkDone | exitWaitOut
  | waitOut | waitFound | waitEnd | killSkip | killOut => exact .jump rest (.release ..)
  | yieldOut => exact Answers.skip _ fun _ => Kept.release ..
  | yieldSched | sleepSched | exitSched => exact .sched ..
  | sleepIn chan lk =>
    cases lk with
    | wait => exact .jump rest (.release ..)
    | other => exact .ok rfl _
  | sleepBack lk =>
    cases lk with
    | wait => exact Answers.skip _ fun _ => Kept.acquire ..
    | other => exact .ret rest
  | kill pid i =>
    rw [Frame.step]
    exact .jump rest (.visit ..)
  -- fields of the process table
  | setkilledIn | yieldIn | sleepTidy | forkParent => exact .jump rest (.update (Turns.of_eq rfl))
  | forkretFirst =>
    simp only [Frame.step]
    split
    · exact .jump rest (.update (Turns.of_eq rfl))
    · exact .ok rfl _
  | timer =>
    cases b with
    | mlfq => exact .jump rest (.update (Turns.of_eq rfl))
    | rr | lbs => exact .ok rfl _
  | exit status =>
    simp only [Frame.step]
    split
    · exact not_false
    · exact .ok rfl _
  | reparent status i =>
    simp only [Frame.step]
    split
    · split <;> exact .ok rfl _
    · exact .ok rfl _
  | waitScan x i havekids =>
    simp only [Frame.step]
    split
    · split <;> exact .ok rfl _
    · exact .ok rfl _
  | waitNone x havekids =>
    simp only [Frame.step]
    split
    · exact .ok rfl _
    · split
      · exact .ok rfl _
      · split <;> exact .ok rfl _
  | preempt i =>
    simp only [Frame.step]
    split
    · refine Answers.skip _ fun q => ?_
      split <;> exact Turns.refl _
    · exact .ok rfl _
  -- the queues
  | boost q j =>
    simp only [Frame.step]
    split
    · split
      · exact Answers.skip _ fun temp => Kept.jump rest (.update (dequeue_turns ..))
      · exact .ok rfl _
    · exact .ok rfl _
  | boostPut q j temp => exact .jump rest (.update (enqueue_turns ..))
  | slice =>
    simp only [Frame.step]
    refine Answers.skip _ fun q => ?_
    split
    · exact Kept.jump rest (.update (dequeue_turns ..))
    · exact Turns.refl _
  | demote => exact (enqueue_turns ..).bind fun _ h => h
  | sleepSet | exitIn => exact .jump rest (.update ((dequeue_turns ..).mono fun _ h => h.after rfl))
  | forkIn => exact .jump rest (.update ((enqueue_turns ..).mono fun _ h => h.after rfl))
  | alloc a =>
    refine (alloc_kept o.toAlloc a).bind fun x hx => ?_
    obtain ⟨m₁, next⟩ := x
    cases next with
    | more | failed | made => exact hx
  | forkCopy np =>
    simp only [Frame.step]
    split
    · exact .jump rest (.update (freeproc_turns ..))
    · exact .jump rest (.update (Turns.of_eq rfl))
  | waitIn x pp => exact .jump rest (waitChild_kept ..)
  | killIn pid q => exact .jump rest (killSlot_kept ..)

end Frames

/-! ## Runs -/

section Runs

variable {b : Build} {s t : State n} {e : Event n}

/-- Every event turns the queues. -/
theorem exec_turns (b : Build) (e : Event n) (s : State n) :
    Answers (exec b e s) fun t => Turns s.k t.k := by
  cases e with
  | run c o =>
    simp only [exec]
    split
    · unfold State.runSched
      split
      · refine (task_kept _).bind fun x hx => ?_
        obtain ⟨m, next⟩ := x
        cases next with
        | some t => exact hx
        | none => exact hx
      · exact Turns.refl _
      · exact (sched_kept b o _).bind fun x hx => hx
    · unfold State.runThread Memory.onProc
      split
      · exact not_false
      · refine (frame_kept b o _ _).bind fun x hx => ?_
        obtain ⟨m, next⟩ := x
        cases next with
        | go st => exact hx
        | swtch st => exact hx
  | intr c i =>
    simp only [exec]
    split
    · exact Turns.refl _
    · refine Turns.of_eq ?_
      unfold State.onThread
      split <;> rfl
  | syscall c | exception c =>
    refine Turns.of_eq ?_
    unfold State.onThread
    split <;> rfl
  | call c f =>
    cases f with
    | settickets =>
      simp only [exec, Memory.onProc]
      split
      · exact not_false
      · exact Turns.of_eq rfl
    | fork | exit | wait | waitx | kill | sleep | wakeup | ret =>
      refine Turns.of_eq ?_
      unfold State.onThread
      split <;> rfl

/-- In every state the queues are lists without repetitions. -/
theorem queues_listed (h : (smp b n).Reachable s) (q : Fin 4) :
    s.k.multique q = .ofList NPROC (s.k.queue q) ∧ (s.k.queue q).length ≤ NPROC ∧
      (s.k.queue q).Nodup := by
  have hlists : ∀ q, ∃ l, s.k.multique q = .ofList NPROC l ∧ l.length ≤ NPROC ∧ l.Nodup := by
    refine Machine.Reachable.invariant (M := smp b n)
      (I := fun s => ∀ q, ∃ l, s.k.multique q = .ofList NPROC l ∧ l.length ≤ NPROC ∧ l.Nodup)
      (fun q => ⟨[], rfl, Nat.zero_le _, List.nodup_nil⟩) (fun s e t hs hstep q => ?_) h
    obtain ⟨l, hl, hcap, hnodup⟩ := hs q
    have hturn := (exec_turns b e s).of_ok hstep.2 q
    rw [hl] at hturn
    obtain ⟨l', hl', hcap', hchange⟩ := hturn.list hcap
    exact ⟨l', hl', hcap', ArrayQueue.Turn.nodup hnodup hchange⟩
  obtain ⟨l, hl, hcap, hnodup⟩ := hlists q
  have hqueue : s.k.queue q = l := by
    unfold Kernel.queue
    rw [hl, ArrayQueue.toList_ofList]
  rw [hqueue]
  exact ⟨hl, hcap, hnodup⟩

/-- One step keeps the order of two processes that stay. -/
theorem step_order (h : (smp b n).Reachable s) (hstep : (smp b n).Step s e t) {q : Fin 4}
    {x y : Slot} (hxy : [x, y].Sublist (s.k.queue q)) (hx : x ∈ t.k.queue q)
    (hy : y ∈ t.k.queue q) : [x, y].Sublist (t.k.queue q) := by
  obtain ⟨hl, hcap, hnodup⟩ := queues_listed h q
  have hturn := (exec_turns b e s).of_ok hstep.2 q
  rw [hl] at hturn
  obtain ⟨l', hl', -, hchange⟩ := hturn.list hcap
  have hqueue : t.k.queue q = l' := by
    unfold Kernel.queue
    rw [hl', ArrayQueue.toList_ofList]
  rw [hqueue] at hx hy ⊢
  exact ArrayQueue.Turn.order hnodup hchange hxy hx hy

/-- **The queue arrays are lists.** When the cells below `sizeofq[q]` hold processes with different
pids and the others are null, `enqueue` appends a process whose pid is not there and does nothing
for one whose pid is, and `dequeue` removes the entry with the pid and nothing else. On any number
of CPUs and in every build, two processes that stay in a queue keep their order. -/
theorem queues_are_lists (b : Build) (n : Nat) :
    (∀ (k : Kernel n) (p : Slot) (q : Fin 4), k.Listed q →
      ((k.multique q).size < NPROC → (∀ x ∈ k.queue q, (k.proc x).pid ≠ (k.proc p).pid) →
        ∃ k', k.enqueue p q = .ok k' ∧ k'.queue q = k.queue q ++ [p] ∧ k'.Listed q ∧
          (∀ q', q' ≠ q → k'.multique q' = k.multique q') ∧
          k'.proc p = { k.proc p with queueticks := 0, queueNumber := q } ∧
          ∀ x, x ≠ p → k'.proc x = k.proc x) ∧
      ((∃ x ∈ k.queue q, (k.proc x).pid = (k.proc p).pid) → k.enqueue p q = .ok k) ∧
      ∃ k', k.dequeue p q = .ok k' ∧
        k'.queue q = (k.queue q).filter (fun x => (k.proc x).pid ≠ (k.proc p).pid) ∧
        k'.Listed q ∧ (∀ q', q' ≠ q → k'.multique q' = k.multique q') ∧ k'.proc = k.proc) ∧
    ∀ (s t : State n) (steps : List (State n × Event n)), (smp b n).Reachable s →
      (smp b n).Path s steps t → ∀ (q : Fin 4) (x y : Slot),
      (∀ u, (u = t ∨ ∃ z ∈ steps, u = z.1) → x ∈ u.k.queue q ∧ y ∈ u.k.queue q) →
      [x, y].Sublist (s.k.queue q) → [x, y].Sublist (t.k.queue q) := by
  refine ⟨fun k p q h => ⟨fun hroom hnew => ?_, ?_, ?_⟩, fun s t steps hs hpath q x y => ?_⟩
  · exact ⟨_, enqueue_new h hroom hnew, h.joined hroom hnew⟩
  · rintro ⟨e, he, hpid⟩
    exact enqueue_there h he hpid
  · exact ⟨_, dequeue_filter h p, h.filtered _⟩
  · induction hpath with
    | nil => exact fun _ hxy => hxy
    | @snoc steps t u e hpath hstep ih =>
      intro hstay hxy
      have hbefore := ih (fun v hv => hstay v (.inr ?_)) hxy
      · obtain ⟨hx, hy⟩ := hstay u (.inl rfl)
        exact step_order (hs.path hpath) hstep hbefore hx hy
      · rcases hv with rfl | ⟨z, hz, rfl⟩
        · exact ⟨_, List.mem_cons_self .., rfl⟩
        · exact ⟨z, List.mem_cons_of_mem _ hz, rfl⟩

end Runs

/-- The first process joins an empty queue, and is still before its first child when it has made a
second one. -/
theorem queues_are_lists_children :
    (∃ k', (Kernel.boot 1).enqueue 0 (0 : Fin 4) = .ok k' ∧ k'.queue 0 = [0]) ∧
    ∃ (s t : State 1) (steps : List (State 1 × Event 1)), (smp .rr 1).Path s steps t ∧
      [0, 1].Sublist (s.k.queue 0) ∧ (t.k.queue 0).length = 3 ∧ [0, 1].Sublist (t.k.queue 0) := by
  obtain ⟨hcalls, hruns⟩ := queues_are_lists .rr 1
  constructor
  · have hempty : (Kernel.boot 1).Listed 0 :=
      ⟨ArrayQueue.packed_ofList (l := []) (Nat.zero_le _), List.nodup_nil⟩
    obtain ⟨k', hk', hqueue, -⟩ := (hcalls (.boot 1) 0 0 hempty).1 (by decide) (by decide)
    exact ⟨k', hk', hqueue⟩
  · obtain ⟨before, s, hrun, htest⟩ := exists_run (M := smp .rr 1)
      (List.replicate 17 (.run 0 ⟨⟨true, true⟩, true, false⟩) ++
        .call 0 .fork :: List.replicate 17 (.run 0 ⟨⟨true, true⟩, true, false⟩))
      (fun _ s => s.k.queue 0 == [0, 1] &&
        ((smp .rr 1).replay (.call 0 .fork ::
          List.replicate 20 (.run 0 ⟨⟨true, true⟩, true, false⟩)) [] s).any
            fun (r : List (State 1 × Event 1) × State 1) =>
        (r.2.k.queue 0).length == 3 && decide (0 ∈ r.2.k.queue 0) && decide (1 ∈ r.2.k.queue 0) &&
          r.1.all fun (z : State 1 × Event 1) =>
            decide (0 ∈ z.1.k.queue 0) && decide (1 ∈ z.1.k.queue 0))
      (by decide +kernel)
    simp only [Bool.and_eq_true, beq_iff_eq, Option.any_eq_true, decide_eq_true_eq,
      List.all_eq_true] at htest
    obtain ⟨hfirst, r, hr, ⟨⟨hlength, hzero⟩, hone⟩, hall⟩ := htest
    have hpath := path_of_replay .nil hr
    have hxy : [0, 1].Sublist (s.k.queue 0) := by
      rw [hfirst]
    refine ⟨s, r.2, r.1, hpath, hxy, hlength, ?_⟩
    refine hruns s r.2 r.1 ⟨_, hrun⟩ hpath 0 0 1 (fun u hu => ?_) hxy
    rcases hu with rfl | ⟨z, hz, rfl⟩
    · exact ⟨hzero, hone⟩
    · exact hall z hz

end Xv6.Smp
