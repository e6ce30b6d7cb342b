import Xv6.Kernel.Process

/-!
# The four ready queues as lists

`Queued k S` says that the arrays `multique` hold four lists of processes: entries are distinct,
carry the level that holds them, have distinct pids, and are together the set `S`. Under it the
two C functions are list operations. `enqueue` appends (`enqueue_eq_joined`) or, when the process
is there, does nothing (`enqueue_eq_self`). `dequeue` erases (`dequeue_eq_left`) or finds nothing
(`dequeue_eq_self`). Both keep the invariant, with `S` grown or shrunk by the one process.

The set is a parameter because the kernel's functions change a process's state and its queue
membership one after the other: the invariant holds between the two, for the old set.
-/

namespace Xv6

open Base

namespace Kernel

variable {n : Nat}

/-- Replace the list at level `q`. -/
@[simps -fullyApplied proc cpus initproc nextpid ticks hist]
def setQueue (k : Kernel n) (q : Fin 4) (l : List Slot) : Kernel n :=
  { k with multique := Function.update k.multique q (ArrayQueue.ofList NPROC l) }

/-- `p` at the end of level `q`. -/
def joined (k : Kernel n) (p : Slot) (q : Fin 4) : Kernel n :=
  (k.setQueue q (k.queue q ++ [p])).modify p fun x =>
    { x with queueticks := 0, queueNumber := q }

/-- Level `q` without `p`. -/
def left (k : Kernel n) (p : Slot) (q : Fin 4) : Kernel n :=
  k.setQueue q ((k.queue q).erase p)

section Fields

variable (k : Kernel n) (p : Slot) (q : Fin 4) (l : List Slot) (f : Proc → Proc) (c : Fin n)
  (o : Obs) (r : Option Slot)

theorem setQueue_queue (q' : Fin 4) :
    (k.setQueue q l).queue q' = if q' = q then l else k.queue q' := by
  simp only [queue, setQueue, Function.update_apply]
  split
  · exact ArrayQueue.toList_ofList NPROC l
  · rfl

@[simp] theorem modify_queue : (k.modify p f).queue = k.queue := rfl
@[simp] theorem note_queue : (k.note o).queue = k.queue := rfl

theorem joined_queue (q' : Fin 4) :
    (k.joined p q).queue q' = if q' = q then k.queue q ++ [p] else k.queue q' := by
  rw [joined, modify_queue, setQueue_queue]

theorem left_queue (q' : Fin 4) :
    (k.left p q).queue q' = if q' = q then (k.queue q).erase p else k.queue q' := by
  rw [left, setQueue_queue]

end Fields

end Kernel

/-- Erasing by a test that holds of one entry only erases that entry. -/
theorem eraseP_eq_erase {l : List Slot} {f : Slot → Bool} {p : Slot}
    (h : ∀ e ∈ l, f e = (p == e)) : l.eraseP f = l.erase p := by
  induction l with
  | nil => rfl
  | cons e l ih =>
    have hhead := h e (List.mem_cons_self ..)
    rw [List.eraseP_cons, List.erase_cons, ih fun e' he' => h e' (List.mem_cons_of_mem _ he'),
      hhead]
    by_cases hpe : p = e
    · simp [hpe]
    · have hbeq : (p == e) = false := beq_eq_false_iff_ne.mpr hpe
      have hbeq' : (e == p) = false := beq_eq_false_iff_ne.mpr fun he => hpe he.symm
      simp only [hbeq, hbeq', cond_false, Bool.false_eq_true, if_false]

variable {n : Nat} {k k' : Kernel n} {S S' : Slot → Prop} {p : Slot}

/-- The queues are four lists of processes, together the set `S`. -/
structure Queued (k : Kernel n) (S : Slot → Prop) : Prop where
  /-- the arrays hold lists: live entries first, nulls behind -/
  array : ∀ q, k.multique q = ArrayQueue.ofList NPROC (k.queue q)
  nodup : ∀ q, (k.queue q).Nodup
  /-- an entry carries the level that holds it -/
  level : ∀ q, ∀ p ∈ k.queue q, (k.proc p).queueNumber = q
  mem : ∀ p, S p ↔ ∃ q, p ∈ k.queue q
  pid : ∀ p p', S p → S p' → (k.proc p).pid = (k.proc p').pid → p = p'

namespace Queued

theorem congr (h : Queued k S) (hS : ∀ p, S p ↔ S' p) : Queued k S' where
  array := h.array
  nodup := h.nodup
  level := h.level
  mem p := (hS p).symm.trans (h.mem p)
  pid p p' hp hp' := h.pid p p' ((hS p).mpr hp) ((hS p').mpr hp')

/-- Nothing but the arrays, the pids and the level numbers matters. -/
theorem frame (h : Queued k S) (hq : k'.multique = k.multique)
    (hp : ∀ p, (k'.proc p).pid = (k.proc p).pid ∧
      (k'.proc p).queueNumber = (k.proc p).queueNumber) : Queued k' S := by
  have hqueue : k'.queue = k.queue := by
    funext q
    rw [Kernel.queue, hq]
    rfl
  refine ⟨fun q => ?_, fun q => ?_, fun q p hmem => ?_, fun p => ?_, fun p p' hs hs' he => ?_⟩
  · rw [hq, hqueue]; exact h.array q
  · rw [hqueue]; exact h.nodup q
  · rw [hqueue] at hmem
    rw [(hp p).2]; exact h.level q p hmem
  · rw [hqueue]; exact h.mem p
  · rw [(hp p).1, (hp p').1] at he
    exact h.pid p p' hs hs' he

theorem modify (h : Queued k S) (p : Slot) {f : Proc → Proc}
    (hf : (f (k.proc p)).pid = (k.proc p).pid ∧
      (f (k.proc p)).queueNumber = (k.proc p).queueNumber) : Queued (k.modify p f) S := by
  refine h.frame rfl fun p' => ?_
  rw [Kernel.modify_proc]
  split
  · next he => rw [he]; exact hf
  · exact ⟨rfl, rfl⟩

theorem off (h : Queued k S) (hp : ¬ S p) (hq : k'.multique = k.multique)
    (hother : ∀ x, x ≠ p → k'.proc x = k.proc x) : Queued k' S := by
  have hqueue : k'.queue = k.queue := by
    funext q
    rw [Kernel.queue, hq]
    rfl
  have hsame : ∀ x, S x → k'.proc x = k.proc x := fun x hs => hother x fun he => hp (he ▸ hs)
  refine ⟨fun q => ?_, fun q => ?_, fun q x hmem => ?_, fun x => ?_, fun x y hx hy he => ?_⟩
  · rw [hq, hqueue]; exact h.array q
  · rw [hqueue]; exact h.nodup q
  · rw [hqueue] at hmem
    rw [hsame x ((h.mem x).mpr ⟨q, hmem⟩)]
    exact h.level q x hmem
  · rw [hqueue]; exact h.mem x
  · rw [hsame x hx, hsame y hy] at he
    exact h.pid x y hx hy he

/-- A queued process is on the queue its level number names. -/
theorem mem_level (h : Queued k S) (hp : S p) :
    ∃ q : Fin 4, (k.proc p).queueNumber = q ∧ p ∈ k.queue q := by
  obtain ⟨q, hq⟩ := (h.mem p).mp hp
  exact ⟨q, h.level q p hq, hq⟩

theorem level_unique (h : Queued k S) {q q' : Fin 4} (hq : p ∈ k.queue q)
    (hq' : p ∈ k.queue q') : q = q' := by
  have := (h.level q p hq).symm.trans (h.level q' p hq')
  exact Fin.ext this

/-- A queue is never longer than the table. -/
theorem length_le (h : Queued k S) (q : Fin 4) : (k.queue q).length ≤ NPROC := by
  simpa using (h.nodup q).length_le_card

/-- While a process is off the queue, there is room for it. -/
theorem length_lt (h : Queued k S) (hp : ¬ S p) (q : Fin 4) : (k.queue q).length < NPROC := by
  have hnot : p ∉ k.queue q := fun hmem => hp ((h.mem p).mpr ⟨q, hmem⟩)
  have hlen := (List.nodup_cons.mpr ⟨hnot, h.nodup q⟩).length_le_card
  exact Nat.lt_of_succ_le (by simpa using hlen)

/-- No queued process has the pid of `p`. -/
def Fresh (k : Kernel n) (S : Slot → Prop) (p : Slot) : Prop :=
  ∀ p', S p' → (k.proc p').pid ≠ (k.proc p).pid

theorem Fresh.off (h : Fresh k S p) : ¬ S p := fun hp => h p hp rfl

theorem findIdx_fresh (h : Queued k S) (hp : Fresh k S p) (q : Fin 4) :
    (k.multique q).findIdx (fun e => (k.proc e).pid == (k.proc p).pid) = .ok none := by
  rw [h.array, ArrayQueue.findIdx_ofList]
  refine congrArg _ (List.findIdx?_eq_none_iff.mpr fun e he => ?_)
  have hne := hp e ((h.mem e).mpr ⟨q, he⟩)
  simp [hne]

theorem joined (h : Queued k S) (hp : Fresh k S p) (q : Fin 4) :
    Queued (k.joined p q) fun x => x = p ∨ S x := by
  have hother : ∀ x, S x → (k.joined p q).proc x = k.proc x := fun x hx =>
    Kernel.modify_of_ne _ p _ fun he => hp.off (he ▸ hx)
  have hself : (k.joined p q).proc p =
      { k.proc p with queueticks := 0, queueNumber := q } := Kernel.modify_self ..
  refine ⟨fun q' => ?_, fun q' => ?_, fun q' x hx => ?_, fun x => ?_, fun x y hx hy he => ?_⟩
  · rw [Kernel.joined_queue]
    show (k.setQueue q (k.queue q ++ [p])).multique q' = _
    simp only [Kernel.setQueue, Function.update_apply]
    split
    · rfl
    · exact h.array q'
  · rw [Kernel.joined_queue]
    split
    · refine List.nodup_append.mpr ⟨h.nodup q, List.nodup_singleton p, fun a ha b hb => ?_⟩
      rw [List.mem_singleton] at hb
      rw [hb]
      exact fun he => hp.off ((h.mem p).mpr ⟨q, he ▸ ha⟩)
    · exact h.nodup q'
  · rw [Kernel.joined_queue] at hx
    split at hx
    · next hq =>
      rcases List.mem_append.mp hx with hx | hx
      · rw [hother x ((h.mem x).mpr ⟨q, hx⟩), hq]
        exact h.level q x hx
      · rw [List.mem_singleton.mp hx, hself, hq]
    · rw [hother x ((h.mem x).mpr ⟨q', hx⟩)]
      exact h.level q' x hx
  · simp only [Kernel.joined_queue]
    constructor
    · rintro (rfl | hx)
      · exact ⟨q, by simp⟩
      · obtain ⟨q', hq'⟩ := (h.mem x).mp hx
        refine ⟨q', ?_⟩
        split
        · next he => exact List.mem_append_left _ (he ▸ hq')
        · exact hq'
    · rintro ⟨q', hq'⟩
      split at hq'
      · rcases List.mem_append.mp hq' with hx | hx
        · exact .inr ((h.mem x).mpr ⟨q, hx⟩)
        · exact .inl (List.mem_singleton.mp hx)
      · exact .inr ((h.mem x).mpr ⟨q', hq'⟩)
  · have hpid : ∀ z, ((k.joined p q).proc z).pid = (k.proc z).pid := by
      intro z
      by_cases hz : z = p
      · rw [hz, hself]
      · rw [show (k.joined p q).proc z = k.proc z from Kernel.modify_of_ne _ p _ hz]
    rw [hpid, hpid] at he
    rcases hx with rfl | hx <;> rcases hy with rfl | hy
    · rfl
    · exact absurd he.symm (hp y hy)
    · exact absurd he (hp x hx)
    · exact h.pid x y hx hy he

theorem left (h : Queued k S) {q : Fin 4} (hq : p ∈ k.queue q) :
    Queued (k.left p q) fun x => x ≠ p ∧ S x := by
  refine ⟨fun q' => ?_, fun q' => ?_, fun q' x hx => ?_, fun x => ?_, fun x y hx hy =>
    h.pid x y hx.2 hy.2⟩
  · rw [Kernel.left_queue]
    simp only [Kernel.left, Kernel.setQueue, Function.update_apply]
    split
    · rfl
    · exact h.array q'
  · rw [Kernel.left_queue]
    split
    · exact (h.nodup q).erase p
    · exact h.nodup q'
  · rw [Kernel.left_queue] at hx
    split at hx
    · next he => rw [he]; exact h.level q x (List.mem_of_mem_erase hx)
    · exact h.level q' x hx
  · simp only [Kernel.left_queue]
    constructor
    · rintro ⟨hne, hx⟩
      obtain ⟨q', hq'⟩ := (h.mem x).mp hx
      refine ⟨q', ?_⟩
      split
      · next he => exact (h.nodup q).mem_erase_iff.mpr ⟨hne, he ▸ hq'⟩
      · exact hq'
    · rintro ⟨q', hq'⟩
      split at hq'
      · have hx := (h.nodup q).mem_erase_iff.mp hq'
        exact ⟨hx.1, (h.mem x).mpr ⟨q, hx.2⟩⟩
      · next hne =>
        exact ⟨fun he => hne (h.level_unique (he ▸ hq') hq), (h.mem x).mpr ⟨q', hq'⟩⟩

end Queued

/-! ## What the two functions compute -/

theorem level_of_lt {q : Nat} (h : q < 4) : level q = .ok ⟨q, h⟩ := dif_pos h

@[simp] theorem level_fin (q : Fin 4) : level (q : Nat) = .ok q := level_of_lt q.isLt

/-- A process with a pid of its own is appended. -/
theorem enqueue_eq_joined (h : Queued k S) (hp : Queued.Fresh k S p) (q : Fin 4) :
    k.enqueue p q = .ok (k.joined p q) := by
  have hpush : (k.multique q).push p = .ok (ArrayQueue.ofList NPROC (k.queue q ++ [p])) := by
    rw [h.array q]
    exact ArrayQueue.push_ofList (h.length_lt hp.off q) p
  simp only [Kernel.enqueue, level_fin, bind, Except.bind, h.findIdx_fresh hp, hpush]
  rfl

/-- A process that is on the queue stays where it is. -/
theorem enqueue_eq_self (h : Queued k S) (hp : S p) :
    k.enqueue p (k.proc p).queueNumber = .ok k := by
  obtain ⟨q, hq, hmem⟩ := h.mem_level hp
  have hfind : ∃ i, (k.queue q).findIdx? (fun e => (k.proc e).pid == (k.proc p).pid) = some i := by
    cases hf : (k.queue q).findIdx? (fun e => (k.proc e).pid == (k.proc p).pid) with
    | none => simpa using List.findIdx?_eq_none_iff.mp hf p hmem
    | some i => exact ⟨i, rfl⟩
  obtain ⟨i, hi⟩ := hfind
  have hscan : (k.multique q).findIdx (fun e => (k.proc e).pid == (k.proc p).pid) =
      .ok (some i) := by
    rw [h.array q, ArrayQueue.findIdx_ofList, hi]
  simp only [Kernel.enqueue, hq, level_fin, bind, Except.bind, hscan]
  rfl

/-- A queued process is erased from its queue. -/
theorem dequeue_eq_left (h : Queued k S) (hp : S p) :
    ∃ q : Fin 4, (k.proc p).queueNumber = q ∧ p ∈ k.queue q ∧
      k.dequeue p (k.proc p).queueNumber = .ok (k.left p q) := by
  obtain ⟨q, hq, hmem⟩ := h.mem_level hp
  refine ⟨q, hq, hmem, ?_⟩
  have hsize : (k.multique q).size ≠ 0 := by
    rw [h.array q, ArrayQueue.ofList_size]
    exact List.length_pos_of_mem hmem |>.ne'
  have hremove : (k.multique q).removeFirst (fun e => (k.proc e).pid == (k.proc p).pid) =
      .ok (ArrayQueue.ofList NPROC ((k.queue q).erase p)) := by
    rw [h.array q, ArrayQueue.removeFirst_ofList (h.length_le q)]
    refine congrArg _ (congrArg _ (eraseP_eq_erase fun e he => ?_))
    by_cases hpe : p = e
    · simp [hpe]
    · have hne : (k.proc e).pid ≠ (k.proc p).pid := fun heq =>
        hpe (h.pid p e hp ((h.mem e).mpr ⟨q, he⟩) heq.symm)
      simp [hpe, hne]
  simp only [Kernel.dequeue, hq, level_fin, bind, Except.bind, hsize, if_false, hremove]
  rfl

/-- A pid no queued process has is not found. -/
theorem dequeue_eq_self (h : Queued k S) (hp : Queued.Fresh k S p) (q : Fin 4) :
    k.dequeue p q = .ok k := by
  simp only [Kernel.dequeue, level_fin, bind, Except.bind]
  split
  · rfl
  · have hremove : (k.multique q).removeFirst (fun e => (k.proc e).pid == (k.proc p).pid) =
        .ok (k.multique q) := by
      simp only [ArrayQueue.removeFirst, h.findIdx_fresh hp q, bind, Except.bind]
    rw [hremove]
    simp only [Function.update_eq_self]
    rfl

end Xv6
