import Xv6.Laws.Process
import Xv6.Base.Alternate

/-!
# Moving between levels, and the priority boost

`Kernel.moved` is the pair of `dequeue` and `enqueue` that demotion, rotation and boost make of
one process. The boost makes it of several, and `Boosted l k k'` says what that comes to for the
list `l` of processes moved, whichever they are.

Which they are is the law `boostLevel_spec`: the loop of `usertrap` advances its index over an
array that `dequeue` has just shifted, so it meets the entries at the even places of a level and
leaves those at the odd places behind. The boost therefore empties the lower levels exactly when
none of them holds two processes.
-/

namespace Xv6

open Base

variable {n : Nat} {k k' : Kernel n} {S : Slot → Prop} {p : Slot} {q : Fin 4} {l pre : List Slot}

/-- `p` leaves level `q` and joins the end of level `q'`. -/
def Kernel.moved (k : Kernel n) (p : Slot) (q q' : Fin 4) : Kernel n :=
  (k.left p q).joined p q'

theorem moved_self (k : Kernel n) (p : Slot) (q q' : Fin 4) :
    (k.moved p q q').proc p = { k.proc p with queueticks := 0, queueNumber := q' } := by
  rw [Kernel.moved, joined_proc, if_pos rfl]
  rfl

theorem moved_of_ne (k : Kernel n) (q q' : Fin 4) {x : Slot} (hx : x ≠ p) :
    (k.moved p q q').proc x = k.proc x := by
  rw [Kernel.moved, joined_proc, if_neg hx]
  rfl

theorem Queued.moved (h : Queued k S) (hq : p ∈ k.queue q) (q' : Fin 4) :
    Queued (k.moved p q q') S ∧ k.dequeue p (k.proc p).queueNumber = .ok (k.left p q) ∧
      (k.left p q).enqueue p q' = .ok (k.moved p q q') := by
  have hp : S p := (h.mem p).mpr ⟨q, hq⟩
  have hleft := h.left hq
  have hfresh : Queued.Fresh (k.left p q) (fun x => x ≠ p ∧ S x) p := fun x hx he =>
    hx.1 (h.pid x p hx.2 hp he)
  refine ⟨(hleft.joined hfresh q').congr fun x => ?_, ?_, enqueue_eq_joined hleft hfresh q'⟩
  · by_cases hx : x = p
    · simp [hx, hp]
    · simp [hx]
  · obtain ⟨q₁, -, hq₁, hdeq⟩ := dequeue_eq_left h hp
    rw [h.level_unique hq hq₁]
    exact hdeq

theorem Inv.moved (h : Inv k) (hq : p ∈ k.queue q) (q' : Fin 4) : Inv (k.moved p q q') := by
  refine h.requeue (fun x => ?_) (fun x => ?_) (h.queued.moved hq q').1 (fun _ => rfl) (le_refl _)
  all_goals by_cases hx : x = p
  · rw [hx, moved_self]; rfl
  · rw [moved_of_ne k q q' hx]
  · rw [hx, moved_self]; exact q'.isLt
  · rw [moved_of_ne k q q' hx]; exact h.level x

/-! ## What a boost of some processes comes to -/

/-- The processes `l`, in this order, have moved to the end of level 0. -/
structure Boosted (l : List Slot) (k k' : Kernel n) : Prop where
  frame : k' = { k with proc := k'.proc, multique := k'.multique, hist := k'.hist }
  hist : k'.hist = (l.map (Obs.entered · 0)).reverse ++ k.hist
  top : k'.queue 0 = k.queue 0 ++ l
  below : ∀ q, q ≠ 0 → k'.queue q = (k.queue q).filter (· ∉ l)
  moved : ∀ x ∈ l, k'.proc x = { k.proc x with queueticks := 0, queueNumber := 0 }
  other : ∀ x, x ∉ l → k'.proc x = k.proc x

theorem Boosted.nil (k : Kernel n) : Boosted [] k k where
  frame := rfl
  hist := rfl
  top := (List.append_nil _).symm
  below q _ := by simp
  moved x hx := by cases hx
  other x _ := rfl

theorem Boosted.trans {k₁ k₂ k₃ : Kernel n} {l' : List Slot} (h : Boosted l k₁ k₂)
    (h' : Boosted l' k₂ k₃) : Boosted (l ++ l') k₁ k₃ := by
  refine ⟨?_, ?_, ?_, fun q hq => ?_, fun x hx => ?_, fun x hx => ?_⟩
  · rw [h'.frame, h.frame]
  · rw [h'.hist, h.hist, List.map_append, List.reverse_append, List.append_assoc]
  · rw [h'.top, h.top, List.append_assoc]
  · rw [h'.below q hq, h.below q hq, List.filter_filter]
    refine List.filter_congr fun x _ => ?_
    by_cases h₁ : x ∈ l <;> by_cases h₂ : x ∈ l' <;> simp [h₁, h₂]
  · by_cases h₂ : x ∈ l'
    · rw [h'.moved x h₂]
      by_cases h₁ : x ∈ l
      · rw [h.moved x h₁]
      · rw [h.other x h₁]
    · have h₁ : x ∈ l := (List.mem_append.mp hx).resolve_right h₂
      rw [h'.other x h₂, h.moved x h₁]
  · rw [h'.other x fun h₂ => hx (List.mem_append_right _ h₂),
      h.other x fun h₁ => hx (List.mem_append_left _ h₁)]

/-- One move of the boost, from level `q`. -/
def Kernel.boostOne (q : Fin 4) (k : Kernel n) (p : Slot) : Kernel n :=
  (k.moved p q 0).note (.entered p 0)

theorem boostOne_queue (k : Kernel n) (p : Slot) (hq : q ≠ 0) :
    (k.boostOne q p).queue q = (k.queue q).erase p := by
  rw [Kernel.boostOne, Kernel.note_queue, Kernel.moved, Kernel.joined_queue, if_neg hq,
    Kernel.left_queue, if_pos rfl]

theorem boostOne_boosted (h : Queued k S) (hq : q ≠ 0) (hp : p ∈ k.queue q) :
    Boosted [p] k (k.boostOne q p) := by
  refine ⟨rfl, rfl, ?_, fun q' hq' => ?_, fun x hx => ?_, fun x hx => ?_⟩
  · rw [Kernel.boostOne, Kernel.note_queue, Kernel.moved, Kernel.joined_queue, if_pos rfl,
      Kernel.left_queue, if_neg hq.symm]
  · rw [Kernel.boostOne, Kernel.note_queue, Kernel.moved, Kernel.joined_queue, if_neg hq',
      Kernel.left_queue]
    split
    · next he =>
      rw [he, (h.nodup q).erase_eq_filter]
      exact List.filter_congr fun x _ => by by_cases hx : x = p <;> simp [hx]
    · next hne =>
      refine (List.filter_eq_self.mpr fun x hx => ?_).symm
      have hxp : x ≠ p := fun he => hne (h.level_unique (he ▸ hx) hp)
      simpa using hxp
  · rw [List.mem_singleton.mp hx]
    exact moved_self k p q 0
  · exact moved_of_ne k q 0 fun he => hx (List.mem_singleton.mpr he)

theorem boostOne_foldl (hq : q ≠ 0) (l : List Slot) (h : Queued k S) (hl : l.Nodup)
    (hmem : ∀ x ∈ l, x ∈ k.queue q) :
    Queued (l.foldl (Kernel.boostOne q) k) S ∧ Boosted l k (l.foldl (Kernel.boostOne q) k) := by
  induction l generalizing k with
  | nil => exact ⟨h, .nil k⟩
  | cons x l ih =>
    obtain ⟨hx, hl⟩ := List.nodup_cons.mp hl
    have hxq : x ∈ k.queue q := hmem x (List.mem_cons_self ..)
    have hstep : Queued (k.boostOne q x) S :=
      (h.moved hxq 0).1.frame rfl fun _ => ⟨rfl, rfl⟩
    have hrest : ∀ y ∈ l, y ∈ (k.boostOne q x).queue q := by
      intro y hy
      rw [boostOne_queue k x hq, (h.nodup q).mem_erase_iff]
      exact ⟨fun he => hx (he ▸ hy), hmem y (List.mem_cons_of_mem _ hy)⟩
    obtain ⟨hqueued, hboost⟩ := ih hstep hl hrest
    exact ⟨hqueued, (boostOne_boosted h hq hxq).trans hboost⟩

/-! ## Which processes the loop moves -/

theorem boostFrom_done {fuel j : Nat} (h : (k.multique q).size ≤ j) :
    Kernel.boostFrom q fuel j k = .ok k := by
  cases fuel with
  | zero => rfl
  | succ fuel => rw [Kernel.boostFrom, if_neg (Nat.not_lt.mpr h)]

theorem boostFrom_succ (h : Queued k S) {suf : List Slot} (hlist : k.queue q = pre ++ p :: suf)
    (fuel : Nat) : Kernel.boostFrom q (fuel + 1) pre.length k =
      Kernel.boostFrom q fuel (pre.length + 1) (k.boostOne q p) := by
  have hp : p ∈ k.queue q := by rw [hlist]; simp
  obtain ⟨-, hdeq, henq⟩ := h.moved hp 0
  have hsize : pre.length < (k.multique q).size := by
    rw [h.array q, ArrayQueue.ofList_size, hlist]
    simp
  have hread : (k.multique q).deref pre.length = .ok p := by
    rw [h.array q, hlist]
    exact ArrayQueue.deref_ofList NPROC pre suf p
  rw [Kernel.boostFrom, if_pos hsize, hread, ok_bind, hdeq, ok_bind]
  show ((k.left p q).enqueue p ((0 : Fin 4) : Nat) >>= _) = _
  rw [henq, ok_bind]
  rfl

/-- The move takes the entry out of the middle of its level. -/
theorem boostOne_split (h : Queued k S) (hq : q ≠ 0) {suf : List Slot}
    (hlist : k.queue q = pre ++ p :: suf) :
    Queued (k.boostOne q p) S ∧ (k.boostOne q p).queue q = pre ++ suf := by
  have hp : p ∈ k.queue q := by rw [hlist]; simp
  have hnodup := h.nodup q
  rw [hlist] at hnodup
  have hpre : p ∉ pre := fun hmem =>
    (List.nodup_append.mp hnodup).2.2 p hmem p (List.mem_cons_self ..) rfl
  refine ⟨(h.moved hp 0).1.frame rfl fun _ => ⟨rfl, rfl⟩, ?_⟩
  rw [boostOne_queue k p hq, hlist, List.erase_append_right _ hpre, List.erase_cons_head]

/-- From an index on, the loop moves every other one of the entries that are left. -/
theorem boostFrom_eq (hq : q ≠ 0) (rest : List Slot) (h : Queued k S)
    (hlist : k.queue q = pre ++ rest) {fuel : Nat} (hfuel : rest.length ≤ fuel) :
    Kernel.boostFrom q fuel pre.length k = .ok ((evens rest).foldl (Kernel.boostOne q) k) := by
  induction rest using evens.induct generalizing pre fuel k with
  | case1 =>
    refine boostFrom_done ?_
    rw [h.array q, ArrayQueue.ofList_size, hlist, List.append_nil]
  | case2 x =>
    obtain ⟨fuel, rfl⟩ : ∃ f, fuel = f + 1 := ⟨fuel - 1, by simp at hfuel; omega⟩
    obtain ⟨hstep, hqueue⟩ := boostOne_split h hq hlist
    rw [boostFrom_succ h hlist]
    refine boostFrom_done ?_
    rw [hstep.array q, ArrayQueue.ofList_size, hqueue, List.append_nil]
    exact Nat.le_succ _
  | case3 x y rest ih =>
    obtain ⟨fuel, rfl⟩ : ∃ f, fuel = f + 1 := ⟨fuel - 1, by simp at hfuel; omega⟩
    obtain ⟨hstep, hqueue⟩ := boostOne_split h hq hlist
    -- the index steps over `y`, which has slid into the place of `x`
    have hslid : (k.boostOne q x).queue q = (pre ++ [y]) ++ rest := by
      rw [hqueue, List.append_assoc, List.singleton_append]
    have hlen : rest.length ≤ fuel := by simp at hfuel; omega
    have hrest := ih hstep hslid hlen
    rw [List.length_append, List.length_singleton] at hrest
    rw [boostFrom_succ h hlist, hrest]
    rfl

/-- The boost of one level moves the entries at its even places. -/
theorem boostLevel_spec (h : Queued k S) (hq : q ≠ 0) :
    ∃ k', k.boostLevel q = .ok k' ∧ Queued k' S ∧ Boosted (evens (k.queue q)) k k' := by
  have hloop := boostFrom_eq hq (k.queue q) h (List.nil_append _).symm (Nat.le_refl _)
  have hsub := evens_sublist (k.queue q)
  refine ⟨_, ?_, boostOne_foldl hq _ h (hsub.nodup (h.nodup q)) fun x hx => hsub.subset hx⟩
  rw [Kernel.boostLevel, h.array q, ArrayQueue.ofList_size]
  exact hloop

/-- The processes a boost moves. -/
def Kernel.boostList (k : Kernel n) : List Slot :=
  evens (k.queue 1) ++ (evens (k.queue 2) ++ evens (k.queue 3))

/-- Moves from one level leave the other lower levels alone. -/
theorem Boosted.other_level (h : Queued k S) (hb : Boosted l k k') (hl : ∀ x ∈ l, x ∈ k.queue q)
    {q' : Fin 4} (hq' : q' ≠ 0) (hne : q' ≠ q) :
    k'.queue q' = k.queue q' := by
  rw [hb.below q' hq']
  refine List.filter_eq_self.mpr fun x hx => ?_
  have hxl : x ∉ l := fun hmem => hne (h.level_unique hx (hl x hmem))
  simpa using hxl

theorem boost_spec (h : Queued k S) :
    ∃ k', k.boost = .ok (k'.note .boost) ∧ Queued k' S ∧ Boosted k.boostList k k' := by
  obtain ⟨k₁, hk₁, h₁, hb₁⟩ := boostLevel_spec h (q := 1) (by decide)
  obtain ⟨k₂, hk₂, h₂, hb₂⟩ := boostLevel_spec h₁ (q := 2) (by decide)
  obtain ⟨k₃, hk₃, h₃, hb₃⟩ := boostLevel_spec h₂ (q := 3) (by decide)
  have hsub₁ : ∀ x ∈ evens (k.queue 1), x ∈ k.queue 1 := fun x hx =>
    (evens_sublist _).subset hx
  have hsub₂ : ∀ x ∈ evens (k₁.queue 2), x ∈ k₁.queue 2 := fun x hx =>
    (evens_sublist _).subset hx
  have hq₂ : k₁.queue 2 = k.queue 2 := hb₁.other_level h hsub₁ (by decide) (by decide)
  have hq₃ : k₂.queue 3 = k.queue 3 :=
    (hb₂.other_level h₁ hsub₂ (by decide) (by decide)).trans
      (hb₁.other_level h hsub₁ (by decide) (by decide))
  rw [hq₂] at hb₂
  rw [hq₃] at hb₃
  refine ⟨k₃, ?_, h₃, hb₁.trans (hb₂.trans hb₃)⟩
  simp only [Kernel.boost, List.foldlM_cons, List.foldlM_nil, hk₁, hk₂, hk₃, ok_bind, pure_bind]
  rfl

/-- A level keeps the entries at its odd places. -/
theorem filter_boostList (h : Queued k S) (hq : q ≠ 0) :
    (k.queue q).filter (· ∉ k.boostList) = odds (k.queue q) := by
  rw [odds_eq_filter (h.nodup q)]
  refine List.filter_congr fun x hx => ?_
  have hiff : x ∈ k.boostList ↔ x ∈ evens (k.queue q) := by
    have hlevel : ∀ r, x ∈ evens (k.queue r) → r = q := fun r hr =>
      h.level_unique ((evens_sublist _).subset hr) hx
    have hall : x ∈ k.boostList ↔ ∃ r, r ≠ 0 ∧ x ∈ evens (k.queue r) := by
      rw [Kernel.boostList, List.mem_append, List.mem_append]
      constructor
      · rintro (hr | hr | hr)
        · exact ⟨1, by decide, hr⟩
        · exact ⟨2, by decide, hr⟩
        · exact ⟨3, by decide, hr⟩
      · rintro ⟨r, hr, hmem⟩
        match r with
        | 1 => exact .inl hmem
        | 2 => exact .inr (.inl hmem)
        | 3 => exact .inr (.inr hmem)
    rw [hall]
    constructor
    · rintro ⟨r, -, hr⟩
      rw [← hlevel r hr]
      exact hr
    · exact fun hmem => ⟨q, hq, hmem⟩
  simp only [hiff]

theorem Inv.boosted (h : Inv k) (hqueued : Queued k' fun x => (k.proc x).state.ready = true)
    (hb : Boosted l k k') :
    Inv k' := by
  refine h.requeue (fun x => ?_) (fun x => ?_) hqueued (fun c => ?_) ?_
  · by_cases hx : x ∈ l
    · rw [hb.moved x hx]; rfl
    · rw [hb.other x hx]
  · by_cases hx : x ∈ l
    · rw [hb.moved x hx]; exact Nat.zero_lt_succ 3
    · rw [hb.other x hx]; exact h.level x
  · rw [hb.frame]; rfl
  · rw [hb.frame]

/-! ## When the boost does what it is for -/

/-- Everybody is at level 0 now, in the order of the old levels, with nothing charged. -/
structure Promoted (k k' : Kernel n) : Prop where
  empty : ∀ q, q ≠ 0 → k'.queue q = []
  top : k'.queue 0 = k.queue 0 ++ k.queue 1 ++ k.queue 2 ++ k.queue 3
  moved : ∀ q, q ≠ 0 → ∀ p ∈ k.queue q,
    (k'.proc p).queueNumber = 0 ∧ (k'.proc p).queueticks = 0
  kept : ∀ q, ∀ p ∈ k.queue q, ∃ q', p ∈ k'.queue q'

/-- From any lengths of the four queues the boost comes to an end, and it empties the lower
levels exactly when none of them held two processes. -/
theorem boost_promotes_iff (h : Queued k S) :
    ∃ k', k.boost = .ok k' ∧ (Promoted k k' ↔ ∀ q, q ≠ 0 → (k.queue q).length ≤ 1) := by
  obtain ⟨k', hk', -, hb⟩ := boost_spec h
  refine ⟨_, hk', fun hp q hq => ?_, fun hlen => ?_⟩
  · have hempty := hp.empty q hq
    rw [Kernel.note_queue, hb.below q hq, filter_boostList h hq] at hempty
    exact odds_eq_nil.mp hempty
  · have hlist : k.boostList = k.queue 1 ++ (k.queue 2 ++ k.queue 3) := by
      rw [Kernel.boostList, evens_eq_self (hlen 1 (by decide)), evens_eq_self (hlen 2 (by decide)),
        evens_eq_self (hlen 3 (by decide))]
    have htop : k'.queue 0 = k.queue 0 ++ k.queue 1 ++ k.queue 2 ++ k.queue 3 := by
      rw [hb.top, hlist]
      simp only [List.append_assoc]
    have hmem : ∀ q, q ≠ 0 → ∀ p ∈ k.queue q, p ∈ k.boostList := by
      intro q hq p hp
      rw [hlist, List.mem_append, List.mem_append]
      match q with
      | 1 => exact .inl hp
      | 2 => exact .inr (.inl hp)
      | 3 => exact .inr (.inr hp)
    refine ⟨fun q hq => ?_, htop, fun q hq p hp => ?_, fun q p hp => ⟨0, ?_⟩⟩
    · rw [Kernel.note_queue, hb.below q hq, filter_boostList h hq]
      exact odds_eq_nil.mpr (hlen q hq)
    · rw [Kernel.note_proc, hb.moved p (hmem q hq p hp)]
      exact ⟨rfl, rfl⟩
    · rw [Kernel.note_queue, hb.top, List.mem_append]
      by_cases hq : q = 0
      · exact .inl (hq ▸ hp)
      · exact .inr (hmem q hq p hp)

/-- A table whose only processes are those of `l`, runnable at level 1. -/
def Kernel.levelOne (l : List Slot) : Kernel 1 :=
  { Kernel.boot 1 with
    proc := fun p =>
      if p ∈ l then { state := .runnable, pid := p + 1, queueNumber := 1 } else {}
    multique := Function.update (Kernel.boot 1).multique 1 (ArrayQueue.ofList NPROC l) }

theorem levelOne_queue (l : List Slot) (q : Fin 4) :
    (Kernel.levelOne l).queue q = if q = 1 then l else [] := by
  simp only [Kernel.queue, Kernel.levelOne, Function.update_apply]
  split
  · exact ArrayQueue.toList_ofList NPROC l
  · rfl

theorem levelOne_queued (hl : l.Nodup) : Queued (Kernel.levelOne l) (· ∈ l) := by
  have hproc : ∀ p ∈ l, (Kernel.levelOne l).proc p =
      { state := .runnable, pid := p + 1, queueNumber := 1 } := fun p hp => if_pos hp
  refine ⟨fun q => ?_, fun q => ?_, fun q p hp => ?_, fun p => ?_, fun p p' hp hp' he => ?_⟩
  · rw [levelOne_queue]
    simp only [Kernel.levelOne, Function.update_apply]
    split <;> rfl
  · rw [levelOne_queue]
    split
    · exact hl
    · exact List.nodup_nil
  · rw [levelOne_queue] at hp
    split at hp
    · next hq => rw [hproc p hp, hq]; rfl
    · cases hp
  · simp only [levelOne_queue]
    constructor
    · exact fun hp => ⟨1, hp⟩
    · rintro ⟨q, hq⟩
      split at hq
      · exact hq
      · cases hq
  · rw [hproc p hp, hproc p' hp'] at he
    have hadd : ((p : Nat) : Int) + 1 = (p' : Nat) + 1 := he
    exact Fin.ext (by omega)

/-- With one process at level 1 the boost empties it. -/
theorem boost_promotes_one : Queued (Kernel.levelOne [0]) (· ∈ [0]) ∧
    ∃ k', (Kernel.levelOne [0]).boost = .ok k' ∧ Promoted (Kernel.levelOne [0]) k' := by
  have hqueued := levelOne_queued (List.nodup_singleton 0)
  obtain ⟨k', hk', hiff⟩ := boost_promotes_iff hqueued
  refine ⟨hqueued, k', hk', hiff.mpr fun q _ => ?_⟩
  rw [levelOne_queue]
  split <;> simp

/-- With two processes at level 1 the boost leaves the second one there. -/
theorem boost_leaves_second : Queued (Kernel.levelOne [0, 1]) (· ∈ [0, 1]) ∧
    ∃ k', (Kernel.levelOne [0, 1]).boost = .ok k' ∧ k'.queue 1 = [1] ∧
      ¬ Promoted (Kernel.levelOne [0, 1]) k' := by
  have hqueued := levelOne_queued (l := [0, 1]) (by decide)
  obtain ⟨k', hk', -, hb⟩ := boost_spec hqueued
  have hleft : (k'.note .boost).queue 1 = [1] := by
    rw [Kernel.note_queue, hb.below 1 (by decide), filter_boostList hqueued (by decide),
      levelOne_queue]
    rfl
  refine ⟨hqueued, _, hk', hleft, fun hp => ?_⟩
  rw [hp.empty 1 (by decide)] at hleft
  cases hleft

end Xv6
