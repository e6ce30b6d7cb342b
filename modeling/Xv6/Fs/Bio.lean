import Xv6.Base.Machine
import Xv6.Base.Ring
import Xv6.Fs.Log

/-!
# The buffer cache

`kernel/bio.c`. The `NBUF` buffers are on one circular list through `prev` and `next`, with
`bcache.head` as its head. `bget` looks for a block from the front of the list and for an unused
buffer from its back. `brelse` moves a buffer that nobody uses any more to the front.

Any number of calls run at once. Each step of the machine is one critical section of `bcache.lock`,
or an operation on the sleep lock of a buffer: `bget` takes its reference under `bcache.lock`
(`bget`) and then waits for the buffer (`acquiresleep`); `brelse` first lets the buffer go
(`releasesleep`) and then drops its reference (`brelse`). What a call does with the contents of a
buffer is left out, apart from the read in `bread` that makes them valid.

The machine also keeps the history the law speaks about: which call has a reference to which
buffer, how often each buffer is pinned, and when its `refcnt` last dropped to 0 in `brelse`.
-/

namespace Xv6.Fs

open Base Function

/-- `NBUF` of `param.h`. -/
abbrev NBUF : Nat := MAXOPBLOCKS * 3

/-- `struct buf`, without its links, its sleep lock and its contents. `refcnt` is a `uint`. -/
structure Buf where
  valid : Bool
  dev : Nat
  blockno : Nat
  refcnt : Nat
deriving DecidableEq

/-- `bcache`. -/
structure Bcache where
  links : Links (Fin NBUF)
  buf : Fin NBUF → Buf

namespace Bcache

/-- `binit`. Statically allocated buffers are zero. -/
def binit : Bcache where
  links := (List.finRange NBUF).foldl Links.linkFront ⟨fun _ => none, fun _ => none⟩
  buf _ := ⟨false, 0, 0, 0⟩

/-- Write a buffer. -/
def set (s : Bcache) (b : Fin NBUF) (v : Buf) : Bcache :=
  { s with buf := update s.buf b v }

/-- The first loop of `bget`: the buffer that caches the block. -/
def cached (s : Bcache) (dev blockno : Nat) : Option (Fin NBUF) :=
  Links.walk s.links.next (fun b => (s.buf b).dev == dev && (s.buf b).blockno == blockno) NBUF
    (s.links.next none)

/-- The second loop of `bget`: the buffer to recycle. -/
def unused (s : Bcache) : Option (Fin NBUF) :=
  Links.walk s.links.prev (fun b => (s.buf b).refcnt == 0) NBUF (s.links.prev none)

/-- `b->refcnt++`. -/
def bpin (s : Bcache) (b : Fin NBUF) : Bcache :=
  s.set b { s.buf b with refcnt := ((s.buf b).refcnt + 1) % 2 ^ 32 }

/-- `b->refcnt--`. -/
def bunpin (s : Bcache) (b : Fin NBUF) : Bcache :=
  s.set b { s.buf b with refcnt := ((s.buf b).refcnt + (2 ^ 32 - 1)) % 2 ^ 32 }

/-- Make a buffer the one of another block. -/
def recycle (s : Bcache) (b : Fin NBUF) (dev blockno : Nat) : Bcache :=
  s.set b ⟨false, dev, blockno, 1⟩

/-- `bget` up to the point where it waits for the buffer. -/
def bget (s : Bcache) (dev blockno : Nat) : Except Fault (Fin NBUF × Bcache) :=
  match s.cached dev blockno with
  | some b => .ok (b, s.bpin b)
  | none =>
    match s.unused with
    | some b => .ok (b, s.recycle b dev blockno)
    | none => .error (.panic "bget: no buffers")

/-- The six link writes of `brelse`. -/
def toFront (s : Bcache) (b : Fin NBUF) : Bcache :=
  { s with links := (s.links.unlink b).linkFront b }

/-- The end of `brelse`, once the sleep lock is released. -/
def brelse (s : Bcache) (b : Fin NBUF) : Bcache :=
  if ((s.bunpin b).buf b).refcnt = 0 then (s.bunpin b).toFront b else s.bunpin b

end Bcache

/-! ## The calls -/

/-- Where a call that uses a buffer stands. -/
inductive Use
  | idle
  /-- in `bget`, waiting for the sleep lock -/
  | waiting (b : Fin NBUF)
  /-- between `bread` and `brelse` -/
  | holding (b : Fin NBUF)
  /-- in `brelse`, after `releasesleep` -/
  | releasing (b : Fin NBUF)
deriving DecidableEq

/-- The buffer the call has a reference to. -/
def Use.buffer : Use → Option (Fin NBUF)
  | .idle => none
  | .waiting b | .holding b | .releasing b => some b

/-- The use counts as a reference to the buffer. -/
def Use.count (u : Use) (b : Fin NBUF) : Nat := if u.buffer = some b then 1 else 0

/-- The cache, the calls, and the history of the references. -/
structure Calls (ι : Type) where
  cache : Bcache
  use : ι → Use
  pins : Fin NBUF → Nat
  /-- the number of steps so far -/
  now : Nat
  /-- when `refcnt` last dropped to 0 in `brelse`, or 0 -/
  dropped : Fin NBUF → Nat

/-- The critical sections. -/
inductive BufEvent (ι : Type)
  | bget (c : ι) (dev blockno : Nat)
  | acquiresleep (c : ι)
  | read (c : ι)
  | releasesleep (c : ι)
  | brelse (c : ι)
  | bpin (b : Fin NBUF)
  | bunpin (b : Fin NBUF)

namespace Calls

variable {ι : Type} [Fintype ι] [DecidableEq ι]

/-- The number of calls that have a reference to the buffer. -/
def holders (s : Calls ι) (b : Fin NBUF) : Nat :=
  (Finset.univ.filter fun c => (s.use c).buffer = some b).card

/-- The number of references to the buffer. -/
def refs (s : Calls ι) (b : Fin NBUF) : Nat := s.holders b + s.pins b

/-- The sleep lock of the buffer is free. -/
def unlocked (s : Calls ι) (b : Fin NBUF) : Bool := decide (∀ c, s.use c ≠ .holding b)

/-- The event can happen. A `bunpin` undoes an earlier `bpin`. -/
def enabled (s : Calls ι) : BufEvent ι → Bool
  | .bget c dev _ => decide (s.use c = .idle) && decide (dev ≠ 0)
  | .acquiresleep c =>
    match s.use c with
    | .waiting b => s.unlocked b
    | _ => false
  | .read c | .releasesleep c =>
    match s.use c with
    | .holding _ => true
    | _ => false
  | .brelse c =>
    match s.use c with
    | .releasing _ => true
    | _ => false
  | .bpin _ => true
  | .bunpin b => decide (0 < s.pins b)

/-- The call moves on. -/
def move (s : Calls ι) (c : ι) (u : Use) : Calls ι := { s with use := update s.use c u }

/-- The cache changes. -/
def withCache (s : Calls ι) (cache : Bcache) : Calls ι := { s with cache := cache }

/-- `acquiresleep` at the end of `bget`, and `releasesleep` in `brelse`. -/
def touch (s : Calls ι) (c : ι) : Use → Calls ι
  | .waiting b => s.move c (.holding b)
  | .holding b => s.move c (.releasing b)
  | _ => s

/-- `virtio_disk_rw(b, 0); b->valid = 1` in `bread`. -/
def fill (s : Calls ι) : Use → Calls ι
  | .holding b => s.withCache (s.cache.set b { s.cache.buf b with valid := true })
  | _ => s

/-- The end of `brelse` for a buffer. A `refcnt` that drops to 0 is put on record. -/
def drop (s : Calls ι) (c : ι) (b : Fin NBUF) : Calls ι :=
  let t := (s.withCache (s.cache.brelse b)).move c .idle
  if (t.cache.buf b).refcnt = 0 then
    { t with dropped := update s.dropped b (s.now + 1) }
  else t

/-- The end of `brelse` for the call's buffer. -/
def release (s : Calls ι) (c : ι) : Use → Calls ι
  | .releasing b => s.drop c b
  | _ => s

/-- What the event does. -/
def act (s : Calls ι) : BufEvent ι → Except Fault (Calls ι)
  | .bget c dev blockno =>
    (s.cache.bget dev blockno).map fun r => (s.withCache r.2).move c (.waiting r.1)
  | .acquiresleep c | .releasesleep c => .ok (s.touch c (s.use c))
  | .read c => .ok (s.fill (s.use c))
  | .brelse c => .ok (s.release c (s.use c))
  | .bpin b =>
    .ok { s.withCache (s.cache.bpin b) with pins := update s.pins b (s.pins b + 1) }
  | .bunpin b =>
    .ok { s.withCache (s.cache.bunpin b) with pins := update s.pins b (s.pins b - 1) }

/-- One step of the clock. -/
def tick (s : Calls ι) : Calls ι := { s with now := s.now + 1 }

end Calls

/-- The buffer cache after `binit`, used by calls `ι`. -/
def bufferCache (ι : Type) [Fintype ι] [DecidableEq ι] :
    Machine (Calls ι) (BufEvent ι) Fault where
  init := ⟨.binit, fun _ => .idle, fun _ => 0, 0, fun _ => 0⟩
  enabled e s := s.enabled e
  exec e s := (s.act e).map Calls.tick

/-! ## The list -/

namespace Bcache

variable {s : Bcache} {order : List (Fin NBUF)} {b : Fin NBUF} {dev blockno : Nat}

/-- Writing a buffer keeps the fields that are written as they were. -/
theorem set_field {α : Type} (f : Buf → α) {v : Buf} (h : f v = f (s.buf b)) (x : Fin NBUF) :
    f ((s.set b v).buf x) = f (s.buf x) := by
  by_cases hx : x = b
  · subst hx
    rw [← h]
    exact congrArg f (update_self ..)
  · exact congrArg f (update_of_ne hx ..)

/-- A change of `refcnt` leaves the block of every buffer. -/
theorem set_refcnt_block (s : Bcache) (b : Fin NBUF) (n : Nat) (x : Fin NBUF) :
    ((s.set b { s.buf b with refcnt := n }).buf x).dev = (s.buf x).dev ∧
      ((s.set b { s.buf b with refcnt := n }).buf x).blockno = (s.buf x).blockno := by
  constructor
  · refine set_field Buf.dev ?_ x
    rfl
  · refine set_field Buf.blockno ?_ x
    rfl

/-- Every buffer is on the list. -/
structure Listed (s : Bcache) (order : List (Fin NBUF)) : Prop where
  ring : s.links.Ring order
  all : ∀ b, b ∈ order

theorem Listed.length_le (h : s.Listed order) : order.length ≤ NBUF := by
  have hcard := h.ring.nodup.length_le_card
  rwa [Fintype.card_fin] at hcard

/-- `cached` finds the first buffer of the list with the block. -/
theorem Listed.cached (h : s.Listed order) :
    s.cached dev blockno =
      order.find? fun b => (s.buf b).dev == dev && (s.buf b).blockno == blockno :=
  Links.walk_next h.ring.path h.length_le

/-- `unused` finds the last buffer of the list that nobody uses. -/
theorem Listed.unused (h : s.Listed order) :
    s.unused = order.reverse.find? fun b => (s.buf b).refcnt == 0 :=
  Links.walk_prev h.ring.path h.length_le

theorem Listed.cached_some (h : s.Listed order) (hb : s.cached dev blockno = some b) :
    (s.buf b).dev = dev ∧ (s.buf b).blockno = blockno := by
  rw [h.cached] at hb
  have hblock := List.find?_some hb
  rwa [Bool.and_eq_true, beq_iff_eq, beq_iff_eq] at hblock

theorem Listed.cached_none (h : s.Listed order) (hb : s.cached dev blockno = none) (b : Fin NBUF) :
    ¬ ((s.buf b).dev = dev ∧ (s.buf b).blockno = blockno) := by
  rw [h.cached, List.find?_eq_none] at hb
  have hnot := hb b (h.all b)
  rwa [Bool.and_eq_true, beq_iff_eq, beq_iff_eq] at hnot

/-- The buffer to recycle is unused, and the buffers behind it on the list are not. -/
theorem Listed.unused_some (h : s.Listed order) (hb : s.unused = some b) :
    (s.buf b).refcnt = 0 ∧
      ∃ front back, order = front ++ b :: back ∧ ∀ x ∈ back, (s.buf x).refcnt ≠ 0 := by
  rw [h.unused] at hb
  refine ⟨beq_iff_eq.mp (List.find?_some hb :), ?_⟩
  obtain ⟨-, xs, ys, hsplit, hbefore⟩ := List.find?_eq_some_iff_append.mp hb
  refine ⟨ys.reverse, xs.reverse, ?_, fun x hx => ?_⟩
  · have hrev := congrArg List.reverse hsplit
    rwa [List.reverse_reverse, List.reverse_append, List.reverse_cons, List.append_assoc,
      List.singleton_append] at hrev
  · have hnot := hbefore x (List.mem_reverse.mp hx)
    rw [Bool.not_eq_true', beq_eq_false_iff_ne] at hnot
    exact hnot

/-- `bget` answers the buffer of the block, or makes an unused one the buffer of the block. -/
theorem bget_cases {r : Fin NBUF × Bcache} (h : s.bget dev blockno = .ok r) :
    (∃ b, s.cached dev blockno = some b ∧ r = (b, s.bpin b)) ∨
      s.cached dev blockno = none ∧
        ∃ b, s.unused = some b ∧ r = (b, s.recycle b dev blockno) := by
  unfold bget at h
  cases hcached : s.cached dev blockno with
  | some b =>
    rw [hcached] at h
    cases h
    exact .inl ⟨b, rfl, rfl⟩
  | none =>
    rw [hcached] at h
    cases hunused : s.unused with
    | none =>
      rw [hunused] at h
      cases h
    | some b =>
      rw [hunused] at h
      cases h
      exact .inr ⟨rfl, b, rfl, rfl⟩

/-- Each step of `binit` puts one more buffer on the list. -/
theorem foldl_linkFront_ring (bs : List (Fin NBUF)) :
    ∀ {k : Links (Fin NBUF)} {xs : List (Fin NBUF)}, k.Ring xs → (bs.reverse ++ xs).Nodup →
      (bs.foldl Links.linkFront k).Ring (bs.reverse ++ xs) := by
  induction bs with
  | nil => exact fun h _ => h
  | cons b bs ih =>
    intro k xs h hnodup
    rw [List.reverse_cons, List.append_assoc, List.singleton_append] at hnodup ⊢
    have hb : b ∉ xs := (List.nodup_cons.mp (List.nodup_append.mp hnodup).2.1).1
    exact ih (h.linkFront hb) hnodup

theorem binit_listed : binit.Listed (List.finRange NBUF).reverse := by
  have hempty : Links.Ring ⟨fun _ => none, fun _ => none⟩ ([] : List (Fin NBUF)) :=
    ⟨⟨rfl, rfl⟩, List.nodup_nil⟩
  have hnodup : ((List.finRange NBUF).reverse ++ []).Nodup := by
    rw [List.append_nil]
    exact List.nodup_reverse.mpr (List.nodup_finRange NBUF)
  have hring := foldl_linkFront_ring (List.finRange NBUF) hempty hnodup
  rw [List.append_nil] at hring
  exact ⟨hring, fun b => List.mem_reverse.mpr (List.mem_finRange b)⟩

end Bcache

/-! ## The references -/

namespace Calls

variable {ι : Type} [Fintype ι] {s t : Calls ι} {order : List (Fin NBUF)}

/-- A call that moves on gives up its reference and takes another. -/
theorem holders_move [DecidableEq ι] (s : Calls ι) (c : ι) (u : Use) (b : Fin NBUF) :
    (s.move c u).holders b + (s.use c).count b = s.holders b + u.count b := by
  unfold holders
  rw [Finset.card_filter, Finset.card_filter, ← Finset.add_sum_erase _ _ (Finset.mem_univ c),
    ← Finset.add_sum_erase _ _ (Finset.mem_univ c)]
  have hself : (s.move c u).use c = u := update_self ..
  have hrest : ∑ x ∈ Finset.univ.erase c, (if ((s.move c u).use x).buffer = some b then 1 else 0) =
      ∑ x ∈ Finset.univ.erase c, (if (s.use x).buffer = some b then 1 else 0) := by
    refine Finset.sum_congr rfl fun x hx => ?_
    have hx : (s.move c u).use x = s.use x := update_of_ne (Finset.ne_of_mem_erase hx) ..
    rw [hx]
  rw [hself, hrest]
  unfold Use.count
  omega

/-- What holds of the cache and its history after every step. -/
structure Inv (s : Calls ι) (order : List (Fin NBUF)) : Prop where
  listed : s.cache.Listed order
  sorted : order.Pairwise fun a b => s.dropped b ≤ s.dropped a
  past : ∀ b, s.dropped b ≤ s.now
  unique : ∀ b b', (s.cache.buf b).dev ≠ 0 → (s.cache.buf b).dev = (s.cache.buf b').dev →
    (s.cache.buf b).blockno = (s.cache.buf b').blockno → b = b'
  counted : ∀ b, (s.cache.buf b).refcnt = s.refs b
  few : ∀ b, s.refs b < 2 ^ 32

/-- A buffer is for the same block as before. -/
def SameBlock (s t : Calls ι) (b : Fin NBUF) : Prop :=
  (t.cache.buf b).dev = (s.cache.buf b).dev ∧ (t.cache.buf b).blockno = (s.cache.buf b).blockno

theorem Inv.keep (h : s.Inv order) (hlinks : t.cache.links = s.cache.links)
    (hdropped : t.dropped = s.dropped) (hnow : t.now = s.now)
    (hblock : ∀ b, s.SameBlock t b) (hcount : ∀ b, (t.cache.buf b).refcnt = t.refs b)
    (hfew : ∀ b, t.refs b < 2 ^ 32) : t.Inv order where
  listed := ⟨hlinks ▸ h.listed.ring, h.listed.all⟩
  sorted := hdropped ▸ h.sorted
  past b := by
    rw [hdropped, hnow]
    exact h.past b
  unique b b' := by
    rw [(hblock b).1, (hblock b).2, (hblock b').1, (hblock b').2]
    exact h.unique b b'
  counted := hcount
  few := hfew

theorem Inv.tick (h : s.Inv order) : s.tick.Inv order :=
  ⟨h.listed, h.sorted, fun b => Nat.le_succ_of_le (h.past b), h.unique, h.counted, h.few⟩

section Deeds

variable {b : Fin NBUF} {dev blockno : Nat}

theorem Inv.bpin (h : s.Inv order) (hroom : s.refs b + 1 < 2 ^ 32)
    (hcache : t.cache = s.cache.bpin b) (hdropped : t.dropped = s.dropped) (hnow : t.now = s.now)
    (hrefs : ∀ x, t.refs x = s.refs x + if b = x then 1 else 0) : t.Inv order := by
  refine h.keep (by rw [hcache]; rfl) hdropped hnow (fun x => ?_) (fun x => ?_) fun x => ?_
  · unfold SameBlock
    rw [hcache]
    exact Bcache.set_refcnt_block ..
  · rw [hcache, hrefs]
    by_cases hx : b = x
    · subst hx
      have hcount := h.counted b
      simp only [Bcache.bpin, Bcache.set, update_self, if_true]
      rw [hcount, Nat.mod_eq_of_lt hroom]
    · simp only [Bcache.bpin, Bcache.set, if_neg hx, Nat.add_zero]
      rw [update_of_ne (Ne.symm hx), h.counted]
  · rw [hrefs]
    by_cases hx : b = x
    · subst hx
      rwa [if_pos rfl]
    · rw [if_neg hx]
      exact h.few x

theorem Inv.bunpin (h : s.Inv order) (hcache : t.cache = s.cache.bunpin b)
    (hdropped : t.dropped = s.dropped) (hnow : t.now = s.now)
    (hrefs : ∀ x, (t.refs x + if b = x then 1 else 0) = s.refs x) : t.Inv order := by
  refine h.keep (by rw [hcache]; rfl) hdropped hnow (fun x => ?_) (fun x => ?_) fun x => ?_
  · unfold SameBlock
    rw [hcache]
    exact Bcache.set_refcnt_block ..
  · have hcount := h.counted x
    have hlt := h.few x
    rw [hcache]
    have hfewer := hrefs x
    by_cases hx : b = x
    · subst hx
      rw [if_pos rfl] at hfewer
      simp only [Bcache.bunpin, Bcache.set, update_self]
      omega
    · rw [if_neg hx] at hfewer
      simp only [Bcache.bunpin, Bcache.set]
      rw [update_of_ne (Ne.symm hx)]
      omega
  · have hlt := h.few x
    have hfewer := hrefs x
    omega

/-- An unused buffer becomes the one of a block that was not cached. -/
theorem Inv.recycle (h : s.Inv order)
    (hnone : ∀ x, ¬ ((s.cache.buf x).dev = dev ∧ (s.cache.buf x).blockno = blockno))
    (hzero : (s.cache.buf b).refcnt = 0) (hcache : t.cache = s.cache.recycle b dev blockno)
    (hdropped : t.dropped = s.dropped) (hnow : t.now = s.now)
    (hrefs : ∀ x, t.refs x = s.refs x + if b = x then 1 else 0) : t.Inv order := by
  have hself : t.cache.buf b = ⟨false, dev, blockno, 1⟩ := by
    rw [hcache]
    exact update_self ..
  have hother : ∀ x, x ≠ b → t.cache.buf x = s.cache.buf x := by
    intro x hx
    rw [hcache]
    exact update_of_ne hx ..
  have hrefb : s.refs b = 0 := (h.counted b).symm.trans hzero
  refine ⟨⟨by rw [hcache]; exact h.listed.ring, h.listed.all⟩, hdropped ▸ h.sorted, ?_, ?_, ?_, ?_⟩
  · rw [hdropped, hnow]
    exact h.past
  · intro x y
    by_cases hx : x = b
    · by_cases hy : y = b
      · exact fun _ _ _ => hx.trans hy.symm
      · rw [hx, hself, hother y hy]
        exact fun _ hd hn => absurd ⟨hd.symm, hn.symm⟩ (hnone y)
    · by_cases hy : y = b
      · rw [hy, hself, hother x hx]
        exact fun _ hd hn => absurd ⟨hd, hn⟩ (hnone x)
      · rw [hother x hx, hother y hy]
        exact h.unique x y
  · intro x
    rw [hrefs]
    by_cases hx : b = x
    · subst hx
      rw [hself, if_pos rfl, hrefb]
    · rw [hother x (Ne.symm hx), if_neg hx, h.counted, Nat.add_zero]
  · intro x
    rw [hrefs]
    by_cases hx : b = x
    · subst hx
      rw [if_pos rfl, hrefb]
      norm_num
    · rw [if_neg hx]
      exact h.few x

theorem Inv.front (h : s.Inv order) (hlinks : t.cache.links = (s.cache.links.unlink b).linkFront b)
    (hbuf : t.cache.buf = s.cache.buf) (hnow : t.now = s.now)
    (hdropped : t.dropped = update s.dropped b (s.now + 1))
    (hrefs : ∀ x, t.refs x = s.refs x) : ∃ order', t.tick.Inv order' := by
  obtain ⟨front, back, rfl⟩ := List.append_of_mem (h.listed.all b)
  obtain ⟨hfront, hrest, hdisj⟩ := List.nodup_append.mp h.listed.ring.nodup
  have hb : b ∉ front ++ back := by
    rw [List.mem_append]
    rintro (hin | hin)
    · exact hdisj b hin b (List.mem_cons_self ..) rfl
    · exact (List.nodup_cons.mp hrest).1 hin
  have hother : ∀ x ∈ front ++ back, t.dropped x = s.dropped x := by
    intro x hx
    have hne : x ≠ b := fun he => hb (he ▸ hx)
    rw [hdropped]
    exact update_of_ne hne ..
  have hself : t.dropped b = s.now + 1 := by
    rw [hdropped]
    exact update_self ..
  refine ⟨b :: (front ++ back), ⟨?_, fun x => ?_⟩, ?_, fun x => ?_, ?_, fun x => ?_, fun x => ?_⟩
  · exact hlinks ▸ h.listed.ring.unlink.linkFront hb
  · have hx := h.listed.all x
    rw [List.mem_append, List.mem_cons] at hx
    rw [List.mem_cons, List.mem_append]
    tauto
  · -- the new time is the latest, the others keep theirs and their order
    show (b :: (front ++ back)).Pairwise fun a c => t.dropped c ≤ t.dropped a
    have hsub : (front ++ back).Sublist (front ++ b :: back) :=
      (List.sublist_cons_self b back).append_left front
    refine List.pairwise_cons.mpr ⟨fun x hx => ?_, ?_⟩
    · rw [hother x hx, hself]
      exact Nat.le_succ_of_le (h.past x)
    · refine (h.sorted.sublist hsub).imp_of_mem fun {x y} hx hy hle => ?_
      rwa [hother x hx, hother y hy]
  · show t.dropped x ≤ t.now + 1
    by_cases hx : x = b
    · rw [hx, hself, hnow]
    · rw [hdropped, hnow, update_of_ne hx]
      exact Nat.le_succ_of_le (h.past x)
  · show ∀ x y, (t.cache.buf x).dev ≠ 0 → (t.cache.buf x).dev = (t.cache.buf y).dev →
      (t.cache.buf x).blockno = (t.cache.buf y).blockno → x = y
    rw [hbuf]
    exact h.unique
  · show (t.cache.buf x).refcnt = t.refs x
    rw [hbuf, hrefs, h.counted]
  · show t.refs x < 2 ^ 32
    rw [hrefs]
    exact h.few x

end Deeds

/-! ## The steps -/

section Steps

variable [DecidableEq ι] {c : ι} {b : Fin NBUF} {dev blockno : Nat} {u : Use}

theorem refs_take (hs : s.use c = .idle) (cache : Bcache) (x : Fin NBUF) :
    ((s.withCache cache).move c (.waiting b)).refs x = s.refs x + if b = x then 1 else 0 := by
  have hmove := holders_move (s.withCache cache) c (.waiting b) x
  have hidle : ((s.withCache cache).use c).count x = 0 := by
    show (s.use c).count x = 0
    rw [hs]
    rfl
  have hnew : (Use.waiting b).count x = if b = x then 1 else 0 := by
    unfold Use.count Use.buffer
    simp only [Option.some.injEq]
  have hsame : (s.withCache cache).holders x = s.holders x := rfl
  show ((s.withCache cache).move c (.waiting b)).holders x + s.pins x = s.holders x + s.pins x + _
  omega

theorem refs_drop (hs : s.use c = .releasing b) (cache : Bcache) (x : Fin NBUF) :
    (((s.withCache cache).move c .idle).refs x + if b = x then 1 else 0) = s.refs x := by
  have hmove := holders_move (s.withCache cache) c .idle x
  have hold : ((s.withCache cache).use c).count x = if b = x then 1 else 0 := by
    show (s.use c).count x = _
    rw [hs]
    unfold Use.count Use.buffer
    simp only [Option.some.injEq]
  have hidle : Use.idle.count x = 0 := rfl
  have hsame : (s.withCache cache).holders x = s.holders x := rfl
  show ((s.withCache cache).move c .idle).holders x + s.pins x + _ = s.holders x + s.pins x
  omega

theorem refs_keep (hu : u.buffer = (s.use c).buffer) (x : Fin NBUF) :
    (s.move c u).refs x = s.refs x := by
  have hmove := holders_move s c u x
  have hcount : u.count x = (s.use c).count x := by
    unfold Use.count
    rw [hu]
  show (s.move c u).holders x + s.pins x = s.holders x + s.pins x
  omega

theorem Inv.bget (h : s.Inv order) (hidle : s.use c = .idle) (hroom : ∀ b, s.refs b + 1 < 2 ^ 32)
    {r : Fin NBUF × Bcache} (hr : s.cache.bget dev blockno = .ok r) :
    ((s.withCache r.2).move c (.waiting r.1)).Inv order := by
  rcases Bcache.bget_cases hr with ⟨b, -, rfl⟩ | ⟨hnone, b, hb, rfl⟩
  · exact h.bpin (hroom b) rfl rfl rfl (refs_take hidle _)
  · exact h.recycle (h.listed.cached_none hnone) (h.listed.unused_some hb).1 rfl rfl rfl
      (refs_take hidle _)

theorem Inv.touch (h : s.Inv order) (c : ι) : (s.touch c (s.use c)).Inv order := by
  have hkeep : ∀ u, u.buffer = (s.use c).buffer → (s.move c u).Inv order := by
    intro u hu
    refine h.keep rfl rfl rfl (fun _ => ⟨rfl, rfl⟩) (fun x => ?_) fun x => ?_
    · rw [refs_keep hu]
      exact h.counted x
    · rw [refs_keep hu]
      exact h.few x
  cases hu : s.use c with
  | idle => exact h
  | releasing b => exact h
  | waiting b | holding b => exact hkeep _ (by rw [hu]; rfl)

omit [DecidableEq ι] in
theorem Inv.fill (h : s.Inv order) (u : Use) : (s.fill u).Inv order := by
  cases u with
  | idle | waiting | releasing => exact h
  | holding b =>
    refine h.keep rfl rfl rfl (fun x => ⟨?_, ?_⟩) (fun x => ?_) h.few
    · refine Bcache.set_field Buf.dev ?_ x
      rfl
    · refine Bcache.set_field Buf.blockno ?_ x
      rfl
    · refine Eq.trans (Bcache.set_field Buf.refcnt ?_ x) (h.counted x)
      rfl

theorem Inv.release (h : s.Inv order) (c : ι) :
    ∃ order', (s.release c (s.use c)).tick.Inv order' := by
  cases hu : s.use c with
  | idle | waiting | holding => exact ⟨order, h.tick⟩
  | releasing b =>
    have hdrop : ((s.withCache (s.cache.bunpin b)).move c .idle).Inv order :=
      h.bunpin rfl rfl rfl (refs_drop hu _)
    show ∃ order', (s.drop c b).tick.Inv order'
    unfold drop
    by_cases hzero : ((s.cache.bunpin b).buf b).refcnt = 0
    · have hcache : s.cache.brelse b = (s.cache.bunpin b).toFront b := if_pos hzero
      rw [hcache, if_pos (by exact hzero)]
      exact hdrop.front rfl rfl rfl rfl fun _ => rfl
    · have hcache : s.cache.brelse b = s.cache.bunpin b := if_neg hzero
      rw [hcache, if_neg (by exact hzero)]
      exact ⟨order, hdrop.tick⟩

omit [Fintype ι] in
theorem act_bget (h : s.act (.bget c dev blockno) = .ok t) :
    ∃ r, s.cache.bget dev blockno = .ok r ∧ t = (s.withCache r.2).move c (.waiting r.1) := by
  change (s.cache.bget dev blockno).map _ = .ok t at h
  cases hr : s.cache.bget dev blockno with
  | error f =>
    rw [hr] at h
    cases h
  | ok r =>
    rw [hr] at h
    cases h
    exact ⟨r, rfl, rfl⟩

/-- Every step keeps the invariant. Only the end of `brelse` may change the order of the list. -/
theorem Inv.act (h : s.Inv order) (hroom : ∀ b, s.refs b + 1 < 2 ^ 32) {e : BufEvent ι}
    (hen : s.enabled e = true) (hact : s.act e = .ok t) : ∃ order', t.tick.Inv order' := by
  cases e with
  | bget c =>
    have hidle : s.use c = .idle := of_decide_eq_true (Bool.and_eq_true_iff.mp hen).1
    obtain ⟨r, hr, rfl⟩ := act_bget hact
    exact ⟨order, (h.bget hidle hroom hr).tick⟩
  | acquiresleep c | releasesleep c =>
    cases hact
    exact ⟨order, (h.touch c).tick⟩
  | read c =>
    cases hact
    exact ⟨order, (h.fill _).tick⟩
  | brelse c =>
    cases hact
    exact h.release c
  | bpin b =>
    cases hact
    refine ⟨order, Inv.tick ?_⟩
    refine h.bpin (hroom b) rfl rfl rfl fun x => ?_
    show s.holders x + update s.pins b (s.pins b + 1) x = s.holders x + s.pins x + _
    by_cases hx : b = x
    · subst hx
      rw [update_self, if_pos rfl, Nat.add_assoc]
    · rw [update_of_ne (Ne.symm hx), if_neg hx, Nat.add_zero]
  | bunpin b =>
    have hpos : 0 < s.pins b := of_decide_eq_true hen
    cases hact
    refine ⟨order, Inv.tick ?_⟩
    refine h.bunpin (b := b) rfl rfl rfl fun x => ?_
    show s.holders x + update s.pins b (s.pins b - 1) x + _ = s.holders x + s.pins x
    by_cases hx : b = x
    · subst hx
      rw [update_self, if_pos rfl]
      omega
    · rw [update_of_ne (Ne.symm hx), if_neg hx, Nat.add_zero]

omit [Fintype ι] in
/-- A buffer in use stays the one of its block. -/
theorem act_sameBlock (hlisted : s.cache.Listed order) {e : BufEvent ι} (hact : s.act e = .ok t)
    (hb : (s.cache.buf b).refcnt ≠ 0) : s.SameBlock t.tick b := by
  cases e with
  | bget c dev blockno =>
    obtain ⟨r, hr, rfl⟩ := act_bget hact
    rcases Bcache.bget_cases hr with ⟨x, -, rfl⟩ | ⟨-, x, hx, rfl⟩
    · exact Bcache.set_refcnt_block ..
    · have hne : b ≠ x := fun he => hb (he ▸ (hlisted.unused_some hx).1)
      have hsame : (s.cache.recycle x dev blockno).buf b = s.cache.buf b :=
        update_of_ne hne ..
      exact ⟨congrArg Buf.dev hsame, congrArg Buf.blockno hsame⟩
  | acquiresleep c | releasesleep c =>
    cases hact
    cases s.use c <;> exact ⟨rfl, rfl⟩
  | read c =>
    cases hact
    cases s.use c with
    | idle | waiting | releasing => exact ⟨rfl, rfl⟩
    | holding x =>
      refine ⟨Bcache.set_field Buf.dev ?_ b, Bcache.set_field Buf.blockno ?_ b⟩
      · rfl
      · rfl
  | brelse c =>
    cases hact
    cases s.use c with
    | idle | waiting | holding => exact ⟨rfl, rfl⟩
    | releasing x =>
      have hbuf : (s.release c (.releasing x)).tick.cache.buf = (s.cache.bunpin x).buf := by
        show (s.drop c x).cache.buf = _
        have hcache : (s.drop c x).cache = s.cache.brelse x := by
          unfold drop
          exact apply_ite Calls.cache .. |>.trans (ite_self _)
        rw [hcache]
        exact apply_ite Bcache.buf .. |>.trans (ite_self _)
      unfold SameBlock
      rw [hbuf]
      exact Bcache.set_refcnt_block ..
  | bpin x | bunpin x =>
    cases hact
    exact Bcache.set_refcnt_block ..

end Steps

/-- The buffer to recycle was used last before every other unused one. -/
theorem Inv.least_recent (h : s.Inv order) {b x : Fin NBUF} (hb : s.cache.unused = some b)
    (hx : (s.cache.buf x).refcnt = 0) : s.dropped b ≤ s.dropped x := by
  obtain ⟨-, front, back, rfl, hback⟩ := h.listed.unused_some hb
  have hsorted := (List.pairwise_append.mp h.sorted).2.2
  rcases List.mem_append.mp (h.listed.all x) with hin | hin
  · exact hsorted x hin b (List.mem_cons_self ..)
  · rcases List.mem_cons.mp hin with rfl | hin
    · exact Nat.le_refl _
    · exact absurd hx (hback x hin)

/-- The buffer `bget` takes is for the block afterwards, and no other buffer changes. It was the one
of the block before, or nobody uses it and it was used last before every other unused one. -/
theorem Inv.bget_takes (h : s.Inv order) {dev blockno : Nat} {r : Fin NBUF × Bcache}
    (hr : s.cache.bget dev blockno = .ok r) :
    ((r.2.buf r.1).dev = dev ∧ (r.2.buf r.1).blockno = blockno) ∧
      (∀ x, x ≠ r.1 → r.2.buf x = s.cache.buf x) ∧
      ((s.cache.buf r.1).dev = dev ∧ (s.cache.buf r.1).blockno = blockno ∨
        (∀ x, ¬ ((s.cache.buf x).dev = dev ∧ (s.cache.buf x).blockno = blockno)) ∧
          (s.cache.buf r.1).refcnt = 0 ∧
          ∀ x, (s.cache.buf x).refcnt = 0 → s.dropped r.1 ≤ s.dropped x) := by
  rcases Bcache.bget_cases hr with ⟨b, hb, rfl⟩ | ⟨hnone, b, hb, rfl⟩
  · have hblock := h.listed.cached_some hb
    have hkeep := Bcache.set_refcnt_block s.cache b (((s.cache.buf b).refcnt + 1) % 2 ^ 32) b
    refine ⟨⟨hkeep.1.trans hblock.1, hkeep.2.trans hblock.2⟩, ?_, .inl hblock⟩
    exact fun x hx => update_of_ne hx ..
  · have hself : (s.cache.recycle b dev blockno).buf b = ⟨false, dev, blockno, 1⟩ :=
      update_self ..
    refine ⟨?_, fun x hx => update_of_ne hx .., .inr ⟨h.listed.cached_none hnone,
      (h.listed.unused_some hb).1, fun x hx => h.least_recent hb hx⟩⟩
    rw [hself]
    exact ⟨rfl, rfl⟩

end Calls

section Law

variable {ι : Type} [Fintype ι] [DecidableEq ι]

theorem bufferCache_init : (bufferCache ι).init.Inv (List.finRange NBUF).reverse := by
  have hrefs : ∀ b, (bufferCache ι).init.refs b = 0 := by
    intro b
    have hnone : (Finset.univ.filter fun c => ((bufferCache ι).init.use c).buffer = some b) = ∅ :=
      Finset.filter_eq_empty_iff.mpr fun _ _ he => by cases he
    show (Finset.univ.filter fun c => ((bufferCache ι).init.use c).buffer = some b).card + 0 = 0
    rw [hnone]
    rfl
  refine ⟨Bcache.binit_listed, List.pairwise_of_forall fun _ _ => Nat.le_refl _, fun _ =>
    Nat.le_refl _, fun _ _ hdev => absurd rfl hdev, fun b => (hrefs b).symm, fun b => ?_⟩
  rw [hrefs]
  norm_num

/-- A step of the machine is an event and a tick of the clock. -/
theorem bufferCache_step {s t : Calls ι} {e : BufEvent ι} (h : (bufferCache ι).Step s e t) :
    s.enabled e = true ∧ ∃ r, s.act e = .ok r ∧ t = r.tick := by
  obtain ⟨hen, hexec⟩ := h
  refine ⟨hen, ?_⟩
  change (s.act e).map Calls.tick = .ok t at hexec
  cases hr : s.act e with
  | error f =>
    rw [hr] at hexec
    cases hexec
  | ok r =>
    rw [hr] at hexec
    cases hexec
    exact ⟨r, rfl, rfl⟩

/-- The laws of the buffer cache, in every state that is reached while `refcnt` cannot overflow:
the links are one cycle through the head and every buffer; no block of a device has two buffers; a
buffer in use stays the one of its block; `refcnt` counts the references; and a `bget` changes the
buffer it takes and no other, which is the one of the block if there is one, and else the unused
buffer whose `refcnt` dropped to 0 in `brelse` the longest time ago. -/
theorem buffer_cache_consistent {steps : List (Calls ι × BufEvent ι)} {s : Calls ι}
    (hrun : (bufferCache ι).Run steps s) (hfew : ∀ x ∈ steps, ∀ b, x.1.refs b + 1 < 2 ^ 32) :
    (∃ order, s.cache.links.Ring order ∧ ∀ b, b ∈ order) ∧
      (∀ a, s.cache.links.prev (s.cache.links.next a) = a ∧
        s.cache.links.next (s.cache.links.prev a) = a) ∧
      (∀ b b', (s.cache.buf b).dev ≠ 0 → (s.cache.buf b).dev = (s.cache.buf b').dev →
        (s.cache.buf b).blockno = (s.cache.buf b').blockno → b = b') ∧
      (∀ e t, (bufferCache ι).Step s e t → ∀ b, (s.cache.buf b).refcnt ≠ 0 → s.SameBlock t b) ∧
      (∀ b, (s.cache.buf b).refcnt = s.holders b + s.pins b) ∧
      ∀ c dev blockno t, (bufferCache ι).Step s (.bget c dev blockno) t →
        ∃ b, t.use c = .waiting b ∧
          ((t.cache.buf b).dev = dev ∧ (t.cache.buf b).blockno = blockno) ∧
          (∀ x, x ≠ b → t.cache.buf x = s.cache.buf x) ∧
          ((s.cache.buf b).dev = dev ∧ (s.cache.buf b).blockno = blockno ∨
            (∀ x, ¬ ((s.cache.buf x).dev = dev ∧ (s.cache.buf x).blockno = blockno)) ∧
              (s.cache.buf b).refcnt = 0 ∧
              ∀ x, (s.cache.buf x).refcnt = 0 → s.dropped b ≤ s.dropped x) := by
  have hinv : ∃ order, s.Inv order := by
    refine hrun.invariant (C := fun s _ => ∀ b, s.refs b + 1 < 2 ^ 32)
      (I := fun s => ∃ order, s.Inv order) ⟨_, bufferCache_init⟩ ?_ hfew
    rintro s e t ⟨order, h⟩ hroom hstep
    obtain ⟨hen, r, hact, rfl⟩ := bufferCache_step hstep
    exact h.act hroom hen hact
  obtain ⟨order, h⟩ := hinv
  refine ⟨⟨order, h.listed.ring, h.listed.all⟩, h.listed.ring.inverse h.listed.all, h.unique,
    ?_, h.counted, fun c dev blockno t hstep => ?_⟩
  · intro e t hstep b hb
    obtain ⟨-, r, hact, rfl⟩ := bufferCache_step hstep
    exact Calls.act_sameBlock h.listed hact hb
  · obtain ⟨-, u, hact, rfl⟩ := bufferCache_step hstep
    obtain ⟨r, hr, rfl⟩ := Calls.act_bget hact
    exact ⟨r.1, update_self .., h.bget_takes hr⟩

end Law

/-- Two calls share a block, which the first of them has let go. -/
theorem buffer_cache_consistent_shared :
    ∃ s, (bufferCache (Fin 2)).Reachable s ∧ s.use 1 = .holding 0 ∧ s.use 0 = .idle ∧
      (s.cache.buf 0).refcnt = s.holders 0 + s.pins 0 := by
  obtain ⟨steps, s, hrun, htest⟩ := Machine.exists_run (M := bufferCache (Fin 2))
    [.bget 0 1 5, .acquiresleep 0, .bget 1 1 5, .releasesleep 0, .acquiresleep 1, .brelse 0]
    (fun steps s => (steps.all fun x => decide (∀ b, x.1.refs b + 1 < 4)) &&
      decide (s.use 1 = .holding 0) && decide (s.use 0 = .idle)) (by decide +kernel)
  rw [Bool.and_eq_true, Bool.and_eq_true, List.all_eq_true, decide_eq_true_iff,
    decide_eq_true_iff] at htest
  obtain ⟨⟨hall, hone⟩, hzero⟩ := htest
  have hfew : ∀ x ∈ steps, ∀ b, x.1.refs b + 1 < 2 ^ 32 := fun x hx b =>
    (of_decide_eq_true (hall x hx) b).trans (by norm_num)
  have hcounted := (buffer_cache_consistent hrun hfew).2.2.2.2.1
  exact ⟨s, ⟨steps, hrun⟩, hone, hzero, hcounted 0⟩

/-- A buffer that is pinned over and over. -/
theorem bpin_many (n : Nat) :
    ∃ s, (bufferCache (Fin 1)).Reachable s ∧ s.pins 0 = n ∧
      (s.cache.buf 0).refcnt = n % 2 ^ 32 := by
  induction n with
  | zero => exact ⟨_, ⟨[], .nil⟩, rfl, rfl⟩
  | succ n ih =>
    obtain ⟨s, hreach, hpins, hcount⟩ := ih
    refine ⟨_, hreach.step ⟨rfl, (rfl : (bufferCache (Fin 1)).exec (.bpin 0) s = _)⟩, ?_, ?_⟩
    · show update s.pins 0 (s.pins 0 + 1) 0 = n + 1
      rw [update_self, hpins]
    · show (update s.cache.buf 0 _ 0).refcnt = _
      rw [update_self]
      show ((s.cache.buf 0).refcnt + 1) % 2 ^ 32 = _
      rw [hcount, Nat.mod_add_mod]

/-- After `binit` all buffers are for block 0 of device 0; and after `2 ^ 32` pins of a buffer its
`refcnt` is 0. -/
theorem buffers_alike_after_binit :
    ((Bcache.binit.buf 0).dev = (Bcache.binit.buf 1).dev ∧
      (Bcache.binit.buf 0).blockno = (Bcache.binit.buf 1).blockno) ∧
      ∃ s, (bufferCache (Fin 1)).Reachable s ∧ (s.cache.buf 0).refcnt ≠ s.holders 0 + s.pins 0 := by
  refine ⟨⟨rfl, rfl⟩, ?_⟩
  obtain ⟨s, hreach, hpins, hcount⟩ := bpin_many (2 ^ 32)
  refine ⟨s, hreach, ?_⟩
  rw [hcount, hpins, Nat.mod_self]
  omega

end Xv6.Fs
