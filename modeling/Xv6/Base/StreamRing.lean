import Mathlib

/-!
# A stream through a ring of cells

A stream grows at its end while a reader moves along it. The part the reader has not reached yet is
kept in a ring: element `k` of the stream is in cell `k % size`. Counters that run freely count the
elements, so a counter is the position in the stream modulo what the counter can hold.

`Holds` says that the ring holds the stream from a position on. It is kept by the three things a
program does to such a ring: storing the next element where there is room, moving the reader, and
taking back elements at the end.

A `Ledger` is a stream that several parties take part in, in turns of their own: it tells what of
the stream belongs to a party's present turn.
-/

namespace Base

variable {α : Type} {size : Nat} {data : Nat → α} {stream : List α} {start : Nat}

/-- The ring holds the stream from position `start` on. -/
def Holds (size : Nat) (data : Nat → α) (stream : List α) (start : Nat) : Prop :=
  ∀ k x, start ≤ k → stream[k]? = some x → data (k % size) = x

/-- The `n` elements in the ring from position `start` on. -/
def window (size : Nat) (data : Nat → α) (start n : Nat) : List α :=
  (List.range n).map fun k => data ((start + k) % size)

/-- A counter that wraps at a multiple of the size finds the same cells. -/
theorem window_mod {m : Nat} (h : size ∣ m) (n : Nat) :
    window size data (start % m) n = window size data start n := by
  unfold window
  refine List.map_congr_left fun k _ => congrArg data ?_
  have hcell : start % m % size = start % size := Nat.mod_mod_of_dvd start h
  rw [Nat.add_mod, hcell, ← Nat.add_mod]

theorem window_cons (n : Nat) :
    window size data start (n + 1) = data (start % size) :: window size data (start + 1) n := by
  unfold window
  rw [List.range_succ_eq_map, List.map_cons, List.map_map]
  refine congrArg (data (start % size) :: ·) (List.map_congr_left fun k _ => ?_)
  show data ((start + (k + 1)) % size) = data ((start + 1 + k) % size)
  rw [Nat.add_assoc, Nat.add_comm 1]

theorem Holds.empty : Holds size data [] start := fun _ _ _ hk => by cases hk

theorem Holds.mono (h : Holds size data stream start) {start' : Nat} (hle : start ≤ start') :
    Holds size data stream start' :=
  fun k x hk hx => h k x (hle.trans hk) hx

/-- Elements at the end may be taken back. -/
theorem Holds.of_append {kept back : List α} (h : Holds size data (kept ++ back) start) :
    Holds size data kept start := by
  intro k x hk hx
  have hlt : k < kept.length := (List.getElem?_eq_some_iff.mp hx).1
  exact h k x hk (by rw [List.getElem?_append_left hlt, hx])

/-- The next element goes into a cell that is not in use while there is room. -/
theorem Holds.push (h : Holds size data stream start) (hroom : stream.length < start + size)
    (x : α) : Holds size (Function.update data (stream.length % size) x) (stream ++ [x]) start := by
  intro k y hk hy
  rcases Nat.lt_trichotomy k stream.length with hlt | heq | hgt
  · rw [List.getElem?_append_left hlt] at hy
    have hcell : k % size ≠ stream.length % size := by
      intro he
      have hdvd : size ∣ stream.length - k := (Nat.modEq_iff_dvd' hlt.le).mp he
      have hge := Nat.le_of_dvd (by omega) hdvd
      omega
    rw [Function.update_of_ne hcell]
    exact h k y hk hy
  · subst heq
    rw [List.getElem?_append_right (Nat.le_refl _), Nat.sub_self] at hy
    rw [Function.update_self]
    exact Option.some.inj hy
  · have hout : (stream ++ [x])[k]? = none := by
      rw [List.getElem?_eq_none_iff, List.length_append, List.length_singleton]
      exact hgt
    rw [hout] at hy
    cases hy

/-- The cell the reader is at holds the next element of the stream. -/
theorem Holds.next {seen : List α} (h : Holds size data stream seen.length)
    (horder : seen <+: stream) (hne : seen ≠ stream) :
    seen ++ [data (seen.length % size)] <+: stream := by
  obtain ⟨rest, rfl⟩ := horder
  cases rest with
  | nil => exact absurd (List.append_nil _).symm hne
  | cons x rest =>
    have hat : (seen ++ x :: rest)[seen.length]? = some x := by
      rw [List.getElem?_append_right (Nat.le_refl _), Nat.sub_self]
      rfl
    rw [h seen.length x (Nat.le_refl _) hat]
    exact ⟨rest, List.append_assoc ..⟩

/-- What is in the ring is what the reader has not reached. -/
theorem Holds.window_eq (h : Holds size data stream start) :
    window size data start (stream.length - start) = stream.drop start := by
  apply List.ext_getElem?
  intro i
  unfold window
  rw [List.getElem?_map, List.getElem?_drop]
  by_cases hi : i < stream.length - start
  · have hlt : start + i < stream.length := by omega
    rw [List.getElem?_range hi, Option.map_some, List.getElem?_eq_getElem hlt]
    exact congrArg some (h (start + i) _ (by omega) (List.getElem?_eq_getElem hlt))
  · have hout : (List.range (stream.length - start))[i]? = none := by
      rw [List.getElem?_eq_none_iff, List.length_range]
      omega
    rw [hout, List.getElem?_eq_none_iff.mpr (by omega)]
    rfl

/-! ## Streams of several parties -/

/-- The elements of a stream, each with the party it belongs to, and how long the stream was when
each party's present turn began. -/
structure Ledger (ι α : Type) where
  log : List (ι × α)
  start : ι → Nat
  start_le : ∀ c, start c ≤ log.length

namespace Ledger

variable {ι : Type} [DecidableEq ι] (l : Ledger ι α) (c d : ι) (xs : List α)

/-- The ledger of an empty stream. -/
def empty : Ledger ι α := ⟨[], fun _ => 0, fun _ => Nat.le_refl _⟩

/-- The stream. -/
def all : List α := l.log.map Prod.snd

/-- The elements of the party's present turn, in order. -/
def share : List α := ((l.log.drop (l.start c)).filter fun x => x.1 = c).map Prod.snd

/-- The stream goes on with elements of one party. -/
def add : Ledger ι α where
  log := l.log ++ xs.map fun x => (c, x)
  start := l.start
  start_le d := (l.start_le d).trans (List.length_append ▸ Nat.le_add_right ..)

/-- A turn of the party begins. -/
def turn : Ledger ι α where
  log := l.log
  start := Function.update l.start c l.log.length
  start_le d := by
    by_cases hd : d = c
    · rw [hd, Function.update_self]
    · rw [Function.update_of_ne hd]
      exact l.start_le d

omit [DecidableEq ι] in
@[simp] theorem all_add : (l.add c xs).all = l.all ++ xs := by
  simp [all, add, Function.comp_def]

theorem share_add : (l.add c xs).share d = l.share d ++ if d = c then xs else [] := by
  show ((List.drop (l.start d) (l.log ++ _)).filter _).map _ = _
  rw [List.drop_append_of_le_length (l.start_le d), List.filter_append, List.map_append]
  congr 1
  by_cases hd : d = c
  · simp [List.filter_map, Function.comp_def, hd]
  · simp [List.filter_map, Function.comp_def, hd, Ne.symm hd]

@[simp] theorem share_add_self : (l.add c xs).share c = l.share c ++ xs := by
  rw [share_add, if_pos rfl]

@[simp] theorem share_turn_self : (l.turn c).share c = [] := by
  show ((l.log.drop (Function.update l.start c l.log.length c)).filter _).map _ = _
  rw [Function.update_self, List.drop_length]
  rfl

variable {l c d}

theorem share_add_of_ne (hd : d ≠ c) : (l.add c xs).share d = l.share d := by
  rw [share_add, if_neg hd, List.append_nil]

theorem share_turn_of_ne (hd : d ≠ c) : (l.turn c).share d = l.share d := by
  show ((l.log.drop (Function.update l.start c l.log.length d)).filter _).map _ = _
  rw [Function.update_of_ne hd]
  rfl

end Ledger

end Base
