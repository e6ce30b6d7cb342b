import Xv6.Base.Machine
import Xv6.Base.StreamRing

/-!
# Pipes

`kernel/pipe.c`. A pipe is a ring of `PIPESIZE` bytes with two 32-bit counters that run freely:
`nread` and `nwrite` count the bytes that were read and written.

Any number of calls use the pipe at once. Each step of the machine is one stretch of `pi->lock`: a
`pipewrite` or `piperead` runs from where it acquires the lock, or is woken, to where it sleeps or
returns. A sleeping call may run at any time, since it tests its condition again. The user copies
succeed, and `killed` may answer anything each time it is asked. The page of a pipe is given back
when both ends are closed, so there are no steps after that.

The machine keeps the bytes that were accepted from writers, in a ledger that tells the calls they
came from, and the bytes that were handed to readers, each in order; and of each `pipewrite` the
bytes it was called with.
-/

namespace Xv6.Io

open Base Function

/-- `PIPESIZE` of `pipe.c`. -/
abbrev PIPESIZE : Nat := 512

/-- `struct pipe`, without its lock. -/
structure Pipe where
  data : Nat → UInt8
  nread : Nat
  nwrite : Nat
  readopen : Bool
  writeopen : Bool

namespace Pipe

/-- The pipe that `pipealloc` makes in a page with these contents. -/
def pipealloc (page : Nat → UInt8) : Pipe := ⟨page, 0, 0, true, true⟩

/-- `pipeclose`. -/
def pipeclose (p : Pipe) (writable : Bool) : Pipe :=
  if writable then { p with writeopen := false } else { p with readopen := false }

/-- The page has been given back. -/
def freed (p : Pipe) : Bool := !p.readopen && !p.writeopen

/-- `pi->data[pi->nwrite++ % PIPESIZE] = ch`. -/
def store (p : Pipe) (ch : UInt8) : Pipe :=
  { p with
    data := update p.data (p.nwrite % PIPESIZE) ch
    nwrite := (p.nwrite + 1) % 2 ^ 32 }

/-- `pi->nread++`. -/
def advance (p : Pipe) : Pipe := { p with nread := (p.nread + 1) % 2 ^ 32 }

/-- How a stretch of `pipewrite` ends. -/
inductive WriteEnd
  | finished
  | refused
  | asleep
deriving DecidableEq

/-- The loop of `pipewrite` over the bytes that are left: how it ends, and how many bytes it has
stored. `killed j` is the answer to the `j`th question whether the process was killed. -/
def writeLoop (killed : Nat → Bool) : List UInt8 → Nat → Pipe → WriteEnd × Nat × Pipe
  | [], _, p => (.finished, 0, p)
  | ch :: left, j, p =>
    if !p.readopen || killed j then (.refused, 0, p)
    else if p.nwrite = (p.nread + PIPESIZE) % 2 ^ 32 then (.asleep, 0, p)
    else
      let r := writeLoop killed left (j + 1) (p.store ch)
      (r.1, r.2.1 + 1, r.2.2)

/-- The second loop of `piperead`, for at most `n` more bytes: the bytes it hands out. -/
def readLoop : Nat → Pipe → List UInt8 × Pipe
  | 0, p => ([], p)
  | n + 1, p =>
    if p.nread = p.nwrite then ([], p)
    else
      let r := readLoop n p.advance
      (p.data (p.nread % PIPESIZE) :: r.1, r.2)

/-- The bytes in transit. -/
def transit (p : Pipe) : List UInt8 :=
  window PIPESIZE p.data p.nread ((p.nwrite + (2 ^ 32 - p.nread)) % 2 ^ 32)

end Pipe

/-! ## The calls -/

/-- Where a call stands. -/
inductive Transfer
  | idle
  /-- in `pipewrite`, with `i` bytes stored and these left -/
  | writing (i : Nat) (left : List UInt8)
  /-- in `piperead`, for `n` bytes -/
  | reading (n : Int)
  /-- `pipewrite` has returned -/
  | wrote (r : Int)
  /-- `piperead` has returned the number of these bytes -/
  | gave (bytes : List UInt8)
  /-- `piperead` has returned -1 -/
  | failed
deriving DecidableEq

/-- Where `pipewrite` stands after a stretch that stored `k` more bytes. -/
def Pipe.WriteEnd.call (i k : Nat) (left : List UInt8) : Pipe.WriteEnd → Transfer
  | .finished => .wrote (i + k : Nat)
  | .refused => .wrote (-1)
  | .asleep => .writing (i + k) (left.drop k)

/-- A pipe, the calls that use it, and the bytes that went in and out. -/
structure PipeUse (ι : Type) where
  pipe : Pipe
  call : ι → Transfer
  /-- the bytes that were stored, with the calls that stored them -/
  ledger : Ledger ι UInt8
  consumed : List UInt8
  /-- the bytes of the call's last `pipewrite` -/
  asked : ι → List UInt8

/-- The calls begin, run a stretch under the lock, and the ends are closed. -/
inductive PipeEvent (ι : Type)
  | startWrite (c : ι) (bytes : List UInt8)
  | startRead (c : ι) (n : Int)
  | write (c : ι) (killed : Nat → Bool)
  | read (c : ι) (killed : Bool)
  | close (writable : Bool)

namespace PipeUse

variable {ι : Type} [DecidableEq ι]

/-- The bytes accepted from writers. -/
def accepted (s : PipeUse ι) : List UInt8 := s.ledger.all

/-- What the stream has from the call's last `pipewrite`. -/
def sent (s : PipeUse ι) (c : ι) : List UInt8 := s.ledger.share c

/-- The call moves on. -/
def move (s : PipeUse ι) (c : ι) (x : Transfer) : PipeUse ι :=
  { s with call := update s.call c x }

/-- A stretch of `pipewrite`. -/
def write (s : PipeUse ι) (c : ι) (killed : Nat → Bool) : Transfer → PipeUse ι
  | .writing i left =>
    let r := s.pipe.writeLoop killed left 0
    { s with pipe := r.2.2, ledger := s.ledger.add c (left.take r.2.1) }.move c
      (r.1.call i r.2.1 left)
  | _ => s

/-- A stretch of `piperead`. -/
def read (s : PipeUse ι) (c : ι) (killed : Bool) : Transfer → PipeUse ι
  | .reading n =>
    if s.pipe.nread = s.pipe.nwrite ∧ s.pipe.writeopen = true then
      if killed then s.move c .failed else s
    else
      let r := s.pipe.readLoop n.toNat
      { s with pipe := r.2, consumed := s.consumed ++ r.1 }.move c (.gave r.1)
  | _ => s

/-- What the event does. -/
def exec (s : PipeUse ι) : PipeEvent ι → PipeUse ι
  | .startWrite c bytes =>
    { s with asked := update s.asked c bytes, ledger := s.ledger.turn c }.move c (.writing 0 bytes)
  | .startRead c n => s.move c (.reading n)
  | .write c killed => s.write c killed (s.call c)
  | .read c killed => s.read c killed (s.call c)
  | .close writable => { s with pipe := s.pipe.pipeclose writable }

/-- The call is not in the middle of a transfer. -/
def ready (s : PipeUse ι) (c : ι) : Bool :=
  match s.call c with
  | .writing _ _ | .reading _ => false
  | _ => true

/-- The event can happen. -/
def enabled (s : PipeUse ι) (e : PipeEvent ι) : Bool :=
  !s.pipe.freed &&
    match e with
    | .startWrite c _ | .startRead c _ => s.ready c
    | _ => true

end PipeUse

/-- A pipe in a page with these contents, used by calls `ι`. -/
def pipeline (ι : Type) [DecidableEq ι] (page : Nat → UInt8) :
    Machine (PipeUse ι) (PipeEvent ι) Fault where
  init := ⟨.pipealloc page, fun _ => .idle, .empty, [], fun _ => []⟩
  enabled e s := s.enabled e
  exec e s := .ok (s.exec e)

/-! ## The laws -/

/-- The pipe carries the stream: `nread` and `nwrite` count what was consumed and accepted, and
what lies between is in the ring. -/
structure Carries (p : Pipe) (accepted consumed : List UInt8) : Prop where
  nread : p.nread = consumed.length % 2 ^ 32
  nwrite : p.nwrite = accepted.length % 2 ^ 32
  order : consumed <+: accepted
  room : accepted.length ≤ consumed.length + PIPESIZE
  holds : Holds PIPESIZE p.data accepted consumed.length

namespace Carries

variable {p : Pipe} {accepted consumed : List UInt8}

/-- The counters tell a full pipe, also after they have wrapped around. -/
theorem full_iff (h : Carries p accepted consumed) :
    p.nwrite = (p.nread + PIPESIZE) % 2 ^ 32 ↔ accepted.length = consumed.length + PIPESIZE := by
  have hle := h.order.length_le
  have hroom := h.room
  rw [h.nread, h.nwrite]
  have hsize : PIPESIZE = 512 := rfl
  rw [hsize] at hroom ⊢
  omega

/-- The counters tell an empty pipe. -/
theorem empty_iff (h : Carries p accepted consumed) :
    p.nread = p.nwrite ↔ consumed = accepted := by
  have hle := h.order.length_le
  have hroom := h.room
  have hsize : PIPESIZE = 512 := rfl
  rw [hsize] at hroom
  constructor
  · intro he
    rw [h.nread, h.nwrite] at he
    exact h.order.eq_of_length (by omega)
  · rintro rfl
    rw [h.nread, h.nwrite]

theorem transit_eq (h : Carries p accepted consumed) : accepted = consumed ++ p.transit := by
  have hle := h.order.length_le
  have hroom := h.room
  have hsize : PIPESIZE = 512 := rfl
  have hcount : (p.nwrite + (2 ^ 32 - p.nread)) % 2 ^ 32 = accepted.length - consumed.length := by
    rw [hsize] at hroom
    rw [h.nread, h.nwrite]
    omega
  have htransit : p.transit = accepted.drop consumed.length := by
    unfold Pipe.transit
    rw [hcount, h.nread, window_mod (by decide), h.holds.window_eq]
  rw [htransit]
  exact (List.prefix_iff_eq_append.mp h.order).symm

theorem transit_length (h : Carries p accepted consumed) : p.transit.length ≤ PIPESIZE := by
  have hlength := congrArg List.length h.transit_eq
  have hroom := h.room
  rw [List.length_append] at hlength
  omega

theorem store (h : Carries p accepted consumed)
    (hroom : accepted.length ≠ consumed.length + PIPESIZE) (ch : UInt8) :
    Carries (p.store ch) (accepted ++ [ch]) consumed where
  nread := h.nread
  nwrite := by
    show (p.nwrite + 1) % 2 ^ 32 = _
    rw [h.nwrite, List.length_append, List.length_singleton]
    omega
  order := h.order.trans (List.prefix_append ..)
  room := by
    have hle := h.room
    rw [List.length_append, List.length_singleton]
    omega
  holds := by
    have hcell : p.nwrite % PIPESIZE = accepted.length % PIPESIZE := by
      rw [h.nwrite]
      exact Nat.mod_mod_of_dvd _ (by decide)
    show Holds PIPESIZE (update p.data (p.nwrite % PIPESIZE) ch) _ _
    rw [hcell]
    exact h.holds.push (lt_of_le_of_ne h.room hroom) ch

/-- The next byte to read is the next one of the stream. -/
theorem advance (h : Carries p accepted consumed) (hne : consumed ≠ accepted) :
    Carries p.advance accepted (consumed ++ [p.data (p.nread % PIPESIZE)]) := by
  have hcell : p.nread % PIPESIZE = consumed.length % PIPESIZE := by
    rw [h.nread]
    exact Nat.mod_mod_of_dvd _ (by decide)
  have hnext : consumed ++ [p.data (p.nread % PIPESIZE)] <+: accepted := by
    rw [hcell]
    exact h.holds.next h.order hne
  refine ⟨?_, h.nwrite, hnext, ?_, ?_⟩
  · show (p.nread + 1) % 2 ^ 32 = _
    rw [h.nread, List.length_append, List.length_singleton]
    omega
  · have hle := h.room
    rw [List.length_append, List.length_singleton]
    omega
  · refine h.holds.mono ?_
    rw [List.length_append]
    exact Nat.le_add_right ..

/-- What a stretch of `pipewrite` stores joins the stream. -/
theorem writeLoop (h : Carries p accepted consumed) (killed : Nat → Bool) (left : List UInt8)
    (j : Nat) : Carries (p.writeLoop killed left j).2.2
      (accepted ++ left.take (p.writeLoop killed left j).2.1) consumed := by
  induction left generalizing p accepted j with
  | nil =>
    rw [List.take_nil, List.append_nil]
    exact h
  | cons ch left ih =>
    unfold Pipe.writeLoop
    by_cases hrefused : (!p.readopen || killed j) = true
    · rw [if_pos hrefused, List.take_zero, List.append_nil]
      exact h
    · rw [if_neg hrefused]
      by_cases hfull : p.nwrite = (p.nread + PIPESIZE) % 2 ^ 32
      · rw [if_pos hfull, List.take_zero, List.append_nil]
        exact h
      · rw [if_neg hfull]
        have hstored := h.store (fun he => hfull (h.full_iff.mpr he)) ch
        have hrest := ih hstored (j + 1)
        rwa [List.append_assoc, List.singleton_append, ← List.take_succ_cons] at hrest

/-- What `piperead` hands out is what comes next in the stream. -/
theorem readLoop (h : Carries p accepted consumed) (n : Nat) :
    Carries (p.readLoop n).2 accepted (consumed ++ (p.readLoop n).1) := by
  induction n generalizing p consumed with
  | zero =>
    show Carries p accepted (consumed ++ [])
    rwa [List.append_nil]
  | succ n ih =>
    unfold Pipe.readLoop
    by_cases hempty : p.nread = p.nwrite
    · rw [if_pos hempty, List.append_nil]
      exact h
    · rw [if_neg hempty]
      have hnext := h.advance fun he => hempty (h.empty_iff.mpr he)
      have hrest := ih hnext
      rwa [List.append_assoc, List.singleton_append] at hrest

end Carries

namespace Pipe

variable {p : Pipe}

/-- A stretch of `pipewrite` stores no more than was left. -/
theorem writeLoop_le (killed : Nat → Bool) (left : List UInt8) (j : Nat) :
    (p.writeLoop killed left j).2.1 ≤ left.length := by
  induction left generalizing p j with
  | nil => exact Nat.le_refl _
  | cons ch left ih =>
    unfold writeLoop
    split
    · exact Nat.zero_le _
    · split
      · exact Nat.zero_le _
      · exact Nat.succ_le_succ (ih ..)

/-- A `pipewrite` that comes to its end has stored every byte. -/
theorem writeLoop_finished {killed : Nat → Bool} {left : List UInt8} {j : Nat}
    (h : (p.writeLoop killed left j).1 = .finished) :
    (p.writeLoop killed left j).2.1 = left.length := by
  induction left generalizing p j with
  | nil => rfl
  | cons ch left ih =>
    unfold writeLoop at h ⊢
    by_cases hrefused : (!p.readopen || killed j) = true
    · rw [if_pos hrefused] at h
      cases h
    · rw [if_neg hrefused] at h ⊢
      by_cases hfull : p.nwrite = (p.nread + PIPESIZE) % 2 ^ 32
      · rw [if_pos hfull] at h
        cases h
      · rw [if_neg hfull] at h ⊢
        rw [List.length_cons, ← ih h]

/-- The second loop of `piperead` hands out nothing only from an empty pipe. -/
theorem readLoop_nil {n : Nat} (hn : n ≠ 0) (h : (p.readLoop n).1 = []) : p.nread = p.nwrite := by
  cases n with
  | zero => exact absurd rfl hn
  | succ n =>
    by_contra hne
    unfold readLoop at h
    rw [if_neg hne] at h
    cases h

end Pipe

section Law

variable {ι : Type} [DecidableEq ι] {page : Nat → UInt8} {s : PipeUse ι}

/-- What the stream has from a `pipewrite` that was asked to write these bytes: while it is under way
the first `i` of them, when it has returned a count all of them, and when it has failed a part from
the front. -/
def Transfer.Sent (asked sent : List UInt8) : Transfer → Prop
  | .writing i left => asked = sent ++ left ∧ i = sent.length
  | .wrote r => sent <+: asked ∧ (r ≠ -1 → sent = asked ∧ r = asked.length)
  | _ => True

namespace PipeUse

/-- The pipe carries the stream of the calls, and the stream has from each call what it tells. -/
structure Inv (s : PipeUse ι) : Prop where
  carries : Carries s.pipe s.accepted s.consumed
  sent : ∀ c, (s.call c).Sent (s.asked c) (s.sent c)

/-- A call that stores nothing moves on. -/
theorem Inv.move {c : ι} {x : Transfer} {p : Pipe} {consumed : List UInt8} (h : s.Inv)
    (hcarries : Carries p s.accepted consumed) (hx : x.Sent (s.asked c) (s.sent c)) :
    ({ s with pipe := p, consumed := consumed }.move c x).Inv :=
  ⟨hcarries, (forall_update_iff s.call fun d x => x.Sent (s.asked d) (s.sent d)).mpr
    ⟨hx, fun d _ => h.sent d⟩⟩

/-- Where a stretch of `pipewrite` ends, it has sent what it tells. -/
theorem sent_call {i : Nat} {left asked sent : List UInt8} (hasked : asked = sent ++ left)
    (hi : i = sent.length) (killed : Nat → Bool) (p : Pipe) :
    ((p.writeLoop killed left 0).1.call i (p.writeLoop killed left 0).2.1 left).Sent asked
      (sent ++ left.take (p.writeLoop killed left 0).2.1) := by
  subst hasked hi
  have hsplit := List.take_append_drop (p.writeLoop killed left 0).2.1 left
  cases hend : (p.writeLoop killed left 0).1 with
  | finished =>
    rw [Pipe.writeLoop_finished hend, List.take_length]
    exact ⟨List.prefix_rfl, fun _ => ⟨rfl, by rw [List.length_append]⟩⟩
  | refused =>
    exact ⟨(List.prefix_append_right_inj _).mpr (List.take_prefix ..), fun hr => absurd rfl hr⟩
  | asleep =>
    refine ⟨by rw [List.append_assoc, hsplit], ?_⟩
    rw [List.length_append, List.length_take_of_le (Pipe.writeLoop_le ..)]

theorem Inv.write (h : s.Inv) (c : ι) (killed : Nat → Bool) :
    (s.write c killed (s.call c)).Inv := by
  cases hx : s.call c with
  | writing i left =>
    have hc := h.sent c
    rw [hx] at hc
    refine ⟨?_, (forall_update_iff s.call fun d x => x.Sent (s.asked d)
      ((s.ledger.add c _).share d)).mpr ⟨?_, fun d hd => ?_⟩⟩
    · have hloop := h.carries.writeLoop killed left 0
      rwa [accepted, ← Ledger.all_add _ c] at hloop
    · rw [Ledger.share_add_self]
      exact sent_call hc.1 hc.2 killed s.pipe
    · rw [Ledger.share_add_of_ne _ hd]
      exact h.sent d
  | idle | reading | wrote | gave | failed => exact h

theorem Inv.read (h : s.Inv) (c : ι) (killed : Bool) (x : Transfer) :
    (s.read c killed x).Inv := by
  cases x with
  | reading n =>
    unfold PipeUse.read
    by_cases hsleep : s.pipe.nread = s.pipe.nwrite ∧ s.pipe.writeopen = true
    · simp only [if_pos hsleep]
      cases killed with
      | false => exact h
      | true => exact h.move h.carries trivial
    · simp only [if_neg hsleep]
      exact h.move (h.carries.readLoop n.toNat) trivial
  | idle | writing | wrote | gave | failed => exact h

theorem Inv.startWrite (h : s.Inv) (c : ι) (bytes : List UInt8) :
    (s.exec (.startWrite c bytes)).Inv := by
  refine ⟨h.carries, (forall_update_iff s.call fun d x => x.Sent (update s.asked c bytes d)
    ((s.ledger.turn c).share d)).mpr ⟨?_, fun d hd => ?_⟩⟩
  · rw [update_self, Ledger.share_turn_self]
    exact ⟨rfl, rfl⟩
  · rw [update_of_ne hd, Ledger.share_turn_of_ne hd]
    exact h.sent d

theorem Inv.exec (h : s.Inv) (e : PipeEvent ι) : (s.exec e).Inv := by
  cases e with
  | startWrite c bytes => exact h.startWrite c bytes
  | startRead c n => exact h.move h.carries trivial
  | write c killed => exact h.write c killed
  | read c killed => exact h.read c killed _
  | close writable =>
    have hc := h.carries
    refine ⟨?_, h.sent⟩
    cases writable with
    | false | true => exact ⟨hc.nread, hc.nwrite, hc.order, hc.room, hc.holds⟩

theorem inv_of_reachable (h : (pipeline ι page).Reachable s) : s.Inv := by
  refine h.invariant (I := Inv) ?_ ?_
  · exact ⟨⟨rfl, rfl, List.nil_prefix, Nat.zero_le _, .empty⟩, fun _ => trivial⟩
  · rintro s e t hs ⟨-, hexec⟩
    cases hexec
    exact hs.exec e

end PipeUse

/-- Pipes are streams: what was accepted is what was consumed followed by at most `PIPESIZE` bytes
in transit; the stream has from every `pipewrite`, since it began and however often it slept, the
bytes it was called with in order, each once, up to where it stands; one that returns a count has
had all of them accepted; and a `piperead` returns 0 for a positive count only when all accepted
bytes are consumed and the write end is closed. -/
theorem pipe_is_stream (h : (pipeline ι page).Reachable s) :
    s.accepted = s.consumed ++ s.pipe.transit ∧ s.pipe.transit.length ≤ PIPESIZE ∧
      (∀ c, (s.call c).Sent (s.asked c) (s.sent c)) ∧
      (∀ c bytes t, (pipeline ι page).Step s (.startWrite c bytes) t →
        t.asked c = bytes ∧ t.sent c = []) ∧
      (∀ c killed t, (pipeline ι page).Step s (.write c killed) t →
        ∀ i left r, s.call c = .writing i left → t.call c = .wrote r → r ≠ -1 →
          r = i + left.length ∧ t.accepted = s.accepted ++ left) ∧
      (∀ c killed t, (pipeline ι page).Step s (.read c killed) t →
        ∀ n bytes, s.call c = .reading n → t.call c = .gave bytes →
          t.consumed = s.consumed ++ bytes ∧
            (0 < n → bytes = [] → s.consumed = s.accepted ∧ s.pipe.writeopen = false)) := by
  have hall := PipeUse.inv_of_reachable h
  have hinv := hall.carries
  refine ⟨hinv.transit_eq, hinv.transit_length, hall.sent, ?_, ?_, ?_⟩
  · rintro c bytes t ⟨-, hexec⟩
    cases hexec
    exact ⟨update_self .., Ledger.share_turn_self ..⟩
  · rintro c killed t ⟨-, hexec⟩ i left r hcall hwrote hr
    cases hexec
    change (s.write c killed (s.call c)).call c = _ at hwrote
    show _ ∧ (s.write c killed (s.call c)).accepted = _
    rw [hcall] at hwrote ⊢
    change update s.call c _ c = _ at hwrote
    rw [update_self] at hwrote
    cases hend : (s.pipe.writeLoop killed left 0).1 with
    | finished =>
      have hstored := Pipe.writeLoop_finished hend
      rw [hend, hstored] at hwrote
      cases hwrote
      refine ⟨by push_cast; rfl, ?_⟩
      refine (Ledger.all_add _ c (left.take (s.pipe.writeLoop killed left 0).2.1)).trans ?_
      rw [hstored, List.take_length]
      rfl
    | refused =>
      rw [hend] at hwrote
      cases hwrote
      exact absurd rfl hr
    | asleep =>
      rw [hend] at hwrote
      cases hwrote
  · rintro c killed t ⟨-, hexec⟩ n bytes hcall hgave
    cases hexec
    change (s.read c killed (s.call c)).call c = _ at hgave
    show (s.read c killed (s.call c)).consumed = _ ∧ _
    rw [hcall] at hgave ⊢
    unfold PipeUse.read at hgave ⊢
    by_cases hsleep : s.pipe.nread = s.pipe.nwrite ∧ s.pipe.writeopen = true
    · simp only [if_pos hsleep] at hgave
      cases killed with
      | false =>
        change s.call c = _ at hgave
        rw [hcall] at hgave
        cases hgave
      | true =>
        change update s.call c _ c = _ at hgave
        rw [update_self] at hgave
        cases hgave
    · simp only [if_neg hsleep] at hgave ⊢
      change update s.call c _ c = _ at hgave
      rw [update_self] at hgave
      cases hgave
      refine ⟨rfl, fun hn hnil => ?_⟩
      have hempty := Pipe.readLoop_nil (by omega) hnil
      refine ⟨hinv.empty_iff.mp hempty, ?_⟩
      exact Bool.eq_false_iff.mpr fun hopen => hsleep ⟨hempty, hopen⟩

end Law

/-- A write of one byte more than fits, which sleeps; a read of two bytes; and the rest of the
write. -/
theorem pipe_is_stream_asleep :
    ∃ s, (pipeline (Fin 2) fun _ => 0).Reachable s ∧ s.call 0 = .wrote 513 ∧
      s.call 1 = .gave [7, 7] ∧ s.sent 0 = s.asked 0 ∧ (s.asked 0).length = 513 ∧
      s.accepted = s.consumed ++ s.pipe.transit := by
  obtain ⟨steps, s, hrun, htest⟩ := Machine.exists_run (M := pipeline (Fin 2) fun _ => 0)
    [.startWrite 0 (.replicate 513 7), .write 0 fun _ => false, .startRead 1 2, .read 1 false,
      .write 0 fun _ => false]
    (fun _ s => decide (s.call 0 = .wrote 513) && decide (s.call 1 = .gave [7, 7]))
    (by decide +kernel)
  rw [Bool.and_eq_true, decide_eq_true_iff, decide_eq_true_iff] at htest
  have hreach : (pipeline (Fin 2) fun _ => 0).Reachable s := ⟨steps, hrun⟩
  obtain ⟨hstream, -, hsent, -⟩ := pipe_is_stream hreach
  have hzero := hsent 0
  rw [htest.1] at hzero
  obtain ⟨hall, hcount⟩ := hzero.2 (by decide)
  exact ⟨s, hreach, htest.1, htest.2, hall, by omega, hstream⟩

end Xv6.Io
