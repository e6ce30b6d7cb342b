import Xv6.Base.Machine
import Xv6.Base.StreamRing

/-!
# Console input

`kernel/console.c`. The input buffer is a ring of `INPUT_BUF_SIZE` bytes with three 32-bit counters
that run freely: what lies between `r` and `w` is committed and waits for a reader, and what lies
between `w` and `e` is the line that is being edited.

Any number of `consoleread` calls run at once with the interrupt handler. Each step of the machine
is one stretch of `cons.lock`: an interrupt, or a `consoleread` from where it acquires the lock, or
is woken, to where it sleeps or returns. The user copies succeed.

`Tty` is what the handler is for, in terms of lists alone: characters join the line that is being
edited, erase and kill take them back, and a newline, an end-of-file mark or a full buffer commits
the line. The machine runs it beside the code, and the law says that the ring follows it.

The bytes and marks that the calls have taken stand in a ledger, so that what a call returns can be
compared with what it has taken since it began.
-/

namespace Xv6.Io

open Base Function

/-- `INPUT_BUF_SIZE` of `console.c`. -/
abbrev INPUT_BUF_SIZE : Nat := 128

/-- `C(x)` of `console.c`. -/
abbrev ctrl (x : Char) : UInt8 := x.val.toUInt8 - 64

/-- `'\n'`. -/
abbrev newline : UInt8 := 10

/-- `'\r'`. -/
abbrev carriageReturn : UInt8 := 13

/-- The addition of `uint`s. -/
@[irreducible] def plus (a b : Nat) : Nat := (a + b) % 2 ^ 32

/-- The subtraction of `uint`s. -/
@[irreducible] def minus (a b : Nat) : Nat := (2 ^ 32 - b + a) % 2 ^ 32

/-- `cons`, without its lock. -/
structure Cons where
  buf : Nat → UInt8
  r : Nat
  w : Nat
  e : Nat

namespace Cons

/-- The character before the edit index. -/
def last (s : Cons) : UInt8 := s.buf (minus s.e 1 % INPUT_BUF_SIZE)

/-- `cons.e--`. -/
def erase (s : Cons) : Cons := { s with e := minus s.e 1 }

/-- The loop that kills the line. At most `n` steps bring `e` back to `w`. -/
def kill : Nat → Cons → Cons
  | 0, s => s
  | n + 1, s => if s.e ≠ s.w ∧ s.last ≠ newline then kill n s.erase else s

/-- `cons.buf[cons.e++ % INPUT_BUF_SIZE] = c`. -/
def store (s : Cons) (c : UInt8) : Cons :=
  { s with
    buf := update s.buf (s.e % INPUT_BUF_SIZE) c
    e := plus s.e 1 }

/-- A character that has been accepted: it is stored, and may commit the line. -/
def accept (s : Cons) (c : UInt8) : Cons :=
  let t := s.store c
  if c = newline ∨ c = ctrl 'D' ∨ minus t.e t.r = INPUT_BUF_SIZE then { t with w := t.e } else t

/-- `consoleintr`. -/
def consoleintr (s : Cons) (c : UInt8) : Cons :=
  if c = ctrl 'P' then s
  else if c = ctrl 'U' then s.kill (minus s.e s.w)
  else if c = ctrl 'H' ∨ c = 127 then if s.e ≠ s.w then s.erase else s
  else if c ≠ 0 ∧ minus s.e s.r < INPUT_BUF_SIZE then
    s.accept (if c = carriageReturn then newline else c)
  else s

/-- How a stretch of `consoleread` ends. -/
inductive ReadEnd
  | finished
  | asleep
deriving DecidableEq

/-- What a stretch of `consoleread` comes to. -/
structure Stretch where
  ending : ReadEnd
  /-- the bytes it has copied to the user -/
  bytes : List UInt8
  /-- what it has taken out of the buffer: the bytes, and an end-of-file mark -/
  taken : List UInt8
  cons : Cons

/-- One more byte in front of what a stretch hands out. -/
def Stretch.push (x : Stretch) (c : UInt8) : Stretch :=
  { x with bytes := c :: x.bytes, taken := c :: x.taken }

/-- The byte at the read index. -/
def front (s : Cons) : UInt8 := s.buf (s.r % INPUT_BUF_SIZE)

/-- `cons.r++`. -/
def advance (s : Cons) : Cons := { s with r := plus s.r 1 }

/-- `cons.r--`. -/
def retreat (s : Cons) : Cons := { s with r := minus s.r 1 }

/-- The loop of `consoleread`, with `n` bytes to go of `target`. -/
def readLoop (target : Nat) : Nat → Cons → Stretch
  | 0, s => ⟨.finished, [], [], s⟩
  | n + 1, s =>
    if s.r = s.w then ⟨.asleep, [], [], s⟩
    else if s.front = ctrl 'D' then
      if n + 1 < target then ⟨.finished, [], [], s.advance.retreat⟩
      else ⟨.finished, [], [s.front], s.advance⟩
    else if s.front = newline then ⟨.finished, [s.front], [s.front], s.advance⟩
    else (readLoop target n s.advance).push s.front

/-- The committed bytes that wait for a reader. -/
def unread (s : Cons) : List UInt8 := window INPUT_BUF_SIZE s.buf s.r (minus s.w s.r)

end Cons

/-! ## What the handler is for -/

/-- The committed stream, and the line that is being edited. -/
structure Tty where
  committed : List UInt8
  line : List UInt8

namespace Tty

/-- A character that has been accepted. -/
def accept (t : Tty) (delivered : Nat) (c : UInt8) : Tty :=
  if c = newline ∨ c = ctrl 'D' ∨
      t.committed.length + (t.line ++ [c]).length = delivered + INPUT_BUF_SIZE then
    ⟨t.committed ++ (t.line ++ [c]), []⟩
  else ⟨t.committed, t.line ++ [c]⟩

/-- A character is typed when this many characters have been delivered. -/
def type (t : Tty) (delivered : Nat) (c : UInt8) : Tty :=
  if c = ctrl 'P' then t
  else if c = ctrl 'U' then { t with line := [] }
  else if c = ctrl 'H' ∨ c = 127 then { t with line := t.line.dropLast }
  else if c ≠ 0 ∧ t.committed.length + t.line.length < delivered + INPUT_BUF_SIZE then
    t.accept delivered (if c = carriageReturn then newline else c)
  else t

end Tty

/-! ## The calls -/

/-- Where a call of `consoleread` stands. -/
inductive ReadCall
  | idle
  /-- it was asked for `target` bytes, and has these so far -/
  | reading (target : Nat) (got : List UInt8)
  /-- it has returned the number of these bytes -/
  | gave (bytes : List UInt8)
  /-- it has returned -1 -/
  | failed
deriving DecidableEq

/-- Where the call stands after a stretch. It asks whether it was killed before it sleeps. -/
def Cons.ReadEnd.call (target : Nat) (got : List UInt8) (killed : Bool) :
    Cons.ReadEnd → ReadCall
  | .finished => .gave got
  | .asleep => if killed then .failed else .reading target got

/-- The buffer, what it is for, the calls, and what they have taken. -/
structure ConsoleUse (ι : Type) where
  cons : Cons
  tty : Tty
  /-- the bytes and marks that were taken, with the calls that took them -/
  ledger : Ledger ι UInt8
  call : ι → ReadCall

/-- An interrupt, a call that begins, and a stretch of a call. -/
inductive ConsoleEvent (ι : Type)
  | intr (c : UInt8)
  | start (p : ι) (n : Int)
  | read (p : ι) (killed : Bool)

namespace ConsoleUse

variable {ι : Type} [DecidableEq ι]

/-- What the calls have taken. -/
def delivered (s : ConsoleUse ι) : List UInt8 := s.ledger.all

/-- What the call has taken since it began. -/
def took (s : ConsoleUse ι) (p : ι) : List UInt8 := s.ledger.share p

/-- The call moves on. -/
def move (s : ConsoleUse ι) (p : ι) (x : ReadCall) : ConsoleUse ι :=
  { s with call := update s.call p x }

/-- A stretch of `consoleread`. -/
def read (s : ConsoleUse ι) (p : ι) (killed : Bool) : ReadCall → ConsoleUse ι
  | .reading target got =>
    let r := s.cons.readLoop target (target - got.length)
    { s with cons := r.cons, ledger := s.ledger.add p r.taken }.move p
      (r.ending.call target (got ++ r.bytes) killed)
  | _ => s

/-- What the event does. -/
def exec (s : ConsoleUse ι) : ConsoleEvent ι → ConsoleUse ι
  | .intr c =>
    { s with cons := s.cons.consoleintr c, tty := s.tty.type s.delivered.length c }
  | .start p n => { s with ledger := s.ledger.turn p }.move p (.reading n.toNat [])
  | .read p killed => s.read p killed (s.call p)

/-- The call is not in the middle of a transfer. -/
def ready (s : ConsoleUse ι) (p : ι) : Bool :=
  match s.call p with
  | .reading _ _ => false
  | _ => true

end ConsoleUse

/-- The console after `consoleinit`, read by calls `ι`. -/
def console (ι : Type) [DecidableEq ι] : Machine (ConsoleUse ι) (ConsoleEvent ι) Fault where
  init := ⟨⟨fun _ => 0, 0, 0, 0⟩, ⟨[], []⟩, .empty, fun _ => .idle⟩
  enabled e s :=
    match e with
    | .start p _ => s.ready p
    | _ => true
  exec e s := .ok (s.exec e)

/-! ## The laws -/

/-- The ring follows the stream: the counters count what was delivered, what was committed and what
is being edited, and what was not delivered is in the ring. -/
structure Tracks (s : Cons) (t : Tty) (delivered : List UInt8) : Prop where
  r : s.r = delivered.length % 2 ^ 32
  w : s.w = t.committed.length % 2 ^ 32
  e : s.e = (t.committed ++ t.line).length % 2 ^ 32
  order : delivered <+: t.committed
  room : (t.committed ++ t.line).length ≤ delivered.length + INPUT_BUF_SIZE
  holds : Holds INPUT_BUF_SIZE s.buf (t.committed ++ t.line) delivered.length
  oneLine : newline ∉ t.line

namespace Tracks

variable {s : Cons} {t : Tty} {delivered : List UInt8} {committed line : List UInt8}

theorem lengths (h : Tracks s t delivered) :
    delivered.length ≤ t.committed.length ∧
      t.committed.length + t.line.length ≤ delivered.length + 128 ∧
      (t.committed ++ t.line).length = t.committed.length + t.line.length := by
  have hroom := h.room
  rw [List.length_append] at hroom
  exact ⟨h.order.length_le, hroom, List.length_append⟩

/-- The counters tell how far apart the positions are, also after they have wrapped around. -/
theorem minus_w_r (h : Tracks s t delivered) :
    minus s.w s.r = t.committed.length - delivered.length := by
  obtain ⟨hle, hroom, -⟩ := h.lengths
  unfold minus
  rw [h.w, h.r]
  omega

theorem minus_e_r (h : Tracks s t delivered) :
    minus s.e s.r = t.committed.length + t.line.length - delivered.length := by
  obtain ⟨hle, hroom, hlen⟩ := h.lengths
  unfold minus
  rw [h.e, h.r, hlen]
  omega

theorem minus_e_w (h : Tracks s t delivered) : minus s.e s.w = t.line.length := by
  obtain ⟨hle, hroom, hlen⟩ := h.lengths
  unfold minus
  rw [h.e, h.w, hlen]
  omega

theorem e_eq_w_iff (h : Tracks s t delivered) : s.e = s.w ↔ t.line = [] := by
  obtain ⟨hle, hroom, hlen⟩ := h.lengths
  rw [h.e, h.w, hlen, ← List.length_eq_zero_iff]
  omega

theorem r_eq_w_iff (h : Tracks s t delivered) : s.r = s.w ↔ delivered = t.committed := by
  obtain ⟨hle, hroom, -⟩ := h.lengths
  constructor
  · intro he
    rw [h.r, h.w] at he
    exact h.order.eq_of_length (by omega)
  · intro he
    rw [h.r, h.w, he]

/-- What is left to read is what was not delivered. -/
theorem unread_eq (h : Tracks s t delivered) : s.unread = t.committed.drop delivered.length := by
  have hcommitted : Holds INPUT_BUF_SIZE s.buf t.committed delivered.length := h.holds.of_append
  unfold Cons.unread
  rw [h.minus_w_r, h.r, window_mod (by decide), hcommitted.window_eq]

theorem committed_eq (h : Tracks s t delivered) : t.committed = delivered ++ s.unread := by
  rw [h.unread_eq]
  exact (List.prefix_iff_eq_append.mp h.order).symm

/-! ### The handler -/

theorem erase {x : UInt8} (h : Tracks s ⟨committed, line ++ [x]⟩ delivered) :
    Tracks s.erase ⟨committed, line⟩ delivered := by
  have hroom := h.room
  have he := h.e
  have hholds := h.holds
  simp only [← List.append_assoc] at hroom he hholds
  rw [List.length_append, List.length_singleton] at hroom he
  refine ⟨h.r, h.w, ?_, h.order, ?_, hholds.of_append, fun hin => h.oneLine ?_⟩
  · show minus s.e 1 = (committed ++ line).length % 2 ^ 32
    unfold minus
    rw [he]
    omega
  · show (committed ++ line).length ≤ delivered.length + INPUT_BUF_SIZE
    omega
  · exact List.mem_append_left _ hin

/-- The character before the edit index is the last one of the line. -/
theorem last_eq {x : UInt8} (h : Tracks s ⟨committed, line ++ [x]⟩ delivered) : s.last = x := by
  have he : minus s.e 1 = (committed ++ line).length % 2 ^ 32 := h.erase.e
  have hle := h.order.length_le
  have hcell : minus s.e 1 % INPUT_BUF_SIZE = (committed ++ line).length % INPUT_BUF_SIZE := by
    rw [he]
    exact Nat.mod_mod_of_dvd _ (by decide)
  have hat : (committed ++ (line ++ [x]))[(committed ++ line).length]? = some x := by
    rw [← List.append_assoc, List.getElem?_append_right (Nat.le_refl _), Nat.sub_self]
    rfl
  unfold Cons.last
  rw [hcell]
  refine h.holds _ _ ?_ hat
  rw [List.length_append]
  exact hle.trans (Nat.le_add_right ..)

/-- The whole line is taken back, since there is no newline in it. -/
theorem kill (h : Tracks s ⟨committed, line⟩ delivered) :
    Tracks (s.kill line.length) ⟨committed, []⟩ delivered := by
  induction line using List.reverseRecOn generalizing s with
  | nil => exact h
  | append_singleton line x ih =>
    have hne : s.e ≠ s.w := fun he => by simpa using h.e_eq_w_iff.mp he
    have hx : s.last ≠ newline := by
      rw [h.last_eq]
      exact fun he => h.oneLine (by simp [he])
    rw [List.length_append, List.length_singleton]
    unfold Cons.kill
    rw [if_pos ⟨hne, hx⟩]
    exact ih h.erase

theorem store (h : Tracks s t delivered)
    (hroom : t.committed.length + t.line.length < delivered.length + INPUT_BUF_SIZE) (c : UInt8) :
    (s.store c).e = (t.committed ++ (t.line ++ [c])).length % 2 ^ 32 ∧
      Holds INPUT_BUF_SIZE (s.store c).buf (t.committed ++ (t.line ++ [c])) delivered.length := by
  have hlen := h.lengths.2.2
  have hcell : s.e % INPUT_BUF_SIZE = (t.committed ++ t.line).length % INPUT_BUF_SIZE := by
    rw [h.e]
    exact Nat.mod_mod_of_dvd _ (by decide)
  rw [← List.append_assoc]
  constructor
  · show plus s.e 1 = _
    unfold plus
    rw [h.e, List.length_append, List.length_append, List.length_singleton]
    omega
  · show Holds INPUT_BUF_SIZE (update s.buf (s.e % INPUT_BUF_SIZE) c) _ _
    rw [hcell]
    exact h.holds.push (by rw [hlen]; exact hroom) c

theorem accept (h : Tracks s t delivered)
    (hroom : t.committed.length + t.line.length < delivered.length + INPUT_BUF_SIZE) (c : UInt8) :
    Tracks (s.accept c) (t.accept delivered.length c) delivered := by
  obtain ⟨he, hholds⟩ := h.store hroom c
  obtain ⟨hle, -, -⟩ := h.lengths
  have hsize : INPUT_BUF_SIZE = 128 := rfl
  have hlen : (t.committed ++ (t.line ++ [c])).length =
      t.committed.length + t.line.length + 1 := by
    rw [List.length_append, List.length_append, List.length_singleton, Nat.add_assoc]
  have hline : (t.line ++ [c]).length = t.line.length + 1 := by
    rw [List.length_append, List.length_singleton]
  have hfull : minus (s.store c).e (s.store c).r = INPUT_BUF_SIZE ↔
      t.committed.length + (t.line ++ [c]).length = delivered.length + INPUT_BUF_SIZE := by
    have hr : (s.store c).r = delivered.length % 2 ^ 32 := h.r
    unfold minus
    rw [he, hr, hlen, hline, hsize]
    rw [hsize] at hroom
    omega
  unfold Cons.accept Tty.accept
  simp only [hfull]
  by_cases hcommit : c = newline ∨ c = ctrl 'D' ∨
      t.committed.length + (t.line ++ [c]).length = delivered.length + INPUT_BUF_SIZE
  · rw [if_pos hcommit, if_pos hcommit]
    refine ⟨h.r, he, ?_, h.order.trans (List.prefix_append ..), ?_, ?_, List.not_mem_nil⟩
    · rw [List.append_nil]
      exact he
    · rw [List.append_nil, hlen]
      omega
    · rw [List.append_nil]
      exact hholds
  · rw [if_neg hcommit, if_neg hcommit]
    refine ⟨h.r, h.w, he, h.order, by rw [hlen]; omega, hholds, fun hin => ?_⟩
    rcases List.mem_append.mp hin with hin | hin
    · exact h.oneLine hin
    · exact hcommit (.inl (List.mem_singleton.mp hin).symm)

/-- A key typed does to the buffer what it does to the line. -/
theorem consoleintr (h : Tracks s t delivered) (c : UInt8) :
    Tracks (s.consoleintr c) (t.type delivered.length c) delivered := by
  unfold Cons.consoleintr Tty.type
  by_cases hP : c = ctrl 'P'
  · rw [if_pos hP, if_pos hP]
    exact h
  rw [if_neg hP, if_neg hP]
  by_cases hU : c = ctrl 'U'
  · rw [if_pos hU, if_pos hU, h.minus_e_w]
    exact h.kill
  rw [if_neg hU, if_neg hU]
  by_cases hH : c = ctrl 'H' ∨ c = 127
  · rw [if_pos hH, if_pos hH]
    rcases List.eq_nil_or_concat t.line with hline | ⟨line, x, hline⟩
    · have hw : ¬ s.e ≠ s.w := fun hne => hne (h.e_eq_w_iff.mpr hline)
      have hsame : ({ t with line := t.line.dropLast } : Tty) = t := by
        rw [hline]
        exact congrArg (Tty.mk t.committed) hline.symm
      rw [if_neg hw, hsame]
      exact h
    · have hw : s.e ≠ s.w := fun he => by simpa [hline] using h.e_eq_w_iff.mp he
      rw [List.concat_eq_append] at hline
      have hsplit : Tracks s ⟨t.committed, line ++ [x]⟩ delivered := hline ▸ h
      rw [if_pos hw, hline, List.dropLast_concat]
      exact hsplit.erase
  rw [if_neg hH, if_neg hH]
  have hlens := h.lengths
  have hfits : minus s.e s.r < INPUT_BUF_SIZE ↔
      t.committed.length + t.line.length < delivered.length + INPUT_BUF_SIZE := by
    rw [h.minus_e_r]
    omega
  simp only [hfits]
  by_cases hacc : c ≠ 0 ∧ t.committed.length + t.line.length < delivered.length + INPUT_BUF_SIZE
  · rw [if_pos hacc, if_pos hacc]
    exact h.accept hacc.2 _
  · rw [if_neg hacc, if_neg hacc]
    exact h

/-! ### The readers -/

theorem advance (h : Tracks s t delivered) (hne : s.r ≠ s.w) :
    Tracks s.advance t (delivered ++ [s.front]) := by
  have hmore : delivered ≠ t.committed := fun he => hne (h.r_eq_w_iff.mpr he)
  have hcell : s.r % INPUT_BUF_SIZE = delivered.length % INPUT_BUF_SIZE := by
    rw [h.r]
    exact Nat.mod_mod_of_dvd _ (by decide)
  have hcommitted : Holds INPUT_BUF_SIZE s.buf t.committed delivered.length := h.holds.of_append
  have hnext : delivered ++ [s.front] <+: t.committed := by
    unfold Cons.front
    rw [hcell]
    exact hcommitted.next h.order hmore
  refine ⟨?_, h.w, h.e, hnext, ?_, h.holds.mono ?_, h.oneLine⟩
  · show plus s.r 1 = _
    unfold plus
    rw [h.r, List.length_append, List.length_singleton]
    omega
  · have hroom := h.room
    have hlen : (delivered ++ [s.front]).length = delivered.length + 1 := by
      rw [List.length_append, List.length_singleton]
    omega
  · rw [List.length_append]
    exact Nat.le_add_right ..

/-- The byte at the read index is the first one that waits. -/
theorem unread_cons (h : Tracks s t delivered) (hne : s.r ≠ s.w) :
    s.unread = s.front :: s.advance.unread := by
  have hbefore := h.committed_eq
  have hafter := (h.advance hne).committed_eq
  rw [hbefore, List.append_assoc] at hafter
  exact List.append_cancel_left hafter

theorem unread_nil (h : Tracks s t delivered) (he : s.r = s.w) : s.unread = [] := by
  have hbefore := h.committed_eq
  rw [← h.r_eq_w_iff.mp he] at hbefore
  exact List.self_eq_append_right.mp hbefore

/-- An end-of-file mark that is put back is where it was. -/
theorem advance_retreat (h : Tracks s t delivered) : s.advance.retreat = s := by
  have hr : minus (plus s.r 1) 1 = s.r := by
    unfold minus plus
    have hlt := h.r
    omega
  show ({ s with r := minus (plus s.r 1) 1 } : Cons) = s
  rw [hr]

/-- A read delivers what it takes. -/
theorem readLoop (h : Tracks s t delivered) (target n : Nat) :
    Tracks (s.readLoop target n).cons t (delivered ++ (s.readLoop target n).taken) := by
  induction n generalizing s delivered with
  | zero =>
    show Tracks s t (delivered ++ [])
    rwa [List.append_nil]
  | succ n ih =>
    unfold Cons.readLoop
    by_cases hsleep : s.r = s.w
    · rw [if_pos hsleep, List.append_nil]
      exact h
    rw [if_neg hsleep]
    have hnext := h.advance hsleep
    by_cases hmark : s.front = ctrl 'D'
    · rw [if_pos hmark]
      by_cases hless : n + 1 < target
      · rw [if_pos hless, List.append_nil, h.advance_retreat]
        exact h
      · rw [if_neg hless]
        exact hnext
    rw [if_neg hmark]
    by_cases hline : s.front = newline
    · rw [if_pos hline]
      exact hnext
    · rw [if_neg hline]
      have hrest := ih hnext
      rwa [List.append_assoc, List.singleton_append] at hrest

end Tracks

/-- What a stretch of `consoleread` with `n` bytes to go of `target` hands out: at most one line,
which ends it; and when it ends early and without a newline, it is at an end-of-file mark that it
leaves there if the call has handed out anything. -/
structure Cons.Stretch.Lawful (x : Cons.Stretch) (target n : Nat) : Prop where
  short : x.bytes.length ≤ n
  line : newline ∉ x.bytes.dropLast
  asleep : x.ending = .asleep → newline ∉ x.bytes ∧ x.bytes.length < n
  early : x.ending = .finished → x.bytes.length < n → x.bytes.getLast? ≠ some newline →
    n - x.bytes.length < target → x.cons.r ≠ x.cons.w ∧ x.cons.front = ctrl 'D'

theorem Tracks.lawful {s : Cons} {t : Tty} {delivered : List UInt8} (h : Tracks s t delivered)
    (target n : Nat) : (s.readLoop target n).Lawful target n := by
  induction n generalizing s delivered with
  | zero =>
    refine ⟨Nat.le_refl _, List.not_mem_nil, nofun, fun _ hlt => ?_⟩
    exact absurd hlt (Nat.not_lt_zero _)
  | succ n ih =>
    unfold Cons.readLoop
    by_cases hsleep : s.r = s.w
    · rw [if_pos hsleep]
      exact ⟨Nat.zero_le _, List.not_mem_nil, fun _ => ⟨List.not_mem_nil, Nat.succ_pos n⟩,
        nofun⟩
    rw [if_neg hsleep]
    by_cases hmark : s.front = ctrl 'D'
    · rw [if_pos hmark]
      by_cases hless : n + 1 < target
      · rw [if_pos hless, h.advance_retreat]
        exact ⟨Nat.zero_le _, List.not_mem_nil, nofun,
          fun _ _ _ _ => ⟨hsleep, hmark⟩⟩
      · rw [if_neg hless]
        exact ⟨Nat.zero_le _, List.not_mem_nil, nofun,
          fun _ _ _ hlt => absurd hlt hless⟩
    rw [if_neg hmark]
    by_cases hline : s.front = newline
    · rw [if_pos hline]
      refine ⟨Nat.succ_le_succ (Nat.zero_le _), List.not_mem_nil, nofun, ?_⟩
      exact fun _ _ hlast => absurd (congrArg some hline) hlast
    · rw [if_neg hline]
      -- the byte joins what the rest of the loop hands out
      have hrest := ih (h.advance hsleep)
      generalize s.advance.readLoop target n = x at hrest
      refine ⟨Nat.succ_le_succ hrest.short, fun hin => ?_, fun he => ?_, fun he hlt hlast hleft => ?_⟩
      · change newline ∈ (s.front :: x.bytes).dropLast at hin
        cases hx : x.bytes with
        | nil =>
          rw [hx] at hin
          cases hin
        | cons y ys =>
          rw [hx, List.dropLast_cons_cons, List.mem_cons, ← hx] at hin
          rcases hin with heq | hin
          · exact hline heq.symm
          · exact hrest.line hin
      · obtain ⟨hnot, hshort⟩ := hrest.asleep he
        refine ⟨fun hin => ?_, Nat.succ_lt_succ hshort⟩
        rcases List.mem_cons.mp hin with heq | hin
        · exact hline heq.symm
        · exact hnot hin
      · refine hrest.early he (Nat.lt_of_succ_lt_succ hlt) (fun hl => hlast ?_) ?_
        · show (s.front :: x.bytes).getLast? = _
          rw [List.getLast?_cons, hl]
          rfl
        · change n + 1 - (x.bytes.length + 1) < target at hleft
          omega

/-- A stretch hands out what it takes, or takes an end-of-file mark before it has anything. -/
theorem Cons.readLoop_taken {target n : Nat} (hn : n ≤ target) (s : Cons) :
    (s.readLoop target n).taken = (s.readLoop target n).bytes ∨
      n = target ∧ (s.readLoop target n).ending = .finished ∧ (s.readLoop target n).bytes = [] ∧
        (s.readLoop target n).taken = [ctrl 'D'] := by
  induction n generalizing s with
  | zero => exact .inl rfl
  | succ n ih =>
    unfold Cons.readLoop
    by_cases hsleep : s.r = s.w
    · exact .inl (by rw [if_pos hsleep])
    rw [if_neg hsleep]
    by_cases hmark : s.front = ctrl 'D'
    · rw [if_pos hmark]
      by_cases hless : n + 1 < target
      · exact .inl (by rw [if_pos hless])
      · rw [if_neg hless, hmark]
        exact .inr ⟨by omega, rfl, rfl, rfl⟩
    rw [if_neg hmark]
    by_cases hline : s.front = newline
    · exact .inl (by rw [if_pos hline])
    · rw [if_neg hline]
      rcases ih (by omega) s.advance with htaken | ⟨hall, -⟩
      · exact .inl (congrArg (s.front :: ·) htaken)
      · omega

/-! ### The calls -/

/-- What holds of a call that has taken these bytes and marks since it began: they are what it hands
out, at most one line; or it has taken one end-of-file mark and returned 0. -/
def ReadCall.Lawful (took : List UInt8) : ReadCall → Prop
  | .reading target got => took = got ∧ newline ∉ got ∧ got.length ≤ target
  | .gave bytes => (took = bytes ∨ took = [ctrl 'D'] ∧ bytes = []) ∧ newline ∉ bytes.dropLast
  | _ => True

namespace ConsoleUse

variable {ι : Type} [DecidableEq ι] {s : ConsoleUse ι}

/-- The ring follows the stream, and the calls hand out what they take, at most one line each. -/
structure Inv (s : ConsoleUse ι) : Prop where
  tracks : Tracks s.cons s.tty s.delivered
  calls : ∀ p, (s.call p).Lawful (s.took p)

theorem lawful_call {x : Cons.Stretch} {target : Nat} {got : List UInt8} (killed : Bool)
    (hgot : newline ∉ got ∧ got.length ≤ target) (hx : x.Lawful target (target - got.length))
    (htaken : x.taken = x.bytes ∨ target - got.length = target ∧ x.ending = .finished ∧
      x.bytes = [] ∧ x.taken = [ctrl 'D']) :
    (x.ending.call target (got ++ x.bytes) killed).Lawful (got ++ x.taken) := by
  cases he : x.ending with
  | finished =>
    refine ⟨?_, fun hin => ?_⟩
    · rcases htaken with htaken | ⟨hall, -, hbytes, htaken⟩
      · exact .inl (by rw [htaken])
      · have hnil : got = [] := List.length_eq_zero_iff.mp (by omega)
        rw [htaken, hbytes, hnil]
        exact .inr ⟨rfl, rfl⟩
    by_cases hnil : x.bytes = []
    · rw [hnil, List.append_nil] at hin
      exact hgot.1 (List.mem_of_mem_dropLast hin)
    · rw [List.dropLast_append_of_ne_nil hnil, List.mem_append] at hin
      rcases hin with hin | hin
      · exact hgot.1 hin
      · exact hx.line hin
  | asleep =>
    obtain ⟨hnot, hshort⟩ := hx.asleep he
    cases killed with
    | true => trivial
    | false =>
      refine ⟨?_, fun hin => ?_, ?_⟩
      · rcases htaken with htaken | ⟨-, hend, -⟩
        · rw [htaken]
        · rw [he] at hend
          cases hend
      · rcases List.mem_append.mp hin with hin | hin
        · exact hgot.1 hin
        · exact hnot hin
      · rw [List.length_append]
        omega

/-- Every event keeps the invariant. -/
theorem Inv.exec (h : s.Inv) (e : ConsoleEvent ι) : (s.exec e).Inv := by
  cases e with
  | intr c => exact ⟨h.tracks.consoleintr c, h.calls⟩
  | start p n =>
    refine ⟨h.tracks, (forall_update_iff s.call fun q x =>
      x.Lawful ((s.ledger.turn p).share q)).mpr ⟨?_, fun q hq => ?_⟩⟩
    · exact ⟨Ledger.share_turn_self .., List.not_mem_nil, Nat.zero_le _⟩
    · rw [Ledger.share_turn_of_ne hq]
      exact h.calls q
  | read p killed =>
    show (s.read p killed (s.call p)).Inv
    have hp := h.calls p
    cases hc : s.call p with
    | idle | gave | failed => exact h
    | reading target got =>
      rw [hc] at hp
      obtain ⟨htook, hgot⟩ := hp
      refine ⟨?_, (forall_update_iff s.call fun q x =>
        x.Lawful ((s.ledger.add p _).share q)).mpr ⟨?_, fun q hq => ?_⟩⟩
      · have hloop := h.tracks.readLoop target (target - got.length)
        rwa [delivered, ← Ledger.all_add _ p] at hloop
      · rw [Ledger.share_add_self, ← took, htook]
        exact lawful_call killed hgot (h.tracks.lawful target _)
          (Cons.readLoop_taken (Nat.sub_le ..) _)
      · rw [Ledger.share_add_of_ne _ hq]
        exact h.calls q

theorem inv_of_reachable (h : (console ι).Reachable s) : s.Inv := by
  refine h.invariant (I := Inv) ?_ ?_
  · refine ⟨⟨rfl, rfl, rfl, List.nil_prefix, Nat.zero_le _, .empty, List.not_mem_nil⟩, ?_⟩
    exact fun _ => trivial
  · rintro s e t hs ⟨-, hexec⟩
    cases hexec
    exact hs.exec e

end ConsoleUse

theorem Tty.committed_accept (t : Tty) (n : Nat) (c : UInt8) :
    t.committed <+: (t.accept n c).committed := by
  unfold Tty.accept
  split
  · exact List.prefix_append ..
  · exact List.prefix_rfl

theorem Tty.committed_type (t : Tty) (n : Nat) (c : UInt8) :
    t.committed <+: (t.type n c).committed := by
  unfold Tty.type
  by_cases hP : c = ctrl 'P'
  · rw [if_pos hP]
  rw [if_neg hP]
  by_cases hU : c = ctrl 'U'
  · rw [if_pos hU]
  rw [if_neg hU]
  by_cases hH : c = ctrl 'H' ∨ c = 127
  · rw [if_pos hH]
  rw [if_neg hH]
  by_cases hacc : c ≠ 0 ∧ t.committed.length + t.line.length < n + INPUT_BUF_SIZE
  · rw [if_pos hacc]
    exact t.committed_accept n _
  · rw [if_neg hacc]

section Law

variable {ι : Type} [DecidableEq ι] {s : ConsoleUse ι}

/-- The laws of console input: the counters are in order and at most the size of the ring apart;
an interrupt does not touch what waits for the readers; what was delivered, with the end-of-file
marks that were taken, followed by what waits is the committed stream; what a call has in hand and
what it returns is what was delivered to it since it began, however often it slept, or it has taken
one end-of-file mark and returns 0; each read hands out at most one line; a read that has data
leaves an end-of-file mark where it is; and a read that finds one at once returns 0 and takes it. -/
theorem console_delivers_lines (h : (console ι).Reachable s) :
    (minus s.cons.w s.cons.r ≤ minus s.cons.e s.cons.r ∧
      minus s.cons.e s.cons.r ≤ INPUT_BUF_SIZE) ∧
      (∀ c u, (console ι).Step s (.intr c) u →
        u.cons.r = s.cons.r ∧ s.cons.unread <+: u.cons.unread) ∧
      s.tty.committed = s.delivered ++ s.cons.unread ∧
      (∀ p n u, (console ι).Step s (.start p n) u → u.took p = []) ∧
      (∀ p target got, s.call p = .reading target got → s.took p = got) ∧
      (∀ p bytes, s.call p = .gave bytes →
        (s.took p = bytes ∨ s.took p = [ctrl 'D'] ∧ bytes = []) ∧ newline ∉ bytes.dropLast) ∧
      (∀ p killed u, (console ι).Step s (.read p killed) u →
        ∀ target got bytes, s.call p = .reading target got → u.call p = .gave bytes →
          bytes ≠ [] → bytes.length < target → bytes.getLast? ≠ some newline →
            u.cons.unread.head? = some (ctrl 'D')) ∧
      ∀ p killed u, (console ι).Step s (.read p killed) u →
        ∀ target, s.call p = .reading target [] → 0 < target →
          s.cons.unread.head? = some (ctrl 'D') →
            u.call p = .gave [] ∧ u.delivered = s.delivered ++ [ctrl 'D'] := by
  have hinv := ConsoleUse.inv_of_reachable h
  have htracks := hinv.tracks
  obtain ⟨hle, hroom, -⟩ := htracks.lengths
  refine ⟨⟨?_, ?_⟩, ?_, htracks.committed_eq, ?_, ?_, ?_, ?_, ?_⟩
  · rw [htracks.minus_w_r, htracks.minus_e_r]
    omega
  · rw [htracks.minus_e_r]
    show _ ≤ 128
    omega
  · rintro c u ⟨-, hexec⟩
    cases hexec
    have hafter := htracks.consoleintr c
    refine ⟨hafter.r.trans htracks.r.symm, ?_⟩
    show s.cons.unread <+: (s.cons.consoleintr c).unread
    rw [htracks.unread_eq, hafter.unread_eq]
    exact (s.tty.committed_type _ c).drop _
  · rintro p n u ⟨-, hexec⟩
    cases hexec
    exact Ledger.share_turn_self ..
  · intro p target got hp
    have hlawful := hinv.calls p
    rw [hp] at hlawful
    exact hlawful.1
  · intro p bytes hp
    have hlawful := hinv.calls p
    rwa [hp] at hlawful
  · rintro p killed u ⟨-, hexec⟩ target got bytes hp hu hne hlt hlast
    cases hexec
    change (s.read p killed (s.call p)).call p = _ at hu
    show (s.read p killed (s.call p)).cons.unread.head? = _
    rw [hp] at hu ⊢
    change update s.call p _ p = _ at hu
    rw [update_self] at hu
    have hlawful := htracks.lawful target (target - got.length)
    have hafter := htracks.readLoop target (target - got.length)
    show (s.cons.readLoop target (target - got.length)).cons.unread.head? = _
    generalize s.cons.readLoop target (target - got.length) = x at hu hlawful hafter ⊢
    cases hend : x.ending with
    | asleep =>
      rw [hend] at hu
      cases killed <;> cases hu
    | finished =>
      rw [hend] at hu
      cases hu
      rw [List.length_append] at hlt
      have hlen : got.length + x.bytes.length ≠ 0 := by
        rw [← List.length_append]
        exact fun he => hne (List.length_eq_zero_iff.mp he)
      have hend' : x.bytes.getLast? ≠ some newline := by
        intro hl
        exact hlast (by rw [List.getLast?_append, hl, Option.some_or])
      obtain ⟨hmore, hmark⟩ := hlawful.early hend (by omega) hend' (by omega)
      rw [hafter.unread_cons hmore, hmark]
      rfl
  · rintro p killed u ⟨-, hexec⟩ target hp hpos hmark
    cases hexec
    show (s.read p killed (s.call p)).call p = _ ∧ (s.read p killed (s.call p)).delivered = _
    rw [hp]
    have hmore : s.cons.r ≠ s.cons.w := by
      intro he
      rw [htracks.unread_nil he] at hmark
      cases hmark
    rw [htracks.unread_cons hmore] at hmark
    have hfront : s.cons.front = ctrl 'D' := Option.some.inj hmark
    obtain ⟨n, rfl⟩ := Nat.exists_eq_succ_of_ne_zero hpos.ne'
    have hloop : s.cons.readLoop (n + 1) (n + 1) =
        ⟨.finished, [], [s.cons.front], s.cons.advance⟩ := by
      unfold Cons.readLoop
      rw [if_neg hmore, if_pos hfront, if_neg (Nat.lt_irrefl _)]
    constructor
    · show update s.call p _ p = _
      rw [update_self, List.length_nil, Nat.sub_zero, hloop]
      rfl
    · refine (Ledger.all_add _ p (s.cons.readLoop (n + 1) (n + 1 - 0)).taken).trans ?_
      rw [Nat.sub_zero, hloop, hfront]
      rfl

end Law

/-- A line that is longer than the buffer, read by a call that sleeps in the middle of it; and an
end-of-file mark that another call takes. -/
theorem console_delivers_lines_long :
    ∃ s, (console (Fin 2)).Reachable s ∧ s.call 0 = .gave (.replicate 128 97 ++ [10]) ∧
      s.took 0 = .replicate 128 97 ++ [10] ∧ s.call 1 = .gave [] ∧
      s.tty.committed = s.delivered ++ s.cons.unread := by
  obtain ⟨steps, s, hrun, htest⟩ := Machine.exists_run (M := console (Fin 2))
    (.start 0 200 :: .replicate 128 (.intr 97) ++ [.read 0 false, .intr 98, .intr 127, .intr 13,
      .read 0 false, .start 1 5, .intr 4, .read 1 false])
    (fun _ s => decide (s.call 0 = .gave (.replicate 128 97 ++ [10])) &&
      decide (s.call 1 = .gave []))
    (by decide +kernel)
  rw [Bool.and_eq_true, decide_eq_true_iff, decide_eq_true_iff] at htest
  have hreach : (console (Fin 2)).Reachable s := ⟨steps, hrun⟩
  obtain ⟨-, -, hstream, -, -, hgave, -⟩ := console_delivers_lines hreach
  obtain ⟨htook | ⟨-, hnil⟩, -⟩ := hgave 0 _ htest.1
  · exact ⟨s, hreach, htest.1, htook, htest.2, hstream⟩
  · cases hnil

end Xv6.Io
