import Xv6.Base.Machine
import Xv6.Fs.Crash

/-!
# The log's reservation

Any number of processes run file-system operations: `begin_op`, some `log_write`s, `end_op`. Each
step of the machine is one critical section of `log.lock`, or the `commit` that the last operation
runs without it. A `begin_op` that finds the log committing or too full sleeps and tries again, so
it is a step only when the test lets it in. A panic is kept in the state and ends the run.

`begin_op` reserves `MAXOPBLOCKS` blocks for each operation against `LOGSIZE`. The header with
what is left of the reservations never goes above `LOGSIZE` (`Inv.reserved`). But `log_write` gives
up at `log.size - 1`, one block earlier, and before it looks for the block in the header. The law
says which calls run into that.
-/

namespace Xv6.Fs

open Base Function

/-- Where a process stands. -/
inductive Phase
  /-- outside every operation, or asleep in `begin_op` -/
  | idle
  /-- between `begin_op` and `end_op`, with the different blocks it has given to `log_write` -/
  | active (blocks : List Nat)
  /-- in `end_op`, about to run `commit` -/
  | committing
  /-- in `end_op`, after `commit` -/
  | committed
deriving DecidableEq

/-- The process is in an operation. -/
def Phase.isActive : Phase → Bool
  | .active _ => true
  | _ => false

/-- What is left of an operation's reservation. -/
def Phase.left : Phase → Nat
  | .active blocks => MAXOPBLOCKS - blocks.length
  | _ => 0

/-- The process runs the commit. -/
def Phase.commits : Phase → Bool
  | .committing | .committed => true
  | _ => false

/-- The different blocks of an operation, once it has given `b` to `log_write`. -/
def noted (blocks : List Nat) (b : Nat) : List Nat :=
  if b ∈ blocks then blocks else blocks ++ [b]

/-- The log, the processes and the blocks logged since the last commit. -/
structure Ops (ι : Type) where
  log : Log
  bufs : Buffers
  phase : ι → Phase
  txn : Finset Nat
  fault : Option Fault

/-- The critical sections of `log.lock`, and `commit`. -/
inductive OpEvent (ι : Type)
  | beginOp (p : ι)
  | logWrite (p : ι) (b : Nat) (data : Block)
  | endOp (p : ι)
  | commit (p : ι)
  | endCommit (p : ι)

namespace Ops

variable {ι : Type} [DecidableEq ι]

/-- The process gives the block to `log_write`. An operation names at most `MAXOPBLOCKS`
different blocks. -/
def mayWrite (s : Ops ι) (p : ι) (b : Nat) : Bool :=
  match s.phase p with
  | .active blocks => decide (b ∈ blocks) || decide (blocks.length < MAXOPBLOCKS)
  | _ => false

/-- The event can happen. -/
def enabled (s : Ops ι) (e : OpEvent ι) : Bool :=
  s.fault.isNone &&
    match e with
    | .beginOp p => decide (s.phase p = .idle) && admits s.log
    | .logWrite p b _ => s.mayWrite p b
    | .endOp p => (s.phase p).isActive
    | .commit p => decide (s.phase p = .committing)
    | .endCommit p => decide (s.phase p = .committed)

/-- The process moves on. -/
def move (s : Ops ι) (p : ι) (ph : Phase) : Ops ι :=
  { s with phase := update s.phase p ph }

/-- The operation has given `b` to `log_write`. -/
def note (s : Ops ι) (p : ι) (b : Nat) : Phase :=
  match s.phase p with
  | .active blocks => .active (noted blocks b)
  | ph => ph

/-- What the event does. -/
def exec (s : Ops ι) : OpEvent ι → Ops ι
  | .beginOp p => { s with log := Fs.beginOp s.log }.move p (.active [])
  | .logWrite p b data =>
    match Fs.logWrite s.log b with
    | .ok l =>
      { s with log := l, bufs := s.bufs.modify b data, txn := insert b s.txn }.move p (s.note p b)
    | .error f => { s with fault := some f }
  | .endOp p =>
    match Fs.endOp s.log with
    | .ok (l, doCommit) => { s with log := l }.move p (if doCommit then .committing else .idle)
    | .error f => { s with fault := some f }
  | .commit p =>
    let r := Fs.commit s.log s.bufs
    { s with log := r.1, bufs := r.2, txn := ∅ }.move p .committed
  | .endCommit p => { s with log := Fs.endCommit s.log }.move p .idle

end Ops

/-- The processes on an image that `mkfs` made, with the disk `d`. -/
def operations (ι : Type) [DecidableEq ι] (d : Disk) : Machine (Ops ι) (OpEvent ι) Fault where
  init := ⟨mkfsLog, .boot d, fun _ => .idle, ∅, none⟩
  enabled e s := s.enabled e
  exec e s := .ok (s.exec e)

/-! ## The laws -/

variable {blocks : List Nat} {b : Nat}

theorem noted_of_mem (h : b ∈ blocks) : noted blocks b = blocks :=
  if_pos h

theorem noted_of_notMem (h : b ∉ blocks) :
    noted blocks b = blocks ++ [b] :=
  if_neg h

theorem mem_noted {x : Nat} (h : x ∈ noted blocks b) :
    x = b ∨ x ∈ blocks := by
  by_cases hin : b ∈ blocks
  · rw [noted_of_mem hin] at h
    exact .inr h
  · rw [noted_of_notMem hin, List.mem_append, List.mem_singleton] at h
    exact h.symm

theorem length_noted_le {n : Nat} (h : blocks.length ≤ n) (hb : b ∈ blocks ∨ blocks.length < n) :
    (noted blocks b).length ≤ n := by
  by_cases hin : b ∈ blocks
  · rwa [noted_of_mem hin]
  · rw [noted_of_notMem hin, List.length_append, List.length_singleton]
    exact hb.resolve_left hin

theorem length_le_noted (blocks : List Nat) (b : Nat) :
    blocks.length ≤ (noted blocks b).length := by
  by_cases hin : b ∈ blocks
  · rw [noted_of_mem hin]
  · rw [noted_of_notMem hin, List.length_append]
    exact Nat.le_add_right ..

/-- A `log_write` that succeeds changes the header only, and takes at least as much of the
caller's reservation as it adds to the header. -/
theorem logWrite_header {l l' : Log} (hok : logWrite l b = .ok l') (hnodup : l.lh.Nodup)
    (hown : ∀ x ∈ blocks, x ∈ l.lh) (hmay : b ∈ blocks ∨ blocks.length < MAXOPBLOCKS) :
    l' = { l with lh := l'.lh } ∧ (∀ x, x ∈ l'.lh ↔ x = b ∨ x ∈ l.lh) ∧ l'.lh.Nodup ∧
      l'.lh.length + (MAXOPBLOCKS - (noted blocks b).length) ≤
        l.lh.length + (MAXOPBLOCKS - blocks.length) := by
  obtain ⟨-, -, -, hlh⟩ := logWrite_ok hok
  rcases hlh with ⟨hin, rfl⟩ | ⟨hout, rfl⟩
  · refine ⟨rfl, fun x => ⟨.inr, ?_⟩, hnodup, ?_⟩
    · rintro (rfl | hx)
      · exact hin
      · exact hx
    · have hle := length_le_noted blocks b
      omega
  · have hnew : b ∉ blocks := fun hin => hout (hown b hin)
    have hlt := hmay.resolve_left hnew
    refine ⟨rfl, fun x => ?_, ?_, ?_⟩
    · rw [List.mem_append, List.mem_singleton, or_comm]
    · refine List.nodup_append.mpr ⟨hnodup, List.nodup_singleton b, fun x hx y hy => ?_⟩
      rintro rfl
      exact hout (List.mem_singleton.mp hy ▸ hx)
    · rw [noted_of_notMem hnew]
      simp only [List.length_append, List.length_singleton]
      omega

variable {ι : Type} {s : Ops ι}

theorem Phase.isActive_iff {ph : Phase} : ph.isActive = true ↔ ∃ blocks, ph = .active blocks := by
  cases ph with
  | active blocks => exact ⟨fun _ => ⟨blocks, rfl⟩, fun _ => rfl⟩
  | idle | committing | committed =>
    exact ⟨fun h => (by cases h), fun ⟨_, h⟩ => (by cases h)⟩

theorem Ops.mayWrite_iff {p : ι} : s.mayWrite p b = true ↔
    ∃ blocks, s.phase p = .active blocks ∧ (b ∈ blocks ∨ blocks.length < MAXOPBLOCKS) := by
  unfold mayWrite
  cases hp : s.phase p with
  | active blocks =>
    simp only [Bool.or_eq_true, decide_eq_true_eq]
    exact ⟨fun h => ⟨blocks, rfl, h⟩, fun ⟨x, hx, h⟩ => by cases hx; exact h⟩
  | idle | committing | committed =>
    exact ⟨fun h => (by cases h), fun ⟨x, hx, _⟩ => (by cases hx)⟩

/-- No panic so far; nobody commits while an operation is outstanding; and the log blocks in use
are in the disk's log area. -/
structure Ops.Safe (s : Ops ι) : Prop where
  calm : s.fault = none
  alone : ∀ p, (s.phase p).commits = true →
    s.log.outstanding = 0 ∧ ∀ q blocks, s.phase q ≠ .active blocks
  inside : ∀ i, i < s.log.lh.length → mkfsLog.area (s.log.start + 1 + i)

/-- The call of `log_write` is made by an operation that has logged fewer than `MAXOPBLOCKS - 1`
different blocks, or while fewer than `LOGSIZE - 1` have been logged since the last commit. In a run
the first implies the second (`Ops.Inv.roomy_iff`). -/
def Ops.Roomy (s : Ops ι) : OpEvent ι → Prop
  | .logWrite p _ _ =>
    (∃ blocks, s.phase p = .active blocks ∧ blocks.length < MAXOPBLOCKS - 1) ∨
      s.txn.card < LOGSIZE - 1
  | _ => True

/-- What the operations keep. `A` is the set of those outstanding. -/
structure Ops.Inv (s : Ops ι) (A : Finset ι) : Prop where
  place : s.log.start = mkfsLog.start ∧ s.log.size = mkfsLog.size
  active : ∀ p, p ∈ A ↔ ∃ blocks, s.phase p = .active blocks
  outstanding : s.log.outstanding = A.card
  alone : s.log.committing = true → A = ∅
  flag : ∀ p, (s.phase p).commits = true → s.log.committing = true
  one : ∀ p q, (s.phase p).commits = true → (s.phase q).commits = true → p = q
  nodup : s.log.lh.Nodup
  txn : s.txn = s.log.lh.toFinset
  own : ∀ p blocks, s.phase p = .active blocks →
    blocks.length ≤ MAXOPBLOCKS ∧ ∀ b ∈ blocks, b ∈ s.log.lh
  reserved : s.log.lh.length + ∑ p ∈ A, (s.phase p).left ≤ LOGSIZE
  room : s.log.lh.length < LOGSIZE

namespace Ops.Inv

variable {A : Finset ι}

theorem safe (h : s.Inv A) (hcalm : s.fault = none) : s.Safe := by
  refine ⟨hcalm, ?_, ?_⟩
  · intro p hp
    have hA : A = ∅ := h.alone (h.flag p hp)
    refine ⟨?_, ?_⟩
    · rw [h.outstanding, hA]
      rfl
    · intro q blocks hq
      have hmem : q ∈ A := (h.active q).mpr ⟨blocks, hq⟩
      rw [hA] at hmem
      cases hmem
  · intro i hi
    have hroom : s.log.lh.length < 30 := h.room
    rw [h.place.1]
    right
    show 2 < 2 + 1 + i ∧ ((2 + 1 + i : Nat) : Int) < 2 + 30
    omega

/-- The header's length is the number of different blocks logged. -/
theorem txn_card (h : s.Inv A) : s.txn.card = s.log.lh.length := by
  rw [h.txn]
  exact List.toFinset_card_of_nodup h.nodup

/-- An operation that has logged fewer than `MAXOPBLOCKS - 1` blocks has two blocks left, so the
header is at least two short of `LOGSIZE`. -/
theorem room_of_own (h : s.Inv A) {p : ι} {blocks : List Nat} (hp : s.phase p = .active blocks)
    (hfew : blocks.length < MAXOPBLOCKS - 1) : s.log.lh.length < LOGSIZE - 1 := by
  have hmem : p ∈ A := (h.active p).mpr ⟨blocks, hp⟩
  have hle : (s.phase p).left ≤ ∑ q ∈ A, (s.phase q).left :=
    Finset.single_le_sum (f := fun q => (s.phase q).left) (fun _ _ => Nat.zero_le _) hmem
  have hleft : (s.phase p).left = MAXOPBLOCKS - blocks.length := by rw [hp]; rfl
  have hres := h.reserved
  have hmax : MAXOPBLOCKS = 10 := rfl
  have hlog : LOGSIZE = 30 := rfl
  omega

/-- A call of `log_write` has room exactly if fewer than `LOGSIZE - 1` blocks have been logged. -/
theorem roomy_iff (h : s.Inv A) {p : ι} {b : Nat} {data : Block} :
    s.Roomy (.logWrite p b data) ↔ s.txn.card < LOGSIZE - 1 := by
  refine ⟨?_, .inr⟩
  rintro (⟨blocks, hp, hfew⟩ | hfew)
  · rw [h.txn_card]
    exact h.room_of_own hp hfew
  · exact hfew

theorem logWrite_ok (h : s.Inv A) {p : ι} {b : Nat} {blocks : List Nat}
    (hp : s.phase p = .active blocks) (hroom : s.log.lh.length < LOGSIZE - 1) :
    ∃ l, Fs.logWrite s.log b = .ok l := by
  have hmem : p ∈ A := (h.active p).mpr ⟨blocks, hp⟩
  have hpos : 0 < A.card := Finset.card_pos.mpr ⟨p, hmem⟩
  have hsize : s.log.size = 30 := h.place.2
  have hout := h.outstanding
  have hlt : s.log.lh.length < 29 := hroom
  unfold Fs.logWrite
  rw [if_neg (by rw [hsize, not_or]; exact ⟨by show ¬ 30 ≤ _; omega, by omega⟩),
    if_neg (by omega)]
  split
  · exact ⟨_, rfl⟩
  · exact ⟨_, rfl⟩

theorem logWrite_error (h : s.Inv A) {b : Nat} (hfull : LOGSIZE - 1 ≤ s.log.lh.length) :
    Fs.logWrite s.log b = .error (.panic "too big a transaction") := by
  have hsize : s.log.size = 30 := h.place.2
  have hle : 29 ≤ s.log.lh.length := hfull
  unfold Fs.logWrite
  exact if_pos (.inr (by omega))

theorem init (d : Disk) : (⟨mkfsLog, .boot d, fun _ => .idle, ∅, none⟩ : Ops ι).Inv ∅ where
  place := ⟨rfl, rfl⟩
  active p := by
    constructor
    · intro hp
      cases hp
    · rintro ⟨_, hp⟩
      cases hp
  outstanding := rfl
  alone hc := by cases hc
  flag p hp := by cases hp
  one p q hp := by cases hp
  nodup := List.nodup_nil
  txn := rfl
  own p _ hp := by cases hp
  reserved := Nat.zero_le _
  room := Nat.zero_lt_succ 29

section Steps

variable [DecidableEq ι] {p : ι}

theorem commits_of_active (p : ι) (blocks : List Nat) (q : ι)
    (hq : (update s.phase p (Phase.active blocks) q).commits = true) :
    (s.phase q).commits = true := by
  by_cases he : q = p
  · subst he
    rw [update_self] at hq
    cases hq
  · rwa [update_of_ne he] at hq

theorem beginOp (h : s.Inv A) (hp : s.phase p = .idle) (hadmits : admits s.log = true) :
    (s.exec (.beginOp p)).Inv (insert p A) := by
  have hnot : p ∉ A := by
    intro hmem
    obtain ⟨blocks, hactive⟩ := (h.active p).mp hmem
    rw [hp] at hactive
    cases hactive
  unfold admits at hadmits
  rw [Bool.and_eq_true, Bool.not_eq_true', decide_eq_true_eq] at hadmits
  obtain ⟨hquiet, hfits⟩ := hadmits
  have hothers : ∀ q ∈ A, (update s.phase p (.active []) q).left = (s.phase q).left := by
    intro q hq
    have hne : q ≠ p := by
      rintro rfl
      exact hnot hq
    rw [update_of_ne hne]
  have hcommits := commits_of_active (s := s) p []
  refine ⟨h.place, ?_, ?_, ?_, ?_, ?_, h.nodup, h.txn, ?_, ?_, h.room⟩
  · intro q
    show q ∈ insert p A ↔ ∃ blocks, update s.phase p (.active []) q = .active blocks
    by_cases he : q = p
    · subst he
      rw [update_self]
      exact ⟨fun _ => ⟨[], rfl⟩, fun _ => Finset.mem_insert_self ..⟩
    · rw [update_of_ne he, Finset.mem_insert, or_iff_right he]
      exact h.active q
  · show s.log.outstanding + 1 = ((insert p A).card : Int)
    rw [h.outstanding, Finset.card_insert_of_notMem hnot]
    rfl
  · intro hc
    rw [show s.log.committing = true from hc] at hquiet
    cases hquiet
  · intro q hq
    exact h.flag q (hcommits q hq)
  · intro q r hq hr
    exact h.one q r (hcommits q hq) (hcommits r hr)
  · intro q blocks hq
    by_cases he : q = p
    · subst he
      have hnil : ([] : List Nat) = blocks :=
        Phase.active.inj ((update_self ..).symm.trans hq)
      subst hnil
      exact ⟨Nat.zero_le _, fun b hb => by cases hb⟩
    · exact h.own q blocks ((update_of_ne he ..).symm.trans hq)
  · show s.log.lh.length + ∑ q ∈ insert p A, (update s.phase p (.active []) q).left ≤ _
    rw [Finset.sum_insert hnot, update_self, Finset.sum_congr rfl hothers]
    have hmost : ∑ q ∈ A, (s.phase q).left ≤ A.card * MAXOPBLOCKS := by
      refine Finset.sum_le_card_nsmul A _ _ fun q _ => ?_
      unfold Phase.left
      split <;> omega
    rw [h.outstanding] at hfits
    show s.log.lh.length + (MAXOPBLOCKS - 0 + _) ≤ _
    have hmax : MAXOPBLOCKS = 10 := rfl
    have hlog : LOGSIZE = 30 := rfl
    rw [hmax] at hfits hmost ⊢
    rw [hlog] at hfits ⊢
    omega

theorem logWrite (h : s.Inv A) {b : Nat} {data : Block} {blocks : List Nat} {l : Log}
    (hp : s.phase p = .active blocks) (hmay : b ∈ blocks ∨ blocks.length < MAXOPBLOCKS)
    (hok : Fs.logWrite s.log b = .ok l) : (s.exec (.logWrite p b data)).Inv A := by
  have hmem : p ∈ A := (h.active p).mpr ⟨blocks, hp⟩
  obtain ⟨hlen, hown⟩ := h.own p blocks hp
  obtain ⟨hlt, hfree, -, hlh⟩ := Fs.logWrite_ok hok
  obtain ⟨hl, hmems, hnodup, hbudget⟩ := logWrite_header hok h.nodup hown hmay
  have hexec : s.exec (.logWrite p b data) = { s with
      log := l, bufs := s.bufs.modify b data, txn := insert b s.txn,
      phase := update s.phase p (.active (noted blocks b)) } := by
    show (match Fs.logWrite s.log b with
      | .ok l => _
      | .error f => _) = _
    rw [hok]
    show Ops.move _ p (s.note p b) = _
    unfold note
    rw [hp]
    rfl
  have hcommits := commits_of_active (s := s) p (noted blocks b)
  rw [hexec]
  refine ⟨?_, ?_, ?_, ?_, ?_, ?_, hnodup, ?_, ?_, ?_, ?_⟩
  · rw [hl]
    exact h.place
  · intro q
    show q ∈ A ↔ ∃ x, update s.phase p (.active (noted blocks b)) q = .active x
    by_cases he : q = p
    · subst he
      rw [update_self]
      exact ⟨fun _ => ⟨_, rfl⟩, fun _ => hmem⟩
    · rw [update_of_ne he]
      exact h.active q
  · rw [hl]
    exact h.outstanding
  · intro hc
    rw [hl] at hc
    exact h.alone hc
  · intro q hq
    rw [hl]
    exact h.flag q (hcommits q hq)
  · intro q r hq hr
    exact h.one q r (hcommits q hq) (hcommits r hr)
  · show insert b s.txn = l.lh.toFinset
    ext x
    rw [Finset.mem_insert, h.txn, List.mem_toFinset, List.mem_toFinset, hmems]
  · intro q x hq
    by_cases he : q = p
    · subst he
      obtain rfl : noted blocks b = x :=
        Phase.active.inj ((update_self ..).symm.trans hq)
      refine ⟨length_noted_le hlen hmay, fun y hy => (hmems y).mpr ?_⟩
      exact (mem_noted hy).imp_right (hown y)
    · obtain ⟨hle, hin⟩ := h.own q x ((update_of_ne he ..).symm.trans hq)
      exact ⟨hle, fun y hy => (hmems y).mpr (.inr (hin y hy))⟩
  · show l.lh.length +
      ∑ q ∈ A, (update s.phase p (.active (noted blocks b)) q).left ≤ LOGSIZE
    have hothers : ∀ q ∈ A.erase p,
        (update s.phase p (.active (noted blocks b)) q).left = (s.phase q).left := by
      intro q hq
      rw [update_of_ne (Finset.ne_of_mem_erase hq)]
    have hres := h.reserved
    rw [← Finset.add_sum_erase A _ hmem, hp] at hres
    rw [← Finset.add_sum_erase A _ hmem, update_self, Finset.sum_congr rfl hothers]
    have hleft : (Phase.active (noted blocks b)).left = MAXOPBLOCKS - (noted blocks b).length :=
      rfl
    have hleft' : (Phase.active blocks).left = MAXOPBLOCKS - blocks.length := rfl
    omega
  · rcases hlh with ⟨-, rfl⟩ | ⟨-, rfl⟩
    · exact h.room
    · have hsize : s.log.size = 30 := h.place.2
      show (s.log.lh ++ [b]).length < 30
      rw [List.length_append, List.length_singleton]
      omega

theorem endOp (h : s.Inv A) {blocks : List Nat} (hp : s.phase p = .active blocks) :
    (s.exec (.endOp p)).fault = s.fault ∧ (s.exec (.endOp p)).Inv (A.erase p) := by
  have hmem : p ∈ A := (h.active p).mpr ⟨blocks, hp⟩
  have hquiet : s.log.committing = false := by
    by_contra hc
    rw [h.alone (Bool.eq_true_of_not_eq_false hc)] at hmem
    cases hmem
  have hcalm : ∀ q, (s.phase q).commits = false := by
    intro q
    by_contra hq
    rw [h.flag q (Bool.eq_true_of_not_eq_false hq)] at hquiet
    cases hquiet
  have hcard : ((A.erase p).card : Int) = s.log.outstanding - 1 := by
    rw [h.outstanding, Finset.card_erase_of_mem hmem]
    have hpos : 0 < A.card := Finset.card_pos.mpr ⟨p, hmem⟩
    omega
  obtain ⟨last, ph, hlast, hexec, hph⟩ : ∃ (last : Bool) (ph : Phase),
      (last = true ↔ A.erase p = ∅) ∧
      s.exec (.endOp p) = { s with
        log := { s.log with outstanding := s.log.outstanding - 1, committing := last }
        phase := update s.phase p ph } ∧
      (∀ x, ph ≠ .active x) ∧ (ph.commits = true → last = true) := by
    by_cases hz : s.log.outstanding - 1 = 0
    · refine ⟨true, .committing, ?_, ?_, fun x hx => (by cases hx), fun _ => rfl⟩
      · rw [← Finset.card_eq_zero, iff_true_left rfl]
        omega
      · simp only [exec, Fs.endOp, hquiet, Bool.false_eq_true, if_false, hz, if_true]
        rfl
    · refine ⟨false, .idle, ?_, ?_, fun x hx => (by cases hx), fun hc => (by cases hc)⟩
      · rw [← Finset.card_eq_zero]
        simp only [Bool.false_eq_true, false_iff]
        omega
      · simp only [exec, Fs.endOp, hquiet, Bool.false_eq_true, if_false, hz]
        rfl
  have hcommits : ∀ q, (update s.phase p ph q).commits = true → q = p ∧ last = true := by
    intro q hq
    by_cases he : q = p
    · subst he
      rw [update_self] at hq
      exact ⟨rfl, hph.2 hq⟩
    · rw [update_of_ne he, hcalm q] at hq
      cases hq
  rw [hexec]
  refine ⟨rfl, h.place, ?_, hcard.symm, ?_, ?_, ?_, h.nodup, h.txn, ?_, ?_, h.room⟩
  · intro q
    show q ∈ A.erase p ↔ ∃ x, update s.phase p ph q = .active x
    by_cases he : q = p
    · subst he
      rw [update_self]
      exact ⟨fun hq => absurd rfl (Finset.ne_of_mem_erase hq), fun ⟨x, hx⟩ => absurd hx (hph.1 x)⟩
    · rw [update_of_ne he, Finset.mem_erase, and_iff_right he]
      exact h.active q
  · exact fun hc => hlast.mp hc
  · exact fun q hq => (hcommits q hq).2
  · exact fun q r hq hr => (hcommits q hq).1.trans (hcommits r hr).1.symm
  · intro q x hq
    by_cases he : q = p
    · subst he
      exact absurd ((update_self ..).symm.trans hq) (hph.1 x)
    · exact h.own q x ((update_of_ne he ..).symm.trans hq)
  · show s.log.lh.length + ∑ q ∈ A.erase p, (update s.phase p ph q).left ≤ LOGSIZE
    have hothers : ∀ q ∈ A.erase p, (update s.phase p ph q).left = (s.phase q).left := by
      intro q hq
      rw [update_of_ne (Finset.ne_of_mem_erase hq)]
    have hres := h.reserved
    rw [← Finset.add_sum_erase A _ hmem] at hres
    rw [Finset.sum_congr rfl hothers]
    omega

theorem commit_log (l : Log) (b : Buffers) : (Fs.commit l b).1 = { l with lh := [] } := by
  unfold Fs.commit
  split
  · rfl
  · rename_i hne
    have hnil : l.lh = [] := List.length_eq_zero_iff.mp (by omega)
    rw [← hnil]

/-- A process that is active neither before nor after does not change who is. -/
theorem active_update {φ : Phase} (hp : ∀ x, s.phase p ≠ .active x) (hφ : ∀ x, φ ≠ .active x) (q : ι)
    (x : List Nat) : update s.phase p φ q = .active x ↔ s.phase q = .active x := by
  rw [update_apply]
  split
  · next he =>
    rw [he]
    exact iff_of_false (hφ x) (hp x)
  · exact Iff.rfl

/-- The two steps of the process that commits. The log is empty after the first, and open again
after the second. -/
theorem commit (h : s.Inv A) (hp : s.phase p = .committing) :
    (s.exec (.commit p)).Inv A := by
  have hexec : s.exec (.commit p) = { s with
      log := { s.log with lh := [] }, bufs := (Fs.commit s.log s.bufs).2, txn := ∅,
      phase := update s.phase p .committed } := by
    simp only [exec, commit_log]
    rfl
  have hcommit : (s.phase p).commits = true := by rw [hp]; rfl
  have hcommits : ∀ q, (update s.phase p .committed q).commits = (s.phase q).commits := by
    intro q
    by_cases he : q = p
    · subst he
      rw [update_self, hcommit]
      rfl
    · rw [update_of_ne he]
  have hactive : ∀ q x, update s.phase p .committed q = .active x ↔ s.phase q = .active x :=
    active_update (by rw [hp]; simp) (by simp)
  have hA : A = ∅ := h.alone (h.flag p hcommit)
  rw [hexec]
  refine ⟨h.place, ?_, h.outstanding, h.alone, ?_, ?_, List.nodup_nil, rfl, ?_, ?_,
    Nat.zero_lt_succ 29⟩
  · intro q
    show q ∈ A ↔ ∃ x, update s.phase p .committed q = .active x
    simp only [hactive]
    exact h.active q
  · exact fun q hq => h.flag q ((hcommits q).symm.trans hq)
  · exact fun q r hq hr => h.one q r ((hcommits q).symm.trans hq) ((hcommits r).symm.trans hr)
  · intro q x hq
    have hmem : q ∈ A := (h.active q).mpr ⟨x, (hactive q x).mp hq⟩
    rw [hA] at hmem
    cases hmem
  · rw [hA]
    exact Nat.zero_le _

theorem endCommit (h : s.Inv A) (hp : s.phase p = .committed) :
    (s.exec (.endCommit p)).Inv A := by
  have hcommit : (s.phase p).commits = true := by rw [hp]; rfl
  have hothers : ∀ q, (update s.phase p .idle q).commits = false := by
    intro q
    by_cases he : q = p
    · subst he
      rw [update_self]
      rfl
    · rw [update_of_ne he]
      by_contra hq
      exact he (h.one q p (Bool.eq_true_of_not_eq_false hq) hcommit)
  have hactive : ∀ q x, update s.phase p .idle q = .active x ↔ s.phase q = .active x :=
    active_update (by rw [hp]; simp) (by simp)
  have hA : A = ∅ := h.alone (h.flag p hcommit)
  refine ⟨h.place, ?_, h.outstanding, fun _ => hA, ?_, ?_, h.nodup, h.txn, ?_, ?_, h.room⟩
  · intro q
    show q ∈ A ↔ ∃ x, update s.phase p .idle q = .active x
    simp only [hactive]
    exact h.active q
  · intro q hq
    have hno := hothers q
    rw [show (update s.phase p .idle q).commits = true from hq] at hno
    cases hno
  · intro q r hq
    have hno := hothers q
    rw [show (update s.phase p .idle q).commits = true from hq] at hno
    cases hno
  · exact fun q x hq => h.own q x ((hactive q x).mp hq)
  · rw [hA]
    have hroom := h.room
    show s.log.lh.length + 0 ≤ LOGSIZE
    omega

end Steps

end Ops.Inv

section Runs

variable [DecidableEq ι] {t : Ops ι} {e : OpEvent ι} {d : Disk}

/-- One step: the invariant stays, and the step panics exactly when it is a `log_write` that is
short of room. -/
theorem operations_step {A : Finset ι} (h : s.Inv A) (hstep : (operations ι d).Step s e t) :
    ∃ A', t.Inv A' ∧ (t.fault = none ↔ s.Roomy e) := by
  obtain ⟨henabled, hexec⟩ := hstep
  obtain rfl : s.exec e = t := Except.ok.inj hexec
  obtain ⟨hcalm, henabled⟩ := Bool.and_eq_true_iff.mp
    (show (s.fault.isNone && _) = true from henabled)
  have hnone : s.fault = none := Option.isNone_iff_eq_none.mp hcalm
  cases e with
  | beginOp p =>
    obtain ⟨hp, hadmits⟩ := Bool.and_eq_true_iff.mp henabled
    exact ⟨_, h.beginOp (of_decide_eq_true hp) hadmits, fun _ => trivial, fun _ => hnone⟩
  | logWrite p b data =>
    obtain ⟨blocks, hp, hmay⟩ := Ops.mayWrite_iff.mp henabled
    rw [h.roomy_iff, h.txn_card]
    by_cases hroom : s.log.lh.length < LOGSIZE - 1
    · obtain ⟨l, hl⟩ := h.logWrite_ok hp (b := b) hroom
      have hfault : (s.exec (.logWrite p b data)).fault = none := by
        simp only [Ops.exec, hl]
        exact hnone
      exact ⟨A, h.logWrite hp hmay hl, fun _ => hroom, fun _ => hfault⟩
    · have hpanic := h.logWrite_error (b := b) (Nat.not_lt.mp hroom)
      have hexec : s.exec (.logWrite p b data) =
          { s with fault := some (.panic "too big a transaction") } := by
        simp only [Ops.exec, hpanic]
      rw [hexec]
      exact ⟨A, { h with }, fun hf => (by cases hf), fun hr => absurd hr hroom⟩
  | endOp p =>
    obtain ⟨blocks, hp⟩ := Phase.isActive_iff.mp henabled
    obtain ⟨hfault, hinv⟩ := h.endOp hp
    exact ⟨_, hinv, fun _ => trivial, fun _ => hfault.trans hnone⟩
  | commit p =>
    exact ⟨A, h.commit (of_decide_eq_true henabled), fun _ => trivial, fun _ => hnone⟩
  | endCommit p =>
    exact ⟨A, h.endCommit (of_decide_eq_true henabled), fun _ => trivial, fun _ => hnone⟩

theorem operations_inv (h : (operations ι d).Reachable s) : ∃ A, s.Inv A := by
  have h0 : ∃ A, (operations ι d).init.Inv A := ⟨∅, .init d⟩
  refine h.invariant (I := fun s => ∃ A, s.Inv A) h0 fun s e t hs hstep => ?_
  obtain ⟨A, hA⟩ := hs
  obtain ⟨A', hA', -⟩ := operations_step hA hstep
  exact ⟨A', hA'⟩

/-- **The reservation falls one block short.** A run of operations on a `mkfs` image, each naming at
most `MAXOPBLOCKS` different blocks, never panics, never commits while an operation is outstanding
and stays in the log area, exactly if each of its calls of `log_write` is made by an operation that
has logged fewer than `MAXOPBLOCKS - 1` blocks or while fewer than `LOGSIZE - 1` are in the log. -/
theorem log_reservation_iff {steps : List (Ops ι × OpEvent ι)}
    (hrun : (operations ι d).Run steps s) :
    (s.Safe ∧ ∀ x ∈ steps, x.1.Safe) ↔ ∀ x ∈ steps, x.1.Roomy x.2 := by
  refine hrun.always_iff ((Ops.Inv.init d).safe rfl) fun s e t hs _ hstep => ?_
  obtain ⟨A, hA⟩ := operations_inv hs
  obtain ⟨A', hA', hfault⟩ := operations_step hA hstep
  rw [← hfault]
  exact ⟨Ops.Safe.calm, hA'.safe⟩

end Runs

/-- Three operations of the given number of different blocks each, all at once. -/
def threeAtOnce (blocks : Nat) : List (OpEvent (Fin 3)) :=
  (List.finRange 3).map .beginOp ++
    (List.finRange 3).flatMap fun p =>
      (List.range blocks).map fun i => .logWrite p (100 + blocks * p + i) fun _ => 0

/-- Three operations of nine blocks: none of their calls is short of room. -/
theorem log_reservation_three :
    ∃ steps s, (operations (Fin 3) fun _ _ => 0).Run steps s ∧ s.log.lh.length = 27 ∧ s.Safe := by
  obtain ⟨steps, s, hrun, htest⟩ := Machine.exists_run (M := operations (Fin 3) fun _ _ => 0)
    (threeAtOnce 9)
    (fun steps s => decide (s.log.lh.length = 27) &&
      steps.all fun x => decide (x.1.txn.card < LOGSIZE - 1)) (by decide +kernel)
  obtain ⟨hlen, hroomy⟩ := Bool.and_eq_true_iff.mp htest
  refine ⟨steps, s, hrun, of_decide_eq_true hlen, ((log_reservation_iff hrun).mpr ?_).1⟩
  intro x hx
  have hcard := of_decide_eq_true (List.all_eq_true.mp hroomy x hx)
  unfold Ops.Roomy
  split
  · exact .inr hcard
  · trivial

/-- Three operations of `MAXOPBLOCKS` blocks: the last call panics. -/
theorem log_reservation_short :
    ¬ ∀ s, (operations (Fin 3) fun _ _ => 0).Reachable s → s.Safe := by
  intro hall
  obtain ⟨steps, s, hrun, htest⟩ := Machine.exists_run (M := operations (Fin 3) fun _ _ => 0)
    (threeAtOnce MAXOPBLOCKS)
    (fun _ s => decide (s.fault = some (.panic "too big a transaction"))) (by decide +kernel)
  have hcalm := (hall s ⟨steps, hrun⟩).calm
  rw [of_decide_eq_true htest] at hcalm
  cases hcalm

end Xv6.Fs
