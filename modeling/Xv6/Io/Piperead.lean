import Xv6.Io.Pipe
import Xv6.Vm.Copyin
import Xv6.Vm.UserStores

/-!
# Reading a pipe into user memory

`piperead` of `kernel/pipe.c` with the copies it makes. Its second loop takes a byte out of the pipe,
advances `nread`, and only then copies the byte to the reader; a byte whose copy fails has left the
pipe and has reached nobody.
-/

namespace Xv6.Io

open Base Vm

/-- How a stretch of `piperead` under `pi->lock` ends. -/
inductive ReadEnd
  | asleep
  | returned (r : Int)
deriving DecidableEq

/-- The number of bytes the reader is told of. -/
def ReadEnd.count : ReadEnd → Nat
  | .asleep => 0
  | .returned r => r.toNat

namespace Pipe

/-- The second loop of `piperead`, for `left` more bytes. -/
def readOut (pagetable addr : Nat) : Nat → Nat → Pipe → M (Nat × Pipe)
  | 0, i, p => pure (i, p)
  | left + 1, i, p =>
    if p.nread = p.nwrite then pure (i, p)
    else do
      let ch := p.data (p.nread % PIPESIZE)
      let r ← copyout pagetable ((addr + i) % 2 ^ 64) [ch]
      if r = -1 then pure (i, p.advance) else readOut pagetable addr left (i + 1) p.advance

/-- `piperead`, from where it acquires the lock or is woken to where it sleeps or returns. -/
def piperead (p : Pipe) (pagetable : Nat) (addr : UInt64) (n : Int) (killed : Bool) :
    M (ReadEnd × Pipe) :=
  if p.nread = p.nwrite ∧ p.writeopen = true then
    pure (if killed then .returned (-1) else .asleep, p)
  else do
    let (i, p') ← readOut pagetable addr.toNat n.toNat 0 p
    pure (.returned i, p')

/-- Both counters are 32-bit numbers. -/
structure Counted (p : Pipe) : Prop where
  nread : p.nread < 2 ^ 32
  nwrite : p.nwrite < 2 ^ 32

theorem Counted.of_carries {p : Pipe} {accepted consumed : List UInt8}
    (h : Carries p accepted consumed) : p.Counted := by
  constructor
  · rw [h.nread]
    exact Nat.mod_lt _ (by norm_num)
  · rw [h.nwrite]
    exact Nat.mod_lt _ (by norm_num)

variable {p : Pipe} {s : Ram} {pt : Nat}

theorem Counted.advance (h : p.Counted) : p.advance.Counted :=
  ⟨Nat.mod_lt _ (by norm_num), h.nwrite⟩

theorem Counted.transit_empty (h : p.Counted) (he : p.nread = p.nwrite) : p.transit = [] := by
  have hlt := h.nwrite
  have hnone : (p.nwrite + (2 ^ 32 - p.nread)) % 2 ^ 32 = 0 := by omega
  unfold transit
  rw [hnone]
  rfl

theorem Counted.transit_next (h : p.Counted) (hne : p.nread ≠ p.nwrite) :
    p.transit = p.data (p.nread % PIPESIZE) :: p.advance.transit := by
  have hr := h.nread
  have hw := h.nwrite
  have hcount : (p.nwrite + (2 ^ 32 - p.nread)) % 2 ^ 32 =
      (p.nwrite + (2 ^ 32 - (p.nread + 1) % 2 ^ 32)) % 2 ^ 32 + 1 := by omega
  unfold transit
  rw [hcount, window_cons]
  show _ = _ :: window PIPESIZE p.data ((p.nread + 1) % 2 ^ 32) _
  rw [window_mod (by decide)]
  rfl

theorem nread_advance_iterate (h : p.Counted) (k : Nat) :
    (Pipe.advance^[k] p).nread = (p.nread + k) % 2 ^ 32 := by
  induction k generalizing p with
  | zero => exact (Nat.mod_eq_of_lt h.nread).symm
  | succ k ih =>
    rw [Function.iterate_succ_apply, ih h.advance]
    show ((p.nread + 1) % 2 ^ 32 + k) % 2 ^ 32 = _
    rw [Nat.mod_add_mod, Nat.add_assoc, Nat.add_comm 1]

/-- The pipe with `k` bytes fewer. -/
theorem transit_advance_iterate (h : p.Counted) {k : Nat} (hk : k ≤ p.transit.length) :
    (Pipe.advance^[k] p).transit = p.transit.drop k := by
  induction k generalizing p with
  | zero => rfl
  | succ k ih =>
    by_cases he : p.nread = p.nwrite
    · rw [h.transit_empty he] at hk
      cases hk
    · have hnext := h.transit_next he
      rw [Function.iterate_succ_apply, hnext, List.drop_succ_cons]
      apply ih h.advance
      rw [hnext, List.length_cons] at hk
      exact Nat.le_of_succ_le_succ hk

/-- The loop copies the bytes up to the first one without a place, and takes that one too. -/
theorem readOut_spec (hsep : Separate s pt) (hp : p.Counted) {addr i : Nat} (h : addr + i < 2 ^ 64)
    (left : Nat) :
    ∃ k, CopiedIn s pt (addr + i) (min left p.transit.length) k ∧
      readOut pt addr left i p s =
        .ok ((i + k, Pipe.advance^[if k < min left p.transit.length then k + 1 else k] p),
          s.deposit (s.taken pt (bytesAt (addr + i) (p.transit.take k)))) := by
  induction left generalizing p s i with
  | zero =>
    rw [Nat.zero_min]
    exact ⟨0, .nothing s pt _, rfl⟩
  | succ left ih =>
    by_cases he : p.nread = p.nwrite
    · rw [hp.transit_empty he, List.length_nil, Nat.min_zero, readOut, if_pos he]
      exact ⟨0, .nothing s pt _, rfl⟩
    have hnext := hp.transit_next he
    obtain ⟨ch, hch⟩ : ∃ ch, ch = p.data (p.nread % PIPESIZE) := ⟨_, rfl⟩
    rw [← hch] at hnext
    have hlen : min (left + 1) p.transit.length = min left p.advance.transit.length + 1 := by
      rw [hnext, List.length_cons]
      omega
    have hsame := Ram.deposit_same hsep (bytesAt (addr + i) [ch])
    rw [readOut, if_neg he, ← hch, Nat.mod_eq_of_lt h, hlen]
    show ∃ k, _ ∧ (copyout pt (addr + i) [ch] >>= fun r => if r = -1 then _ else _ :
      M (Nat × Pipe)) s = _
    rw [run_bind_ok (copyout_spec hsep ..)]
    cases hfits : s.fits pt (bytesAt (addr + i) [ch]) with
    | false =>
      have hnone : s.place pt (addr + i) = none := by
        unfold Ram.fits at hfits
        rw [bytesAt, bytesAt, List.all_cons, List.all_nil, Bool.and_true] at hfits
        exact Option.isSome_eq_false_iff.mp hfits |> Option.isNone_iff_eq_none.mp
      have huser : s.user pt (addr + i) = none := Option.map_eq_none_iff.mp hnone
      refine ⟨0, ⟨Nat.zero_le _, fun j hj => absurd hj (Nat.not_lt_zero j), fun _ => huser⟩, ?_⟩
      rw [if_pos (Nat.succ_pos _), bytesAt, Ram.taken, hnone]
      rfl
    | true =>
      have haddr := next_addr hfits h
      have hlt : addr + (i + 1) < 2 ^ 64 := by
        rw [← Nat.add_assoc, ← show (addr + i + 1) % 2 ^ 64 = addr + i + 1 from haddr]
        exact Nat.mod_lt _ (by norm_num)
      obtain ⟨k, hcopied, hrun⟩ := ih (hsame.separate hsep) hp.advance hlt
      have hone : ∀ j, j < 1 → (s.user pt (addr + i + j)).isSome = true :=
        Ram.fits_bytesAt.mp hfits
      refine ⟨k + 1, ?_, ?_⟩
      · rw [Nat.add_comm k]
        refine (CopiedIn.page (Nat.le_add_left 1 _) hone ?_)
        rw [Nat.add_sub_cancel, Nat.add_assoc]
        exact .congr hsame hcopied
      · have hmore : (if k + 1 < min left p.advance.transit.length + 1 then k + 1 + 1 else k + 1) =
            (if k < min left p.advance.transit.length then k + 1 else k) + 1 := by
          simp only [Nat.add_lt_add_iff_right]
          split <;> rfl
        have hbytes : bytesAt (addr + i) (p.transit.take (k + 1)) =
            bytesAt (addr + i) [ch] ++ bytesAt (addr + (i + 1)) (p.advance.transit.take k) := by
          rw [hnext, List.take_succ_cons]
          rfl
        rw [hsame.taken, Nat.add_assoc, Nat.add_comm 1 k] at hrun
        rw [hmore, Function.iterate_succ_apply, hbytes, Ram.taken_append hfits, Ram.deposit_append]
        exact hrun

theorem Counted.readLoop_eq (h : p.Counted) (n : Nat) :
    p.readLoop n = (p.transit.take n, Pipe.advance^[min n p.transit.length] p) := by
  induction n generalizing p with
  | zero =>
    rw [Nat.zero_min]
    rfl
  | succ n ih =>
    unfold readLoop
    by_cases he : p.nread = p.nwrite
    · rw [if_pos he, h.transit_empty he]
      rfl
    · rw [if_neg he, ih h.advance, h.transit_next he, List.length_cons,
        Nat.add_min_add_right, Function.iterate_succ_apply]
      rfl

/-- When the destination is mapped, the loop hands out what the stream of the calls says. -/
theorem readOut_eq_readLoop (hsep : Separate s pt) (hp : p.Counted) {addr : Nat}
    (haddr : addr < 2 ^ 64) {n : Nat} (hfits : s.fits pt (bytesAt addr (p.readLoop n).1) = true) :
    readOut pt addr n 0 p s =
      .ok (((p.readLoop n).1.length, (p.readLoop n).2),
        s.deposit (s.taken pt (bytesAt addr (p.readLoop n).1))) := by
  obtain ⟨k, hcopied, hrun⟩ := readOut_spec (i := 0) hsep hp haddr n
  rw [Nat.add_zero] at hcopied
  rw [Nat.add_zero, Nat.zero_add] at hrun
  rw [hp.readLoop_eq] at hfits ⊢
  have hlength : (p.transit.take n).length = min n p.transit.length := List.length_take
  have hk : k = min n p.transit.length := by
    rw [← hcopied.all_iff, ← hlength]
    exact Ram.fits_bytesAt.mp hfits
  have htake : p.transit.take k = p.transit.take n := by
    rw [hk, ← List.take_take, List.take_length]
  rw [hrun, if_neg (by omega), htake, hlength, hk]
  rfl

/-- A byte that was written to a pipe is handed out to a page of data. -/
theorem readOut_eq_readLoop_data : ∃ (u : PipeUse (Fin 1)) (s s' : Ram),
    (pipeline (Fin 1) fun _ => 0).Reachable u ∧ (u.pipe.readLoop 1).1 = [42] ∧ Separate s KERNBASE ∧
      readOut KERNBASE 0 1 0 u.pipe s = .ok ((1, (u.pipe.readLoop 1).2), s') := by
  obtain ⟨steps, u, hrun, htest⟩ := Machine.exists_run (M := pipeline (Fin 1) fun _ => 0)
    [.startWrite 0 [42], .write 0 fun _ => false] (fun _ u => (u.pipe.readLoop 1).1 == [42])
    (by decide +kernel)
  have hread : (u.pipe.readLoop 1).1 = [42] := beq_iff_eq.mp htest
  obtain ⟨s, hsep, pa, huser, -⟩ := exists_data
  have hpipe : u.pipe.Counted := .of_carries (PipeUse.inv_of_reachable ⟨steps, hrun⟩).carries
  have hout := readOut_eq_readLoop hsep hpipe (show 0 < 2 ^ 64 by decide) (n := 1)
    (Ram.fits_bytesAt.mpr fun i hi => by
      rw [hread] at hi
      rw [huser _ (by have : i < 1 := hi; omega)]
      rfl)
  rw [hread] at hout
  exact ⟨u, s, _, ⟨steps, hrun⟩, hread, hsep, hout⟩

/-- Reading a pipe into user memory. What `piperead` returns is the number of bytes it has stored at
the destination, the first ones in the pipe. Exactly these have been removed, and the next reader goes
on behind them, exactly when all the bytes it was to store have a page mapped with `PTE_V` and
`PTE_U`. -/
theorem piperead_removes_iff (hsep : Separate s pt) (hp : p.Counted) (addr : UInt64) (n : Int)
    (killed : Bool) :
    ∃ r p' s', p.piperead pt addr n killed s = .ok ((r, p'), s') ∧
      s.fits pt (bytesAt addr.toNat (p.transit.take r.count)) = true ∧
      s' = s.deposit (s.taken pt (bytesAt addr.toNat (p.transit.take r.count))) ∧
      ((p'.nread = (p.nread + r.count) % 2 ^ 32 ∧ p'.transit = p.transit.drop r.count) ↔
        ∀ i, i < min n.toNat p.transit.length → (s.user pt (addr.toNat + i)).isSome = true) := by
  unfold piperead
  by_cases hsleep : p.nread = p.nwrite ∧ p.writeopen = true
  · have hempty := hp.transit_empty hsleep.1
    have hcount : (if killed then ReadEnd.returned (-1) else .asleep).count = 0 := by
      cases killed <;> rfl
    rw [if_pos hsleep]
    refine ⟨_, p, s, rfl, ?_, ?_, ?_⟩
    · rw [hcount]
      rfl
    · rw [hcount]
      rfl
    · rw [hcount, hempty]
      refine iff_of_true ⟨(Nat.mod_eq_of_lt hp.nread).symm, rfl⟩ fun i hi => ?_
      rw [List.length_nil, Nat.min_zero] at hi
      exact absurd hi (Nat.not_lt_zero i)
  · rw [if_neg hsleep]
    obtain ⟨m, hm⟩ : ∃ m, m = min n.toNat p.transit.length := ⟨_, rfl⟩
    obtain ⟨k, hcopied, hrun⟩ := @readOut_spec p s pt hsep hp addr.toNat 0 addr.toNat_lt n.toNat
    rw [Nat.add_zero, ← hm] at hcopied
    rw [Nat.add_zero, Nat.zero_add, ← hm] at hrun
    have hle := hcopied.le
    refine ⟨.returned k, _, _, run_bind_ok hrun, ?_, rfl, ?_⟩
    · refine Ram.fits_bytesAt.mpr fun i hi => hcopied.mapped i ?_
      exact lt_of_lt_of_le hi (List.length_take_le ..)
    show (_ ∧ _ = p.transit.drop k) ↔ _
    rw [← hm, hcopied.all_iff]
    by_cases hfailed : k < m
    · -- the byte whose copy fails is removed as well
      rw [if_pos hfailed]
      refine iff_of_false ?_ (Nat.ne_of_lt hfailed)
      rintro ⟨-, hdrop⟩
      have hlength := congrArg List.length hdrop
      rw [transit_advance_iterate hp (by omega), List.length_drop, List.length_drop] at hlength
      omega
    · rw [if_neg hfailed]
      refine iff_of_true ⟨nread_advance_iterate hp k, transit_advance_iterate hp (by omega)⟩ ?_
      omega

/-- A byte is read from a pipe into a page of data. -/
theorem piperead_removes_data :
    ∃ s, Separate s KERNBASE ∧ ∃ r p' s',
      ((Pipe.pipealloc fun _ => 0).store 42).piperead KERNBASE 0 1 false s = .ok ((r, p'), s') ∧
      p'.nread = (0 + r.count) % 2 ^ 32 := by
  obtain ⟨s, hsep, pa, huser, -⟩ := exists_data
  refine ⟨s, hsep, ?_⟩
  obtain ⟨r, p', s', hrun, -, -, hiff⟩ := piperead_removes_iff hsep
    (p := (Pipe.pipealloc fun _ => 0).store 42) ⟨by decide, by decide⟩ 0 1 false
  refine ⟨r, p', s', hrun, (hiff.mpr fun i hi => ?_).1⟩
  have hzero : i = 0 := Nat.lt_one_iff.mp (lt_of_lt_of_le hi (Nat.min_le_left ..))
  subst hzero
  rw [huser _ (by decide)]
  rfl

/-- A byte is read from a pipe to an address no page is mapped at. The reader is told that it got
nothing, and the pipe is empty. -/
theorem piperead_loses_byte :
    ((Pipe.pipealloc fun _ => 0).store 42).transit = [42] ∧
      ∃ p', ((Pipe.pipealloc fun _ => 0).store 42).piperead KERNBASE 0xffffffffffffffff 1 false
          clearedRam = .ok ((.returned 0, p'), clearedRam) ∧ p'.transit = [] := by
  have hhigh : MAXVA ≤ pgrounddown 0xffffffffffffffff := by
    unfold pgrounddown
    decide
  have hnone : walkaddr KERNBASE (pgrounddown 0xffffffffffffffff) clearedRam =
      .ok (0, clearedRam) := by
    unfold walkaddr
    rw [if_pos hhigh]
    rfl
  have hcopy : copyout KERNBASE 0xffffffffffffffff [42] clearedRam = .ok (-1, clearedRam) := by
    show (walkaddr KERNBASE (pgrounddown 0xffffffffffffffff) >>= fun pa0 =>
      if pa0 = 0 then _ else _ : M Int) clearedRam = _
    rw [run_bind_ok hnone]
    rfl
  refine ⟨by decide, ((pipealloc fun _ => 0).store 42).advance, ?_, by decide⟩
  show ((copyout KERNBASE 0xffffffffffffffff [42] >>= fun r => if r = -1 then _ else _ :
    M (Nat × Pipe)) >>= fun x => pure (ReadEnd.returned x.1, x.2) : M (ReadEnd × Pipe)) clearedRam = _
  rw [run_bind_ok (run_bind_ok hcopy)]
  rfl

end Pipe

end Xv6.Io
