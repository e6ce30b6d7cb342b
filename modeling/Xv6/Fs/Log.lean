import Xv6.Base.Bytes
import Xv6.Kernel.Proc

/-!
# The log of the file system

`kernel/log.c` over `kernel/bio.c`. A disk is a map from block numbers to blocks. `bread` answers
what the buffer cache holds for a block, which for a block that is not cached is what the disk
holds; `Buffers.cache` is that answer for every block number. `bwrite` sends the cached block to
the disk. The model keeps the block writes in the order they were issued (`Buffers.writes`), since
what a crash leaves on the disk is a prefix of them.

The in-memory header `log.lh` is the list of its first `n` block numbers. `n` is the list's length.
The on-disk header is a block: word 0 holds `n` and word `i + 1` holds `block[i]`. `log.lock` and
the sleeping in `begin_op` are in the model of the reservation protocol, which runs these
functions between acquiring and releasing the lock.
-/

namespace Xv6.Fs

open Base

/-- `BSIZE` of `fs.h`. -/
abbrev BSIZE : Nat := 1024

/-- `MAXOPBLOCKS` of `param.h`. -/
abbrev MAXOPBLOCKS : Nat := 10

/-- `LOGSIZE` of `param.h`. -/
abbrev LOGSIZE : Nat := MAXOPBLOCKS * 3

/-- The contents of one disk block. -/
abbrev Block := Bytes BSIZE

/-- What the disk, or the buffer cache, holds for each block number. -/
abbrev Disk := Nat → Block

/-- A block write on its way to the disk: the block number and the contents. -/
abbrev Write := Nat × Block

/-- The disk after these writes have reached it, in order. -/
def Disk.apply (d : Disk) (ws : List Write) : Disk :=
  ws.foldl (fun d w => Function.update d w.1 w.2) d

/-- The buffer cache and the block writes issued so far. -/
structure Buffers where
  cache : Disk
  writes : List Write

namespace Buffers

/-- The machine has just started: nothing is cached, so every block reads as the disk has it. -/
def boot (d : Disk) : Buffers := ⟨d, []⟩

/-- Change the contents of a cached block. -/
def modify (s : Buffers) (b : Nat) (data : Block) : Buffers :=
  { s with cache := Function.update s.cache b data }

/-- `bwrite`. -/
def bwrite (s : Buffers) (b : Nat) : Buffers := { s with writes := s.writes ++ [(b, s.cache b)] }

end Buffers

/-- `struct log`, with `lh` as the list of its block numbers. `start` and `size` come from the
superblock. -/
structure Log where
  start : Nat
  size : Int
  outstanding : Int
  committing : Bool
  lh : List Nat

/-- The log of an image `mkfs` makes, as `initlog` leaves it: `mkfs.c` puts `nlog = LOGSIZE`
blocks from block 2 on. -/
def mkfsLog : Log := ⟨2, LOGSIZE, 0, false, []⟩

/-- The blocks the disk sets aside for the log: the header block and the log blocks behind it. -/
def Log.area (l : Log) (b : Nat) : Prop :=
  b = l.start ∨ l.start < b ∧ (b : Int) < l.start + l.size

instance (l : Log) (b : Nat) : Decidable (l.area b) := inferInstanceAs (Decidable (_ ∨ _))

/-! ## The header block -/

/-- The loop of `write_head` that stores the block numbers, from index `i` on. -/
def storeBlocks (hb : Block) : Nat → List Nat → Block
  | _, [] => hb
  | i, b :: lh => storeBlocks (hb.setWord (i + 1) b) (i + 1) lh

/-- The header buffer `hb` after `write_head` has filled it in. -/
def headBlock (hb : Block) (lh : List Nat) : Block := storeBlocks (hb.setWord 0 lh.length) 0 lh

/-- The header's `n`. -/
def headN (hb : Block) : Int := int32 (hb.word 0)

/-- `read_head`. A count above `LOGSIZE` runs the copying loop past the end of
`log.lh.block`. -/
def readHead (hb : Block) : Except Fault (List Nat) :=
  if (LOGSIZE : Int) < headN hb then .error .bounds
  else .ok ((List.range (headN hb).toNat).map fun i => hb.word (i + 1))

/-- `write_head`. -/
def writeHead (start : Nat) (lh : List Nat) (s : Buffers) : Buffers :=
  (s.modify start (headBlock (s.cache start) lh)).bwrite start

/-! ## Commit and recovery -/

/-- The loop of `write_log`, from index `tail` on. -/
def writeLog (start : Nat) : Nat → List Nat → Buffers → Buffers
  | _, [], s => s
  | tail, b :: lh, s =>
    let slot := start + tail + 1
    writeLog start (tail + 1) lh ((s.modify slot (s.cache b)).bwrite slot)

/-- The loop of `install_trans`, from index `tail` on. Its argument `recovering` only decides
whether the buffer is unpinned. -/
def installTrans (start : Nat) : Nat → List Nat → Buffers → Buffers
  | _, [], s => s
  | tail, b :: lh, s =>
    installTrans start (tail + 1) lh ((s.modify b (s.cache (start + tail + 1))).bwrite b)

/-- `commit`. -/
def commit (l : Log) (s : Buffers) : Log × Buffers :=
  if 0 < l.lh.length then
    let s := writeLog l.start 0 l.lh s
    let s := writeHead l.start l.lh s
    let s := installTrans l.start 0 l.lh s
    ({ l with lh := [] }, writeHead l.start [] s)
  else (l, s)

/-- `recover_from_log`. -/
def recoverFromLog (start : Nat) (s : Buffers) : Except Fault Buffers := do
  let lh ← readHead (s.cache start)
  return writeHead start [] (installTrans start 0 lh s)

/-! ## Operations -/

/-- `log_write`. -/
def logWrite (l : Log) (b : Nat) : Except Fault Log :=
  if LOGSIZE ≤ l.lh.length ∨ l.size - 1 ≤ l.lh.length then
    .error (.panic "too big a transaction")
  else if l.outstanding < 1 then .error (.panic "log_write outside of trans")
  -- absorption: a block that is in the header already is not added again
  else if b ∈ l.lh then .ok l
  else .ok { l with lh := l.lh ++ [b] }

/-- Changes to cached blocks, each recorded by `log_write`. A buffer's block number is a C
`uint`. -/
def record (l : Log) (s : Buffers) : List (Fin (2 ^ 32) × Block) → Except Fault (Log × Buffers)
  | [] => .ok (l, s)
  | (b, data) :: changes => do record (← logWrite l b) (s.modify b data) changes

/-- The test `begin_op` makes before it lets an operation in. It sleeps while this is false. -/
def admits (l : Log) : Bool :=
  !l.committing && decide ((l.lh.length : Int) + (l.outstanding + 1) * MAXOPBLOCKS ≤ LOGSIZE)

/-- `begin_op`, once the test has been passed. -/
def beginOp (l : Log) : Log := { l with outstanding := l.outstanding + 1 }

/-- The first half of `end_op`, under `log.lock`: the answer says whether the caller is to
commit. -/
def endOp (l : Log) : Except Fault (Log × Bool) :=
  let l := { l with outstanding := l.outstanding - 1 }
  if l.committing then .error (.panic "log.committing")
  else if l.outstanding = 0 then .ok ({ l with committing := true }, true)
  else .ok (l, false)

/-- The second half of `end_op`, after `commit` has returned. -/
def endCommit (l : Log) : Log := { l with committing := false }

end Xv6.Fs
