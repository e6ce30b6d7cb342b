import Xv6.Fs.Log

/-!
# Blocks and inodes

`kernel/fs.c` from the block allocator to `writei`, for one system call at a time. The state is
what the buffer cache holds, seen through the disk layout: the inode blocks as a table of
`struct dinode`, the bitmap as a bit for each block, and the data blocks as bytes. Code that would
reach over the boundary of one of these areas (a block number outside the data area, an inode
number the disk does not have) faults.

The inode table `itable` is kept by inode number. There is one device, and the table never holds
two entries for one number, so a `struct inode *` is the number it is about. The limit of `NINODE`
entries stays: `inuse` lists the numbers that have an entry with `ref > 0`. The sleep locks are
left out. With one call at a time they are free.

`logged` collects the block numbers given to `log_write`.
-/

namespace Xv6.Fs

open Base Function

/-! ## Constants and data of `fs.h`, `stat.h` and `file.h` -/

abbrev NDIRECT : Nat := 12
abbrev NINDIRECT : Nat := BSIZE / 4
abbrev MAXFILE : Nat := NDIRECT + NINDIRECT
abbrev IPB : Nat := BSIZE / 64
abbrev BPB : Nat := BSIZE * 8
abbrev NINODE : Nat := 50
abbrev ROOTINO : Nat := 1

/-- `struct superblock`. The last `nblocks` of the `size` blocks are the data area. -/
structure Superblock where
  size : Nat
  nblocks : Nat
  ninodes : Nat
  inodestart : Nat
  bmapstart : Nat
  /-- there are blocks before the data area -/
  layout : nblocks < size
  /-- block numbers are C `int`s in `balloc` -/
  int : size < 2 ^ 31
  /-- a directory entry's inode number is a `ushort` -/
  ushort : ninodes ≤ 2 ^ 16

/-- The superblock `mkfs` writes: `FSSIZE` 2000 blocks, `NINODES` 200, and 46 blocks of metadata. -/
def mkfsSuperblock : Superblock where
  size := 2000
  nblocks := 1954
  ninodes := 200
  inodestart := 32
  bmapstart := 45
  layout := by decide
  int := by decide
  ushort := by decide

namespace Superblock

/-- The first data block. -/
def datastart (sb : Superblock) : Nat := sb.size - sb.nblocks

/-- The block number is in the data area. -/
def isData (sb : Superblock) (b : Nat) : Bool := decide (sb.datastart ≤ b) && decide (b < sb.size)

/-- `IBLOCK`. -/
def iblock (sb : Superblock) (inum : Nat) : Nat := inum / IPB + sb.inodestart

/-- `BBLOCK`. -/
def bblock (sb : Superblock) (b : Nat) : Nat := b / BPB + sb.bmapstart

end Superblock

/-- The `type` of an inode; 0 is a free one. -/
inductive Itype
  | free | dir | file | device
deriving DecidableEq, Repr

/-- The index of a block number in `addrs`. The last one is the indirect block. -/
abbrev Slot13 := Fin (NDIRECT + 1)

/-- `struct dinode`. `major`, `minor` and `nlink` are C `short`s, the rest `uint`s. -/
structure Dinode where
  type : Itype
  major : Int
  minor : Int
  nlink : Int
  size : Nat
  addrs : Slot13 → Nat

/-- `struct inode`: an entry of the inode table with its copy of the disk inode. -/
structure Inode extends Dinode where
  ref : Int
  valid : Bool

/-- The volume, as the buffer cache and the inode table hold it. -/
structure Vol where
  dinode : Nat → Dinode
  used : Nat → Bool
  data : Nat → Block
  itable : Nat → Inode
  inuse : List Nat
  logged : List Nat

/-- Code over a volume. -/
abbrev M := StateT Vol (Except Fault)

/-- The C type `short`. -/
def short (x : Int) : Int := x.bmod (2 ^ 16)

def zeroBlock : Block := fun _ => 0

/-! ## Blocks -/

/-- `log_write`: the block is part of the transaction. -/
def logged (b : Nat) : M Unit := modify fun s => { s with logged := s.logged ++ [b] }

/-- `bread` of a data block. -/
def bread (sb : Superblock) (b : Nat) : M Block := do
  if sb.isData b then return (← get).data b
  else throw .bounds

/-- Change the contents of a data block in its buffer. -/
def setData (b : Nat) (f : Block → Block) : M Unit :=
  modify fun s => { s with data := update s.data b (f (s.data b)) }

/-- The first free block. The loops of `balloc` over the bitmap blocks and their bits look at the
blocks below `size` in order. -/
def firstFree (sb : Superblock) (s : Vol) : Option Nat :=
  (List.range sb.size).find? fun b => !s.used b

/-- `balloc`: 0 when the disk is full. The volume has contents for data blocks only, so a first free
block elsewhere, which the code would clear and hand out, is a fault here. -/
def balloc (sb : Superblock) : M Nat := do
  match firstFree sb (← get) with
  | none => return 0
  | some b =>
    if sb.isData b then
      modify fun s => { s with used := update s.used b true }
      logged (sb.bblock b)
      -- bzero
      setData b fun _ => zeroBlock
      logged b
      return b
    else throw .bounds

/-- `bfree`. -/
def bfree (sb : Superblock) (b : Nat) : M Unit := do
  if (← get).used b then
    modify fun s => { s with used := update s.used b false }
    logged (sb.bblock b)
  else throw (.panic "freeing free block")

/-! ## The inode table -/

/-- Change an entry of the inode table. -/
def setInode (ip : Nat) (f : Inode → Inode) : M Unit :=
  modify fun s => { s with itable := update s.itable ip (f (s.itable ip)) }

/-- `iget`. -/
def iget (inum : Nat) : M Unit := do
  let s ← get
  if 0 < (s.itable inum).ref then setInode inum fun ip => { ip with ref := ip.ref + 1 }
  else if NINODE ≤ s.inuse.length then throw (.panic "iget: no inodes")
  else
    modify fun s => { s with inuse := inum :: s.inuse }
    setInode inum fun ip => { ip with ref := 1, valid := false }

/-- `idup`. -/
def idup (ip : Nat) : M Unit := setInode ip fun x => { x with ref := x.ref + 1 }

/-- `ilock`. -/
def ilock (sb : Superblock) (ip : Nat) : M Unit := do
  let s ← get
  if (s.itable ip).ref < 1 then throw (.panic "ilock")
  else if (s.itable ip).valid then return ()
  else if sb.ninodes ≤ ip then throw .bounds
  else if (s.dinode ip).type = .free then throw (.panic "ilock: no type")
  else setInode ip fun x => { x with toDinode := s.dinode ip, valid := true }

/-- `iunlock`. -/
def iunlock (ip : Nat) : M Unit := do
  if ((← get).itable ip).ref < 1 then throw (.panic "iunlock")
  else return ()

/-- `iupdate`. -/
def iupdate (sb : Superblock) (ip : Nat) : M Unit := do
  modify fun s => { s with dinode := update s.dinode ip (s.itable ip).toDinode }
  logged (sb.iblock ip)

/-! ## Inode content -/

/-- The index of the indirect block in `addrs`. -/
def single : Slot13 := Fin.last NDIRECT

/-- Store a block number in `addrs`. -/
def setAddr (ip : Nat) (k : Slot13) (b : Nat) : M Unit :=
  setInode ip fun x => { x with addrs := update x.addrs k b }

/-- The pattern of `bmap`: a block number that is there, or a fresh block whose number is stored;
0 when there is none. -/
def fill (sb : Superblock) (addr : Nat) (store : Nat → M Unit) : M Nat := do
  if addr ≠ 0 then return addr
  else
    let b ← balloc sb
    if b = 0 then return 0
    else
      store b
      return b

/-- The end of `bmap`: slot `j` of the indirect block `addr`. -/
def bmapEntry (sb : Superblock) (addr j : Nat) : M Nat := do
  let bp ← bread sb addr
  fill sb (bp.word j) fun b => do
    setData addr fun blk => blk.setWord j b
    logged addr

/-- `bmap`. -/
def bmap (sb : Superblock) (ip bn : Nat) : M Nat := do
  if h : bn < NDIRECT then
    let k : Slot13 := ⟨bn, Nat.lt_succ_of_lt h⟩
    fill sb (((← get).itable ip).addrs k) (setAddr ip k)
  else if bn - NDIRECT < NINDIRECT then
    let addr ← fill sb (((← get).itable ip).addrs single) (setAddr ip single)
    if addr = 0 then return 0 else bmapEntry sb addr (bn - NDIRECT)
  else throw (.panic "bmap: out of range")

/-- The body of the first loop of `itrunc`. -/
def truncDirect (sb : Superblock) (ip : Nat) (k : Slot13) : M Unit := do
  let addr := ((← get).itable ip).addrs k
  if addr ≠ 0 then
    bfree sb addr
    setAddr ip k 0
  else return ()

/-- The body of the second loop of `itrunc`. -/
def truncIndirect (sb : Superblock) (a : Block) (j : Nat) : M Unit := do
  if a.word j ≠ 0 then bfree sb (a.word j)
  else return ()

/-- The direct slots of `addrs`, in order. -/
def directs : List Slot13 := (List.finRange NDIRECT).map Fin.castSucc

/-- `itrunc`. -/
def itrunc (sb : Superblock) (ip : Nat) : M Unit := do
  directs.forM (truncDirect sb ip)
  let addr := ((← get).itable ip).addrs single
  if addr ≠ 0 then
    let a ← bread sb addr
    (List.range NINDIRECT).forM (truncIndirect sb a)
    bfree sb addr
    setAddr ip single 0
  setInode ip fun x => { x with size := 0 }
  iupdate sb ip

/-- The inode has no links and no other references: truncate and free. -/
def ifree (sb : Superblock) (ip : Nat) : M Unit := do
  itrunc sb ip
  setInode ip fun x => { x with type := .free }
  iupdate sb ip
  setInode ip fun x => { x with valid := false }

/-- The end of `iput`. The entry is free again when the last reference goes. -/
def idrop (ip : Nat) : M Unit := do
  modify fun s => { s with inuse := if (s.itable ip).ref = 1 then s.inuse.erase ip else s.inuse }
  setInode ip fun x => { x with ref := x.ref - 1 }

/-- `iput`. -/
def iput (sb : Superblock) (ip : Nat) : M Unit := do
  let x := (← get).itable ip
  if x.ref = 1 ∧ x.valid = true ∧ x.nlink = 0 then do
    ifree sb ip
    idrop ip
  else idrop ip

/-- `iunlockput`. -/
def iunlockput (sb : Superblock) (ip : Nat) : M Unit := do
  iunlock ip
  iput sb ip

/-! ## Reading and writing -/

/-- A buffer on the other side of a copy: its bytes, and the first offset that is not mapped. A
kernel buffer is mapped throughout. -/
structure Buffer where
  byte : Nat → UInt8
  unmapped : Option Nat

/-- How many of `m` bytes from `tot` on a copy moves before it fails; all `m` if it does not. -/
def Buffer.copies (buf : Buffer) (tot m : Nat) : Nat :=
  match buf.unmapped with
  | none => m
  | some k => min m (k - tot)

/-- A kernel buffer that holds these bytes. -/
def Buffer.kernel (bytes : List UInt8) : Buffer := ⟨fun i => bytes.getD i 0, none⟩

/-- The part of the current block that one turn of the loops of `readi` and `writei` moves. -/
def piece (n tot off : Nat) : Nat := min (n - tot) (BSIZE - off % BSIZE)

/-- Bytes of a block. -/
def slice (b : Block) (off m : Nat) : List UInt8 := (List.range m).map fun i => b.byte (off + i)

/-- The loop of `readi`. The answer is `tot` and the bytes copied out. Every turn moves at least
one byte, so `fuel = n` turns are enough. -/
def readLoop (sb : Superblock) (ip : Nat) (dst : Buffer) (n : Nat) :
    Nat → Nat → Nat → List UInt8 → M (Int × List UInt8)
  | 0, tot, _, out => return (tot, out)
  | fuel + 1, tot, off, out => do
    if tot < n then
      let addr ← bmap sb ip (off / BSIZE)
      if addr = 0 then return (tot, out)
      else
        let bp ← bread sb addr
        let m := piece n tot off
        if dst.copies tot m < m then return (-1, out)
        else readLoop sb ip dst n fuel (tot + m) (off + m) (out ++ slice bp (off % BSIZE) m)
    else return (tot, out)

/-- `readi`. -/
def readi (sb : Superblock) (ip : Nat) (dst : Buffer) (off n : Nat) : M (Int × List UInt8) := do
  let size := ((← get).itable ip).size
  if size < off ∨ uint32 (off + n) < off then return (0, [])
  else
    let n := if size < uint32 (off + n) then size - off else n
    readLoop sb ip dst n n 0 off []

/-- The loop of `writei`. The answer is `tot` and `off`. A copy that fails has changed the buffer
up to the first byte it could not read. -/
def writeLoop (sb : Superblock) (ip : Nat) (src : Buffer) (n : Nat) :
    Nat → Nat → Nat → M (Nat × Nat)
  | 0, tot, off => return (tot, off)
  | fuel + 1, tot, off => do
    if tot < n then
      let addr ← bmap sb ip (off / BSIZE)
      if addr = 0 then return (tot, off)
      else
        let _ ← bread sb addr
        let m := piece n tot off
        let copied := src.copies tot m
        setData addr fun blk => blk.patch (off % BSIZE) copied fun i => src.byte (tot + i)
        if copied < m then return (tot, off)
        else
          logged addr
          writeLoop sb ip src n fuel (tot + m) (off + m)
    else return (tot, off)

/-- `writei`. -/
def writei (sb : Superblock) (ip : Nat) (src : Buffer) (off n : Nat) : M Int := do
  if ((← get).itable ip).size < off ∨ uint32 (off + n) < off then return -1
  else if MAXFILE * BSIZE < uint32 (off + n) then return -1
  else
    let (tot, off) ← writeLoop sb ip src n n 0 off
    setInode ip fun x => { x with size := if x.size < off then off else x.size }
    iupdate sb ip
    return tot

end Xv6.Fs
