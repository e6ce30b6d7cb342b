import Xv6.Fs.Inode

/-!
# The file system on the disk

How the kernel sees a disk: the `struct superblock` in block 1, the `struct dinode`s in the inode
blocks, the bits of the bitmap, and the data blocks. `fsinit` checks the superblock and recovers the
log, and from then on the disk is a volume.
-/

namespace Xv6.Fs

open Base

abbrev FSMAGIC : Nat := 0x10203040

/-- The bytes of one `struct dinode`: four `short`s, the size and the block numbers. -/
abbrev RawDinode := Bytes 64

/-- The word of a `struct dinode` that is the size. -/
abbrev sizeWord : Nat := 2

/-- The word that is block number `k`. -/
abbrev addrWord (k : Nat) : Nat := 3 + k

/-- The `type` of an inode. Nothing writes a number that `stat.h` does not name. -/
def Itype.ofShort : Nat → Itype
  | 0 => .free
  | 1 => .dir
  | 2 => .file
  | _ => .device

/-- An inode without anything. -/
def Dinode.zero : Dinode := ⟨.free, 0, 0, 0, 0, fun _ => 0⟩

/-- The inode that these bytes are. -/
def Dinode.ofBytes (d : RawDinode) : Dinode where
  type := .ofShort (d.half 0)
  major := short (d.half 1)
  minor := short (d.half 2)
  nlink := short (d.half 3)
  size := d.word sizeWord
  addrs k := d.word (addrWord k)

namespace Disk

/-- The bytes of an inode: `dip` in `ilock`. -/
def rawInode (sb : Superblock) (d : Disk) (inum : Nat) : RawDinode :=
  Bytes.record 64 (d (sb.iblock inum)) (inum % IPB)

/-- The inode table of the disk. -/
def inode (sb : Superblock) (d : Disk) (inum : Nat) : Dinode :=
  if inum < sb.ninodes then .ofBytes (d.rawInode sb inum) else .zero

/-- The test in `balloc`: the block's bit in the bitmap is set. -/
def isUsed (sb : Superblock) (d : Disk) (b : Nat) : Bool :=
  decide (b < sb.size) && Bytes.bit (d (sb.bblock b)) (b % BPB)

/-- The disk as a volume, with an empty inode table. -/
def volume (sb : Superblock) (d : Disk) : Vol where
  dinode := d.inode sb
  used := d.isUsed sb
  data b := if sb.isData b then d b else zeroBlock
  itable _ := ⟨.zero, 0, false⟩
  inuse := []
  logged := []

end Disk

/-- `readsb`. A geometry outside the limits of the C types has no volume. -/
def readsb (b : Block) : Option Superblock :=
  if h : b.word 2 < b.word 1 ∧ b.word 1 < 2 ^ 31 ∧ b.word 3 ≤ 2 ^ 16 then
    some ⟨b.word 1, b.word 2, b.word 3, b.word 6, b.word 7, h.1, h.2.1, h.2.2⟩
  else none

/-- `fsinit`: the superblock, and the volume after `initlog` has recovered the log. -/
def fsinit (d : Disk) : Except Fault (Superblock × Vol) := do
  if (d 1).word 0 = FSMAGIC then
    match readsb (d 1) with
    | none => throw .bounds
    | some sb =>
      let s ← recoverFromLog ((d 1).word 5) (.boot d)
      return (sb, s.cache.volume sb)
  else throw (.panic "invalid file system")

end Xv6.Fs
