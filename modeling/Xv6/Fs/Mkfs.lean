import Xv6.Fs.Dir
import Xv6.Fs.Layout

/-!
# Making a file system

`mkfs/mkfs.c`, which runs on the host and writes the first disk. The image file is a disk and the
number of sectors written so far. Reading behind its end ends the program, as a failed assertion
does, and these are the only host calls that fail here.

Numbers are stored little-endian, which is the host's order as well, so `xshort` and `xint` do not
show. An inode on its way to or from the disk is the 64 bytes of its `struct dinode`.
-/

namespace Xv6.Fs

open Base

/-! ## Constants of `mkfs.c`, `param.h` and `stat.h` -/

abbrev FSSIZE : Nat := 2000
abbrev NINODES : Nat := 200

namespace Mkfs

abbrev nbitmap : Nat := FSSIZE / (BSIZE * 8) + 1
abbrev ninodeblocks : Nat := NINODES / IPB + 1
abbrev nlog : Nat := LOGSIZE
abbrev nmeta : Nat := 2 + nlog + ninodeblocks + nbitmap
abbrev nblocks : Nat := FSSIZE - nmeta

/-- `T_DIR`. -/
abbrev typeDir : UInt8 := 1

/-- `T_FILE`. -/
abbrev typeFile : UInt8 := 2

/-- The block that holds `sb`. -/
def superblock : Block :=
  zeroBlock.setWord 0 FSMAGIC
    |>.setWord 1 FSSIZE
    |>.setWord 2 nblocks
    |>.setWord 3 NINODES
    |>.setWord 4 nlog
    |>.setWord 5 2
    |>.setWord 6 (2 + nlog)
    |>.setWord 7 (2 + nlog + ninodeblocks)

/-- The image file, and the global counters. -/
structure State where
  disk : Disk
  sectors : Nat
  freeinode : Nat
  freeblock : Nat

/-- Code of `mkfs`. -/
abbrev Code := StateT State (Except Fault)

/-- A failed `assert`. -/
abbrev assertion : Fault := .panic "assert"

/-! ## Sectors and inodes -/

/-- The sector that `lseek` goes to: the offset is computed as a `uint`. -/
def seek (sec : Nat) : Nat := uint32 (sec * BSIZE) / BSIZE

/-- `wsect`. -/
def wsect (sec : Nat) (buf : Block) : Code Unit := modify fun m =>
  { m with
    disk := Function.update m.disk (seek sec) buf
    sectors := max m.sectors (seek sec + 1) }

/-- `rsect`. -/
def rsect (sec : Nat) : Code Block := do
  let m ← get
  if seek sec < m.sectors then return m.disk (seek sec)
  else throw (.panic "read")

/-- `winode`. -/
def winode (inum : Nat) (ip : RawDinode) : Code Unit := do
  let bn := mkfsSuperblock.iblock inum
  let buf ← rsect bn
  wsect bn (buf.setRecord (inum % IPB) ip)

/-- `rinode`. -/
def rinode (inum : Nat) : Code RawDinode := do
  let buf ← rsect (mkfsSuperblock.iblock inum)
  return Bytes.record 64 buf (inum % IPB)

/-- A new inode: its type, one link, and nothing else. -/
def newInode (type : UInt8) : RawDinode := fun j =>
  if j.val = 0 then type else if j.val = 6 then 1 else 0

/-- `ialloc`. -/
def ialloc (type : UInt8) : Code Nat := do
  let inum := (← get).freeinode
  modify fun m => { m with freeinode := m.freeinode + 1 }
  winode inum (newInode type)
  return inum

/-- `balloc`: the bitmap block for the first `used` blocks. -/
def balloc (used : Nat) : Code Unit := do
  if used < BSIZE * 8 then
    wsect mkfsSuperblock.bmapstart ((List.range used).foldl Bytes.setBit zeroBlock)
  else throw assertion

/-! ## Appending to a file -/

/-- The expression `freeblock++`. -/
def nextBlock : Code Nat := do
  let b := (← get).freeblock
  modify fun m => { m with freeblock := m.freeblock + 1 }
  return b

/-- Block number `k` of the inode, a new one if it has none. -/
def addrOf (din : RawDinode) (k : Nat) : Code (Nat × RawDinode) := do
  if din.word (addrWord k) = 0 then
    let b ← nextBlock
    return (b, din.setWord (addrWord k) b)
  else return (din.word (addrWord k), din)

/-- Entry `j` of the indirect block `addr`, a new one if it has none. -/
def entryOf (addr j : Nat) : Code Nat := do
  let indirect ← rsect addr
  if indirect.word j = 0 then
    let b ← nextBlock
    wsect addr (indirect.setWord j b)
    return b
  else return indirect.word j

/-- The block of a file that `iappend` writes to next. -/
def blockFor (din : RawDinode) (fbn : Nat) : Code (Nat × RawDinode) := do
  if fbn < NDIRECT then addrOf din fbn
  else
    let (addr, din) ← addrOf din NDIRECT
    return (← entryOf addr (fbn - NDIRECT), din)

/-- The loop of `iappend`. Every turn uses up at least one byte, so as many turns as there are bytes
are enough. -/
def iappendLoop : Nat → RawDinode → Nat → List UInt8 → Code (RawDinode × Nat)
  | 0, din, off, _ => return (din, off)
  | fuel + 1, din, off, p => do
    if 0 < p.length then
      let fbn := off / BSIZE
      if fbn < MAXFILE then
        let (x, din) ← blockFor din fbn
        let n1 := min p.length ((fbn + 1) * BSIZE - off)
        let buf ← rsect x
        wsect x (buf.patch (off - fbn * BSIZE) n1 fun i => p.getD i 0)
        iappendLoop fuel din (off + n1) (p.drop n1)
      else throw assertion
    else return (din, off)

/-- `iappend`. -/
def iappend (inum : Nat) (p : List UInt8) : Code Unit := do
  let din ← rinode inum
  let (din, off) ← iappendLoop p.length din (din.word sizeWord) p
  winode inum (din.setWord sizeWord off)

/-! ## The program -/

/-- A file on the host: the argument that names it, and what the calls of `read` answer for it. -/
structure HostFile where
  arg : List UInt8
  pieces : List (List UInt8)
  /-- an argument is a C string -/
  string : ∀ c ∈ arg, c ≠ 0
  /-- the buffer has `BSIZE` bytes, and an answer of 0 is the end -/
  read : ∀ p ∈ pieces, p ≠ [] ∧ p.length ≤ BSIZE

/-- The file's bytes. -/
def HostFile.bytes (f : HostFile) : List UInt8 := f.pieces.flatten

/-- The text `user/`. -/
def userSlash : List UInt8 := [117, 115, 101, 114, 47]

/-- The argument without `user/`. -/
def HostFile.base (f : HostFile) : List UInt8 :=
  if strncmp f.arg userSlash 5 = 0 then f.arg.drop 5 else f.arg

/-- `shortname`: and without one `_`. -/
def HostFile.shortname (f : HostFile) : List UInt8 :=
  if f.base.headD 0 = 95 then f.base.tail else f.base

/-- A directory entry as bytes. -/
def entryBytes (inum : Nat) (name : List UInt8) : List UInt8 :=
  Dirent.bytes ⟨inum % 2 ^ 16, strncpy name DIRSIZ⟩

/-- The body of the loop over the arguments. -/
def addFile (rootino : Nat) (f : HostFile) : Code Unit := do
  if slash ∈ f.base then throw assertion
  else
    let inum ← ialloc typeFile
    iappend rootino (entryBytes inum f.shortname)
    f.pieces.forM (iappend inum)

/-- The size of the root directory is made a multiple of the block size. -/
def fixRoot (rootino : Nat) : Code Unit := do
  let din ← rinode rootino
  let off := (din.word sizeWord / BSIZE + 1) * BSIZE
  winode rootino (din.setWord sizeWord off)

/-- `main` up to the arguments: an empty root directory. -/
def format : Code Nat := do
  (List.range FSSIZE).forM fun i => wsect i zeroBlock
  wsect 1 superblock
  let rootino ← ialloc typeDir
  if rootino = ROOTINO then
    iappend rootino (entryBytes rootino [46])
    iappend rootino (entryBytes rootino [46, 46])
    return rootino
  else throw assertion

/-- `main`. -/
def main (files : List HostFile) : Code Unit := do
  let rootino ← format
  files.forM (addFile rootino)
  fixRoot rootino
  balloc (← get).freeblock

/-- The state when the program starts. -/
def start : State := ⟨fun _ => zeroBlock, 0, 1, nmeta⟩

end Mkfs

/-- `mkfs` on these files. -/
def mkfs (files : List Mkfs.HostFile) : Except Fault Mkfs.State := do
  return (← Mkfs.main files Mkfs.start).2

end Xv6.Fs
