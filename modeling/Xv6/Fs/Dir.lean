import Xv6.Fs.Inode

/-!
# Directories and paths

The rest of `kernel/fs.c`: directory entries and path names, with the string functions of
`kernel/string.c` they use. A C string is the list of the bytes from its first one on. Behind the
end of the list stand zeroes, so the list need not hold the terminator.
-/

namespace Xv6.Fs

open Base

/-! ## Names -/

abbrev DIRSIZ : Nat := 14

/-- `strncmp`. -/
def strncmp (p q : List UInt8) : Nat → Int
  | 0 => 0
  | n + 1 =>
    if p.headD 0 ≠ 0 ∧ p.headD 0 = q.headD 0 then strncmp p.tail q.tail n
    else (p.headD 0).toNat - (q.headD 0).toNat

/-- `strncpy`: the bytes stored. -/
def strncpy (t : List UInt8) : Nat → List UInt8
  | 0 => []
  | n + 1 => if t.headD 0 = 0 then List.replicate (n + 1) 0 else t.headD 0 :: strncpy t.tail n

/-- `namecmp`. -/
def namecmp (s t : List UInt8) : Int := strncmp s t DIRSIZ

/-! ## Directory entries -/

/-- `struct dirent`. -/
structure Dirent where
  inum : Nat
  name : List UInt8
deriving DecidableEq, Repr

namespace Dirent

/-- `sizeof(struct dirent)`. -/
abbrev size : Nat := 2 + DIRSIZ

/-- The entry as bytes. -/
def bytes (de : Dirent) : List UInt8 := UInt8.ofNat de.inum :: UInt8.ofNat (de.inum / 256) :: de.name

/-- The entry that these bytes are. -/
def ofBytes (bytes : List UInt8) : Dirent where
  inum := (bytes.getD 0 0).toNat + 256 * (bytes.getD 1 0).toNat
  name := bytes.drop 2

end Dirent

/-- The loops of `dirlookup`, `dirlink` and `isdirempty`: read the entries from `off` on up to the
first one that `stop` accepts. The answer is the offset where the loop ends, and that entry. Every
turn moves on, so as many turns as the directory has bytes are enough. -/
def dirScan (sb : Superblock) (dp : Nat) (msg : String) (stop : Dirent → Bool) :
    Nat → Nat → M (Nat × Option Dirent)
  | 0, off => return (off, none)
  | fuel + 1, off => do
    if off < ((← get).itable dp).size then
      let (r, bytes) ← readi sb dp (.kernel []) off Dirent.size
      if r ≠ Dirent.size then throw (.panic msg)
      else if stop (.ofBytes bytes) then return (off, some (.ofBytes bytes))
      else dirScan sb dp msg stop fuel (off + Dirent.size)
    else return (off, none)

/-- `dirlookup`: the inode and the offset of the entry. -/
def dirlookup (sb : Superblock) (dp : Nat) (name : List UInt8) : M (Option (Nat × Nat)) := do
  let s ← get
  if (s.itable dp).type ≠ .dir then throw (.panic "dirlookup not DIR")
  else
    let (off, found) ← dirScan sb dp "dirlookup read"
      (fun de => decide (de.inum ≠ 0) && decide (namecmp name de.name = 0)) (s.itable dp).size 0
    match found with
    | none => return none
    | some de =>
      iget de.inum
      return some (de.inum, off)

/-- The end of `dirlink`: look for an empty entry and write the new one. -/
def dirWrite (sb : Superblock) (dp : Nat) (name : List UInt8) (inum : Nat) : M Int := do
  let (off, _) ← dirScan sb dp "dirlink read" (fun de => decide (de.inum = 0))
    ((← get).itable dp).size 0
  let de : Dirent := ⟨inum % 2 ^ 16, strncpy name DIRSIZ⟩
  if (← writei sb dp (.kernel de.bytes) off Dirent.size) ≠ Dirent.size then return -1
  else return 0

/-- `dirlink`. -/
def dirlink (sb : Superblock) (dp : Nat) (name : List UInt8) (inum : Nat) : M Int := do
  match ← dirlookup sb dp name with
  | some (ip, _) =>
    iput sb ip
    return -1
  | none => dirWrite sb dp name inum

/-- The clearing of an entry in `sys_unlink`. -/
def clearEntry (sb : Superblock) (dp off : Nat) : M Unit := do
  let de := List.replicate Dirent.size 0
  if (← writei sb dp (.kernel de) off Dirent.size) ≠ Dirent.size then
    throw (.panic "unlink: writei")
  else return ()

/-! ## Paths -/

/-- The character `/`. -/
abbrev slash : UInt8 := 47

/-- `skipelem`: the next element of the path, cut to `DIRSIZ` bytes, and the path behind it. -/
def skipelem (path : List UInt8) : Option (List UInt8 × List UInt8) :=
  let path := path.dropWhile (· = slash)
  if path.headD 0 = 0 then none
  else
    let s := path.takeWhile fun c => decide (c ≠ slash) && decide (c ≠ 0)
    some (s.take DIRSIZ, (path.drop s.length).dropWhile (· = slash))

/-- The loop of `namex` with `ip` as the inode reached so far. It ends at the latest when the path
is used up. -/
def namexLoop (sb : Superblock) (nameiparent : Bool) :
    Nat → Nat → List UInt8 → M (Option (Nat × List UInt8))
  | 0, _, _ => return none
  | fuel + 1, ip, path => do
    match skipelem path with
    | none =>
      if nameiparent then
        iput sb ip
        return none
      else return some (ip, [])
    | some (name, rest) =>
      ilock sb ip
      if ((← get).itable ip).type ≠ .dir then
        iunlockput sb ip
        return none
      else if nameiparent ∧ rest.headD 0 = 0 then
        iunlock ip
        return some (ip, name)
      else
        match ← dirlookup sb ip name with
        | none =>
          iunlockput sb ip
          return none
        | some (next, _) =>
          iunlockput sb ip
          namexLoop sb nameiparent fuel next rest

/-- `namex`, for a process with the current directory `cwd`. -/
def namex (sb : Superblock) (cwd : Nat) (path : List UInt8) (nameiparent : Bool) :
    M (Option (Nat × List UInt8)) := do
  if path.headD 0 = slash then
    iget ROOTINO
    namexLoop sb nameiparent (path.length + 1) ROOTINO path
  else
    idup cwd
    namexLoop sb nameiparent (path.length + 1) cwd path

/-- `namei`. -/
def namei (sb : Superblock) (cwd : Nat) (path : List UInt8) : M (Option Nat) := do
  return (← namex sb cwd path false).map Prod.fst

/-- `nameiparent`. -/
def nameiparent (sb : Superblock) (cwd : Nat) (path : List UInt8) : M (Option (Nat × List UInt8)) :=
  namex sb cwd path true

/-! ## Paths as lists of names -/

/-- The names in a path: what stands between the slashes, cut to `DIRSIZ` bytes. -/
def components (path : List UInt8) : List (List UInt8) :=
  (((path.takeWhile (· ≠ 0)).splitOnP (· = slash)).filter (· ≠ [])).map (List.take DIRSIZ)

/-- The walk from `ip` along the names, to the last one or, with the flag, to the one before it. -/
def follow (sb : Superblock) (nameiparent : Bool) :
    Nat → List (List UInt8) → M (Option (Nat × List UInt8))
  | ip, [] => do
    if nameiparent then
      iput sb ip
      return none
    else return some (ip, [])
  | ip, name :: names => do
    ilock sb ip
    if ((← get).itable ip).type ≠ .dir then
      iunlockput sb ip
      return none
    else if nameiparent ∧ names = [] then
      iunlock ip
      return some (ip, name)
    else
      match ← dirlookup sb ip name with
      | none =>
        iunlockput sb ip
        return none
      | some (next, _) =>
        iunlockput sb ip
        follow sb nameiparent next names

end Xv6.Fs
