import Xv6.Vm.Image

/-!
# `exec`

`kernel/exec.c`. The state is physical memory, the fields of the calling process that `exec` sets, and
what it takes for a while: a reference to the inode of the program, its lock, and a log
operation. The program is a list of bytes. A read may fail: `short` gives, for the reads of a run in
their order, the number of bytes after which one of them stops.

`exec` is called by `sys_exec` only, which passes less than `MAXARG` strings, each on a page of its
own (`Argv`).
-/

namespace Xv6.Vm

open Base

/-- `MAXARG` of `param.h`. -/
abbrev MAXARG : Nat := 32

/-- `ELF_MAGIC` of `elf.h`. -/
abbrev ELF_MAGIC : Nat := 0x464C457F

/-- `ELF_PROG_LOAD` of `elf.h`. -/
abbrev ELF_PROG_LOAD : Nat := 1

/-! ## State -/

/-- The fields of `struct proc` that `exec` reads or writes, with the registers of the trapframe that
it sets. -/
structure Task where
  pagetable : Nat
  sz : Nat
  trapframe : Nat
  a1 : Nat
  epc : Nat
  sp : Nat
  name : List UInt8
  syscallCount : Fin 32 → Nat

/-- The reference count and the lock of the inode of the program, and the number of log operations
under way. -/
structure Io where
  ref : Nat
  locked : Bool
  outstanding : Nat

structure Sys where
  ram : Ram
  task : Task
  io : Io
  reads : Nat

/-- The files by their paths, the reads that fail, and the page of the trampoline. -/
structure Env where
  file : List UInt8 → Option (List UInt8)
  short : Nat → Option Nat
  trampoline : Nat

/-- The arguments that `sys_exec` passes. -/
structure Argv where
  args : List (List UInt8)
  count : args.length < MAXARG
  page : ∀ arg ∈ args, arg.length < PGSIZE

abbrev X := StateT Sys (Except Fault)

/-- Code that uses memory only. -/
def mem {α : Type} (x : M α) : X α := fun k =>
  match x k.ram with
  | .ok (a, s) => .ok (a, { k with ram := s })
  | .error e => .error e

/-! ## Inodes and the log -/

/-- `begin_op`. -/
def beginOp : X Unit := modify fun k => { k with io.outstanding := k.io.outstanding + 1 }

/-- `end_op`. -/
def endOp : X Unit := modify fun k => { k with io.outstanding := k.io.outstanding - 1 }

/-- The reference that `namei` answers, and `ilock` of it. -/
def openLocked : X Unit := modify fun k => { k with io.ref := k.io.ref + 1, io.locked := true }

/-- `iunlockput`. -/
def iunlockput : X Unit := do
  let k ← get
  if k.io.locked = false ∨ k.io.ref < 1 then throw (.panic "iunlock")
  else set { k with io.ref := k.io.ref - 1, io.locked := false }

/-- The bytes that `readi` reads from a file, for `n` bytes at `off`, if it stops after `short`. -/
def readBytes (file : List UInt8) (short : Option Nat) (off n : Nat) : List UInt8 :=
  if file.length < off ∨ (off + n) % 2 ^ 32 < off then []
  else
    let n := if file.length < (off + n) % 2 ^ 32 then file.length - off else n
    ((file.drop off).take n).take (short.getD n)

/-- `readi` into kernel memory: the bytes it has read. -/
def readi (env : Env) (file : List UInt8) (off n : Nat) : X (List UInt8) := do
  let k ← get
  set { k with reads := k.reads + 1 }
  pure (readBytes file (env.short k.reads) off n)

/-! ## Loading -/

/-- A little-endian field of `n` bytes of a structure. -/
def field (bytes : List UInt8) (off n : Nat) : Nat :=
  ((bytes.drop off).take n).foldr (fun b v => b.toNat + 256 * v) 0

/-- `loadseg`, from `i` on. The counter is a `uint`, so it goes around for a size close to `2 ^ 32`; a
loop that does not end runs out of `rounds`. -/
def loadLoop (env : Env) (file : List UInt8) (pagetable va offset sz : Nat) : Nat → Nat → X Int
  | 0, _ => throw .bounds
  | rounds + 1, i =>
    if i < sz then do
      let pa ← mem (walkaddr pagetable ((va + i) % 2 ^ 64))
      if pa = 0 then throw (.panic "loadseg: address should exist")
      else do
        let n := if sz - i < PGSIZE then sz - i else PGSIZE
        let data ← readi env file ((offset + i) % 2 ^ 32) n
        mem (modify fun s => s.write pa 0 data)
        if data.length ≠ n then pure (-1)
        else loadLoop env file pagetable va offset sz rounds ((i + PGSIZE) % 2 ^ 32)
    else pure 0

/-- `loadseg`. -/
def loadseg (env : Env) (file : List UInt8) (pagetable va offset sz : Nat) : X Int :=
  loadLoop env file pagetable va offset sz (2 ^ 20 + 1) 0

/-- One round of the loop of `exec` over the program headers: the size after it, and whether all went
well. -/
def loadSegment (env : Env) (file : List UInt8) (pagetable sz : Nat) (ph : List UInt8) :
    X (Nat × Bool) :=
  let flags := field ph 4 4
  let off := field ph 8 8
  let vaddr := field ph 16 8
  let filesz := field ph 32 8
  let memsz := field ph 40 8
  if field ph 0 4 ≠ ELF_PROG_LOAD then pure (sz, true)
  else if memsz < filesz then pure (sz, false)
  else if (vaddr + memsz) % 2 ^ 64 < vaddr then pure (sz, false)
  else if vaddr % PGSIZE ≠ 0 then pure (sz, false)
  else do
    let sz1 ← mem (uvmalloc pagetable sz ((vaddr + memsz) % 2 ^ 64) (flags2perm flags))
    if sz1 = 0 then pure (sz, false)
    else do
      let r ← loadseg env file pagetable vaddr (off % 2 ^ 32) (filesz % 2 ^ 32)
      if r < 0 then pure (sz1, false) else pure (sz1, true)

/-- The loop of `exec` over the program headers. -/
def loadSegments (env : Env) (file : List UInt8) (pagetable : Nat) : Nat → Nat → Nat → X (Nat × Bool)
  | 0, _, sz => pure (sz, true)
  | count + 1, off, sz => do
    let ph ← readi env file off 56
    if ph.length ≠ 56 then pure (sz, false)
    else do
      let r ← loadSegment env file pagetable sz ph
      if r.2 then loadSegments env file pagetable count ((off + 56) % 2 ^ 32) r.1 else pure r

/-! ## The stack -/

/-- `sp -= n; sp -= sp % 16`. -/
def pushDown (sp n : Nat) : Nat := (2 ^ 64 - n + sp) % 2 ^ 64 / 16 * 16

/-- The loop of `exec` that pushes the argument strings: the stack pointer after it and the addresses
of the strings. -/
def pushArgs (pagetable stackbase : Nat) : List (List UInt8) → Nat → List Nat → M (Option (Nat × List Nat))
  | [], sp, ustack => pure (some (sp, ustack))
  | arg :: rest, sp, ustack =>
    if MAXARG ≤ ustack.length then pure none
    else if pushDown sp (arg.length + 1) < stackbase then pure none
    else do
      let r ← copyout pagetable (pushDown sp (arg.length + 1)) (arg ++ [0])
      if r < 0 then pure none
      else
        pushArgs pagetable stackbase rest (pushDown sp (arg.length + 1))
          (ustack ++ [pushDown sp (arg.length + 1)])

/-- The bytes of a pointer. -/
def pointer (v : Nat) : List UInt8 := (List.range 8).map fun k => UInt8.ofNat (v / 256 ^ k)

/-- Terminate `ustack` and push it. The array has `MAXARG` elements. -/
def pushUstack (pagetable stackbase sp : Nat) (ustack : List Nat) : M (Option Nat) :=
  if MAXARG ≤ ustack.length then throw .bounds
  else if pushDown sp ((ustack.length + 1) * 8) < stackbase then pure none
  else do
    let r ← copyout pagetable (pushDown sp ((ustack.length + 1) * 8))
      ((ustack ++ [0]).flatMap pointer)
    if r < 0 then pure none else pure (some (pushDown sp ((ustack.length + 1) * 8)))

/-- All arguments: the stack pointer, or none where `exec` goes to `bad`. -/
def pushAll (pagetable sz : Nat) (argv : Argv) : M (Option Nat) := do
  match ← pushArgs pagetable (sz - PGSIZE) argv.args sz [] with
  | none => pure none
  | some (sp, ustack) => pushUstack pagetable (sz - PGSIZE) sp ustack

/-! ## The whole -/

/-- The part of a path behind the last slash. -/
def lastName (last : List UInt8) : List UInt8 → List UInt8
  | [] => last
  | c :: cs => if c = 47 then lastName cs cs else lastName last cs

/-- Give back the new page table, if there is one. -/
def freeNew (pagetable : Option Nat) (sz : Nat) : X Unit :=
  match pagetable with
  | none => pure ()
  | some pt => mem (procFreepagetable pt sz)

/-- The label `bad`, for the new page table and its size, and with the inode held or not. -/
def bad (pagetable : Option Nat) (sz : Nat) (ip : Bool) : X Int := do
  freeNew pagetable sz
  if ip then do
    iunlockput
    endOp
    pure (-1)
  else pure (-1)

/-- The process with the new image. -/
def Task.image (t : Task) (path : List UInt8) (pagetable sz sp entry : Nat) : Task :=
  { t with
    pagetable := pagetable, sz := sz, a1 := sp, epc := entry, sp := sp
    name := (lastName path path).take 15, syscallCount := fun _ => 0 }

/-- Commit to the new image. -/
def commit (path : List UInt8) (argv : Argv) (pagetable sz sp entry : Nat) : X Int := do
  let k ← get
  set { k with task := k.task.image path pagetable sz sp entry }
  mem (procFreepagetable k.task.pagetable k.task.sz)
  pure argv.args.length

/-- `exec` after the program has been loaded. -/
def execStack (path : List UInt8) (argv : Argv) (pagetable sz entry : Nat) : X Int := do
  let sz := pgroundup sz
  let sz1 ← mem (uvmalloc pagetable sz ((sz + 2 * PGSIZE) % 2 ^ 64) PTE_W)
  if sz1 = 0 then bad (some pagetable) sz false
  else do
    mem (uvmclear pagetable (sz1 - 2 * PGSIZE))
    match ← mem (pushAll pagetable sz1 argv) with
    | none => bad (some pagetable) sz1 false
    | some sp => commit path argv pagetable sz1 sp entry

/-- `exec` with the page table of the new image. -/
def execLoad (env : Env) (file path : List UInt8) (argv : Argv) (hdr : List UInt8) (pagetable : Nat) :
    X Int := do
  let r ← loadSegments env file pagetable (field hdr 56 2) (field hdr 32 8 % 2 ^ 32) 0
  if r.2 then do
    iunlockput
    endOp
    execStack path argv pagetable r.1 (field hdr 24 8)
  else bad (some pagetable) r.1 true

/-- `exec` with the locked inode. -/
def execFile (env : Env) (file path : List UInt8) (argv : Argv) : X Int := do
  let hdr ← readi env file 0 64
  if hdr.length ≠ 64 then bad none 0 true
  else if field hdr 0 4 ≠ ELF_MAGIC then bad none 0 true
  else do
    let k ← get
    match ← mem (procPagetable k.task.trapframe env.trampoline) with
    | none => bad none 0 true
    | some pagetable => execLoad env file path argv hdr pagetable

/-- `exec`. -/
def exec (env : Env) (path : List UInt8) (argv : Argv) : X Int := do
  beginOp
  match env.file path with
  | none => do
    endOp
    pure (-1)
  | some file => do
    openLocked
    execFile env file path argv

end Xv6.Vm
