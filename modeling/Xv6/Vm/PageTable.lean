import Xv6.Vm.Memory

/-!
# Page tables

`kernel/vm.c`, and the page-table functions of `kernel/proc.c`. A page table is the address of its
root page. `walk` answers where the entry of a virtual address is: a page of the table and an index
in it. The loops of the C code run over page counts here, which the docstrings derive from the
loop conditions.
-/

namespace Xv6.Vm

open Base

/-! ## Walking -/

/-- Allocate a page of a page table, clear it, and enter it at index `i`. -/
def newTable (pagetable : Nat) (i : Fin 512) : M (Option Nat) := do
  match ← kalloc with
  | none => pure none
  | some p => do
    clearPage p
    storePte pagetable i (pa2pte p ||| PTE_V)
    pure (some p)

/-- The loop of `walk`, from a level down to level 0. -/
def descend (va : Nat) (alloc : Bool) : Nat → Nat → M (Option Nat)
  | 0, pagetable => pure (some pagetable)
  | level + 1, pagetable => do
    let s ← get
    if has (s.pte pagetable (px (level + 1) va)) PTE_V then
      descend va alloc level (pte2pa (s.pte pagetable (px (level + 1) va)))
    else if alloc then do
      match ← newTable pagetable (px (level + 1) va) with
      | none => pure none
      | some p => descend va alloc level p
    else pure none

/-- `walk`. -/
def walk (pagetable va : Nat) (alloc : Bool) : M (Option (Nat × Fin 512)) :=
  if MAXVA ≤ va then throw (.panic "walk")
  else do
    match ← descend va alloc 2 pagetable with
    | none => pure none
    | some p => pure (some (p, px 0 va))

/-- `walkaddr`. -/
def walkaddr (pagetable va : Nat) : M Nat :=
  if MAXVA ≤ va then pure 0
  else do
    match ← walk pagetable va false with
    | none => pure 0
    | some (p, i) => do
      let s ← get
      if !has (s.pte p i) PTE_V then pure 0
      else if !has (s.pte p i) PTE_U then pure 0
      else pure (pte2pa (s.pte p i))

/-! ## Mapping -/

/-- Enter the page at `pa` for the virtual address `a`. -/
def mapPage (pagetable a pa perm : Nat) : M Int := do
  match ← walk pagetable a true with
  | none => pure (-1)
  | some (p, i) => do
    let s ← get
    if has (s.pte p i) PTE_V then throw (.panic "mappages: remap")
    else do
      storePte p i (pa2pte pa ||| (perm ||| PTE_V))
      pure 0

/-- The loop of `mappages`, with `n` more pages behind this one. -/
def mapLoop (pagetable perm : Nat) : Nat → Nat → Nat → M Int
  | 0, a, pa => mapPage pagetable a pa perm
  | n + 1, a, pa => do
    let r ← mapPage pagetable a pa perm
    if r ≠ 0 then pure r
    else mapLoop pagetable perm n ((PGSIZE + a) % 2 ^ 64) ((PGSIZE + pa) % 2 ^ 64)

/-- `mappages`. The loop goes on from `a` to `last`. -/
def mappages (pagetable va size pa perm : Nat) : M Int :=
  if size = 0 then throw (.panic "mappages: size")
  else
    let a := pgrounddown va
    let last := pgrounddown ((va + (size - 1)) % 2 ^ 64)
    mapLoop pagetable perm ((2 ^ 64 - a + last) % 2 ^ 64 / PGSIZE) a pa

/-- One round of the loop of `uvmunmap`. -/
def unmapPage (pagetable a : Nat) (doFree : Bool) : M Unit := do
  match ← walk pagetable a false with
  | none => throw (.panic "uvmunmap: walk")
  | some (p, i) => do
    let s ← get
    if !has (s.pte p i) PTE_V then throw (.panic "uvmunmap: not mapped")
    else if pteFlags (s.pte p i) = PTE_V then throw (.panic "uvmunmap: not a leaf")
    else if doFree then do
      kfree (pte2pa (s.pte p i))
      storePte p i 0
    else storePte p i 0

/-- The loop of `uvmunmap`, for `n` pages. -/
def unmapLoop (pagetable : Nat) (doFree : Bool) : Nat → Nat → M Unit
  | 0, _ => pure ()
  | n + 1, a => do
    unmapPage pagetable a doFree
    unmapLoop pagetable doFree n (a + PGSIZE)

/-- `uvmunmap`. The loop goes on while `a < va + npages * PGSIZE`. -/
def uvmunmap (pagetable va npages : Nat) (doFree : Bool) : M Unit :=
  if va % PGSIZE ≠ 0 then throw (.panic "uvmunmap: not aligned")
  else unmapLoop pagetable doFree (((va + npages * PGSIZE) % 2 ^ 64 - va) / PGSIZE) va

/-- `uvmclear`. -/
def uvmclear (pagetable va : Nat) : M Unit := do
  match ← walk pagetable va false with
  | none => throw (.panic "uvmclear")
  | some (p, i) => do
    let s ← get
    storePte p i (s.pte p i &&& (2 ^ 64 - 1 - PTE_U))

/-! ## User memory -/

/-- `uvmcreate`. -/
def uvmcreate : M (Option Nat) := do
  match ← kalloc with
  | none => pure none
  | some p => do
    clearPage p
    pure (some p)

/-- An `int` as the `uint64` it is converted to. -/
def intArg (n : Nat) : Nat := if n % 2 ^ 32 < 2 ^ 31 then n % 2 ^ 32 else 2 ^ 64 - 2 ^ 32 + n % 2 ^ 32

/-- `uvmdealloc`. -/
def uvmdealloc (pagetable oldsz newsz : Nat) : M Nat :=
  if oldsz ≤ newsz then pure oldsz
  else if pgroundup newsz < pgroundup oldsz then do
    uvmunmap pagetable (pgroundup newsz) (intArg ((pgroundup oldsz - pgroundup newsz) / PGSIZE)) true
    pure newsz
  else pure newsz

/-- The loop of `uvmalloc`, for `n` more pages from `a` on: whether it got them all. On failure it
gives back what it has allocated from `oldsz` on. -/
def allocLoop (pagetable oldsz xperm : Nat) : Nat → Nat → M Bool
  | 0, _ => pure true
  | n + 1, a => do
    match ← kalloc with
    | none => do
      let _ ← uvmdealloc pagetable a oldsz
      pure false
    | some mem => do
      clearPage mem
      let r ← mappages pagetable a PGSIZE mem (PTE_R ||| PTE_U ||| xperm)
      if r ≠ 0 then do
        kfree mem
        let _ ← uvmdealloc pagetable a oldsz
        pure false
      else allocLoop pagetable oldsz xperm n (a + PGSIZE)

/-- `uvmalloc`. The loop goes on while `a < newsz`. -/
def uvmalloc (pagetable oldsz newsz xperm : Nat) : M Nat :=
  if newsz < oldsz then pure oldsz
  else do
    let ok ← allocLoop pagetable (pgroundup oldsz) xperm
      ((newsz - pgroundup oldsz + (PGSIZE - 1)) / PGSIZE) (pgroundup oldsz)
    pure (if ok then newsz else 0)

/-- `flags2perm` of `exec.c`: the permissions of a segment, from the flags of its program header. -/
def flags2perm (flags : Nat) : Nat :=
  (if has flags 1 then PTE_X else 0) ||| (if has flags 2 then PTE_W else 0)

/-- One round of the loop of `freewalk`, with `free` for the recursive call. -/
def freeEntry (free : Nat → M Unit) (pagetable : Nat) (i : Fin 512) : M Unit := do
  let s ← get
  if has (s.pte pagetable i) PTE_V && !has (s.pte pagetable i) (PTE_R ||| PTE_W ||| PTE_X) then do
    free (pte2pa (s.pte pagetable i))
    storePte pagetable i 0
  else if has (s.pte pagetable i) PTE_V then throw (.panic "freewalk: leaf")
  else pure ()

/-- `freewalk`. In a page table the recursion goes three levels deep; a deeper one runs out of
`depth`. -/
def freewalk : Nat → Nat → M Unit
  | 0, _ => throw .bounds
  | depth + 1, pagetable => do
    (List.finRange 512).forM (freeEntry (freewalk depth) pagetable)
    kfree pagetable

/-- `uvmfree`. -/
def uvmfree (pagetable sz : Nat) : M Unit :=
  if 0 < sz then do
    uvmunmap pagetable 0 (pgroundup sz / PGSIZE) true
    freewalk 3 pagetable
  else freewalk 3 pagetable

/-! ## Copying -/

/-- `memmove` of these bytes to an offset in a page. -/
def Ram.write (s : Ram) (pa off : Nat) (bytes : List UInt8) : Ram :=
  s.setPage pa ((s.page pa).patch off bytes.length fun k => bytes.getD k 0)

/-- The loop of `copyout`. Every round copies at least one byte, so there are at most as many rounds
as there are bytes. -/
def copyoutLoop (pagetable : Nat) : Nat → Nat → List UInt8 → M Int
  | 0, _, _ => pure 0
  | rounds + 1, dstva, src =>
    if src = [] then pure 0
    else do
      let va0 := pgrounddown dstva
      let pa0 ← walkaddr pagetable va0
      if pa0 = 0 then pure (-1)
      else do
        let n := min (PGSIZE - (dstva - va0)) src.length
        modify fun s => s.write pa0 (dstva - va0) (src.take n)
        copyoutLoop pagetable rounds ((PGSIZE + va0) % 2 ^ 64) (src.drop n)

/-- `copyout`. -/
def copyout (pagetable dstva : Nat) (src : List UInt8) : M Int :=
  copyoutLoop pagetable src.length dstva src

/-! ## The page table of a process -/

/-- `proc_pagetable`, for the trapframe page and the trampoline page at these addresses. -/
def procPagetable (trapframe trampoline : Nat) : M (Option Nat) := do
  match ← uvmcreate with
  | none => pure none
  | some pagetable => do
    let r ← mappages pagetable TRAMPOLINE PGSIZE trampoline (PTE_R ||| PTE_X)
    if r < 0 then do
      uvmfree pagetable 0
      pure none
    else do
      let r ← mappages pagetable TRAPFRAME PGSIZE trapframe (PTE_R ||| PTE_W)
      if r < 0 then do
        uvmunmap pagetable TRAMPOLINE 1 false
        uvmfree pagetable 0
        pure none
      else pure (some pagetable)

/-- `proc_freepagetable`. -/
def procFreepagetable (pagetable sz : Nat) : M Unit := do
  uvmunmap pagetable TRAMPOLINE 1 false
  uvmunmap pagetable TRAPFRAME 1 false
  uvmfree pagetable sz

end Xv6.Vm
