import Xv6.Base.Bytes
import Xv6.Base.Stateful

/-!
# Physical memory and the page allocator

`kernel/kalloc.c`, and the constants and macros of `riscv.h` and `memlayout.h` that the virtual
memory code uses. Memory is a map from the address of a page to its 4096 bytes. The allocator's
free list is kept as a list of addresses; in the kernel it is threaded through the free pages
themselves. Addresses are 64-bit numbers.
-/

namespace Xv6.Vm

open Base

/-- `PGSIZE` of `riscv.h`. -/
abbrev PGSIZE : Nat := 4096

/-- `MAXVA` of `riscv.h`. -/
abbrev MAXVA : Nat := 2 ^ 38

/-- `TRAMPOLINE` of `memlayout.h`. -/
abbrev TRAMPOLINE : Nat := MAXVA - PGSIZE

/-- `TRAPFRAME` of `memlayout.h`. -/
abbrev TRAPFRAME : Nat := TRAMPOLINE - PGSIZE

/-- `KERNBASE` of `memlayout.h`. -/
abbrev KERNBASE : Nat := 0x80000000

/-- `PHYSTOP` of `memlayout.h`. -/
abbrev PHYSTOP : Nat := KERNBASE + 128 * 1024 * 1024

/-- `PGROUNDUP` of `riscv.h`. Clearing the low twelve bits is rounding down to a multiple of the
page size. -/
@[irreducible] def pgroundup (sz : Nat) : Nat := (PGSIZE - 1 + sz) % 2 ^ 64 / PGSIZE * PGSIZE

/-- `PGROUNDDOWN` of `riscv.h`. -/
@[irreducible] def pgrounddown (a : Nat) : Nat := a / PGSIZE * PGSIZE

/-! ## Page-table entries -/

/-- `PTE_V` of `riscv.h`. -/
abbrev PTE_V : Nat := 1

/-- `PTE_R` of `riscv.h`. -/
abbrev PTE_R : Nat := 2

/-- `PTE_W` of `riscv.h`. -/
abbrev PTE_W : Nat := 4

/-- `PTE_X` of `riscv.h`. -/
abbrev PTE_X : Nat := 8

/-- `PTE_U` of `riscv.h`. -/
abbrev PTE_U : Nat := 16

/-- `PA2PTE` of `riscv.h`. -/
@[irreducible] def pa2pte (pa : Nat) : Nat := pa / 2 ^ 12 * 2 ^ 10

/-- `PTE2PA` of `riscv.h`. -/
@[irreducible] def pte2pa (pte : Nat) : Nat := pte / 2 ^ 10 * 2 ^ 12 % 2 ^ 64

/-- `PTE_FLAGS` of `riscv.h`. -/
def pteFlags (pte : Nat) : Nat := pte % 2 ^ 10

/-- `PX` of `riscv.h`: the nine bits of a virtual address that index the table at a level. -/
@[irreducible] def px (level va : Nat) : Fin 512 :=
  ⟨va / 2 ^ (12 + 9 * level) % 512, Nat.mod_lt _ (by norm_num)⟩

/-- A flag of an entry is set. -/
def has (pte flag : Nat) : Bool := pte &&& flag != 0

/-! ## Memory -/

/-- The bytes of a page. A page of a page table is read as 512 double words. -/
abbrev Page := Bytes PGSIZE

/-- The page filled with one byte. -/
def filled (byte : UInt8) : Page := fun _ => byte

/-- Physical memory, and the allocator: the free pages, and the address `end` where the pages it
hands out begin. -/
structure Ram where
  page : Nat → Page
  freelist : List Nat
  kend : Nat

namespace Ram

/-- Entry `i` of the page-table page at `p`. -/
def pte (s : Ram) (p : Nat) (i : Fin 512) : Nat := (s.page p).dword i

/-- Write a page. -/
def setPage (s : Ram) (p : Nat) (b : Page) : Ram := { s with page := Function.update s.page p b }

/-- Write an entry. -/
def setPte (s : Ram) (p : Nat) (i : Fin 512) (v : Nat) : Ram :=
  s.setPage p ((s.page p).setDword i v)

/-- A page filled with junk and put on the free list. -/
def giveBack (s : Ram) (pa : Nat) : Ram :=
  { s.setPage pa (filled 1) with freelist := pa :: s.freelist }

/-- A page that `kfree` accepts. -/
def Managed (s : Ram) (pa : Nat) : Prop := pa % PGSIZE = 0 ∧ s.kend ≤ pa ∧ pa < PHYSTOP

instance (s : Ram) (pa : Nat) : Decidable (s.Managed pa) := inferInstanceAs (Decidable (_ ∧ _))

end Ram

/-- Code that uses physical memory. -/
abbrev M := StateT Ram (Except Fault)

/-- `kfree`. -/
def kfree (pa : Nat) : M Unit := do
  let s ← get
  if s.Managed pa then set (s.giveBack pa) else throw (.panic "kfree")

/-- `kalloc`. -/
def kalloc : M (Option Nat) := do
  let s ← get
  match s.freelist with
  | [] => pure none
  | r :: rest => do
    set { s.setPage r (filled 5) with freelist := rest }
    pure (some r)

/-- `memset(p, 0, PGSIZE)`. -/
def clearPage (p : Nat) : M Unit := modify fun s => s.setPage p (filled 0)

/-- Write an entry of a page table. -/
def storePte (p : Nat) (i : Fin 512) (v : Nat) : M Unit := modify fun s => s.setPte p i v

/-! ## Entries and addresses -/

/-- A flag is one of the low ten bits. -/
theorem has_flags {flag : Nat} (h : flag < 2 ^ 10) (pte : Nat) :
    has (pteFlags pte) flag = has pte flag := by
  have hand : pteFlags pte &&& flag = pte &&& flag := by
    have hmod := Nat.and_mod_two_pow (a := pte) (b := flag) (n := 10)
    have hlt : pte &&& flag < 2 ^ 10 := lt_of_le_of_lt Nat.and_le_right h
    rw [Nat.mod_eq_of_lt hlt, Nat.mod_eq_of_lt h] at hmod
    exact hmod.symm
  unfold has
  rw [hand]

variable {flags : Nat}

/-- An entry is an address and its flags side by side. -/
theorem pa2pte_or (h : flags < 2 ^ 10) (pa : Nat) :
    pa2pte pa ||| flags = pa / 2 ^ 12 * 2 ^ 10 + flags := by
  unfold pa2pte
  rw [Nat.mul_comm, Nat.two_pow_add_eq_or_of_lt h]

theorem pteFlags_make (h : flags < 2 ^ 10) (pa : Nat) :
    pteFlags (pa2pte pa ||| flags) = flags := by
  unfold pteFlags
  rw [pa2pte_or h]
  omega

theorem pte2pa_make {pa : Nat} (h : flags < 2 ^ 10) (hpa : pa % PGSIZE = 0) (hlt : pa < 2 ^ 56) :
    pte2pa (pa2pte pa ||| flags) = pa := by
  have hsize : PGSIZE = 4096 := rfl
  rw [hsize] at hpa
  unfold pte2pa
  rw [pa2pte_or h]
  omega

theorem make_lt {pa : Nat} (h : flags < 2 ^ 10) (hlt : pa < 2 ^ 56) :
    pa2pte pa ||| flags < 2 ^ 64 := by
  rw [pa2pte_or h]
  omega

/-- The three indices of a virtual address tell its page. -/
theorem px_inj {va va' : Nat} (h : va < MAXVA) (h' : va' < MAXVA) (h2 : px 2 va = px 2 va')
    (h1 : px 1 va = px 1 va') (h0 : px 0 va = px 0 va') : va / PGSIZE = va' / PGSIZE := by
  have hsize : PGSIZE = 4096 := rfl
  have hmax : MAXVA = 274877906944 := by norm_num
  unfold px at h2 h1 h0
  rw [Fin.mk.injEq] at h2 h1 h0
  norm_num at h2 h1 h0
  rw [hmax] at h h'
  rw [hsize]
  omega

/-- The index at the highest level is in the lower half of the table. -/
theorem px_two_lt {va : Nat} (h : va < MAXVA) : (px 2 va).val < 256 := by
  have hmax : MAXVA = 274877906944 := by norm_num
  rw [hmax] at h
  unfold px
  norm_num
  omega

end Xv6.Vm
