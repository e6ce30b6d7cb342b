import Xv6.Vm.UserStores
import Xv6.Fs.Inode

/-!
# Copying from user memory

`copyin` goes page by page and stops at the first page that `walkaddr` does not accept, after it has
copied the bytes before it. The file system sees a source in user memory as a `Buffer`: its bytes,
and the first of them that cannot be read. This is all there is to it.
-/

namespace Xv6.Vm

open Base

variable {s : Ram} {pt va pa : Nat} {len m : Nat}

/-- `n` bytes of a page. -/
def Ram.bytes (s : Ram) (pa off n : Nat) : List UInt8 :=
  (List.range n).map fun i => (s.page pa).byte (off + i)

/-- The loop of `copyin`: its answer, and the bytes it has copied. Every round copies at least one
byte. -/
def copyinLoop (pagetable : Nat) : Nat → Nat → Nat → M (Int × List UInt8)
  | 0, _, _ => pure (0, [])
  | rounds + 1, srcva, len =>
    if len = 0 then pure (0, [])
    else do
      let va0 := pgrounddown srcva
      let pa0 ← walkaddr pagetable va0
      if pa0 = 0 then pure (-1, [])
      else do
        let n := min (PGSIZE - (srcva - va0)) len
        let bytes := (← get).bytes pa0 (srcva - va0) n
        let (r, rest) ← copyinLoop pagetable rounds ((PGSIZE + va0) % 2 ^ 64) (len - n)
        pure (r, bytes ++ rest)

/-- `copyin`. -/
def copyin (pagetable srcva len : Nat) : M (Int × List UInt8) :=
  copyinLoop pagetable len srcva len

/-- The byte at a user address. -/
def Ram.userByte (s : Ram) (pt va : Nat) : UInt8 :=
  match s.user pt va with
  | some pa => (s.page pa).byte (va % PGSIZE)
  | none => 0

theorem Ram.userByte_eq (hu : s.user pt va = some pa) :
    s.userByte pt va = (s.page pa).byte (va % PGSIZE) := by
  unfold Ram.userByte
  rw [hu]

/-- `len` bytes of user memory as a source. -/
def Ram.buffer (s : Ram) (pt va len : Nat) : Fs.Buffer where
  byte i := s.userByte pt (va + i)
  unmapped := (List.range len).find? fun i => (s.user pt (va + i)).isNone

/-- What `copyin` does with `len` bytes: it copies the first `m` of them, all that are mapped before
one that is not. -/
structure CopiedIn (s : Ram) (pt va len m : Nat) : Prop where
  le : m ≤ len
  mapped : ∀ i, i < m → (s.user pt (va + i)).isSome = true
  stop : m < len → s.user pt (va + m) = none

theorem CopiedIn.nothing (s : Ram) (pt va : Nat) : CopiedIn s pt va 0 0 :=
  ⟨Nat.le_refl 0, fun i hi => absurd hi (Nat.not_lt_zero i), fun h => absurd h (Nat.lt_irrefl 0)⟩

theorem CopiedIn.page {n : Nat} (hn : n ≤ len)
    (hpage : ∀ i, i < n → (s.user pt (va + i)).isSome = true)
    (h : CopiedIn s pt (va + n) (len - n) m) : CopiedIn s pt va len (n + m) := by
  have hle := h.le
  refine ⟨by omega, fun i hi => ?_, fun hlt => ?_⟩
  · by_cases hin : i < n
    · exact hpage i hin
    · have hmapped := h.mapped (i - n) (by omega)
      rwa [show va + n + (i - n) = va + i by omega] at hmapped
  · rw [← Nat.add_assoc]
    exact h.stop (by omega)

/-- The bytes of a page that are left from `va` on. -/
theorem bytes_eq {n : Nat} (hu : s.user pt va = some pa) (hn : n ≤ PGSIZE - va % PGSIZE) :
    s.bytes pa (va % PGSIZE) n = (List.range n).map fun i => s.userByte pt (va + i) := by
  refine List.map_congr_left fun i hi => ?_
  have hi : i < n := List.mem_range.mp hi
  have hsize : PGSIZE = 4096 := rfl
  rw [hsize] at hn
  have hpage : (va + i) / PGSIZE = va / PGSIZE ∧ (va + i) % PGSIZE = va % PGSIZE + i := by
    rw [hsize]
    omega
  unfold Ram.userByte
  rw [Ram.user_congr hpage.1, hu, hpage.2]

theorem copyinLoop_zero (rounds : Nat) : copyinLoop pt rounds va 0 s = .ok ((0, []), s) := by
  cases rounds <;> rfl

theorem copyinLoop_spec {rounds : Nat} (hlen : len ≤ rounds) :
    ∃ m, CopiedIn s pt va len m ∧ copyinLoop pt rounds va len s =
      .ok ((if m < len then -1 else 0, (List.range m).map fun i => s.userByte pt (va + i)), s) := by
  induction rounds generalizing va len with
  | zero =>
    obtain rfl : len = 0 := Nat.le_zero.mp hlen
    exact ⟨0, .nothing s pt va, rfl⟩
  | succ rounds ih =>
    by_cases hzero : len = 0
    · subst hzero
      exact ⟨0, .nothing s pt va, rfl⟩
    have hsize : PGSIZE = 4096 := rfl
    rw [copyinLoop, if_neg hzero]
    show ∃ m, _ ∧ (walkaddr pt (pgrounddown va) >>= fun pa0 => if pa0 = 0 then _ else _ :
      M (Int × List UInt8)) s = _
    rw [run_bind_ok (walkaddr_spec ..), Ram.user_congr (pgrounddown_div va)]
    cases hu : s.user pt va with
    | none =>
      refine ⟨0, ⟨Nat.zero_le len, fun i hi => absurd hi (Nat.not_lt_zero i), fun _ => hu⟩, ?_⟩
      rw [if_pos (Nat.pos_of_ne_zero hzero)]
      rfl
    | some pa =>
      obtain ⟨-, -, -, hne⟩ := Ram.user_eq_some hu
      have hva := Ram.user_lt hu
      obtain ⟨n, hn⟩ : ∃ n, n = min (PGSIZE - va % PGSIZE) len := ⟨_, rfl⟩
      have hmod := mod_pgsize_lt va
      have hpage : ∀ i, i < n → (s.user pt (va + i)).isSome = true := by
        intro i hi
        rw [Ram.user_congr (show (va + i) / PGSIZE = va / PGSIZE by rw [hsize] at hn ⊢; omega), hu]
        rfl
      -- the next round starts where this one has ended
      have hnext : ∃ m, CopiedIn s pt (va + n) (len - n) m ∧
          copyinLoop pt rounds ((PGSIZE + pgrounddown va) % 2 ^ 64) (len - n) s =
            .ok ((if m < len - n then -1 else 0,
              (List.range m).map fun i => s.userByte pt (va + n + i)), s) := by
        by_cases hlast : len ≤ n
        · rw [Nat.sub_eq_zero_of_le hlast, copyinLoop_zero]
          exact ⟨0, .nothing s pt _, rfl⟩
        · rw [next_page hva hn (Nat.not_le.mp hlast)]
          exact ih (by omega)
      obtain ⟨m, hcopied, hrest⟩ := hnext
      refine ⟨n + m, hcopied.page (by omega) hpage, ?_⟩
      rw [Option.getD_some, if_neg hne, sub_pgrounddown, ← hn]
      show (get >>= fun s' => _ : M (Int × List UInt8)) s = _
      rw [run_get_bind, run_bind_ok hrest]
      have hall : n + m < len ↔ m < len - n := by omega
      show Except.ok ((_, s.bytes pa (va % PGSIZE) n ++ _), s) = _
      rw [bytes_eq hu (by omega), List.range_add, List.map_append, List.map_map]
      simp only [hall, Function.comp_def, Nat.add_assoc]

/-- How many bytes from an address on have a place. -/
theorem exists_copiedIn (s : Ram) (pt va len : Nat) : ∃ m, CopiedIn s pt va len m := by
  obtain ⟨m, h, -⟩ := @copyinLoop_spec s pt va len len (Nat.le_refl len)
  exact ⟨m, h⟩

/-- All bytes have a place when the number of those that have one is their number. -/
theorem CopiedIn.all_iff (h : CopiedIn s pt va len m) :
    (∀ i, i < len → (s.user pt (va + i)).isSome = true) ↔ m = len := by
  constructor
  · intro hall
    by_contra hne
    have hlt := lt_of_le_of_ne h.le hne
    have hsome := hall m hlt
    rw [h.stop hlt] at hsome
    cases hsome
  · rintro rfl
    exact h.mapped

theorem CopiedIn.fits {bytes : List UInt8} (h : CopiedIn s pt va bytes.length m) :
    s.fits pt (bytesAt va (bytes.take m)) = true := by
  refine Ram.fits_bytesAt.mpr fun i hi => h.mapped i ?_
  exact lt_of_lt_of_le hi (List.length_take_le ..)

/-- The bytes that are written are those before the first one without a place. -/
theorem CopiedIn.taken {bytes : List UInt8} (h : CopiedIn s pt va bytes.length m) :
    s.taken pt (bytesAt va bytes) = s.taken pt (bytesAt va (bytes.take m)) := by
  have hlen : (bytes.take m).length = m := List.length_take_of_le h.le
  have hrest : s.taken pt (bytesAt (va + m) (bytes.drop m)) = [] := by
    cases hdrop : bytes.drop m with
    | nil => rfl
    | cons b rest =>
      have hlt : m < bytes.length := by
        by_contra hge
        rw [List.drop_eq_nil_of_le (Nat.not_lt.mp hge)] at hdrop
        cases hdrop
      have hplace : s.place pt (va + m) = none := by
        unfold Ram.place
        rw [h.stop hlt]
        rfl
      rw [bytesAt, Ram.taken, hplace]
  conv_lhs => rw [← List.take_append_drop m bytes]
  rw [bytesAt_append, hlen, Ram.taken_append h.fits, hrest, List.append_nil]

theorem CopiedIn.congr {s' : Ram} (h : SameTable s pt s') (hc : CopiedIn s' pt va len m) :
    CopiedIn s pt va len m := by
  refine ⟨hc.le, fun j hj => ?_, fun hlt => ?_⟩
  · rw [← h.user]
    exact hc.mapped j hj
  · rw [← h.user]
    exact hc.stop hlt

theorem buffer_unmapped {k : Nat} (h : (s.buffer pt va len).unmapped = some k) :
    k < len ∧ s.user pt (va + k) = none ∧ ∀ i, i < k → (s.user pt (va + i)).isSome = true := by
  obtain ⟨hnone, hlt, hbefore⟩ := List.find?_range_eq_some.mp h
  refine ⟨List.mem_range.mp hlt, Option.isNone_iff_eq_none.mp hnone, fun i hi => ?_⟩
  have hsome := hbefore i hi
  rwa [Bool.not_eq_true', Option.isNone_eq_false_iff] at hsome

theorem buffer_mapped {i : Nat} (h : (s.buffer pt va len).unmapped = none) (hi : i < len) :
    (s.user pt (va + i)).isSome = true := by
  have hsome := List.find?_eq_none.mp h i (List.mem_range.mpr hi)
  rwa [Bool.not_eq_true, Option.isNone_eq_false_iff] at hsome

/-- The copies that `writei` makes from user memory, from a byte on up to which all are mapped, are
those of the buffer. -/
theorem copyin_spec {len tot m : Nat} (h : tot + m ≤ len)
    (hbefore : ∀ i, i < tot → (s.user pt (va + i)).isSome = true) :
    copyin pt (va + tot) m s =
      .ok ((if (s.buffer pt va len).copies tot m < m then -1 else 0,
        (List.range ((s.buffer pt va len).copies tot m)).map
          fun i => (s.buffer pt va len).byte (tot + i)), s) := by
  obtain ⟨m', hcopied, hrun⟩ : ∃ m', CopiedIn s pt (va + tot) m m' ∧
      copyinLoop pt m (va + tot) m s = .ok ((if m' < m then -1 else 0,
        (List.range m').map fun i => s.userByte pt (va + tot + i)), s) :=
    copyinLoop_spec (Nat.le_refl m)
  have hle := hcopied.le
  have hsame : (s.buffer pt va len).copies tot m = m' := by
    unfold Fs.Buffer.copies
    cases hk : (s.buffer pt va len).unmapped with
    | none =>
      show m = m'
      by_contra hne
      have hmapped := buffer_mapped hk (show tot + m' < len by omega)
      rw [← Nat.add_assoc, hcopied.stop (by omega)] at hmapped
      cases hmapped
    | some k =>
      obtain ⟨hlt, hnone, hprefix⟩ := buffer_unmapped hk
      show min m (k - tot) = m'
      have htot : tot ≤ k := by
        by_contra hgt
        have hmapped := hbefore k (by omega)
        rw [hnone] at hmapped
        cases hmapped
      have hupper : m' ≤ k - tot := by
        by_contra hgt
        have hmapped := hcopied.mapped (k - tot) (by omega)
        rw [Nat.add_assoc, Nat.add_sub_cancel' htot, hnone] at hmapped
        cases hmapped
      by_contra hne
      have hmapped := hprefix (tot + m') (by omega)
      rw [← Nat.add_assoc, hcopied.stop (by omega)] at hmapped
      cases hmapped
  rw [hsame, copyin, hrun]
  simp only [Ram.buffer, Nat.add_assoc]

/-- Two of ten bytes at the end of a page of data have been copied. Four more are, and the copy fails
at the end of the page. -/
theorem copyin_spec_page : ∃ s : Ram, (s.user KERNBASE 4092).isSome = true ∧
    copyin KERNBASE (4090 + 2) 8 s =
      .ok ((-1, (List.range 4).map fun i => (s.buffer KERNBASE 4090 10).byte (2 + i)), s) := by
  obtain ⟨s, -, pa, hmapped, hnone⟩ := exists_data
  have hsome : ∀ va, va < 4096 → (s.user KERNBASE va).isSome = true := by
    intro va hva
    rw [hmapped va hva]
    rfl
  have hbuffer : (s.buffer KERNBASE 4090 10).unmapped = some 6 := by
    refine List.find?_range_eq_some.mpr ⟨?_, by decide, fun i hi => ?_⟩
    · rw [hnone _ (by decide)]
      rfl
    · rw [hmapped _ (by omega)]
      rfl
  have hcopies : (s.buffer KERNBASE 4090 10).copies 2 8 = 4 := by
    rw [Fs.Buffer.copies, hbuffer]
    rfl
  have hrun := copyin_spec (show 2 + 8 ≤ 10 by decide) fun i hi => hsome (4090 + i) (by omega)
  rw [hcopies] at hrun
  exact ⟨s, hsome 4092 (by decide), hrun⟩

end Xv6.Vm
