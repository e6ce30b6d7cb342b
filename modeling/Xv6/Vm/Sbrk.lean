import Xv6.Vm.Space

/-!
# The size of a process

`growproc` of `kernel/proc.c` and `sys_sbrk` of `kernel/sysproc.c`, over the page table of the calling
process and its `sz`. The increment is the `int` argument of the system call, a 32-bit word.

`sbrk` moves the size by the increment, or fails and changes nothing, except when it is asked to shrink
the process by more than its size: then `sz + n` wraps, `uvmdealloc` takes it for a larger size and
answers the old one, and the call succeeds without having done anything.
-/

namespace Xv6.Vm

open Base

/-- `growproc`: the answer, and the size of the process after it. The addition is of a `uint64` and an
`int`. -/
def growproc (pagetable sz : Nat) (n : BitVec 32) : M (Int × Nat) :=
  if 0 < n.toInt then do
    let newsz ← uvmalloc pagetable sz ((sz + intArg n.toNat) % 2 ^ 64) PTE_W
    if newsz = 0 then pure (-1, sz) else pure (0, newsz)
  else if n.toInt < 0 then do
    let newsz ← uvmdealloc pagetable sz ((sz + intArg n.toNat) % 2 ^ 64)
    pure (0, newsz)
  else pure (0, sz)

/-- `sys_sbrk`: the answer as a `uint64`, and the size of the process after it. -/
def sysSbrk (pagetable sz : Nat) (n : BitVec 32) : M (Nat × Nat) := do
  let r ← growproc pagetable sz n
  if r.1 < 0 then pure (2 ^ 64 - 1, r.2) else pure (sz, r.2)

/-- One call of `sbrk` after the other. -/
def sbrks (pagetable : Nat) : Nat → List (BitVec 32) → M Nat
  | sz, [] => pure sz
  | sz, n :: ns => do
    let r ← sysSbrk pagetable sz n
    sbrks pagetable r.2 ns

variable {s s' : Ram} {pt n m sz : Nat}

/-! ## What is kept -/

/-- The first `n` pages are mapped as they were, and hold what they held. -/
def Kept (s : Ram) (pt n : Nat) (s' : Ram) : Prop :=
  ∀ va, va < n * PGSIZE → s'.lookup pt va = s.lookup pt va ∧
    ∀ p flags, s.lookup pt va = some (p, flags) → s'.page p = s.page p

theorem Extends.kept {flags n' : Nat} (h : Space s pt n) (hext : Extends s pt n flags s' n') :
    Kept s pt n s' := by
  intro va hva
  refine ⟨hext.old va (h.lt_maxva hva) (.inl hva), fun p flags' he => ?_⟩
  obtain ⟨-, htable, hfree⟩ := h.frame (h.mem_frames hva he)
  exact hext.outside p htable hfree

theorem Shrunk.kept {k : Nat} (h : Space s pt (m + k)) (hshrunk : Shrunk s pt m k s') :
    Kept s pt m s' := by
  intro va hva
  have hlt : va < (m + k) * PGSIZE :=
    Nat.lt_of_lt_of_le hva (Nat.mul_le_mul_right PGSIZE (Nat.le_add_right m k))
  refine ⟨hshrunk.lookup va (h.lt_maxva hlt) (.inl hva), fun p flags he => ?_⟩
  obtain ⟨-, htable, -⟩ := h.frame (h.mem_frames hlt he)
  apply hshrunk.outside p htable
  -- a page of the kept part is not one of the part that is given back
  intro hin
  have hfirst : p ∈ s.frames pt m 0 := by
    have hpage : (0 + va / PGSIZE * PGSIZE) / PGSIZE = va / PGSIZE := by
      rw [Nat.zero_add]
      exact Nat.mul_div_cancel _ (by norm_num)
    have hle : 0 + va / PGSIZE * PGSIZE ≤ va := by
      rw [Nat.zero_add]
      exact Nat.div_mul_le_self va PGSIZE
    refine Ram.mem_frames.mpr ⟨va / PGSIZE, flags,
      (Nat.div_lt_iff_lt_mul (by norm_num)).mpr hva, ?_⟩
    rw [Ram.lookup_congr hpage (Nat.lt_of_le_of_lt hle (h.lt_maxva hlt)) (h.lt_maxva hlt)]
    exact he
  have hnodup := h.nodup_frames
  rw [Ram.frames_add, Nat.zero_add] at hnodup
  exact (List.nodup_append.mp hnodup).2.2 p hfirst p hin rfl

/-! ## The outcome of a call -/

/-- What a call of `sbrk` with this increment may come to: it fails and changes nothing, or it answers
the old size and the process has the new one. -/
def Resized (s : Ram) (pt sz : Nat) (n : Int) (ret newsz : Nat) (s' : Ram) : Prop :=
  Space s' pt (pages newsz) ∧
    (ret = 2 ^ 64 - 1 ∧ newsz = sz ∧ Kept s pt (pages sz) s' ∨
      ret = sz ∧ (newsz : Int) = sz + n ∧ Kept s pt (min (pages sz) (pages newsz)) s' ∧
        ∀ va, pages sz * PGSIZE ≤ va → va < pages newsz * PGSIZE →
          ∃ p flags, s'.lookup pt va = some (p, flags) ∧ s'.page p = filled 0)

/-- An increment as it is added to the size. -/
theorem add_intArg (sz : Nat) (n : BitVec 32) :
    ((sz + intArg n.toNat) % 2 ^ 64 : Nat) = (sz + n.toInt) % 2 ^ 64 := by
  have hlt : n.toNat < 2 ^ 32 := n.isLt
  have hmod : n.toNat % 2 ^ 32 = n.toNat := Nat.mod_eq_of_lt hlt
  rw [BitVec.toInt_eq_toNat_cond]
  unfold intArg
  rw [hmod]
  by_cases hpos : n.toNat < 2 ^ 31
  · rw [if_pos hpos, if_pos (by omega)]
    omega
  · rw [if_neg hpos, if_neg (by omega)]
    omega

theorem toInt_range (n : BitVec 32) : -2 ^ 31 ≤ n.toInt ∧ n.toInt < 2 ^ 31 := by
  have hlt := BitVec.toInt_lt (x := n)
  have hge := BitVec.le_toInt n
  omega

theorem growproc_grow (h : Space s pt (pages sz)) {n : BitVec 32} (hn : 0 < n.toInt) :
    ∃ r newsz s', growproc pt sz n s = .ok ((r, newsz), s') ∧
      (r = 0 ∧ (newsz : Int) = sz + n.toInt ∧
          Extends s pt (pages sz) (PTE_R ||| PTE_U ||| PTE_W ||| PTE_V) s' (pages newsz) ∨
        r = -1 ∧ newsz = sz ∧
          Extends s pt (pages sz) (PTE_R ||| PTE_U ||| PTE_W ||| PTE_V) s' (pages sz)) := by
  obtain ⟨newsz, hnew⟩ : ∃ newsz, newsz = (sz + intArg n.toNat) % 2 ^ 64 := ⟨_, rfl⟩
  have hsum : (newsz : Int) = sz + n.toInt := by
    have hsize := h.size_lt
    have hrange := (toInt_range n).2
    rw [hnew, add_intArg]
    omega
  have hle : sz ≤ newsz := by omega
  have hne : newsz ≠ 0 := by omega
  unfold growproc
  rw [if_pos hn, ← hnew]
  obtain ⟨r, s', hrun, ⟨hr, hext⟩ | ⟨hr, hext⟩⟩ := uvmalloc_spec h hle (show PTE_W < 2 ^ 10 by norm_num)
  · subst hr
    refine ⟨0, r, s', ?_, .inl ⟨rfl, hsum, hext⟩⟩
    rw [run_bind_ok hrun, if_neg hne]
    rfl
  · subst hr
    refine ⟨-1, sz, s', ?_, .inr ⟨rfl, rfl, hext⟩⟩
    rw [run_bind_ok hrun]
    rfl

theorem growproc_shrink (h : Space s pt (pages sz)) {n : BitVec 32} (hn : n.toInt < 0)
    (hle : -n.toInt ≤ sz) :
    ∃ newsz s', growproc pt sz n s = .ok ((0, newsz), s') ∧ (newsz : Int) = sz + n.toInt ∧
      newsz < sz ∧ Shrunk s pt (pages newsz) (pages sz - pages newsz) s' := by
  obtain ⟨newsz, hnew⟩ : ∃ newsz, newsz = (sz + intArg n.toNat) % 2 ^ 64 := ⟨_, rfl⟩
  have hsum : (newsz : Int) = sz + n.toInt := by
    have hsize := h.size_lt
    rw [hnew, add_intArg]
    omega
  have hlt : newsz < sz := by omega
  obtain ⟨s', hrun, hshrunk⟩ := uvmdealloc_spec h hlt
  refine ⟨newsz, s', ?_, hsum, hlt, hshrunk⟩
  unfold growproc
  rw [if_neg (by omega), if_pos hn, ← hnew, run_bind_ok hrun]
  rfl

/-- Taking away more than there is. -/
theorem growproc_wrap (h : Space s pt (pages sz)) {n : BitVec 32} (hn : (sz : Int) < -n.toInt) :
    growproc pt sz n s = .ok ((0, sz), s) := by
  have hge : sz ≤ (sz + intArg n.toNat) % 2 ^ 64 := by
    have hsize := h.size_lt
    have hsum := add_intArg sz n
    have hrange := (toInt_range n).1
    omega
  have hrun : uvmdealloc pt sz ((sz + intArg n.toNat) % 2 ^ 64) s = .ok (sz, s) := by
    unfold uvmdealloc
    rw [if_pos hge]
    rfl
  unfold growproc
  rw [if_neg (by omega), if_pos (by omega), run_bind_ok hrun]
  rfl

theorem growproc_zero {n : BitVec 32} (hn : n.toInt = 0) : growproc pt sz n s = .ok ((0, sz), s) := by
  unfold growproc
  rw [if_neg (by omega), if_neg (by omega)]
  rfl

theorem sysSbrk_run {n : BitVec 32} {r : Int} {newsz : Nat}
    (h : growproc pt sz n s = .ok ((r, newsz), s')) :
    sysSbrk pt sz n s = .ok ((if r < 0 then 2 ^ 64 - 1 else sz, newsz), s') := by
  unfold sysSbrk
  rw [run_bind_ok h]
  show (if _ then _ else _ : M (Nat × Nat)) s' = _
  by_cases hr : r < 0
  · rw [if_pos hr, if_pos hr]
    rfl
  · rw [if_neg hr, if_neg hr]
    rfl

theorem sysSbrk_resized (h : Space s pt (pages sz)) {n : BitVec 32}
    (hn : 0 ≤ n.toInt ∨ -n.toInt ≤ sz) :
    ∃ ret newsz s', sysSbrk pt sz n s = .ok ((ret, newsz), s') ∧
      Resized s pt sz n.toInt ret newsz s' := by
  rcases lt_trichotomy n.toInt 0 with hneg | hzero | hpos
  · have hle : -n.toInt ≤ sz := hn.resolve_left (Int.not_le.mpr hneg)
    obtain ⟨newsz, s', hrun, hsum, hlt, hshrunk⟩ := growproc_shrink h hneg hle
    have hpages : pages newsz ≤ pages sz := pages_mono (Nat.le_of_lt hlt)
    refine ⟨sz, newsz, s', sysSbrk_run hrun, hshrunk.space, .inr ⟨rfl, hsum, ?_, ?_⟩⟩
    · rw [Nat.min_eq_right hpages]
      rw [← Nat.add_sub_of_le hpages] at h
      exact hshrunk.kept h
    · intro va hge hva
      have hmul := Nat.mul_le_mul_right PGSIZE hpages
      exact absurd hva (Nat.not_lt.mpr (Nat.le_trans hmul hge))
  · refine ⟨sz, sz, s, sysSbrk_run (growproc_zero hzero), h, .inr ⟨rfl, ?_, fun va _ => ⟨rfl, ?_⟩, ?_⟩⟩
    · rw [hzero, Int.add_zero]
    · exact fun _ _ _ => rfl
    · exact fun va hge hva => absurd hva (Nat.not_lt.mpr hge)
  · obtain ⟨r, newsz, s', hrun, ⟨rfl, hsum, hext⟩ | ⟨rfl, rfl, hext⟩⟩ := growproc_grow h hpos
    · refine ⟨sz, newsz, s', sysSbrk_run hrun, hext.space, .inr ⟨rfl, hsum, ?_, fun va hge hva => ?_⟩⟩
      · rw [Nat.min_eq_left hext.le]
        exact hext.kept h
      · obtain ⟨p, -, hlookup, hclear⟩ := hext.new va hge hva
        exact ⟨p, _, hlookup, hclear⟩
    · exact ⟨2 ^ 64 - 1, newsz, s', sysSbrk_run hrun, hext.space, .inl ⟨rfl, rfl, hext.kept h⟩⟩

/-- Every call leaves a process whose pages are those of its size. -/
theorem sysSbrk_space (h : Space s pt (pages sz)) (n : BitVec 32) :
    ∃ ret newsz s', sysSbrk pt sz n s = .ok ((ret, newsz), s') ∧ Space s' pt (pages newsz) := by
  by_cases hn : 0 ≤ n.toInt ∨ -n.toInt ≤ sz
  · obtain ⟨ret, newsz, s', hrun, hspace, -⟩ := sysSbrk_resized h hn
    exact ⟨ret, newsz, s', hrun, hspace⟩
  · rw [not_or] at hn
    exact ⟨sz, sz, s, sysSbrk_run (growproc_wrap h (Int.not_le.mp hn.2)), h⟩

theorem sbrks_space (ns : List (BitVec 32)) (h : Space s pt (pages sz)) :
    ∃ newsz s', sbrks pt sz ns s = .ok (newsz, s') ∧ Space s' pt (pages newsz) := by
  induction ns generalizing s sz with
  | nil => exact ⟨sz, s, rfl, h⟩
  | cons n ns ih =>
    obtain ⟨ret, mid, t, hrun, hspace⟩ := sysSbrk_space h n
    obtain ⟨newsz, s', hrest, hspace'⟩ := ih hspace
    refine ⟨newsz, s', ?_, hspace'⟩
    rw [sbrks, run_bind_ok hrun]
    exact hrest

/-- For a process whose user pages are those of its size, a call of `sbrk` fails and changes nothing,
or it answers the old size and moves the size by the increment, exactly when it is not asked to take
away more than there is. After every sequence of calls the user pages are those of the size. -/
theorem sbrk_resizes_iff (h : Space s pt (pages sz)) :
    (∀ n : BitVec 32, (∃ ret newsz s', sysSbrk pt sz n s = .ok ((ret, newsz), s') ∧
        Resized s pt sz n.toInt ret newsz s') ↔ 0 ≤ n.toInt ∨ -n.toInt ≤ sz) ∧
      ∀ ns : List (BitVec 32), ∃ newsz s', sbrks pt sz ns s = .ok (newsz, s') ∧
        Space s' pt (pages newsz) := by
  refine ⟨fun n => ⟨?_, sysSbrk_resized h⟩, fun ns => sbrks_space ns h⟩
  rintro ⟨ret, newsz, s', hrun, -, houtcome⟩
  by_contra hn
  rw [not_or, Int.not_le, Int.not_le] at hn
  -- the call answers the old size, and the size is the old one
  have hwrap := sysSbrk_run (growproc_wrap h hn.2)
  rw [hrun] at hwrap
  cases hwrap
  have hsize := h.size_lt
  rcases houtcome with ⟨hret, -, -⟩ | ⟨-, hsum, -⟩
  · rw [if_neg (by decide)] at hret
    omega
  · omega

/-- A process without user pages grows by one and shrinks by one. -/
theorem sbrk_resizes_page :
    (∃ ret newsz s', sysSbrk KERNBASE 0 4096#32 clearedRam = .ok ((ret, newsz), s') ∧
        Resized clearedRam KERNBASE 0 4096 ret newsz s') ∧
      ∃ newsz s', sbrks KERNBASE 0 [4096#32, -4096#32] clearedRam = .ok (newsz, s') ∧
        Space s' KERNBASE (pages newsz) := by
  have hspace : Space clearedRam KERNBASE (pages 0) :=
    .cleared rfl clearedRam_sound (by decide) (by decide)
  exact ⟨((sbrk_resizes_iff hspace).1 4096#32).mpr (.inl (by decide)), (sbrk_resizes_iff hspace).2 _⟩

/-- A process of one page asks for 8192 bytes less. The call answers the old size, as if it had
succeeded, and the size is the old one. -/
theorem sbrk_ignores_large_decrement :
    ∃ s, Space s KERNBASE (pages 4096) ∧
      sysSbrk KERNBASE 4096 (-8192#32) s = .ok ((4096, 4096), s) ∧
      ¬ ∃ ret newsz s', sysSbrk KERNBASE 4096 (-8192#32) s = .ok ((ret, newsz), s') ∧
        Resized s KERNBASE 4096 (-8192) ret newsz s' := by
  have hempty : Space clearedRam KERNBASE (pages 0) :=
    .cleared rfl clearedRam_sound (by decide) (by decide)
  obtain ⟨ret, newsz, s, hrun, hspace⟩ := sysSbrk_space hempty 4096#32
  have hfirst : (sysSbrk KERNBASE 0 4096#32 clearedRam).map Prod.fst = .ok (0, 4096) := by
    decide +kernel
  rw [hrun] at hfirst
  cases hfirst
  have hwrap : sysSbrk KERNBASE 4096 (-8192#32) s = .ok ((4096, 4096), s) :=
    sysSbrk_run (growproc_wrap hspace (by decide))
  refine ⟨s, hspace, hwrap, ?_⟩
  rintro ⟨ret, newsz, s', hagain, -, houtcome⟩
  rw [hwrap] at hagain
  cases hagain
  rcases houtcome with ⟨hret, -, -⟩ | ⟨-, hsum, -⟩
  · cases hret
  · cases hsum

end Xv6.Vm
