import Xv6.Vm.Copyin
import Xv6.Vm.UserStores

/-!
# User copies and the bytes of user memory

`copyout`, `copyin` and `copyinstr` of `kernel/vm.c` go over user memory in fragments of pages. A
process sees its memory byte by byte: an address has a byte when its page is below `MAXVA` and is mapped
with `PTE_V` and `PTE_U`. The three functions agree with this view at every address, also at those
near `MAXVA` and near the end of the address space.
-/

namespace Xv6.Vm

open Base

variable {s : Ram} {pt va pa : Nat}

/-! ## `copyinstr` -/

/-- The inner loop of `copyinstr`, over `n` bytes of a page: the bytes it stores, and whether it got
a NUL. -/
def copyString (page : Page) : Nat → Nat → List UInt8 × Bool
  | _, 0 => ([], false)
  | off, n + 1 =>
    if page.byte off = 0 then ([0], true)
    else
      let r := copyString page (off + 1) n
      (page.byte off :: r.1, r.2)

/-- The loop of `copyinstr`: its answer, and the bytes it has stored. Every round that does not end
it takes at least one byte. -/
def copyinstrLoop (pagetable : Nat) : Nat → Nat → Nat → M (Int × List UInt8)
  | 0, _, _ => pure (-1, [])
  | rounds + 1, srcva, max =>
    if max = 0 then pure (-1, [])
    else do
      let va0 := pgrounddown srcva
      let pa0 ← walkaddr pagetable va0
      if pa0 = 0 then pure (-1, [])
      else do
        let n := min (PGSIZE - (srcva - va0)) max
        let (bytes, gotNull) := copyString ((← get).page pa0) (srcva - va0) n
        if gotNull then pure (0, bytes)
        else do
          let (r, rest) ← copyinstrLoop pagetable rounds ((PGSIZE + va0) % 2 ^ 64) (max - n)
          pure (r, bytes ++ rest)

/-- `copyinstr`. -/
def copyinstr (pagetable srcva max : Nat) : M (Int × List UInt8) :=
  copyinstrLoop pagetable max srcva max

/-- A string in user memory, read byte by byte. -/
def Ram.readString (s : Ram) (pt : Nat) : Nat → Nat → Int × List UInt8
  | 0, _ => (-1, [])
  | max + 1, va =>
    if (s.user pt va).isNone then (-1, [])
    else if s.userByte pt va = 0 then (0, [0])
    else
      let r := s.readString pt max (va + 1)
      (r.1, s.userByte pt va :: r.2)

/-- A fragment of a page is read as its bytes are. -/
theorem Ram.readString_page {n max : Nat} (hu : s.user pt va = some pa)
    (hn : va % PGSIZE + n ≤ PGSIZE) (hmax : n ≤ max) :
    s.readString pt max va =
      if (copyString (s.page pa) (va % PGSIZE) n).2 then
        (0, (copyString (s.page pa) (va % PGSIZE) n).1)
      else
        ((s.readString pt (max - n) (va + n)).1,
          (copyString (s.page pa) (va % PGSIZE) n).1 ++ (s.readString pt (max - n) (va + n)).2) := by
  induction n generalizing va max with
  | zero => rfl
  | succ n ih =>
    obtain ⟨max, rfl⟩ : ∃ m, max = m + 1 := ⟨max - 1, by omega⟩
    have hbyte := Ram.userByte_eq hu
    rw [Ram.readString, copyString, hu, hbyte]
    by_cases hnull : (s.page pa).byte (va % PGSIZE) = 0
    · simp [hnull]
    · -- the rest of the fragment begins at the next byte of the page
      have hrest : s.readString pt max (va + 1) =
          if (copyString (s.page pa) (va % PGSIZE + 1) n).2 then
            (0, (copyString (s.page pa) (va % PGSIZE + 1) n).1)
          else
            ((s.readString pt (max - n) (va + 1 + n)).1,
              (copyString (s.page pa) (va % PGSIZE + 1) n).1 ++
                (s.readString pt (max - n) (va + 1 + n)).2) := by
        cases n with
        | zero => rfl
        | succ n =>
          have hsize : PGSIZE = 4096 := rfl
          have hmod : (va + 1) % PGSIZE = va % PGSIZE + 1 := by
            rw [hsize] at hn ⊢
            omega
          have hpage : (va + 1) / PGSIZE = va / PGSIZE := by
            rw [hsize] at hn ⊢
            omega
          rw [← hmod]
          apply ih
          · rw [Ram.user_congr hpage, hu]
          · rw [hmod]
            omega
          · omega
      have hleft : max + 1 - (n + 1) = max - n := Nat.add_sub_add_right ..
      have haddr : va + (n + 1) = va + 1 + n := by omega
      rw [Option.isNone_some, if_neg Bool.false_ne_true, if_neg hnull, if_neg hnull, hleft, haddr]
      dsimp only
      rw [hrest]
      cases (copyString (s.page pa) (va % PGSIZE + 1) n).2 <;> rfl

theorem copyinstrLoop_spec {rounds max : Nat} (hmax : max ≤ rounds) :
    copyinstrLoop pt rounds va max s = .ok (s.readString pt max va, s) := by
  induction rounds generalizing va max with
  | zero =>
    obtain rfl : max = 0 := Nat.le_zero.mp hmax
    rfl
  | succ rounds ih =>
    by_cases hzero : max = 0
    · subst hzero
      rfl
    have hsize : PGSIZE = 4096 := rfl
    rw [copyinstrLoop, if_neg hzero]
    show (walkaddr pt (pgrounddown va) >>= fun pa0 => if pa0 = 0 then _ else _ :
      M (Int × List UInt8)) s = _
    rw [run_bind_ok (walkaddr_spec ..), Ram.user_congr (pgrounddown_div va)]
    cases hu : s.user pt va with
    | none =>
      obtain ⟨max, rfl⟩ : ∃ m, max = m + 1 := ⟨max - 1, by omega⟩
      rw [Ram.readString, hu]
      rfl
    | some pa =>
      obtain ⟨-, -, -, hne⟩ := Ram.user_eq_some hu
      have hva := Ram.user_lt hu
      obtain ⟨n, hn⟩ : ∃ n, n = min (PGSIZE - va % PGSIZE) max := ⟨_, rfl⟩
      have hmod := mod_pgsize_lt va
      rw [Option.getD_some, if_neg hne, sub_pgrounddown, ← hn,
        Ram.readString_page hu (n := n) (by omega) (by omega)]
      show (get >>= fun s' => _ : M (Int × List UInt8)) s = _
      rw [run_get_bind]
      cases hnull : (copyString (s.page pa) (va % PGSIZE) n).2 with
      | true =>
        simp only [hnull]
        rfl
      | false =>
        -- the next round starts where this one has ended
        have hnext : copyinstrLoop pt rounds ((PGSIZE + pgrounddown va) % 2 ^ 64) (max - n) s =
            .ok (s.readString pt (max - n) (va + n), s) := by
          by_cases hlast : max ≤ n
          · rw [Nat.sub_eq_zero_of_le hlast]
            cases rounds <;> rfl
          · rw [next_page hva hn (Nat.not_le.mp hlast)]
            exact ih (by omega)
        simp only [hnull]
        exact run_bind_ok hnext

theorem copyinstr_spec (pt va max : Nat) (s : Ram) :
    copyinstr pt va max s = .ok (s.readString pt max va, s) :=
  copyinstrLoop_spec (Nat.le_refl max)

/-- A string ends at its first NUL, if that comes before `max` and before a byte that is not there. -/
theorem Ram.readString_spec (s : Ram) (pt max va : Nat) :
    (∃ k, k < max ∧ s.userByte pt (va + k) = 0 ∧ (∀ i, i < k → s.userByte pt (va + i) ≠ 0) ∧
      (∀ i, i ≤ k → (s.user pt (va + i)).isSome = true) ∧
      s.readString pt max va = (0, (List.range (k + 1)).map fun i => s.userByte pt (va + i))) ∨
    ∃ m, m ≤ max ∧ (∀ i, i < m → s.userByte pt (va + i) ≠ 0) ∧
      (m < max → s.user pt (va + m) = none) ∧
      s.readString pt max va = (-1, (List.range m).map fun i => s.userByte pt (va + i)) := by
  induction max generalizing va with
  | zero =>
    exact .inr ⟨0, Nat.le_refl 0, fun i hi => absurd hi (Nat.not_lt_zero i),
      fun h => absurd h (Nat.lt_irrefl 0), rfl⟩
  | succ max ih =>
    rw [Ram.readString]
    cases hu : s.user pt va with
    | none =>
      exact .inr ⟨0, Nat.zero_le _, fun i hi => absurd hi (Nat.not_lt_zero i), fun _ => hu, rfl⟩
    | some pa =>
      rw [Option.isNone_some, if_neg Bool.false_ne_true]
      by_cases hnull : s.userByte pt va = 0
      · rw [if_pos hnull]
        refine .inl ⟨0, Nat.succ_pos max, hnull, fun i hi => absurd hi (Nat.not_lt_zero i), ?_, ?_⟩
        · intro i hi
          rw [Nat.le_zero.mp hi, Nat.add_zero, hu]
          rfl
        · show _ = (_, [s.userByte pt va])
          rw [hnull]
      · rw [if_neg hnull]
        -- a byte before the string that begins behind it
        have hcons : ∀ m, (List.range (m + 1)).map (fun i => s.userByte pt (va + i)) =
            s.userByte pt va :: (List.range m).map fun i => s.userByte pt (va + 1 + i) := by
          intro m
          rw [List.range_succ_eq_map, List.map_cons, List.map_map]
          refine congrArg (s.userByte pt va :: ·) (List.map_congr_left fun i _ => ?_)
          show s.userByte pt (va + (i + 1)) = _
          rw [Nat.add_assoc, Nat.add_comm 1]
        have hfirst : ∀ m, (∀ i, i < m → s.userByte pt (va + 1 + i) ≠ 0) →
            ∀ i, i < m + 1 → s.userByte pt (va + i) ≠ 0 := by
          intro m hm i hi
          cases i with
          | zero => exact hnull
          | succ i =>
            rw [Nat.add_comm i, ← Nat.add_assoc]
            exact hm i (Nat.lt_of_succ_lt_succ hi)
        rcases ih (va + 1) with ⟨k, hk, hzero, hbefore, hmapped, hread⟩ | ⟨m, hm, hbefore, hstop, hread⟩
        · refine .inl ⟨k + 1, Nat.succ_lt_succ hk, ?_, hfirst k hbefore, fun i hi => ?_, ?_⟩
          · rw [Nat.add_comm k, ← Nat.add_assoc]
            exact hzero
          · cases i with
            | zero =>
              rw [Nat.add_zero, hu]
              rfl
            | succ i =>
              rw [Nat.add_comm i, ← Nat.add_assoc]
              exact hmapped i (Nat.le_of_succ_le_succ hi)
          · rw [hread, hcons]
        · refine .inr ⟨m + 1, Nat.succ_le_succ hm, hfirst m hbefore, fun hlt => ?_, ?_⟩
          · rw [Nat.add_comm m, ← Nat.add_assoc]
            exact hstop (Nat.lt_of_succ_lt_succ hlt)
          · rw [hread, hcons]

/-! ## The bytes of user memory -/

/-- The address lies in a page below `MAXVA` mapped with `PTE_V` and `PTE_U`. -/
def Ram.Accessible (s : Ram) (pt va : Nat) : Prop :=
  va < MAXVA ∧ ∃ pa flags, s.lookup pt va = some (pa, flags) ∧ has flags PTE_V = true ∧
    has flags PTE_U = true

/-- A page table of a process: no page of the table is mapped for the user, and nothing is mapped to
the page at address 0. -/
structure UserTable (s : Ram) (pt : Nat) : Prop where
  separate : Separate s pt
  nonzero : ∀ va pa flags, s.lookup pt va = some (pa, flags) → pa ≠ 0

/-- Memory after these bytes have been stored at a user address and nothing else: only the places of
the bytes may have changed, and a place that only one of them has holds it. -/
structure Stored (s : Ram) (pt dst : Nat) (bytes : List UInt8) (s' : Ram) : Prop where
  freelist : s'.freelist = s.freelist
  kend : s'.kend = s.kend
  other : ∀ p j, (∀ i, i < bytes.length → s.place pt (dst + i) ≠ some (p, j)) →
    s'.page p j = s.page p j
  byte : ∀ i b, bytes[i]? = some b →
    (∀ k, k < bytes.length → k ≠ i → s.place pt (dst + k) ≠ s.place pt (dst + i)) →
    s'.userByte pt (dst + i) = b

theorem UserTable.accessible_iff (h : UserTable s pt) :
    s.Accessible pt va ↔ (s.user pt va).isSome = true := by
  constructor
  · rintro ⟨-, pa, flags, hlookup, -, hu⟩
    unfold Ram.user
    rw [hlookup, Option.bind_some, if_pos ⟨hu, h.nonzero va pa flags hlookup⟩]
    rfl
  · intro hsome
    obtain ⟨pa, hpa⟩ := Option.isSome_iff_exists.mp hsome
    obtain ⟨flags, hlookup, hu, -⟩ := Ram.user_eq_some hpa
    have hva := Ram.user_lt hpa
    obtain ⟨p, -, hv, he⟩ := Ram.lookup_some hva hlookup
    cases he
    exact ⟨hva, _, _, hlookup, (has_flags (by norm_num) _).trans hv, hu⟩

theorem stored_deposit (hsep : Separate s pt) {dst : Nat} {bytes : List UInt8}
    (hfits : s.fits pt (bytesAt dst bytes) = true) :
    Stored s pt dst bytes (s.deposit (s.taken pt (bytesAt dst bytes))) := by
  have hsame := Ram.deposit_same hsep (bytesAt dst bytes)
  refine ⟨rfl, rfl, fun p j hp => ?_, fun i b hb hone => ?_⟩
  · apply overlay_of_not_mem (a := (p, j))
    intro w hw he
    obtain ⟨a, ha, hin⟩ := Ram.mem_taken hw
    obtain ⟨i, hi, hbyte⟩ := mem_bytesAt.mp hin
    have hlt : i < bytes.length := (List.getElem?_eq_some_iff.mp hbyte).1
    apply hp i hlt
    rw [← hi, ha, he]
  · have hlt : i < bytes.length := (List.getElem?_eq_some_iff.mp hb).1
    obtain ⟨pa, hpa⟩ := Option.isSome_iff_exists.mp (Ram.fits_bytesAt.mp hfits i hlt)
    have hplace : s.place pt (dst + i) = some (pa, ⟨(dst + i) % PGSIZE, Nat.mod_lt _ (by norm_num)⟩) := by
      unfold Ram.place
      rw [hpa]
      rfl
    rw [Ram.userByte_eq ((hsame.user _).trans hpa), Bytes.byte, dif_pos (Nat.mod_lt _ (by norm_num))]
    refine overlay_eq ⟨(_, b), Ram.mem_taken_of_fits hfits (mem_bytesAt.mpr ⟨i, rfl, hb⟩) hplace, rfl⟩ ?_
    -- every byte written there is this one
    intro w hw he
    obtain ⟨a, ha, hin⟩ := Ram.mem_taken hw
    obtain ⟨k, hk, hbyte⟩ := mem_bytesAt.mp hin
    have hklt : k < bytes.length := (List.getElem?_eq_some_iff.mp hbyte).1
    have hki : k = i := by
      by_contra hne
      apply hone k hklt hne
      rw [← hk, ha, he, hplace]
    rw [hki, hb] at hbyte
    exact (Option.some.inj hbyte).symm

/-! ## The three functions -/

theorem copyout_bytewise (h : UserTable s pt) (dst : Nat) (src : List UInt8) :
    ∃ r s' m, copyout pt dst src s = .ok (r, s') ∧ (r = 0 ∨ r = -1) ∧
      (r = 0 ↔ ∀ i, i < src.length → s.Accessible pt (dst + i)) ∧
      m ≤ src.length ∧ Stored s pt dst (src.take m) s' ∧ (r = 0 → m = src.length) := by
  obtain ⟨m, hcopied⟩ := exists_copiedIn s pt dst src.length
  have hstored := stored_deposit h.separate hcopied.fits
  rw [← hcopied.taken] at hstored
  have hall : s.fits pt (bytesAt dst src) = true ↔ m = src.length :=
    Ram.fits_bytesAt.trans hcopied.all_iff
  refine ⟨_, _, m, copyout_spec h.separate dst src, ?_, ?_, hcopied.le, hstored, ?_⟩
  · cases s.fits pt (bytesAt dst src) with
    | true => exact .inl rfl
    | false => exact .inr rfl
  · simp only [h.accessible_iff]
    rw [hcopied.all_iff, ← hall]
    cases s.fits pt (bytesAt dst src) with
    | true => exact iff_of_true rfl rfl
    | false => exact iff_of_false (by decide) Bool.false_ne_true
  · intro hr
    apply hall.mp
    by_contra hfits
    rw [if_neg hfits] at hr
    cases hr

theorem copyin_bytewise (h : UserTable s pt) (src len : Nat) :
    ∃ r m, copyin pt src len s =
        .ok ((r, (List.range m).map fun i => s.userByte pt (src + i)), s) ∧
      (r = 0 ∨ r = -1) ∧ (r = 0 ↔ ∀ i, i < len → s.Accessible pt (src + i)) ∧
      m ≤ len ∧ (r = 0 → m = len) := by
  obtain ⟨m, hcopied, hrun⟩ := @copyinLoop_spec s pt src len len (Nat.le_refl len)
  have hle := hcopied.le
  refine ⟨_, m, hrun, ?_, ?_, hle, ?_⟩
  · by_cases hlt : m < len
    · exact .inr (if_pos hlt)
    · exact .inl (if_neg hlt)
  · simp only [h.accessible_iff]
    rw [hcopied.all_iff]
    by_cases hlt : m < len
    · rw [if_pos hlt]
      exact iff_of_false (by decide) (Nat.ne_of_lt hlt)
    · rw [if_neg hlt]
      exact iff_of_true rfl (by omega)
  · intro hr
    by_contra hne
    rw [if_pos (by omega)] at hr
    cases hr

theorem copyinstr_bytewise (h : UserTable s pt) (src max : Nat) :
    ∃ r m, copyinstr pt src max s =
        .ok ((r, (List.range m).map fun i => s.userByte pt (src + i)), s) ∧
      (r = 0 ∨ r = -1) ∧
      (r = 0 ↔ ∃ k, k < max ∧ s.userByte pt (src + k) = 0 ∧
        ∀ i, i ≤ k → s.Accessible pt (src + i)) ∧
      m ≤ max ∧ (r = 0 → ∃ k, m = k + 1 ∧ s.userByte pt (src + k) = 0 ∧
        ∀ i, i < k → s.userByte pt (src + i) ≠ 0) := by
  simp only [h.accessible_iff]
  have hrun := copyinstr_spec pt src max s
  rcases s.readString_spec pt max src with
    ⟨k, hk, hzero, hbefore, hmapped, hread⟩ | ⟨m, hm, hbefore, hstop, hread⟩
  · rw [hread] at hrun
    exact ⟨0, k + 1, hrun, .inl rfl, iff_of_true rfl ⟨k, hk, hzero, hmapped⟩, hk,
      fun _ => ⟨k, rfl, hzero, hbefore⟩⟩
  · rw [hread] at hrun
    refine ⟨-1, m, hrun, .inr rfl, iff_of_false (by decide) ?_, hm, nofun⟩
    rintro ⟨k, hk, hzero, hmapped⟩
    have hge : m ≤ k := by
      by_contra hlt
      exact hbefore k (Nat.not_le.mp hlt) hzero
    have hsome := hmapped m hge
    rw [hstop (lt_of_le_of_lt hge hk)] at hsome
    cases hsome

/-- User copies and the bytes of user memory, for every address and length. `copyout` and `copyin`
answer 0 exactly when every byte of the range is there, and -1 otherwise; what they have transferred
are the first bytes of the range, all of them when they answer 0. `copyinstr` answers 0 exactly when
a NUL comes within `max` bytes that are there, and has then stored the string up to the first NUL.
No address is computed modulo the size of the address space. -/
theorem user_copies_bytewise (h : UserTable s pt) :
    (∀ (dst : UInt64) (src : List UInt8), ∃ r s' m, copyout pt dst.toNat src s = .ok (r, s') ∧
      (r = 0 ∨ r = -1) ∧ (r = 0 ↔ ∀ i, i < src.length → s.Accessible pt (dst.toNat + i)) ∧
      m ≤ src.length ∧ Stored s pt dst.toNat (src.take m) s' ∧ (r = 0 → m = src.length)) ∧
    (∀ (src : UInt64) (len : Nat), ∃ r m, copyin pt src.toNat len s =
        .ok ((r, (List.range m).map fun i => s.userByte pt (src.toNat + i)), s) ∧
      (r = 0 ∨ r = -1) ∧ (r = 0 ↔ ∀ i, i < len → s.Accessible pt (src.toNat + i)) ∧
      m ≤ len ∧ (r = 0 → m = len)) ∧
    (∀ (src : UInt64) (max : Nat), ∃ r m, copyinstr pt src.toNat max s =
        .ok ((r, (List.range m).map fun i => s.userByte pt (src.toNat + i)), s) ∧
      (r = 0 ∨ r = -1) ∧
      (r = 0 ↔ ∃ k, k < max ∧ s.userByte pt (src.toNat + k) = 0 ∧
        ∀ i, i ≤ k → s.Accessible pt (src.toNat + i)) ∧
      m ≤ max ∧ (r = 0 → ∃ k, m = k + 1 ∧ s.userByte pt (src.toNat + k) = 0 ∧
        ∀ i, i < k → s.userByte pt (src.toNat + i) ≠ 0)) :=
  ⟨fun dst src => copyout_bytewise h dst.toNat src, fun src len => copyin_bytewise h src.toNat len,
    fun src max => copyinstr_bytewise h src.toNat max⟩

/-- Three bytes are copied to a program of one page, its last six bytes from it, and a string that ends
at once. -/
theorem user_copies_bytewise_page : ∃ s, UserTable s KERNBASE ∧
    (∃ s', copyout KERNBASE (UInt64.toNat 8) [1, 2, 3] s = .ok (0, s') ∧
      Stored s KERNBASE (UInt64.toNat 8) [1, 2, 3] s') ∧
    copyin KERNBASE (UInt64.toNat 4090) 6 s =
      .ok ((0, (List.range 6).map fun i => s.userByte KERNBASE (UInt64.toNat 4090 + i)), s) ∧
    ∃ m, copyinstr KERNBASE (UInt64.toNat 0) 16 s =
      .ok ((0, (List.range m).map fun i => s.userByte KERNBASE (UInt64.toNat 0 + i)), s) := by
  obtain ⟨s, p, -, hsep, -, huser, hpage, hflags⟩ := exists_segment
    (show flags2perm 6 < 2 ^ 10 by decide) (by decide +kernel)
  have hsome : ∀ va, va < 4096 → s.user KERNBASE va = some p := by
    intro va hva
    rw [Ram.user_congr (show va / PGSIZE = 0 / PGSIZE by rw [Nat.div_eq_of_lt hva, Nat.zero_div]),
      huser]
  have htable : UserTable s KERNBASE := by
    refine ⟨hsep, fun va pa flags hlookup hzero => ?_⟩
    obtain ⟨_, hsame, -, hne⟩ := Ram.user_eq_some (hsome va (hflags va _ hlookup).1)
    rw [hlookup] at hsame
    cases hsame
    exact hne hzero
  have haccess : ∀ va, va < 4096 → s.Accessible KERNBASE va := by
    intro va hva
    rw [htable.accessible_iff, hsome va hva]
    rfl
  obtain ⟨hout, hin, hstr⟩ := user_copies_bytewise htable
  obtain ⟨r, s', m, hstore, -, hr, -, hstored, hm⟩ := hout 8 [1, 2, 3]
  obtain rfl := hr.mpr fun i hi => haccess (8 + i) (by have : i < 3 := hi; omega)
  obtain rfl := hm rfl
  obtain ⟨r, m, hload, -, hr, -, hm⟩ := hin 4090 6
  obtain rfl := hr.mpr fun i hi => haccess (4090 + i) (by omega)
  obtain rfl := hm rfl
  have hzero : s.userByte KERNBASE 0 = 0 := by
    rw [Ram.userByte_eq (hsome 0 (by decide)), hpage]
    rfl
  obtain ⟨r, m, hscan, -, hr, -⟩ := hstr 0 16
  obtain rfl := hr.mpr ⟨0, by decide, hzero, fun i hi => haccess (0 + i) (by omega)⟩
  exact ⟨s, htable, ⟨s', hstore, hstored⟩, hload, m, hscan⟩

end Xv6.Vm
