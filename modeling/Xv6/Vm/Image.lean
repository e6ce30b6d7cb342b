import Xv6.Vm.Copyout

/-!
# The page table of a process

`proc_pagetable` and `proc_freepagetable`. A table made by the first has no user pages and maps the
trampoline and the trapframe above them. The second takes any number of user pages and gives back all
pages of the table and all pages it maps for the user.

`Fresh s₀ s pt n` follows a table from its creation in `s₀` on: all its pages come from the free list
of `s₀`, and nothing else has changed.
-/

namespace Xv6.Vm

open Base

variable {s s' t : Ram} {pt n va p a sz : Nat}

/-! ## Above the user pages -/

theorem Space.detach (h : Space s pt n) (ha : TRAPFRAME ≤ a) (hmax : a + PGSIZE ≤ MAXVA)
    (hpage : a % PGSIZE = 0) (hmapped : (s.lookup pt a).isSome) :
    ∃ s', uvmunmap pt a 1 false s = .ok ((), s') ∧ Unmapped s pt a 1 [] s' ∧ Space s' pt n ∧
      s'.owned pt n = s.owned pt n ∧ s'.frames pt n 0 = s.frames pt n 0 := by
  have hone : ∀ k, k < 1 → (s.lookup pt (a + k * PGSIZE)).isSome := by
    intro k hk
    rw [Nat.lt_one_iff.mp hk, Nat.zero_mul, Nat.add_zero]
    exact hmapped
  have hend : a + 1 * PGSIZE ≤ MAXVA := by
    rw [Nat.one_mul]
    exact hmax
  obtain ⟨s', hrun, hu⟩ := uvmunmap_spec false h.table h.sound hend hpage hone nofun
  change Unmapped s pt a 1 [] s' at hu
  have hbelow : ∀ va, va < TRAPFRAME → s'.lookup pt va = s.lookup pt va := by
    intro va hva
    rw [hu.lookup va (Nat.lt_trans hva (by norm_num)), if_neg]
    rintro ⟨hge, -⟩
    exact absurd (Nat.le_trans ha hge) (Nat.not_le.mpr hva)
  have hframes : s'.frames pt n 0 = s.frames pt n 0 := Ram.frames_congr_of_lt fun va hva =>
    hbelow va (Nat.lt_of_lt_of_le hva h.low)
  have howned : s'.owned pt n = s.owned pt n := by
    have htables : (s'.tables pt : Multiset Nat) = (s.tables pt : Multiset Nat) :=
      Multiset.coe_eq_coe.mpr
        ((List.perm_ext_iff_of_nodup hu.table.nodup h.table.nodup).mpr hu.tables)
    have hfree : s'.freelist = s.freelist := hu.freelist
    unfold Ram.owned
    rw [htables, hframes, hfree]
  refine ⟨s', hrun, hu, ?_, howned, hframes⟩
  apply h.of_owned hu.table hu.sound hu.kend h.low _ _ howned
  · intro va hva
    rw [hbelow va (Nat.lt_of_lt_of_le hva h.low)]
    exact h.mapped va hva
  · intro va hge hlt
    rw [hbelow va hlt]
    exact h.above va hge hlt

/-- A table with its user pages, the trampoline and the trapframe. -/
structure Whole (s : Ram) (pt n : Nat) : Prop where
  space : Space s pt n
  top : (s.lookup pt TRAMPOLINE).isSome
  frame : (s.lookup pt TRAPFRAME).isSome

/-- Everything of a table that has been given back: its pages and its user pages. -/
structure Released (s : Ram) (pt n : Nat) (s' : Ram) : Prop where
  kend : s'.kend = s.kend
  freelist : (s'.freelist : Multiset Nat) = s.owned pt n
  outside : ∀ p, p ∉ s.tables pt → p ∉ s.frames pt n 0 → s'.page p = s.page p

theorem uvmfree_spec (h : Space s pt (pages sz))
    (habove : ∀ va, TRAPFRAME ≤ va → va < MAXVA → s.lookup pt va = none) :
    ∃ s', uvmfree pt sz s = .ok ((), s') ∧ Released s pt (pages sz) s' := by
  -- the user pages
  obtain ⟨t, hrun, hshrunk⟩ : ∃ t, (if 0 < sz then uvmunmap pt 0 (pgroundup sz / PGSIZE) true
      else pure ()) s = .ok ((), t) ∧ Shrunk s pt 0 (pages sz) t := by
    by_cases hpos : 0 < sz
    · have hcount : pgroundup sz / PGSIZE = pages sz := by
        rw [pgroundup_eq h.size_lt]
        exact Nat.mul_div_cancel _ (by norm_num)
      have hall : Space s pt (0 + pages sz) := by
        rw [Nat.zero_add]
        exact h
      obtain ⟨t, hrun, hshrunk⟩ := hall.shrink
      rw [Nat.zero_mul] at hrun
      rw [if_pos hpos, hcount]
      exact ⟨t, hrun, hshrunk⟩
    · have hzero : sz = 0 := Nat.eq_zero_of_not_pos hpos
      subst hzero
      exact ⟨s, rfl, .refl h⟩
  have hempty : ∀ va, va < MAXVA → t.lookup pt va = none := by
    intro va hva
    by_cases hlow : va < TRAPFRAME
    · exact hshrunk.space.above va (by rw [Nat.zero_mul]; exact Nat.zero_le va) hlow
    · have hge := Nat.not_lt.mp hlow
      rw [hshrunk.lookup va hva (.inr ?_)]
      · exact habove va hge hva
      · rw [Nat.zero_add]
        exact Nat.le_trans h.low hge
  -- and the table
  obtain ⟨s', hwalk, hlist, hkend, hsame⟩ := freewalk_spec (hshrunk.space.table.bare hempty)
  have hframes : ∀ p, p ∈ s.frames pt (pages sz) (0 * PGSIZE) ↔ p ∈ s.frames pt (pages sz) 0 := by
    intro p
    rw [Nat.zero_mul]
  refine ⟨s', ?_, hkend.trans hshrunk.kend, ?_, fun p hp hpf => ?_⟩
  · unfold uvmfree
    by_cases hpos : 0 < sz
    · rw [if_pos hpos] at hrun ⊢
      rw [run_bind_ok hrun]
      exact hwalk
    · rw [if_neg hpos] at hrun ⊢
      cases hrun
      exact hwalk
  · have howned := hshrunk.owned
    rw [Nat.zero_add] at howned
    rw [← howned, hlist]
    unfold Ram.owned
    rw [← Multiset.coe_add, Multiset.coe_reverse]
    show _ = (t.tables pt : Multiset Nat) + 0 + (t.freelist : Multiset Nat)
    rw [add_zero]
    rfl
  · rw [hsame p fun hin => hp ((hshrunk.tables p).mp hin)]
    exact hshrunk.outside p hp fun hin => hpf ((hframes p).mp hin)

theorem procFreepagetable_spec (h : Whole s pt (pages sz)) :
    ∃ s', procFreepagetable pt sz s = .ok ((), s') ∧ Released s pt (pages sz) s' := by
  have hnext : TRAPFRAME + PGSIZE = TRAMPOLINE := by norm_num
  have hlast : TRAMPOLINE + PGSIZE = MAXVA := by norm_num
  obtain ⟨s1, hrun1, hu1, hspace1, howned1, hframes1⟩ := h.space.detach (by norm_num) (by norm_num)
    (by norm_num) h.top
  have hframe : (s1.lookup pt TRAPFRAME).isSome := by
    rw [hu1.lookup _ (by norm_num), if_neg (by norm_num)]
    exact h.frame
  obtain ⟨s2, hrun2, hu2, hspace2, howned2, hframes2⟩ := hspace1.detach (Nat.le_refl _) (by norm_num)
    (by norm_num) hframe
  have habove : ∀ va, TRAPFRAME ≤ va → va < MAXVA → s2.lookup pt va = none := by
    intro va hge hlt
    rw [hu2.lookup va hlt, Nat.one_mul, hnext]
    by_cases hlow : va < TRAMPOLINE
    · rw [if_pos ⟨hge, hlow⟩]
    · have hin : TRAMPOLINE ≤ va ∧ va < TRAMPOLINE + 1 * PGSIZE := by
        rw [Nat.one_mul, hlast]
        exact ⟨Nat.not_lt.mp hlow, hlt⟩
      rw [if_neg fun hboth => hlow hboth.2, hu1.lookup va hlt, if_pos hin]
  obtain ⟨s', hrun, hreleased⟩ := uvmfree_spec hspace2 habove
  refine ⟨s', ?_, ?_, ?_, fun p hp hpf => ?_⟩
  · unfold procFreepagetable
    rw [run_bind_ok hrun1, run_bind_ok hrun2]
    exact hrun
  · exact hreleased.kend.trans (hu2.kend.trans hu1.kend)
  · rw [hreleased.freelist, howned2, howned1]
  · have hp1 : p ∉ s1.tables pt := fun hin => hp ((hu1.tables p).mp hin)
    have hp2 : p ∉ s2.tables pt := fun hin => hp1 ((hu2.tables p).mp hin)
    rw [hreleased.outside p hp2 (by rw [hframes2, hframes1]; exact hpf),
      hu2.outside p hp1 List.not_mem_nil, hu1.outside p hp List.not_mem_nil]

/-! ## Tables from free pages -/

/-- The free pages are those of `s₀` again, and no other page has changed. -/
structure Restored (s₀ s : Ram) : Prop where
  kend : s.kend = s₀.kend
  freelist : (s.freelist : Multiset Nat) = (s₀.freelist : Multiset Nat)
  outside : ∀ p, p ∉ s₀.freelist → s.page p = s₀.page p

/-- A table of `n` user pages, all of whose pages were free in `s₀`. -/
structure Drawn (s₀ s : Ram) (pt n : Nat) : Prop where
  space : Space s pt n
  kend : s.kend = s₀.kend
  owned : s.owned pt n = (s₀.freelist : Multiset Nat)
  outside : ∀ p, p ∉ s₀.freelist → s.page p = s₀.page p

/-- Such a table, with the trampoline and the trapframe mapped, and not for the user. -/
structure Fresh (s₀ s : Ram) (pt n : Nat) : Prop where
  drawn : Drawn s₀ s pt n
  top : (s.lookup pt TRAMPOLINE).isSome
  frame : (s.lookup pt TRAPFRAME).isSome
  closed : ∀ va, TRAPFRAME ≤ va → s.user pt va = none

variable {s₀ : Ram} {n' : Nat} {f : Nat → Option (Nat × Nat)}

namespace Drawn

theorem mem_owned (h : Drawn s₀ s pt n) : p ∈ s.owned pt n ↔ p ∈ s₀.freelist := by
  rw [h.owned, Multiset.mem_coe]

/-- A step that only touches what the table owns. -/
theorem step (h : Drawn s₀ s pt n) (hspace : Space s' pt n') (hkend : s'.kend = s.kend)
    (howned : s'.owned pt n' = s.owned pt n)
    (houtside : ∀ p, p ∉ s.owned pt n → s'.page p = s.page p) : Drawn s₀ s' pt n' := by
  refine ⟨hspace, hkend.trans h.kend, howned.trans h.owned, fun p hp => ?_⟩
  rw [houtside p fun hin => hp (h.mem_owned.mp hin)]
  exact h.outside p hp

theorem restored (h : Drawn s₀ s pt n) (hreleased : Released s pt n s') : Restored s₀ s' := by
  refine ⟨hreleased.kend.trans h.kend, hreleased.freelist.trans h.owned, fun p hp => ?_⟩
  have hnot : p ∉ s.owned pt n := fun hin => hp (h.mem_owned.mp hin)
  rw [Ram.mem_owned, not_or, not_or] at hnot
  rw [hreleased.outside p hnot.1.1 hnot.1.2]
  exact h.outside p hp

end Drawn

namespace Fresh

theorem step (h : Fresh s₀ s pt n) (hspace : Space s' pt n')
    (hlookup : ∀ va, TRAPFRAME ≤ va → va < MAXVA → s'.lookup pt va = s.lookup pt va)
    (hkend : s'.kend = s.kend) (howned : s'.owned pt n' = s.owned pt n)
    (houtside : ∀ p, p ∉ s.owned pt n → s'.page p = s.page p) : Fresh s₀ s' pt n' := by
  refine ⟨h.drawn.step hspace hkend howned houtside, ?_, ?_, fun va hge => ?_⟩
  · rw [hlookup _ (by norm_num) (by norm_num)]
    exact h.top
  · rw [hlookup _ (Nat.le_refl _) (by norm_num)]
    exact h.frame
  · have hold := h.closed va hge
    unfold Ram.user at hold ⊢
    by_cases hva : va < MAXVA
    · rw [hlookup va hge hva]
      exact hold
    · rw [Ram.lookup_high (Nat.not_lt.mp hva)]
      rfl

theorem grown {flags : Nat} (h : Fresh s₀ s pt n) (hext : Extends s pt n flags s' n') :
    Fresh s₀ s' pt n' := by
  apply h.step hext.space _ hext.kend hext.owned
  · intro p hp
    rw [Ram.mem_owned, not_or, not_or] at hp
    exact hext.outside p hp.1.1 hp.2
  · intro va hge hva
    exact hext.old va hva (.inr (Nat.le_trans hext.space.low hge))

theorem released (h : Fresh s₀ s pt (pages sz)) :
    ∃ s', procFreepagetable pt sz s = .ok ((), s') ∧ Restored s₀ s' := by
  obtain ⟨s', hrun, hreleased⟩ := procFreepagetable_spec ⟨h.drawn.space, h.top, h.frame⟩
  exact ⟨s', hrun, h.drawn.restored hreleased⟩

/-- The pages of user memory are those of the space. -/
theorem user_frame {pa : Nat} (h : Fresh s₀ s pt n) (hpa : s.user pt va = some pa) :
    va < n * PGSIZE ∧ pa ∈ s.frames pt n 0 := by
  obtain ⟨flags, he, -⟩ := Ram.user_eq_some hpa
  have hlt : va < n * PGSIZE := by
    by_contra hge
    by_cases hlow : va < TRAPFRAME
    · rw [h.drawn.space.above va (Nat.not_lt.mp hge) hlow] at he
      cases he
    · rw [h.closed va (Nat.not_lt.mp hlow)] at hpa
      cases hpa
  exact ⟨hlt, h.drawn.space.mem_frames hlt he⟩

theorem separate (h : Fresh s₀ s pt n) : Separate s pt := fun _ _ hpa =>
  (h.drawn.space.frame (h.user_frame hpa).2).2.1

theorem touch (h : Fresh s₀ s pt n) (hpage : ∀ p, p ∉ s.frames pt n 0 → s'.page p = s.page p)
    (hfree : s'.freelist = s.freelist) (hkend : s'.kend = s.kend) :
    Fresh s₀ s' pt n ∧ SameTable s pt s' := by
  have hspace := h.drawn.space
  have hsame : SameTable s pt s' :=
    ⟨fun p hp => hpage p fun hin => (hspace.frame hin).2.1 hp, hkend⟩
  have htable : Table s' pt := by
    apply hsame.table hspace.table
    intro p hp
    rw [hfree]
    exact (hspace.table.own p hp).2
  have hsound : s'.Sound := by
    refine ⟨hfree ▸ hspace.sound.nodup, fun p hp => ?_, hkend ▸ hspace.sound.kend⟩
    unfold Ram.Managed
    rw [hkend]
    exact hspace.sound.managed p (hfree ▸ hp)
  have howned : s'.owned pt n = s.owned pt n := by
    unfold Ram.owned
    rw [hsame.tables, hfree, Ram.frames_congr_of_lt fun va hva => hsame.lookup (hspace.lt_maxva hva)]
  refine ⟨h.step (hspace.of_lookup htable hsound hkend (fun va hva => hsame.lookup hva) howned)
    (fun va _ hva => hsame.lookup hva) hkend howned fun p hp => ?_, hsame⟩
  rw [Ram.mem_owned, not_or, not_or] at hp
  exact hpage p hp.1.2

theorem has_clear (flags : Nat) : has (flags &&& (2 ^ 10 - 1 - PTE_U)) PTE_U = false := by
  unfold has
  rw [Nat.and_assoc]
  show (flags &&& 0 != 0) = false
  rw [Nat.and_zero]
  rfl

theorem clear (h : Fresh s₀ s pt n) (hva : va < n * PGSIZE) :
    ∃ s', uvmclear pt va s = .ok ((), s') ∧ Fresh s₀ s' pt n ∧
      ∀ va', s'.user pt va' = if va' / PGSIZE = va / PGSIZE then none else s.user pt va' := by
  have hspace := h.drawn.space
  obtain ⟨e, he⟩ := Option.isSome_iff_exists.mp (hspace.mapped va hva)
  obtain ⟨s', hrun, htable, hsound, hkend, hlookup, htables, hfree, houtside⟩ :=
    uvmclear_spec hspace.table hspace.sound (hspace.lt_maxva hva) he
  -- the page is mapped to the same place as before
  have hfst : ∀ va', va' < MAXVA → (s'.lookup pt va').map Prod.fst = (s.lookup pt va').map Prod.fst := by
    intro va' hva'
    rw [hlookup va' hva', put]
    by_cases hpage : va' / PGSIZE = va / PGSIZE
    · rw [if_pos hpage, Ram.lookup_congr hpage hva' (hspace.lt_maxva hva), he]
      rfl
    · rw [if_neg hpage]
  have hframes : s'.frames pt n 0 = s.frames pt n 0 := by
    apply Ram.frames_congr_fst
    intro k hk
    apply hfst
    rw [Nat.zero_add]
    exact hspace.lt_maxva (Nat.mul_lt_mul_of_pos_right hk (by norm_num))
  have howned : s'.owned pt n = s.owned pt n := by
    have htables' : (s'.tables pt : Multiset Nat) = (s.tables pt : Multiset Nat) :=
      Multiset.coe_eq_coe.mpr
        ((List.perm_ext_iff_of_nodup htable.nodup hspace.table.nodup).mpr htables)
    unfold Ram.owned
    rw [htables', hframes, hfree]
  have hspace' : Space s' pt n := by
    apply hspace.of_owned htable hsound hkend hspace.low _ _ howned
    · intro va' hva'
      have hmapped := hspace.mapped va' hva'
      rw [← Option.isSome_map, ← hfst va' (hspace.lt_maxva hva'), Option.isSome_map] at hmapped
      exact hmapped
    · intro va' hge hlt
      have hnone := hfst va' (Nat.lt_trans hlt (by norm_num))
      rw [hspace.above va' hge hlt] at hnone
      exact Option.map_eq_none_iff.mp hnone
  have huser : ∀ va', s'.user pt va' = if va' / PGSIZE = va / PGSIZE then none else s.user pt va' := by
    intro va'
    by_cases hpage : va' / PGSIZE = va / PGSIZE
    · rw [if_pos hpage, Ram.user_congr hpage]
      unfold Ram.user
      rw [hlookup va (hspace.lt_maxva hva), put, if_pos rfl]
      show (if has (e.2 &&& (2 ^ 10 - 1 - PTE_U)) PTE_U = true ∧ e.1 ≠ 0 then some e.1 else none) = none
      rw [if_neg fun hboth => by rw [has_clear] at hboth; cases hboth.1]
    · rw [if_neg hpage]
      by_cases hlt : va' < MAXVA
      · unfold Ram.user
        rw [hlookup va' hlt, put, if_neg hpage]
      · unfold Ram.user
        rw [Ram.lookup_high (Nat.not_lt.mp hlt), Ram.lookup_high (Nat.not_lt.mp hlt)]
  refine ⟨s', hrun, h.step hspace' (fun va' hge hva' => ?_) hkend howned fun p hp => ?_, huser⟩
  · rw [hlookup va' hva', put, if_neg]
    intro hpage
    have hsize : PGSIZE = 4096 := rfl
    have htop : TRAPFRAME = 274877898752 := by norm_num
    have hlow := hspace.low
    rw [htop] at hge hlow
    rw [hsize] at hpage hva hlow
    omega
  · rw [Ram.mem_owned, not_or, not_or] at hp
    exact houtside p hp.1.1

end Fresh

theorem Updated.space (h : Space s pt n) (hu : Updated s pt s' f)
    (hbelow : ∀ va, va < TRAPFRAME → f va = s.lookup pt va) :
    Space s' pt n ∧ s'.owned pt n = s.owned pt n := by
  have hlookup : ∀ va, va < TRAPFRAME → s'.lookup pt va = s.lookup pt va := by
    intro va hva
    rw [hu.lookup va (Nat.lt_trans hva (by norm_num)), hbelow va hva]
  have hframes : s'.frames pt n 0 = s.frames pt n 0 := Ram.frames_congr_of_lt fun va hva =>
    hlookup va (Nat.lt_of_lt_of_le hva h.low)
  have howned : s'.owned pt n = s.owned pt n := by
    have hpages := Multiset.coe_eq_coe.mpr hu.pages
    rw [← Multiset.coe_add, ← Multiset.coe_add] at hpages
    unfold Ram.owned
    rw [hframes, add_right_comm, hpages, add_right_comm]
  refine ⟨?_, howned⟩
  apply h.of_owned hu.table hu.sound hu.kend h.low _ _ howned
  · intro va hva
    rw [hlookup va (Nat.lt_of_lt_of_le hva h.low)]
    exact h.mapped va hva
  · intro va hge hlt
    rw [hlookup va hlt]
    exact h.above va hge hlt

theorem Drawn.updated (h : Drawn s₀ s pt n) (hu : Updated s pt s' f)
    (hbelow : ∀ va, va < TRAPFRAME → f va = s.lookup pt va) : Drawn s₀ s' pt n := by
  obtain ⟨hspace, howned⟩ := hu.space h.space hbelow
  apply h.step hspace hu.kend howned
  intro p hp
  rw [Ram.mem_owned, not_or, not_or] at hp
  exact hu.outside p hp.1.1 hp.2

/-- A page above the user pages is entered, or memory has run out. -/
theorem Drawn.attach {pa perm : Nat} (h : Drawn s₀ s pt n) (ha : TRAPFRAME ≤ a) (hmax : a < MAXVA)
    (hpage : a % PGSIZE = 0) (hpa : pa % PGSIZE = 0) (hlt : pa < 2 ^ 56) (hperm : perm < 2 ^ 10)
    (hrwx : has perm (PTE_R ||| PTE_W ||| PTE_X) = true) (hnone : s.lookup pt a = none) :
    ∃ r s', mappages pt a PGSIZE pa perm s = .ok (r, s') ∧ Drawn s₀ s' pt n ∧
      (r = 0 ∧ (∀ va, va < MAXVA → s'.lookup pt va =
          put (s.lookup pt) a (some (pa, perm ||| PTE_V)) va) ∨
        r = -1 ∧ ∀ va, va < MAXVA → s'.lookup pt va = s.lookup pt va) := by
  rw [mappages_one hmax hpage]
  obtain ⟨r, s', hrun, ⟨rfl, hu⟩ | ⟨rfl, hu, -⟩⟩ :=
    mapPage_spec h.space.table h.space.sound hmax hpa hlt hperm hrwx hnone
  · refine ⟨0, s', hrun, h.updated hu fun va hva => if_neg fun heq => ?_, .inl ⟨rfl, hu.lookup⟩⟩
    have hle := Nat.div_mul_le_self va PGSIZE
    rw [heq, Nat.div_mul_cancel (Nat.dvd_of_mod_eq_zero hpage)] at hle
    exact absurd (Nat.le_trans ha hle) (Nat.not_le.mpr hva)
  · exact ⟨-1, s', hrun, h.updated hu fun _ _ => rfl, .inr ⟨rfl, hu.lookup⟩⟩

/-- A table without user pages and without entries is given back. -/
theorem Drawn.uvmfree (h : Drawn s₀ s pt 0) (hnone : ∀ va, va < MAXVA → s.lookup pt va = none) :
    ∃ s', uvmfree pt 0 s = .ok ((), s') ∧ Restored s₀ s' := by
  have hspace : Space s pt (pages 0) := h.space
  obtain ⟨s', hrun, hreleased⟩ := uvmfree_spec hspace fun va _ hva => hnone va hva
  exact ⟨s', hrun, h.restored hreleased⟩

/-- An entry above the user pages is taken away. -/
theorem Drawn.detach (h : Drawn s₀ s pt n) (ha : TRAPFRAME ≤ a) (hmax : a + PGSIZE ≤ MAXVA)
    (hpage : a % PGSIZE = 0) (hmapped : (s.lookup pt a).isSome) :
    ∃ s', uvmunmap pt a 1 false s = .ok ((), s') ∧ Drawn s₀ s' pt n ∧
      ∀ va, va < MAXVA → s'.lookup pt va =
        if a ≤ va ∧ va < a + PGSIZE then none else s.lookup pt va := by
  obtain ⟨s', hrun, hu, hspace, howned, -⟩ := h.space.detach ha hmax hpage hmapped
  have hlookup := hu.lookup
  rw [Nat.one_mul] at hlookup
  refine ⟨s', hrun, h.step hspace hu.kend howned fun p hp => ?_, hlookup⟩
  rw [Ram.mem_owned, not_or, not_or] at hp
  exact hu.outside p hp.1.1 List.not_mem_nil

/-- A free page that has been taken and cleared is a table. -/
theorem Drawn.take {r : Nat} {rest : List Nat} (hs : s₀.Sound) (hfree : s₀.freelist = r :: rest) :
    Drawn s₀ (s₀.take r rest) r 0 := by
  have hr : r ∈ s₀.freelist := hfree ▸ List.mem_cons_self ..
  obtain ⟨hnot, hnodup⟩ := List.nodup_cons.mp (hfree ▸ hs.nodup)
  have hsound : (s₀.take r rest).Sound :=
    ⟨hnodup, fun x hx => hs.managed x (hfree ▸ List.mem_cons_of_mem _ hx), hs.kend⟩
  have hclear : (s₀.take r rest).page r = filled 0 := Ram.setPage_page_self ..
  refine ⟨.cleared hclear hsound (hs.managed r hr) hnot, rfl, ?_, fun p hp => ?_⟩
  · rw [Ram.owned_cleared hclear, hfree]
    rfl
  · exact take_page_ne fun he => hp (he ▸ hr)

theorem uvmcreate_cons {r : Nat} {rest : List Nat} (hfree : s.freelist = r :: rest) :
    uvmcreate s = .ok (some r, s.take r rest) := by
  unfold uvmcreate
  rw [run_bind_ok (kalloc_cons hfree)]
  show Except.ok (some r, ({ s.setPage r (filled 5) with freelist := rest } : Ram).setPage r
    (filled 0)) = _
  rw [Ram.setPage_setPage]
  rfl

theorem uvmcreate_nil (hfree : s.freelist = []) : uvmcreate s = .ok (none, s) := by
  unfold uvmcreate
  rw [run_bind_ok (kalloc_nil hfree)]
  rfl

/-- `proc_pagetable`: a table from free pages, or memory as it was. -/
theorem procPagetable_spec {trapframe trampoline : Nat} (hs : s₀.Sound)
    (hframe : trapframe % PGSIZE = 0) (hframe' : trapframe < 2 ^ 56)
    (htop : trampoline % PGSIZE = 0) (htop' : trampoline < 2 ^ 56) :
    ∃ r s', procPagetable trapframe trampoline s₀ = .ok (r, s') ∧
      (r = none ∧ Restored s₀ s' ∨ ∃ pt, r = some pt ∧ Fresh s₀ s' pt 0) := by
  cases hfree : s₀.freelist with
  | nil =>
    refine ⟨none, s₀, ?_, .inl ⟨rfl, rfl, rfl, fun _ _ => rfl⟩⟩
    unfold procPagetable
    rw [run_bind_ok (uvmcreate_nil hfree)]
    rfl
  | cons pt rest =>
    have hdrawn := Drawn.take hs hfree
    have hclear : (s₀.take pt rest).page pt = filled 0 := Ram.setPage_page_self ..
    have hnone : ∀ va, va < MAXVA → (s₀.take pt rest).lookup pt va = none := fun va hva =>
      Ram.lookup_cleared hclear hva
    obtain ⟨r, t, hmap, hdrawn1, hcases⟩ := hdrawn.attach (a := TRAMPOLINE) (by norm_num)
      (by norm_num) (by norm_num) htop htop' (show PTE_R ||| PTE_X < 2 ^ 10 by decide) (by decide)
      (hnone _ (by norm_num))
    unfold procPagetable
    rw [run_bind_ok (uvmcreate_cons hfree)]
    dsimp only
    rw [run_bind_ok hmap]
    rcases hcases with ⟨rfl, hlookup⟩ | ⟨rfl, hlookup⟩
    · rw [if_neg (by decide)]
      have hframeNone : t.lookup pt TRAPFRAME = none := by
        rw [hlookup _ (by norm_num), put, if_neg (by norm_num)]
        exact hnone _ (by norm_num)
      obtain ⟨r, u, hmap', hdrawn2, hcases⟩ := hdrawn1.attach (a := TRAPFRAME) (Nat.le_refl _)
        (by norm_num) (by norm_num) hframe hframe' (show PTE_R ||| PTE_W < 2 ^ 10 by decide)
        (by decide) hframeNone
      rw [run_bind_ok hmap']
      have htopLookup : t.lookup pt TRAMPOLINE = some (trampoline, PTE_R ||| PTE_X ||| PTE_V) := by
        rw [hlookup _ (by norm_num), put, if_pos rfl]
      rcases hcases with ⟨rfl, hlookup'⟩ | ⟨rfl, hlookup'⟩
      · rw [if_neg (by decide)]
        refine ⟨some pt, u, rfl, .inr ⟨pt, rfl, hdrawn2, ?_, ?_, fun va hge => ?_⟩⟩
        · rw [hlookup' _ (by norm_num), put, if_neg (by norm_num), htopLookup]
          rfl
        · rw [hlookup' _ (by norm_num), put, if_pos rfl]
          rfl
        · unfold Ram.user
          by_cases hva : va < MAXVA
          · rw [hlookup' va hva, put, hlookup va hva, put, hnone va hva]
            split
            next =>
              have hu : has (PTE_R ||| PTE_W ||| PTE_V) PTE_U = false := by decide
              exact if_neg fun hboth => Bool.eq_false_iff.mp hu hboth.1
            next =>
              split
              next =>
                have hu : has (PTE_R ||| PTE_X ||| PTE_V) PTE_U = false := by decide
                exact if_neg fun hboth => Bool.eq_false_iff.mp hu hboth.1
              next => rfl
          · rw [Ram.lookup_high (Nat.not_lt.mp hva)]
            rfl
      · rw [if_pos (by decide)]
        have hmapped : (u.lookup pt TRAMPOLINE).isSome := by
          rw [hlookup' _ (by norm_num), htopLookup]
          rfl
        obtain ⟨v, hunmap, hdrawn3, hlookup3⟩ := hdrawn2.detach (by norm_num) (by norm_num)
          (by norm_num) hmapped
        have hempty : ∀ va, va < MAXVA → v.lookup pt va = none := by
          intro va hva
          rw [hlookup3 va hva, hlookup' va hva, hlookup va hva, put, hnone va hva]
          by_cases hlow : TRAMPOLINE ≤ va ∧ va < TRAMPOLINE + PGSIZE
          · rw [if_pos hlow]
          · have hmax : MAXVA = TRAMPOLINE + PGSIZE := by norm_num
            have hbelow : va < TRAMPOLINE := by
              by_contra hge
              exact hlow ⟨Nat.not_lt.mp hge, hmax ▸ hva⟩
            have hpage : va / PGSIZE ≠ TRAMPOLINE / PGSIZE := by
              intro heq
              have hle := Nat.div_mul_le_self va PGSIZE
              rw [heq, Nat.div_mul_cancel (by norm_num)] at hle
              exact absurd hle (Nat.not_le.mpr hbelow)
            rw [if_neg hlow, if_neg hpage]
        obtain ⟨s', hrun, hrestored⟩ := hdrawn3.uvmfree hempty
        rw [run_bind_ok hunmap, run_bind_ok hrun]
        exact ⟨none, s', rfl, .inl ⟨rfl, hrestored⟩⟩
    · rw [if_pos (by decide)]
      obtain ⟨s', hrun, hrestored⟩ := hdrawn1.uvmfree fun va hva =>
        (hlookup va hva).trans (hnone va hva)
      rw [run_bind_ok hrun]
      exact ⟨none, s', rfl, .inl ⟨rfl, hrestored⟩⟩

end Xv6.Vm
