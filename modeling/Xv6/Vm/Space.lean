import Xv6.Vm.Map

/-!
# Address spaces

The user part of a page table: the pages from address 0 on. `Space s pt n` says that a table maps
`n` of them and no others below the trapframe, and that the pages of the table, the pages it maps
and the free pages are all different. Growing and shrinking move pages between these three, so
what a table owns together with the free list (`Ram.owned`) never changes.
-/

namespace Xv6.Vm

open Base

variable {s s' t : Ram} {pt n m va p sz : Nat} {k xperm : Nat}

/-! ## Sizes and pages -/

/-- The number of pages that hold `sz` bytes: `PGROUNDUP(sz) / PGSIZE`. -/
def pages (sz : Nat) : Nat := (PGSIZE - 1 + sz) / PGSIZE

theorem pgroundup_eq (h : sz < 2 ^ 63) : pgroundup sz = pages sz * PGSIZE := by
  have hsize : PGSIZE = 4096 := rfl
  have hlt : PGSIZE - 1 + sz < 2 ^ 64 := by
    rw [hsize]
    omega
  unfold pgroundup pages
  rw [Nat.mod_eq_of_lt hlt]

theorem pages_mul (n : Nat) : pages (n * PGSIZE) = n := by
  have hsize : PGSIZE = 4096 := rfl
  unfold pages
  rw [hsize]
  omega

theorem le_pages_mul (sz : Nat) : sz ≤ pages sz * PGSIZE := by
  have hsize : PGSIZE = 4096 := rfl
  unfold pages
  rw [hsize]
  omega

theorem pages_mono {sz' : Nat} (h : sz ≤ sz') : pages sz ≤ pages sz' :=
  Nat.div_le_div_right (Nat.add_le_add_left h _)

/-- Addresses on one page have one entry. -/
theorem Ram.lookup_congr {va' : Nat} (h : va / PGSIZE = va' / PGSIZE) (hva : va < MAXVA)
    (hva' : va' < MAXVA) : s.lookup pt va = s.lookup pt va' := by
  rw [lookup_eq hva, lookup_eq hva', bottom_congr h, px_congr h 0]

/-! ## The pages a stretch is mapped to -/

theorem Ram.frames_add (s : Ram) (pt n m a : Nat) :
    s.frames pt (n + m) a = s.frames pt n a ++ s.frames pt m (a + n * PGSIZE) := by
  induction n generalizing a with
  | zero =>
    rw [Nat.zero_add, Nat.zero_mul, Nat.add_zero]
    rfl
  | succ n ih =>
    have hnext : a + PGSIZE + n * PGSIZE = a + (n + 1) * PGSIZE := by
      rw [Nat.succ_mul, Nat.add_assoc, Nat.add_comm PGSIZE]
    rw [Nat.succ_add, frames, frames, ih, hnext, List.append_assoc]

theorem Ram.mem_frames {a : Nat} :
    p ∈ s.frames pt n a ↔ ∃ k flags, k < n ∧ s.lookup pt (a + k * PGSIZE) = some (p, flags) := by
  induction n generalizing a with
  | zero =>
    refine ⟨fun h => ?_, ?_⟩
    · cases h
    · rintro ⟨k, flags, hk, -⟩
      exact absurd hk (Nat.not_lt_zero k)
  | succ n ih =>
    have hnext : ∀ k, a + PGSIZE + k * PGSIZE = a + (k + 1) * PGSIZE := by
      intro k
      rw [Nat.succ_mul, Nat.add_assoc, Nat.add_comm PGSIZE]
    rw [frames, List.mem_append, ih]
    constructor
    · rintro (hfirst | ⟨k, flags, hk, hmore⟩)
      · rw [Option.mem_toList, Option.map_eq_some_iff] at hfirst
        obtain ⟨⟨q, flags⟩, hlookup, rfl⟩ := hfirst
        refine ⟨0, flags, Nat.succ_pos n, ?_⟩
        rw [Nat.zero_mul, Nat.add_zero]
        exact hlookup
      · refine ⟨k + 1, flags, Nat.succ_lt_succ hk, ?_⟩
        rw [← hnext]
        exact hmore
    · rintro ⟨k, flags, hk, hlookup⟩
      cases k with
      | zero =>
        rw [Nat.zero_mul, Nat.add_zero] at hlookup
        left
        rw [Option.mem_toList, hlookup]
        rfl
      | succ k =>
        right
        rw [← hnext] at hlookup
        exact ⟨k, flags, Nat.lt_of_succ_lt_succ hk, hlookup⟩

theorem Ram.length_frames {a : Nat} (h : ∀ k, k < n → (s.lookup pt (a + k * PGSIZE)).isSome) :
    (s.frames pt n a).length = n := by
  induction n generalizing a with
  | zero => rfl
  | succ n ih =>
    have hfirst := h 0 (Nat.succ_pos n)
    rw [Nat.zero_mul, Nat.add_zero] at hfirst
    obtain ⟨e, he⟩ := Option.isSome_iff_exists.mp hfirst
    have hrest : ∀ k, k < n → (s.lookup pt (a + PGSIZE + k * PGSIZE)).isSome := by
      intro k hk
      have hnext := h (k + 1) (Nat.succ_lt_succ hk)
      rwa [Nat.succ_mul, Nat.add_comm (k * PGSIZE), ← Nat.add_assoc] at hnext
    rw [frames, List.length_append, ih hrest, he]
    exact Nat.add_comm 1 n

theorem Ram.frames_congr_of_lt
    (h : ∀ va, va < n * PGSIZE → s'.lookup pt va = s.lookup pt va) :
    s'.frames pt n 0 = s.frames pt n 0 := by
  apply frames_congr
  intro k hk
  apply h
  rw [Nat.zero_add]
  exact Nat.mul_lt_mul_of_pos_right hk (by norm_num)

/-- The pages of a table that is as it was, in the same order. -/
theorem SameTable.tables (h : SameTable s pt s') : s'.tables pt = s.tables pt := by
  apply Trie.nodes_congr
  intro q a hq ha
  exact Ram.child_congr (h.page a (Table.mem_of_follow (Nat.le_of_lt hq) ha))

/-! ## Spaces -/

/-- The pages of a table with `n` user pages, the pages these are mapped to, and the free pages. -/
def Ram.owned (s : Ram) (pt n : Nat) : Multiset Nat :=
  (s.tables pt : Multiset Nat) + (s.frames pt n 0 : Multiset Nat) + (s.freelist : Multiset Nat)

theorem Ram.mem_owned :
    p ∈ s.owned pt n ↔ (p ∈ s.tables pt ∨ p ∈ s.frames pt n 0) ∨ p ∈ s.freelist := by
  unfold owned
  rw [Multiset.mem_add, Multiset.mem_add, Multiset.mem_coe, Multiset.mem_coe, Multiset.mem_coe]

/-- A table whose user pages are the first `n`. -/
structure Space (s : Ram) (pt n : Nat) : Prop where
  table : Table s pt
  sound : s.Sound
  low : n * PGSIZE ≤ TRAPFRAME
  mapped : ∀ va, va < n * PGSIZE → (s.lookup pt va).isSome
  above : ∀ va, n * PGSIZE ≤ va → va < TRAPFRAME → s.lookup pt va = none
  nodup : (s.owned pt n).Nodup
  managed : ∀ p ∈ s.owned pt n, s.Managed p

namespace Space

/-- A page that the space maps belongs to it alone. -/
theorem frame (h : Space s pt n) (hp : p ∈ s.frames pt n 0) :
    s.Managed p ∧ p ∉ s.tables pt ∧ p ∉ s.freelist := by
  obtain ⟨hleft, -, hfree⟩ := Multiset.nodup_add.mp h.nodup
  obtain ⟨-, -, htable⟩ := Multiset.nodup_add.mp hleft
  refine ⟨h.managed p (Ram.mem_owned.mpr (.inl (.inr hp))), fun hin => ?_, fun hin => ?_⟩
  · exact Multiset.disjoint_left.mp htable (Multiset.mem_coe.mpr hin) (Multiset.mem_coe.mpr hp)
  · refine Multiset.disjoint_left.mp hfree ?_ (Multiset.mem_coe.mpr hin)
    exact Multiset.mem_add.mpr (.inr (Multiset.mem_coe.mpr hp))

theorem nodup_frames (h : Space s pt n) : (s.frames pt n 0).Nodup := by
  obtain ⟨hleft, -, -⟩ := Multiset.nodup_add.mp h.nodup
  exact Multiset.coe_nodup.mp (Multiset.nodup_add.mp hleft).2.1

theorem lt_maxva (h : Space s pt n) (hva : va < n * PGSIZE) : va < MAXVA := by
  have hlow := h.low
  have htop : TRAPFRAME = 274877898752 := by norm_num
  have hmax : MAXVA = 274877906944 := by norm_num
  rw [htop] at hlow
  rw [hmax]
  omega

/-- What is mapped below the top of the space is one of its pages. -/
theorem mem_frames (h : Space s pt n) (hva : va < n * PGSIZE) {flags : Nat}
    (he : s.lookup pt va = some (p, flags)) : p ∈ s.frames pt n 0 := by
  have hk : va / PGSIZE < n := (Nat.div_lt_iff_lt_mul (by norm_num)).mpr hva
  have hstart : 0 + va / PGSIZE * PGSIZE ≤ va := by
    rw [Nat.zero_add]
    exact Nat.div_mul_le_self va PGSIZE
  have hpage : (0 + va / PGSIZE * PGSIZE) / PGSIZE = va / PGSIZE := by
    rw [Nat.zero_add]
    exact Nat.mul_div_cancel _ (by norm_num)
  refine Ram.mem_frames.mpr ⟨va / PGSIZE, flags, hk, ?_⟩
  rw [Ram.lookup_congr hpage (lt_of_le_of_lt hstart (h.lt_maxva hva)) (h.lt_maxva hva)]
  exact he

/-- The pages between two sizes can be given back. -/
theorem returnable (h : Space s pt (n + m)) : Returnable s pt (s.frames pt m (n * PGSIZE)) := by
  have hsplit := s.frames_add pt n m 0
  rw [Nat.zero_add] at hsplit
  have hin : ∀ p ∈ s.frames pt m (n * PGSIZE), p ∈ s.frames pt (n + m) 0 := by
    intro p hp
    rw [hsplit]
    exact List.mem_append_right _ hp
  refine ⟨?_, fun p hp => (h.frame (hin p hp)).1, fun p hp => (h.frame (hin p hp)).2.2,
    fun p hp => (h.frame (hin p hp)).2.1⟩
  have hnodup := h.nodup_frames
  rw [hsplit] at hnodup
  exact (List.nodup_append.mp hnodup).2.1

/-- Physical memory bounds the size of a space. -/
theorem le_memory (h : Space s pt n) : n ≤ 32768 := by
  have hsize : PGSIZE = 4096 := rfl
  have hlen : (s.frames pt n 0).length = n := by
    apply Ram.length_frames
    intro k hk
    rw [Nat.zero_add]
    exact h.mapped _ (Nat.mul_lt_mul_of_pos_right hk (by norm_num))
  have hrange : ∀ p ∈ s.frames pt n 0, p % 4096 = 0 ∧ 524288 ≤ p / 4096 ∧ p / 4096 < 557056 := by
    intro p hp
    obtain ⟨hmod, hge, hlt⟩ := (h.frame hp).1
    have hkend := h.sound.kend
    have hbase : KERNBASE = 2147483648 := by norm_num
    have hstop : PHYSTOP = 2281701376 := by norm_num
    rw [hsize] at hmod
    rw [hstop] at hlt
    rw [hbase] at hkend
    omega
  -- the page numbers are different numbers of one range
  have hnodup : ((s.frames pt n 0).map (· / 4096)).Nodup := by
    refine List.Nodup.map_on ?_ h.nodup_frames
    intro p hp q hq heq
    have hp' := (hrange p hp).1
    have hq' := (hrange q hq).1
    omega
  have hsub : ((s.frames pt n 0).map (· / 4096)).toFinset ⊆ Finset.Ico 524288 557056 := by
    intro k hk
    obtain ⟨p, hp, rfl⟩ := List.mem_map.mp (List.mem_toFinset.mp hk)
    exact Finset.mem_Ico.mpr (hrange p hp).2
  have hcard := Finset.card_le_card hsub
  rw [List.toFinset_card_of_nodup hnodup, List.length_map, hlen, Nat.card_Ico] at hcard
  exact hcard

/-- A space is known by its map and by what it owns. -/
theorem of_owned (h : Space s pt n) (htable : Table s' pt) (hsound : s'.Sound)
    (hkend : s'.kend = s.kend) (hlow : m * PGSIZE ≤ TRAPFRAME)
    (hmapped : ∀ va, va < m * PGSIZE → (s'.lookup pt va).isSome)
    (habove : ∀ va, m * PGSIZE ≤ va → va < TRAPFRAME → s'.lookup pt va = none)
    (howned : s'.owned pt m = s.owned pt n) : Space s' pt m := by
  refine ⟨htable, hsound, hlow, hmapped, habove, ?_, fun p hp => ?_⟩
  · rw [howned]
    exact h.nodup
  · unfold Ram.Managed
    rw [hkend]
    rw [howned] at hp
    exact h.managed p hp

theorem of_lookup (h : Space s pt n) (htable : Table s' pt) (hsound : s'.Sound)
    (hkend : s'.kend = s.kend) (hlookup : ∀ va, va < MAXVA → s'.lookup pt va = s.lookup pt va)
    (howned : s'.owned pt n = s.owned pt n) : Space s' pt n := by
  apply h.of_owned htable hsound hkend h.low _ _ howned
  · intro va hva
    rw [hlookup va (h.lt_maxva hva)]
    exact h.mapped va hva
  · intro va hge hlt
    rw [hlookup va (Nat.lt_trans hlt (by norm_num))]
    exact h.above va hge hlt

end Space

/-- What a cleared page and the free pages are together. -/
theorem Ram.owned_cleared (h : s.page pt = filled 0) :
    s.owned pt 0 = pt ::ₘ (s.freelist : Multiset Nat) := by
  have htables : s.tables pt = [pt] := by
    have hbelow : ∀ i, below s pt 1 i = [] := by
      intro i
      have hnone : s.child pt i = none := by
        rw [Ram.child_eq_none_iff, Ram.pte_zero h]
        rfl
      unfold below
      rw [hnone]
      rfl
    unfold tables
    rw [nodes_succ, List.flatMap_eq_nil_iff.mpr fun i _ => hbelow i]
    rfl
  unfold owned
  rw [htables]
  exact Multiset.singleton_add _ _

/-- A cleared page is a space without user pages. -/
theorem Space.cleared (h : s.page pt = filled 0) (hs : s.Sound) (hmanaged : s.Managed pt)
    (hfree : pt ∉ s.freelist) : Space s pt 0 := by
  have howned := Ram.owned_cleared h
  refine ⟨.cleared h hmanaged hfree, hs, ?_, fun va hva => ?_, fun va _ hva => ?_, ?_, fun p hp => ?_⟩
  · rw [Nat.zero_mul]
    exact Nat.zero_le _
  · rw [Nat.zero_mul] at hva
    exact absurd hva (Nat.not_lt_zero va)
  · exact Ram.lookup_cleared h (Nat.lt_trans hva (by norm_num))
  · rw [howned, Multiset.nodup_cons]
    exact ⟨hfree, Multiset.coe_nodup.mpr hs.nodup⟩
  · rw [howned, Multiset.mem_cons] at hp
    rcases hp with rfl | hp
    · exact hmanaged
    · exact hs.managed p hp

/-! ## Growing -/

/-- The space has grown from `n` pages to `n'` by cleared pages that were free. With `n' = n` nothing
has changed but the tables and the order of the free pages. -/
structure Extends (s : Ram) (pt n flags : Nat) (s' : Ram) (n' : Nat) : Prop where
  before : ∀ va, n * PGSIZE ≤ va → va < TRAPFRAME → s.lookup pt va = none
  space : Space s' pt n'
  le : n ≤ n'
  kend : s'.kend = s.kend
  old : ∀ va, va < MAXVA → va < n * PGSIZE ∨ n' * PGSIZE ≤ va → s'.lookup pt va = s.lookup pt va
  new : ∀ va, n * PGSIZE ≤ va → va < n' * PGSIZE →
    ∃ p ∈ s.freelist, s'.lookup pt va = some (p, flags) ∧ s'.page p = filled 0
  owned : s'.owned pt n' = s.owned pt n
  tables : ∀ p ∈ s'.tables pt, p ∈ s.tables pt ∨ p ∈ s.freelist
  free : ∀ p ∈ s'.freelist, p ∈ s.freelist
  outside : ∀ p, p ∉ s.tables pt → p ∉ s.freelist → s'.page p = s.page p

namespace Extends

variable {flags n' n'' : Nat} {s'' : Ram}

theorem refl (h : Space s pt n) (flags : Nat) : Extends s pt n flags s n :=
  ⟨h.above, h, Nat.le_refl n, rfl, fun _ _ _ => rfl,
    fun _ hge hlt => absurd hlt (Nat.not_lt.mpr hge), rfl, fun _ hp => .inl hp,
    fun _ hp => hp, fun _ _ _ => rfl⟩

theorem trans (h : Extends s pt n flags s' n') (h' : Extends s' pt n' flags s'' n'') :
    Extends s pt n flags s'' n'' where
  before := h.before
  space := h'.space
  le := Nat.le_trans h.le h'.le
  kend := h'.kend.trans h.kend
  old va hva hout := by
    have hle := Nat.mul_le_mul_right PGSIZE h.le
    have hle' := Nat.mul_le_mul_right PGSIZE h'.le
    have hfirst : va < n * PGSIZE ∨ n' * PGSIZE ≤ va := hout.imp_right (Nat.le_trans hle')
    have hlast : va < n' * PGSIZE ∨ n'' * PGSIZE ≤ va :=
      hout.imp_left fun hlt => Nat.lt_of_lt_of_le hlt hle
    exact (h'.old va hva hlast).trans (h.old va hva hfirst)
  new va hge hlt := by
    by_cases hmid : va < n' * PGSIZE
    · obtain ⟨p, hp, hlookup, hzero⟩ := h.new va hge hmid
      obtain ⟨-, htable, hfree⟩ := h.space.frame (h.space.mem_frames hmid hlookup)
      refine ⟨p, hp, ?_, (h'.outside p htable hfree).trans hzero⟩
      rw [h'.old va (h.space.lt_maxva hmid) (.inl hmid)]
      exact hlookup
    · obtain ⟨p, hp, hnew⟩ := h'.new va (Nat.not_lt.mp hmid) hlt
      exact ⟨p, h.free p hp, hnew⟩
  owned := h'.owned.trans h.owned
  tables p hp := by
    rcases h'.tables p hp with hin | hin
    · exact h.tables p hin
    · exact .inr (h.free p hin)
  free p hp := h.free p (h'.free p hp)
  outside p hp hfree := by
    have htable : p ∉ s'.tables pt := by
      intro hin
      exact (h.tables p hin).elim hp hfree
    have hfree' : p ∉ s'.freelist := fun hin => hfree (h.free p hin)
    exact (h'.outside p htable hfree').trans (h.outside p hp hfree)

end Extends

section Grow

variable {r perm : Nat} {rest : List Nat}

/-- Memory after a page has been taken from the free list and cleared. -/
def Ram.take (s : Ram) (r : Nat) (rest : List Nat) : Ram :=
  { s with freelist := rest }.setPage r (filled 0)

variable (h : Space s pt n) (hfree : s.freelist = r :: rest) {f : Nat → Option (Nat × Nat)}

include h hfree

/-- The page taken was nobody's. -/
theorem take_fresh : r ∉ s.tables pt ∧ r ∉ s.frames pt n 0 ∧ r ∉ rest := by
  have hr : r ∈ s.freelist := hfree ▸ List.mem_cons_self ..
  refine ⟨fun hin => (h.table.own r hin).2 hr, fun hin => (h.frame hin).2.2 hr, ?_⟩
  exact (List.nodup_cons.mp (hfree ▸ h.sound.nodup)).1

theorem take_same : SameTable s pt (s.take r rest) :=
  ⟨fun _ hx => Ram.setPage_page_ne _ _ fun he => (take_fresh h hfree).1 (he ▸ hx), rfl⟩

theorem take_table : Table (s.take r rest) pt := by
  apply (take_same h hfree).table h.table
  intro x hx hin
  exact (h.table.own x hx).2 (hfree ▸ List.mem_cons_of_mem _ hin)

theorem take_sound : (s.take r rest).Sound := by
  refine ⟨(List.nodup_cons.mp (hfree ▸ h.sound.nodup)).2, fun x hx => ?_, h.sound.kend⟩
  exact h.sound.managed x (hfree ▸ List.mem_cons_of_mem _ hx)

omit h hfree in
theorem take_page_ne {x : Nat} (hx : x ≠ r) : (s.take r rest).page x = s.page x :=
  Ram.setPage_page_ne _ _ hx

/-- What a table that has grown from the rest of the free list owns. -/
theorem take_pages (hu : Updated (s.take r rest) pt t f) :
    (t.tables pt : Multiset Nat) + (t.freelist : Multiset Nat) =
      (s.tables pt : Multiset Nat) + (rest : Multiset Nat) := by
  have hperm := Multiset.coe_eq_coe.mpr hu.pages
  rw [← Multiset.coe_add, ← Multiset.coe_add, (take_same h hfree).tables] at hperm
  exact hperm

/-- With the page that was taken, they are all that the space owned. -/
theorem take_owned (hu : Updated (s.take r rest) pt t f) :
    (t.tables pt : Multiset Nat) + (t.freelist : Multiset Nat) +
      ((s.frames pt n 0 : Multiset Nat) + {r}) = s.owned pt n := by
  have hlist : (s.freelist : Multiset Nat) = {r} + (rest : Multiset Nat) := by
    rw [hfree]
    rfl
  rw [take_pages h hfree hu, Ram.owned, hlist]
  abel

theorem take_mem (hu : Updated (s.take r rest) pt t f) (hp : p ∈ t.tables pt ∨ p ∈ t.freelist) :
    p ∈ s.tables pt ∨ p ∈ rest := by
  have hin := hu.pages.mem_iff.mp (List.mem_append.mpr hp)
  rw [(take_same h hfree).tables] at hin
  exact List.mem_append.mp hin

theorem take_outside (hu : Updated (s.take r rest) pt t f) (hp : p ∉ s.tables pt)
    (hpf : p ∉ s.freelist) : t.page p = s.page p := by
  rw [hfree, List.mem_cons, not_or] at hpf
  have htable : p ∉ (s.take r rest).tables pt := by
    rw [(take_same h hfree).tables]
    exact hp
  exact (hu.outside p htable hpf.2).trans (take_page_ne hpf.1)

theorem take_page_self (hu : Updated (s.take r rest) pt t f) :
    t.page r = filled 0 := by
  obtain ⟨hrt, -, hrr⟩ := take_fresh h hfree
  have htable : r ∉ (s.take r rest).tables pt := by
    rw [(take_same h hfree).tables]
    exact hrt
  exact (hu.outside r htable hrr).trans (Ram.setPage_page_self ..)

/-- The page has been entered behind the last page of the space. -/
theorem Updated.extends (hlow : (n + 1) * PGSIZE ≤ TRAPFRAME)
    (hu : Updated (s.take r rest) pt t
      (put ((s.take r rest).lookup pt) (n * PGSIZE) (some (r, perm)))) :
    Extends s pt n perm t (n + 1) := by
  have hsize : PGSIZE = 4096 := rfl
  have htop : TRAPFRAME = 274877898752 := by norm_num
  have hmax : MAXVA = 274877906944 := by norm_num
  have hr : r ∈ s.freelist := hfree ▸ List.mem_cons_self ..
  have hrest : ∀ p ∈ rest, p ∈ s.freelist := fun p hp => hfree ▸ List.mem_cons_of_mem _ hp
  have hlookup : ∀ va, va < MAXVA → t.lookup pt va =
      if va / PGSIZE = n then some (r, perm) else s.lookup pt va := by
    intro va hva
    rw [hu.lookup va hva, put, Nat.mul_div_cancel n (by norm_num), (take_same h hfree).lookup hva]
  have hold : ∀ va, va < MAXVA → va < n * PGSIZE ∨ (n + 1) * PGSIZE ≤ va →
      t.lookup pt va = s.lookup pt va := by
    intro va hva hout
    have hne : va / PGSIZE ≠ n := by
      rw [hsize] at hout ⊢
      omega
    rw [hlookup va hva, if_neg hne]
  have hnew : ∀ va, n * PGSIZE ≤ va → va < (n + 1) * PGSIZE → t.lookup pt va = some (r, perm) := by
    intro va hge hlt
    have heq : va / PGSIZE = n := by
      rw [hsize] at hge hlt ⊢
      omega
    have hva : va < MAXVA := by
      rw [htop] at hlow
      rw [hmax]
      omega
    rw [hlookup va hva, if_pos heq]
  have hframes : t.frames pt (n + 1) 0 = s.frames pt n 0 ++ [r] := by
    have hlast : t.lookup pt (n * PGSIZE) = some (r, perm) :=
      hnew _ (Nat.le_refl _) (Nat.mul_lt_mul_of_pos_right (Nat.lt_succ_self n) (by norm_num))
    have hfirst := Ram.frames_congr_of_lt fun va hva => hold va (h.lt_maxva hva) (.inl hva)
    rw [Ram.frames_add, hfirst, Nat.zero_add, Ram.frames, Ram.frames, hlast]
    rfl
  have howned : t.owned pt (n + 1) = s.owned pt n := by
    rw [← take_owned h hfree hu, Ram.owned, hframes, ← Multiset.coe_add, Multiset.coe_singleton]
    abel
  refine ⟨h.above,
    h.of_owned hu.table hu.sound hu.kend hlow (fun va hva => ?_) (fun va hge hlt => ?_) howned,
    Nat.le_succ n, hu.kend, hold,
    fun va hge hlt => ⟨r, hr, hnew va hge hlt, take_page_self h hfree hu⟩, howned,
    fun p hp => (take_mem h hfree hu (.inl hp)).imp_right (hrest p),
    fun p hp => hrest p (hu.suffix.subset hp), fun p hp hpf => take_outside h hfree hu hp hpf⟩
  · by_cases hin : va < n * PGSIZE
    · rw [hold va (h.lt_maxva hin) (.inl hin)]
      exact h.mapped va hin
    · rw [hnew va (Nat.not_lt.mp hin) hva]
      rfl
  · have hva : va < MAXVA := by
      rw [htop] at hlt
      rw [hmax]
      omega
    rw [hold va hva (.inr hge)]
    refine h.above va (Nat.le_trans ?_ hge) hlt
    exact Nat.mul_le_mul_right PGSIZE (Nat.le_succ n)

/-- No table could be entered for the page, and it has been given back. -/
theorem Updated.given_back (flags : Nat)
    (hu : Updated (s.take r rest) pt t ((s.take r rest).lookup pt)) :
    kfree r t = .ok ((), t.giveBack r) ∧ Extends s pt n flags (t.giveBack r) n := by
  have hr : r ∈ s.freelist := hfree ▸ List.mem_cons_self ..
  have hrest : ∀ p ∈ rest, p ∈ s.freelist := fun p hp => hfree ▸ List.mem_cons_of_mem _ hp
  obtain ⟨hrt, -, hrr⟩ := take_fresh h hfree
  have hkend : t.kend = s.kend := hu.kend
  have hmanaged : t.Managed r := by
    unfold Ram.Managed
    rw [hkend]
    exact h.sound.managed r hr
  have hrnot : r ∉ t.tables pt ∧ r ∉ t.freelist := by
    rw [← not_or]
    intro hin
    exact (take_mem h hfree hu hin).elim hrt hrr
  have hsame : SameTable t pt (t.giveBack r) := kfree_same hrnot.1
  have htable : Table (t.giveBack r) pt := by
    apply hsame.table hu.table
    intro x hx hin
    rcases List.mem_cons.mp hin with rfl | hin
    · exact hrnot.1 hx
    · exact (hu.table.own x hx).2 hin
  have hsound : (t.giveBack r).Sound := by
    refine ⟨List.nodup_cons.mpr ⟨hrnot.2, hu.sound.nodup⟩, fun x hx => ?_, hu.sound.kend⟩
    rcases List.mem_cons.mp hx with rfl | hx
    · exact hmanaged
    · exact hu.sound.managed x hx
  have hlookup : ∀ va, va < MAXVA → (t.giveBack r).lookup pt va = s.lookup pt va := by
    intro va hva
    rw [hsame.lookup hva, hu.lookup va hva, (take_same h hfree).lookup hva]
  have howned : (t.giveBack r).owned pt n = s.owned pt n := by
    have hgiven : ((t.giveBack r).freelist : Multiset Nat) = {r} + (t.freelist : Multiset Nat) := rfl
    rw [← take_owned h hfree hu, Ram.owned, hsame.tables, hgiven,
      Ram.frames_congr_of_lt fun va hva => hlookup va (h.lt_maxva hva)]
    abel
  refine ⟨kfree_ok hmanaged, h.above, h.of_lookup htable hsound hkend hlookup howned, Nat.le_refl n,
    hkend,
    fun va hva _ => hlookup va hva, fun _ hge hlt => absurd hlt (Nat.not_lt.mpr hge), howned,
    fun p hp => ?_, fun p hp => ?_, fun p hp hpf => ?_⟩
  · rw [hsame.tables] at hp
    exact (take_mem h hfree hu (.inl hp)).imp_right (hrest p)
  · rcases List.mem_cons.mp hp with rfl | hp
    · exact hr
    · exact hrest p (hu.suffix.subset hp)
  · have hpr : p ≠ r := fun he => hpf (he ▸ hr)
    exact (t.setPage_page_ne _ hpr).trans (take_outside h hfree hu hp hpf)

end Grow

/-! ## Shrinking -/

/-- `k` pages behind the first `m` are gone and free. -/
structure Shrunk (s : Ram) (pt m k : Nat) (s' : Ram) : Prop where
  space : Space s' pt m
  kend : s'.kend = s.kend
  lookup : ∀ va, va < MAXVA → va < m * PGSIZE ∨ (m + k) * PGSIZE ≤ va →
    s'.lookup pt va = s.lookup pt va
  owned : s'.owned pt m = s.owned pt (m + k)
  tables : ∀ p, p ∈ s'.tables pt ↔ p ∈ s.tables pt
  freelist : s'.freelist = (s.frames pt k (m * PGSIZE)).reverse ++ s.freelist
  outside : ∀ p, p ∉ s.tables pt → p ∉ s.frames pt k (m * PGSIZE) → s'.page p = s.page p

/-- Unmapping the last pages gives them back. -/
theorem Space.shrink (h : Space s pt (m + k)) :
    ∃ s', uvmunmap pt (m * PGSIZE) k true s = .ok ((), s') ∧ Shrunk s pt m k s' := by
  have hend : m * PGSIZE + k * PGSIZE = (m + k) * PGSIZE := (Nat.add_mul ..).symm
  have hle : m * PGSIZE ≤ (m + k) * PGSIZE := Nat.mul_le_mul_right PGSIZE (Nat.le_add_right m k)
  have hmax : m * PGSIZE + k * PGSIZE ≤ MAXVA := by
    rw [hend]
    exact Nat.le_trans h.low (by norm_num)
  have hmapped : ∀ j, j < k → (s.lookup pt (m * PGSIZE + j * PGSIZE)).isSome := by
    intro j hj
    apply h.mapped
    rw [← Nat.add_mul]
    exact Nat.mul_lt_mul_of_pos_right (Nat.add_lt_add_left hj m) (by norm_num)
  obtain ⟨s', hrun, hu⟩ := uvmunmap_spec true h.table h.sound hmax (Nat.mul_mod_left ..) hmapped
    fun _ => h.returnable
  change Unmapped s pt (m * PGSIZE) k (s.frames pt k (m * PGSIZE)) s' at hu
  have hlookup : ∀ va, va < MAXVA → va < m * PGSIZE ∨ (m + k) * PGSIZE ≤ va →
      s'.lookup pt va = s.lookup pt va := by
    intro va hva hout
    have hnot : ¬ (m * PGSIZE ≤ va ∧ va < m * PGSIZE + k * PGSIZE) := by
      rintro ⟨hge, hlt⟩
      rw [hend] at hlt
      exact hout.elim (Nat.not_lt.mpr hge) (Nat.not_le.mpr hlt)
    rw [hu.lookup va hva, if_neg hnot]
  have howned : s'.owned pt m = s.owned pt (m + k) := by
    have hfirst : s'.frames pt m 0 = s.frames pt m 0 := Ram.frames_congr_of_lt fun va hva =>
      hlookup va (h.lt_maxva (Nat.lt_of_lt_of_le hva hle)) (.inl hva)
    have htables : (s'.tables pt : Multiset Nat) = (s.tables pt : Multiset Nat) :=
      Multiset.coe_eq_coe.mpr
        ((List.perm_ext_iff_of_nodup hu.table.nodup h.table.nodup).mpr hu.tables)
    unfold Ram.owned
    rw [hfirst, htables, hu.freelist, Ram.frames_add, Nat.zero_add, ← Multiset.coe_add,
      ← Multiset.coe_add, Multiset.coe_reverse]
    abel
  refine ⟨s', hrun, h.of_owned hu.table hu.sound hu.kend (Nat.le_trans hle h.low) (fun va hva => ?_)
    (fun va hge hlt => ?_) howned, hu.kend, hlookup, howned, hu.tables, hu.freelist, hu.outside⟩
  · have hlt := Nat.lt_of_lt_of_le hva hle
    rw [hlookup va (h.lt_maxva hlt) (.inl hva)]
    exact h.mapped va hlt
  · have hva : va < MAXVA := Nat.lt_trans hlt (by norm_num)
    rw [hu.lookup va hva]
    by_cases hin : m * PGSIZE ≤ va ∧ va < m * PGSIZE + k * PGSIZE
    · rw [if_pos hin]
    · rw [if_neg hin]
      apply h.above va _ hlt
      rw [← hend]
      exact Nat.not_lt.mp fun hless => hin ⟨hge, hless⟩

theorem Shrunk.refl (h : Space s pt m) : Shrunk s pt m 0 s :=
  ⟨h, rfl, fun _ _ _ => rfl, rfl, fun _ => Iff.rfl, rfl, fun _ _ _ => rfl⟩

/-- Growing and then shrinking back. -/
theorem Extends.shrunk {flags : Nat} (h : Extends s pt n flags t (n + k)) (h' : Shrunk t pt n k s')
    : Extends s pt n flags s' n := by
  have hframe : ∀ p ∈ t.frames pt k (n * PGSIZE), p ∈ s.freelist := by
    intro p hp
    obtain ⟨j, flags', hj, hlookup⟩ := Ram.mem_frames.mp hp
    rw [← Nat.add_mul] at hlookup
    have hlt : (n + j) * PGSIZE < (n + k) * PGSIZE :=
      Nat.mul_lt_mul_of_pos_right (Nat.add_lt_add_left hj n) (by norm_num)
    obtain ⟨q, hq, hnew, -⟩ := h.new _ (Nat.mul_le_mul_right PGSIZE (Nat.le_add_right n j)) hlt
    rw [hlookup] at hnew
    cases hnew
    exact hq
  refine ⟨h.before, h'.space, Nat.le_refl n, h'.kend.trans h.kend, fun va hva _ => ?_,
    fun _ hge hlt => absurd hlt (Nat.not_lt.mpr hge), h'.owned.trans h.owned,
    fun p hp => h.tables p ((h'.tables p).mp hp), fun p hp => ?_, fun p hp hfree => ?_⟩
  · by_cases hout : va < n * PGSIZE ∨ (n + k) * PGSIZE ≤ va
    · exact (h'.lookup va hva hout).trans (h.old va hva hout)
    · rw [not_or, Nat.not_lt, Nat.not_le] at hout
      -- below the trapframe nothing is mapped on either side
      have htop : va < TRAPFRAME := Nat.lt_of_lt_of_le hout.2 h.space.low
      rw [h'.space.above va hout.1 htop]
      exact (h.before va hout.1 htop).symm
  · rw [h'.freelist, List.mem_append, List.mem_reverse] at hp
    exact hp.elim (hframe p) (h.free p)
  · have htable : p ∉ t.tables pt := fun hin => (h.tables p hin).elim hp hfree
    have hframe' : p ∉ t.frames pt k (n * PGSIZE) := fun hin => hfree (hframe p hin)
    exact (h'.outside p htable hframe').trans (h.outside p hp hfree)

/-! ## The functions of `vm.c` -/

theorem intArg_of_lt (h : k < 2 ^ 31) : intArg k = k := by
  have hmod : k % 2 ^ 32 = k := Nat.mod_eq_of_lt (Nat.lt_trans h (by norm_num))
  unfold intArg
  rw [hmod, if_pos h]

/-- A size that a space holds is far from the end of the address range. -/
theorem Space.size_lt (h : Space s pt (pages sz)) : sz < 2 ^ 63 := by
  have hle := le_pages_mul sz
  have hmem := Nat.mul_le_mul_right PGSIZE h.le_memory
  exact Nat.lt_of_le_of_lt (Nat.le_trans hle hmem) (by norm_num)

/-- `uvmdealloc` shrinks to the new size. -/
theorem uvmdealloc_spec {oldsz newsz : Nat} (h : Space s pt (pages oldsz)) (hlt : newsz < oldsz) :
    ∃ s', uvmdealloc pt oldsz newsz s = .ok (newsz, s') ∧
      Shrunk s pt (pages newsz) (pages oldsz - pages newsz) s' := by
  have hold := h.size_lt
  have hle : pages newsz ≤ pages oldsz := pages_mono (Nat.le_of_lt hlt)
  unfold uvmdealloc
  rw [if_neg (Nat.not_le.mpr hlt), pgroundup_eq hold, pgroundup_eq (Nat.lt_trans hlt hold)]
  by_cases heq : pages newsz = pages oldsz
  · rw [heq, if_neg (Nat.lt_irrefl _), Nat.sub_self]
    exact ⟨s, rfl, .refl h⟩
  · have hless : pages newsz * PGSIZE < pages oldsz * PGSIZE :=
      Nat.mul_lt_mul_of_pos_right (Nat.lt_of_le_of_ne hle heq) (by norm_num)
    have hcount : (pages oldsz * PGSIZE - pages newsz * PGSIZE) / PGSIZE =
        pages oldsz - pages newsz := by
      rw [← Nat.sub_mul]
      exact Nat.mul_div_cancel _ (by norm_num)
    have hint : intArg (pages oldsz - pages newsz) = pages oldsz - pages newsz := by
      apply intArg_of_lt
      exact Nat.lt_of_le_of_lt (Nat.le_trans (Nat.sub_le ..) h.le_memory) (by norm_num)
    rw [← Nat.add_sub_of_le hle] at h
    obtain ⟨s', hrun, hshrunk⟩ := h.shrink
    rw [if_pos hless, hcount, hint, run_bind_ok hrun]
    exact ⟨s', rfl, hshrunk⟩

/-- There is always room for one more page below the trapframe. -/
theorem Space.room (h : Space s pt n) : (n + 1) * PGSIZE ≤ TRAPFRAME := by
  have hmem := h.le_memory
  have hsize : PGSIZE = 4096 := rfl
  have htop : TRAPFRAME = 274877898752 := by norm_num
  rw [hsize, htop]
  omega

/-- The pages that `allocLoop` has added are taken away again. -/
theorem dealloc_added {flags : Nat} (h : Extends s pt n flags t (n + k)) :
    ∃ s', (uvmdealloc pt ((n + k) * PGSIZE) (n * PGSIZE) >>= fun _ => pure false) t =
      .ok (false, s') ∧ Extends s pt n flags s' n := by
  by_cases hk : k = 0
  · subst hk
    have hrun : uvmdealloc pt ((n + 0) * PGSIZE) (n * PGSIZE) t = .ok (n * PGSIZE, t) := by
      unfold uvmdealloc
      rw [Nat.add_zero, if_pos (Nat.le_refl _)]
      rfl
    rw [run_bind_ok hrun]
    exact ⟨t, rfl, h⟩
  · have hspace := h.space
    have hlt : n * PGSIZE < (n + k) * PGSIZE :=
      Nat.mul_lt_mul_of_pos_right (Nat.lt_add_of_pos_right (Nat.pos_of_ne_zero hk)) (by norm_num)
    rw [← pages_mul (n + k)] at hspace
    obtain ⟨s', hrun, hshrunk⟩ := uvmdealloc_spec hspace hlt
    rw [pages_mul, pages_mul, Nat.add_sub_cancel_left] at hshrunk
    rw [run_bind_ok hrun]
    exact ⟨s', rfl, h.shrunk hshrunk⟩

theorem alloc_flags (h : xperm < 2 ^ 10) :
    PTE_R ||| PTE_U ||| xperm < 2 ^ 10 ∧
      has (PTE_R ||| PTE_U ||| xperm) (PTE_R ||| PTE_W ||| PTE_X) = true := by
  refine ⟨Nat.or_lt_two_pow (by decide) h, ?_⟩
  rw [has_or, show has (PTE_R ||| PTE_U) (PTE_R ||| PTE_W ||| PTE_X) = true from rfl, Bool.true_or]

/-- One round of the loop of `uvmalloc`. -/
theorem allocLoop_step (hx : xperm < 2 ^ 10) (oldsz count : Nat) (h : Space s pt n) :
    (∃ s', Extends s pt n (PTE_R ||| PTE_U ||| xperm ||| PTE_V) s' (n + 1) ∧
      allocLoop pt oldsz xperm (count + 1) (n * PGSIZE) s =
        allocLoop pt oldsz xperm count ((n + 1) * PGSIZE) s') ∨
    ∃ s', Extends s pt n (PTE_R ||| PTE_U ||| xperm ||| PTE_V) s' n ∧
      allocLoop pt oldsz xperm (count + 1) (n * PGSIZE) s =
        (uvmdealloc pt (n * PGSIZE) oldsz >>= fun _ => pure false) s' := by
  have hva : n * PGSIZE < MAXVA := by
    have hlt : n * PGSIZE < (n + 1) * PGSIZE :=
      Nat.mul_lt_mul_of_pos_right (Nat.lt_succ_self n) (by norm_num)
    exact Nat.lt_of_lt_of_le hlt (Nat.le_trans h.room (by norm_num))
  cases hfree : s.freelist with
  | nil =>
    refine .inr ⟨s, .refl h _, ?_⟩
    rw [allocLoop, run_bind_ok (kalloc_nil hfree)]
  | cons r rest =>
    obtain ⟨hflags, hrwx⟩ := alloc_flags hx
    have hmanaged : s.Managed r := h.sound.managed r (hfree ▸ List.mem_cons_self ..)
    have hbelow : n * PGSIZE < TRAPFRAME := by
      have hlt : n * PGSIZE < (n + 1) * PGSIZE :=
        Nat.mul_lt_mul_of_pos_right (Nat.lt_succ_self n) (by norm_num)
      exact Nat.lt_of_lt_of_le hlt h.room
    have hnone : (s.take r rest).lookup pt (n * PGSIZE) = none := by
      rw [(take_same h hfree).lookup hva]
      exact h.above _ (Nat.le_refl _) hbelow
    have hclear : clearPage r { s.setPage r (filled 5) with freelist := rest } =
        .ok ((), s.take r rest) := by
      show Except.ok ((), ({ s.setPage r (filled 5) with freelist := rest } : Ram).setPage r
        (filled 0)) = _
      rw [Ram.setPage_setPage]
      rfl
    have hstart : allocLoop pt oldsz xperm (count + 1) (n * PGSIZE) s =
        (mapPage pt (n * PGSIZE) r (PTE_R ||| PTE_U ||| xperm) >>= fun r0 =>
          if r0 ≠ 0 then do
            kfree r
            let _ ← uvmdealloc pt (n * PGSIZE) oldsz
            pure false
          else allocLoop pt oldsz xperm count (n * PGSIZE + PGSIZE)) (s.take r rest) := by
      rw [allocLoop, run_bind_ok (kalloc_cons hfree)]
      show (clearPage r >>= fun _ => _) _ = _
      rw [run_bind_ok hclear, mappages_one hva (Nat.mul_mod_left ..)]
    obtain ⟨r0, t, hmap, ⟨rfl, hu⟩ | ⟨rfl, hu, -⟩⟩ := mapPage_spec (take_table h hfree)
      (take_sound h hfree) hva hmanaged.1 hmanaged.lt hflags hrwx hnone
    · refine .inl ⟨t, hu.extends h hfree h.room, ?_⟩
      rw [hstart, run_bind_ok hmap, Nat.succ_mul]
      rfl
    · obtain ⟨hkfree, hext⟩ := hu.given_back h hfree (PTE_R ||| PTE_U ||| xperm ||| PTE_V)
      refine .inr ⟨_, hext, ?_⟩
      rw [hstart, run_bind_ok hmap]
      show (kfree r >>= fun _ => uvmdealloc pt (n * PGSIZE) oldsz >>= fun _ => pure false) t = _
      rw [run_bind_ok hkfree]

/-- The loop of `uvmalloc`: all pages, or none. -/
theorem allocLoop_spec (hx : xperm < 2 ^ 10) (count : Nat)
    (h : Extends s pt n (PTE_R ||| PTE_U ||| xperm ||| PTE_V) t (n + k)) :
    ∃ ok s', allocLoop pt (n * PGSIZE) xperm count ((n + k) * PGSIZE) t = .ok (ok, s') ∧
      Extends s pt n (PTE_R ||| PTE_U ||| xperm ||| PTE_V) s' (if ok then n + k + count else n) := by
  induction count generalizing t k with
  | zero => exact ⟨true, t, rfl, h⟩
  | succ count ih =>
    rcases allocLoop_step hx (n * PGSIZE) count h.space with ⟨u, hext, hrun⟩ | ⟨u, hext, hrun⟩
    · obtain ⟨ok, s', hrun', hext'⟩ := ih (k := k + 1) (h.trans hext)
      refine ⟨ok, s', hrun.trans hrun', ?_⟩
      rwa [← Nat.add_assoc n k 1, Nat.add_assoc (n + k) 1 count, Nat.add_comm 1 count] at hext'
    · obtain ⟨s', hrun', hext'⟩ := dealloc_added (h.trans hext)
      exact ⟨false, s', hrun.trans hrun', hext'⟩

/-- `uvmalloc`: the space has the new size, or it has the old one and memory has run out. -/
theorem uvmalloc_spec {oldsz newsz : Nat} (h : Space s pt (pages oldsz)) (hle : oldsz ≤ newsz)
    (hx : xperm < 2 ^ 10) :
    ∃ r s', uvmalloc pt oldsz newsz xperm s = .ok (r, s') ∧
      (r = newsz ∧ Extends s pt (pages oldsz) (PTE_R ||| PTE_U ||| xperm ||| PTE_V) s' (pages newsz) ∨
        r = 0 ∧ Extends s pt (pages oldsz) (PTE_R ||| PTE_U ||| xperm ||| PTE_V) s' (pages oldsz)) := by
  have hcount : (newsz - pages oldsz * PGSIZE + (PGSIZE - 1)) / PGSIZE = pages newsz - pages oldsz := by
    have hsize : PGSIZE = 4096 := rfl
    unfold pages
    rw [hsize]
    omega
  obtain ⟨ok, s', hrun, hext⟩ := allocLoop_spec (k := 0) hx (pages newsz - pages oldsz)
    (Extends.refl h (PTE_R ||| PTE_U ||| xperm ||| PTE_V))
  rw [Nat.add_zero] at hrun hext
  unfold uvmalloc
  rw [if_neg (Nat.not_lt.mpr hle), pgroundup_eq h.size_lt, hcount, run_bind_ok hrun]
  cases ok with
  | true =>
    rw [if_pos rfl, Nat.add_sub_of_le (pages_mono hle)] at hext
    exact ⟨newsz, s', rfl, .inl ⟨rfl, hext⟩⟩
  | false => exact ⟨0, s', rfl, .inr ⟨rfl, hext⟩⟩

end Xv6.Vm
