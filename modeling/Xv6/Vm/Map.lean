import Xv6.Vm.Table

/-!
# Page tables are finite maps

What the functions of `vm.c` do to a well-formed table, in terms of the map it stands for:
`mappages` adds an entry, `uvmunmap` removes entries, `uvmclear` takes a flag from one, and
`freewalk` gives back the pages of a table without entries.
-/

namespace Xv6.Vm

open Base

variable {s s' : Ram} {pt p va pa perm v : Nat} {e : Nat × Nat} {n a : Nat}

/-! ## Flags -/

theorem has_or (a b flag : Nat) : has (a ||| b) flag = (has a flag || has b flag) := by
  have hand : (a ||| b) &&& flag = (a &&& flag) ||| (b &&& flag) := Nat.and_or_distrib_right ..
  rw [Bool.eq_iff_iff]
  unfold has
  rw [hand, Bool.or_eq_true, bne_iff_ne, bne_iff_ne, bne_iff_ne, ne_eq, Nat.or_eq_zero_iff]
  tauto

theorem decode_make (hperm : perm < 2 ^ 10) (hpa : pa % PGSIZE = 0) (hlt : pa < 2 ^ 56) :
    decode (pa2pte pa ||| (perm ||| PTE_V)) = some (pa, perm ||| PTE_V) := by
  have hflags : perm ||| PTE_V < 2 ^ 10 := Nat.or_lt_two_pow hperm (by norm_num)
  have hvalid : has (pa2pte pa ||| (perm ||| PTE_V)) PTE_V = true := by
    rw [has_or, has_or, show has PTE_V PTE_V = true from rfl, Bool.or_true, Bool.or_true]
  unfold decode
  rw [if_pos hvalid, pte2pa_make hflags hpa hlt, pteFlags_make hflags]

/-! ## Adding an entry -/

/-- The map with the page of `va` changed. -/
def put (f : Nat → Option (Nat × Nat)) (va : Nat) (e : Option (Nat × Nat)) (va' : Nat) :
    Option (Nat × Nat) :=
  if va' / PGSIZE = va / PGSIZE then e else f va'

/-- The table stands for the map `f` now, and has taken its new pages from the free list. -/
structure Updated (s : Ram) (pt : Nat) (s' : Ram) (f : Nat → Option (Nat × Nat)) : Prop where
  table : Table s' pt
  sound : s'.Sound
  kend : s'.kend = s.kend
  lookup : ∀ va, va < MAXVA → s'.lookup pt va = f va
  pages : (s'.tables pt ++ s'.freelist).Perm (s.tables pt ++ s.freelist)
  suffix : s'.freelist <:+ s.freelist
  fresh : ∀ p ∈ s'.tables pt, p ∉ s.tables pt → ∀ i, has (s'.pte p i) PTE_V = false →
    s'.pte p i = 0
  outside : ∀ p, p ∉ s.tables pt → p ∉ s.freelist → s'.page p = s.page p

theorem Grown.updated (h : Grown s pt s') : Updated s pt s' (s.lookup pt) :=
  ⟨h.table, h.sound, h.kend, h.lookup, h.pages, h.suffix, h.fresh, h.outside⟩

/-- A new page of the table was free. -/
theorem Updated.mem_free {f : Nat → Option (Nat × Nat)} (h : Updated s pt s' f)
    (hp : p ∈ s'.tables pt) (hnot : p ∉ s.tables pt) : p ∈ s.freelist := by
  have hin := h.pages.mem_iff.mp (List.mem_append_left s'.freelist hp)
  exact (List.mem_append.mp hin).resolve_left hnot

/-- Writing a valid entry at the bottom of the table that has grown. -/
theorem Grown.enter {t : Ram} (h : Grown s pt t) (hva : va < MAXVA) (hp : t.bottom pt va = some p)
    (hv : v < 2 ^ 64) (hvalid : has v PTE_V = true)
    (hleaf : has v (PTE_R ||| PTE_W ||| PTE_X) = true) :
    Updated s pt (t.setPte p (px 0 va) v) (put (s.lookup pt) va (decode v)) := by
  have htable : Table (t.setPte p (px 0 va) v) pt := h.table.setLeaf hp hv fun _ => hleaf
  have hmem := h.table.setLeaf_tables hp v
  refine ⟨htable, h.sound.setPte .., (Ram.setPte_kend ..).trans h.kend, fun va' hva' => ?_, ?_, ?_,
    fun x hx hnot j hj => ?_, fun x hx hfree => ?_⟩
  · rw [h.table.setLeaf_lookup hva hp hv hva', h.lookup va' hva']
    rfl
  · have hperm : ((t.setPte p (px 0 va) v).tables pt).Perm (t.tables pt) :=
      (List.perm_ext_iff_of_nodup htable.nodup h.table.nodup).mpr hmem
    rw [Ram.setPte_freelist]
    exact (hperm.append_right _).trans h.pages
  · rw [Ram.setPte_freelist]
    exact h.suffix
  · have hold := h.fresh x ((hmem x).mp hx) hnot j
    by_cases hxp : x = p
    · subst hxp
      by_cases hji : j = px 0 va
      · subst hji
        rw [Ram.pte_setPte _ _ _ hv, hvalid] at hj
        cases hj
      · rw [Ram.pte_setPte_ne _ _ _ hji] at hj ⊢
        exact hold hj
    · rw [Ram.pte_congr (Ram.setPte_page_ne _ _ _ hxp)] at hj ⊢
      exact hold hj
  · have hxp : x ≠ p := by
      rintro rfl
      rcases (h.mem_iff x).mp (.inl (Table.mem_of_bottom hp)) with hin | hin
      · exact hx hin
      · exact hfree hin
    rw [Ram.setPte_page_ne _ _ _ hxp]
    exact h.outside x hx hfree

theorem mapPage_spec (ht : Table s pt) (hs : s.Sound) (hva : va < MAXVA) (hpa : pa % PGSIZE = 0)
    (hlt : pa < 2 ^ 56) (hperm : perm < 2 ^ 10)
    (hrwx : has perm (PTE_R ||| PTE_W ||| PTE_X) = true) (hnone : s.lookup pt va = none) :
    ∃ r s', mapPage pt va pa perm s = .ok (r, s') ∧
      (r = 0 ∧ Updated s pt s' (put (s.lookup pt) va (some (pa, perm ||| PTE_V))) ∨
        r = -1 ∧ Updated s pt s' (s.lookup pt) ∧ s'.freelist = []) := by
  obtain ⟨r, t, hwalk, hgrown, hend⟩ := walk_true hva ht hs
  unfold mapPage
  rw [run_bind_ok hwalk]
  rcases hend with ⟨rfl, hempty⟩ | ⟨p, rfl, hp⟩
  · exact ⟨-1, t, rfl, .inr ⟨rfl, hgrown.updated, hempty⟩⟩
  · have hfree : has (t.pte p (px 0 va)) PTE_V = false := by
      have hlookup := hgrown.lookup va hva
      rw [hnone, Ram.lookup_eq hva, hp] at hlookup
      change decode (t.pte p (px 0 va)) = none at hlookup
      cases hv : has (t.pte p (px 0 va)) PTE_V with
      | false => rfl
      | true =>
        unfold decode at hlookup
        rw [if_pos hv] at hlookup
        cases hlookup
    have hflags : perm ||| PTE_V < 2 ^ 10 := Nat.or_lt_two_pow hperm (by norm_num)
    have hvalid : has (pa2pte pa ||| (perm ||| PTE_V)) PTE_V = true := by
      rw [has_or, has_or, show has PTE_V PTE_V = true from rfl, Bool.or_true, Bool.or_true]
    have hleaf : has (pa2pte pa ||| (perm ||| PTE_V)) (PTE_R ||| PTE_W ||| PTE_X) = true := by
      rw [has_or, has_or, hrwx, Bool.true_or, Bool.or_true]
    have hupdated := hgrown.enter hva hp (make_lt hflags hlt) hvalid hleaf
    rw [decode_make hperm hpa hlt] at hupdated
    refine ⟨0, t.setPte p (px 0 va) (pa2pte pa ||| (perm ||| PTE_V)), ?_, .inl ⟨rfl, hupdated⟩⟩
    show (get >>= fun s => if has (s.pte p (px 0 va)) PTE_V = true then _ else _ : M Int) t = _
    rw [run_get_bind, if_neg (Bool.eq_false_iff.mp hfree)]
    rfl

theorem mappages_one (hva : va < MAXVA) (hpage : va % PGSIZE = 0) (pt pa perm : Nat) :
    mappages pt va PGSIZE pa perm = mapPage pt va pa perm := by
  have hsize : PGSIZE = 4096 := rfl
  have hmax : MAXVA = 274877906944 := by norm_num
  rw [hmax] at hva
  rw [hsize] at hpage
  have hfirst : pgrounddown va = va := by
    unfold pgrounddown
    rw [hsize]
    omega
  have hlast : pgrounddown ((va + (PGSIZE - 1)) % 2 ^ 64) = va := by
    unfold pgrounddown
    rw [hsize]
    omega
  have hcount : (2 ^ 64 - va + va) % 2 ^ 64 / PGSIZE = 0 := by
    rw [hsize]
    omega
  unfold mappages
  rw [if_neg (by decide)]
  simp only [hfirst, hlast, hcount]
  rfl

/-! ## Removing entries -/

/-- The physical pages that `n` pages from `a` on are mapped to. -/
def Ram.frames (s : Ram) (pt : Nat) : Nat → Nat → List Nat
  | 0, _ => []
  | n + 1, a => ((s.lookup pt a).map Prod.fst).toList ++ s.frames pt n (a + PGSIZE)

/-- Pages that may be given back: pages of the allocator that are not free and not in the table,
each once. -/
structure Returnable (s : Ram) (pt : Nat) (ps : List Nat) : Prop where
  nodup : ps.Nodup
  managed : ∀ p ∈ ps, s.Managed p
  used : ∀ p ∈ ps, p ∉ s.freelist
  notTable : ∀ p ∈ ps, p ∉ s.tables pt

/-- `n` pages from `a` on are gone from the map, and these pages are on the free list. -/
structure Unmapped (s : Ram) (pt a n : Nat) (freed : List Nat) (s' : Ram) : Prop where
  table : Table s' pt
  sound : s'.Sound
  kend : s'.kend = s.kend
  lookup : ∀ va, va < MAXVA → s'.lookup pt va =
    if a ≤ va ∧ va < a + n * PGSIZE then none else s.lookup pt va
  tables : ∀ p, p ∈ s'.tables pt ↔ p ∈ s.tables pt
  freelist : s'.freelist = freed.reverse ++ s.freelist
  outside : ∀ p, p ∉ s.tables pt → p ∉ freed → s'.page p = s.page p

/-- The pages `uvmunmap` gives back. -/
def freedBy (doFree : Bool) (ps : List Nat) : List Nat := if doFree then ps else []

theorem kfree_ok (h : s.Managed pa) :
    kfree pa s = .ok ((), s.giveBack pa) := by
  unfold kfree
  rw [run_get_bind]
  show (if _ then _ else _ : M Unit) s = _
  rw [if_pos h]
  rfl

theorem kfree_same (hp : pa ∉ s.tables pt) :
    SameTable s pt (s.giveBack pa) :=
  ⟨fun _ hx => s.setPage_page_ne _ fun he => hp (he ▸ hx), rfl⟩

theorem Ram.lookup_flags (ht : Table s pt) (hva : va < MAXVA) (h : s.lookup pt va = some e) :
    ∃ p, s.bottom pt va = some p ∧
      has (s.pte p (px 0 va)) PTE_V = true ∧ pteFlags (s.pte p (px 0 va)) ≠ PTE_V ∧
      e = (pte2pa (s.pte p (px 0 va)), pteFlags (s.pte p (px 0 va))) := by
  obtain ⟨p, hp, hvalid, he⟩ := Ram.lookup_some hva h
  refine ⟨p, hp, hvalid, fun hflags => ?_, he⟩
  have hleaf := ht.leaf [px 2 va, px 1 va] p (px 0 va) rfl hp hvalid
  rw [← has_flags (by decide), hflags] at hleaf
  cases hleaf

theorem unmapPage_run (doFree : Bool) (ht : Table s pt) (hva : va < MAXVA)
    (he : s.lookup pt va = some e) (hmanaged : doFree = true → s.Managed e.1) :
    ∃ p, s.bottom pt va = some p ∧ unmapPage pt va doFree s =
      .ok ((), (if doFree then s.giveBack e.1 else s).setPte p (px 0 va) 0) := by
  obtain ⟨p, hp, hvalid, hflags, rfl⟩ := Ram.lookup_flags ht hva he
  have hwalk := walk_bottom hva hp
  refine ⟨p, hp, ?_⟩
  unfold unmapPage
  rw [run_bind_ok hwalk]
  show (get >>= fun s => if (!has (s.pte p (px 0 va)) PTE_V) = true then _ else _ : M Unit) s = _
  rw [run_get_bind, hvalid, if_neg (by decide), if_neg hflags]
  cases doFree with
  | false => rfl
  | true =>
    rw [if_pos rfl, run_bind_ok (kfree_ok (hmanaged rfl))]
    rfl

theorem unmapPage_spec (doFree : Bool) (ht : Table s pt) (hs : s.Sound) (hva : va < MAXVA)
    (hpage : va % PGSIZE = 0) (he : s.lookup pt va = some e)
    (hret : doFree = true → Returnable s pt [e.1]) :
    ∃ s', unmapPage pt va doFree s = .ok ((), s') ∧
      Unmapped s pt va 1 (freedBy doFree [e.1]) s' := by
  obtain ⟨p, hp, hrun⟩ := unmapPage_run doFree ht hva he fun hd =>
    (hret hd).managed _ (List.mem_singleton_self _)
  refine ⟨_, hrun, ?_⟩
  have hpt : p ∈ s.tables pt := Table.mem_of_bottom hp
  have hsize : PGSIZE = 4096 := rfl
  -- the state between giving the page back and clearing the entry
  obtain ⟨t, ht', hsame, htable, hsound, hfreelist, hpages⟩ : ∃ t : Ram,
      t = (if doFree then s.giveBack e.1 else s) ∧ SameTable s pt t ∧ Table t pt ∧ t.Sound ∧
      t.freelist = (freedBy doFree [e.1]).reverse ++ s.freelist ∧
      ∀ x, x ∉ freedBy doFree [e.1] → t.page x = s.page x := by
    cases doFree with
    | false => exact ⟨s, rfl, ⟨fun _ _ => rfl, rfl⟩, ht, hs, rfl, fun _ _ => rfl⟩
    | true =>
      obtain ⟨-, hmanaged, hused, hnot⟩ := hret rfl
      have hin : e.1 ∈ [e.1] := List.mem_singleton_self _
      have hsame := kfree_same (s := s) (hnot _ hin)
      refine ⟨_, rfl, hsame, hsame.table ht fun x hx => ?_, ⟨?_, fun x hx => ?_, hs.kend⟩, rfl,
        fun x hx => ?_⟩
      · rintro (_ | ⟨_, hfree⟩)
        · exact hnot _ hin hx
        · exact (ht.own x hx).2 hfree
      · exact List.nodup_cons.mpr ⟨hused _ hin, hs.nodup⟩
      · rcases List.mem_cons.mp hx with rfl | hx
        · exact hmanaged _ hin
        · exact hs.managed x hx
      · exact s.setPage_page_ne _ fun he => hx (he ▸ hin)
  rw [← ht']
  have hpt' : t.bottom pt va = some p := (hsame.follow (Nat.le_refl _)).trans hp
  refine ⟨htable.setLeaf hpt' (by norm_num) nofun, hsound.setPte ..,
    (Ram.setPte_kend ..).trans hsame.kend, fun va' hva' => ?_, fun x => ?_,
    (Ram.setPte_freelist ..).trans hfreelist, fun x hx hfreed => ?_⟩
  · rw [htable.setLeaf_lookup hva hpt' (by norm_num) hva', hsame.lookup hva']
    have hiff : va' / PGSIZE = va / PGSIZE ↔ va ≤ va' ∧ va' < va + 1 * PGSIZE := by
      rw [hsize] at hpage ⊢
      omega
    by_cases hin : va ≤ va' ∧ va' < va + 1 * PGSIZE
    · rw [if_pos hin, if_pos (hiff.mpr hin)]
      rfl
    · rw [if_neg hin, if_neg (fun he => hin (hiff.mp he))]
  · rw [htable.setLeaf_tables hpt' 0 x]
    exact hsame.mem_tables x
  · have hxp : x ≠ p := fun he => hx (he ▸ hpt)
    rw [Ram.setPte_page_ne _ _ _ hxp]
    exact hpages x hfreed

theorem Ram.frames_congr_fst (h : ∀ k, k < n → (s'.lookup pt (a + k * PGSIZE)).map Prod.fst =
      (s.lookup pt (a + k * PGSIZE)).map Prod.fst) :
    s'.frames pt n a = s.frames pt n a := by
  induction n generalizing a with
  | zero => rfl
  | succ n ih =>
    have hfirst := h 0 (Nat.succ_pos n)
    rw [Nat.zero_mul, Nat.add_zero] at hfirst
    unfold frames
    rw [hfirst, ih fun k hk => ?_]
    have hnext := h (k + 1) (Nat.succ_lt_succ hk)
    rwa [Nat.succ_mul, Nat.add_comm (k * PGSIZE), ← Nat.add_assoc] at hnext

theorem Ram.frames_congr
    (h : ∀ k, k < n → s'.lookup pt (a + k * PGSIZE) = s.lookup pt (a + k * PGSIZE)) :
    s'.frames pt n a = s.frames pt n a :=
  frames_congr_fst fun k hk => congrArg _ (h k hk)

theorem freedBy_cons (doFree : Bool) (p : Nat) (ps : List Nat) :
    freedBy doFree (p :: ps) = freedBy doFree [p] ++ freedBy doFree ps := by
  cases doFree with
  | false => rfl
  | true => rfl

/-- Two stretches of pages, one behind the other. -/
theorem Unmapped.trans {t : Ram} {freed freed' : List Nat} (h : Unmapped s pt a 1 freed t)
    (h' : Unmapped t pt (a + PGSIZE) n freed' s') :
    Unmapped s pt a (n + 1) (freed ++ freed') s' where
  table := h'.table
  sound := h'.sound
  kend := h'.kend.trans h.kend
  lookup va hva := by
    have hsize : PGSIZE = 4096 := rfl
    rw [h'.lookup va hva, h.lookup va hva, hsize, Nat.one_mul]
    by_cases hlast : a + 4096 ≤ va ∧ va < a + 4096 + n * 4096
    · have hin : a ≤ va ∧ va < a + (n + 1) * 4096 := by omega
      rw [if_pos hlast, if_pos hin]
    · rw [if_neg hlast]
      by_cases hfirst : a ≤ va ∧ va < a + 4096
      · have hin : a ≤ va ∧ va < a + (n + 1) * 4096 := by omega
        rw [if_pos hfirst, if_pos hin]
      · have hout : ¬ (a ≤ va ∧ va < a + (n + 1) * 4096) := by omega
        rw [if_neg hfirst, if_neg hout]
  tables p := (h'.tables p).trans (h.tables p)
  freelist := by
    rw [h'.freelist, h.freelist, List.reverse_append, List.append_assoc]
  outside p hp hfreed := by
    rw [List.mem_append, not_or] at hfreed
    have hpt : p ∉ t.tables pt := fun hin => hp ((h.tables p).mp hin)
    exact (h'.outside p hpt hfreed.2).trans (h.outside p hp hfreed.1)

theorem unmapLoop_spec (doFree : Bool) (ht : Table s pt) (hs : s.Sound)
    (hmax : a + n * PGSIZE ≤ MAXVA) (hpage : a % PGSIZE = 0)
    (hmapped : ∀ k, k < n → (s.lookup pt (a + k * PGSIZE)).isSome)
    (hret : doFree = true → Returnable s pt (s.frames pt n a)) :
    ∃ s', unmapLoop pt doFree n a s = .ok ((), s') ∧
      Unmapped s pt a n (freedBy doFree (s.frames pt n a)) s' := by
  induction n generalizing s a with
  | zero =>
    refine ⟨s, rfl, ht, hs, rfl, fun va _ => ?_, fun _ => Iff.rfl, ?_, fun _ _ _ => rfl⟩
    · rw [if_neg (by omega)]
    · unfold Ram.frames freedBy
      rw [ite_self]
      rfl
  | succ n ih =>
    have hsize : PGSIZE = 4096 := rfl
    have hzero : a + 0 * PGSIZE = a := by rw [Nat.zero_mul, Nat.add_zero]
    have hsucc : ∀ k, a + (k + 1) * PGSIZE = a + PGSIZE + k * PGSIZE := by
      intro k
      rw [Nat.succ_mul, Nat.add_comm (k * PGSIZE), Nat.add_assoc]
    obtain ⟨e, he⟩ := Option.isSome_iff_exists.mp (hmapped 0 (Nat.succ_pos n))
    rw [hzero] at he
    have hframes : s.frames pt (n + 1) a = e.1 :: s.frames pt n (a + PGSIZE) := by
      show ((s.lookup pt a).map Prod.fst).toList ++ _ = _
      rw [he]
      rfl
    rw [hframes] at hret ⊢
    have hlt : a < MAXVA := by
      rw [hsucc, hsize] at hmax
      omega
    obtain ⟨t, hrun, hone⟩ := unmapPage_spec doFree ht hs hlt hpage he fun hd =>
      ⟨List.nodup_singleton _,
        fun x hx => (hret hd).managed x (List.mem_singleton.mp hx ▸ List.mem_cons_self ..),
        fun x hx => (hret hd).used x (List.mem_singleton.mp hx ▸ List.mem_cons_self ..),
        fun x hx => (hret hd).notTable x (List.mem_singleton.mp hx ▸ List.mem_cons_self ..)⟩
    -- the pages behind the first are mapped as before
    have hsame : ∀ k, k < n → t.lookup pt (a + PGSIZE + k * PGSIZE) =
        s.lookup pt (a + PGSIZE + k * PGSIZE) := by
      intro k hk
      have hin : a + PGSIZE + k * PGSIZE < MAXVA := by
        rw [hsucc] at hmax
        rw [hsize] at hmax ⊢
        omega
      rw [hone.lookup _ hin, if_neg (by omega)]
    have hrest : t.frames pt n (a + PGSIZE) = s.frames pt n (a + PGSIZE) := Ram.frames_congr hsame
    have hnext : ∀ k, k < n → (t.lookup pt (a + PGSIZE + k * PGSIZE)).isSome := by
      intro k hk
      rw [hsame k hk, ← hsucc]
      exact hmapped (k + 1) (Nat.succ_lt_succ hk)
    obtain ⟨s', hrun', hmore⟩ := ih hone.table hone.sound (by rw [← hsucc]; exact hmax)
      (by rw [hsize] at hpage ⊢; omega) hnext fun hd => by
        subst hd
        obtain ⟨hnodup, hmanaged, hused, hnot⟩ := hret rfl
        obtain ⟨hfirst, htail⟩ := List.nodup_cons.mp hnodup
        rw [hrest]
        refine ⟨htail, fun x hx => ?_, fun x hx => ?_, fun x hx => ?_⟩
        · have hx := hmanaged x (List.mem_cons_of_mem _ hx)
          unfold Ram.Managed at hx ⊢
          rwa [hone.kend]
        · rw [hone.freelist]
          rintro (_ | ⟨_, hin⟩)
          · exact hfirst hx
          · exact hused x (List.mem_cons_of_mem _ hx) hin
        · rw [hone.tables]
          exact hnot x (List.mem_cons_of_mem _ hx)
    refine ⟨s', ?_, ?_⟩
    · show (unmapPage pt a doFree >>= fun _ => unmapLoop pt doFree n (a + PGSIZE)) s = _
      rw [run_bind_ok hrun, hrun']
    · rw [freedBy_cons, ← hrest]
      exact hone.trans hmore

theorem uvmunmap_spec (doFree : Bool) (ht : Table s pt) (hs : s.Sound)
    (hmax : a + n * PGSIZE ≤ MAXVA) (hpage : a % PGSIZE = 0)
    (hmapped : ∀ k, k < n → (s.lookup pt (a + k * PGSIZE)).isSome)
    (hret : doFree = true → Returnable s pt (s.frames pt n a)) :
    ∃ s', uvmunmap pt a n doFree s = .ok ((), s') ∧
      Unmapped s pt a n (freedBy doFree (s.frames pt n a)) s' := by
  have hrounds : ((a + n * PGSIZE) % 2 ^ 64 - a) / PGSIZE = n := by
    have hlt : a + n * PGSIZE < 2 ^ 64 := lt_of_le_of_lt hmax (by norm_num)
    rw [Nat.mod_eq_of_lt hlt, Nat.add_sub_cancel_left]
    exact Nat.mul_div_cancel n (by norm_num)
  unfold uvmunmap
  rw [if_neg (not_not.mpr hpage), hrounds]
  exact unmapLoop_spec doFree ht hs hmax hpage hmapped hret

/-! ## Taking a flag from an entry -/

/-- The mask of `uvmclear` keeps every other bit. -/
theorem clear_flag (hv : v < 2 ^ 64) :
    (∀ flag, flag ∈ [PTE_V, PTE_R ||| PTE_W ||| PTE_X] →
      has (v &&& (2 ^ 64 - 1 - PTE_U)) flag = has v flag) ∧
      pte2pa (v &&& (2 ^ 64 - 1 - PTE_U)) = pte2pa v ∧
      pteFlags (v &&& (2 ^ 64 - 1 - PTE_U)) = pteFlags v &&& (2 ^ 10 - 1 - PTE_U) := by
  refine ⟨fun flag hflag => ?_, ?_, ?_⟩
  · have hkeep : (2 ^ 64 - 1 - PTE_U) &&& flag = flag := by
      rcases List.mem_cons.mp hflag with rfl | hflag
      · rfl
      · rw [List.mem_singleton.mp hflag]
        rfl
    unfold has
    rw [Nat.and_assoc, hkeep]
  · have hshift : (v &&& (2 ^ 64 - 1 - PTE_U)) / 2 ^ 10 = v / 2 ^ 10 := by
      rw [← Nat.shiftRight_eq_div_pow, Nat.shiftRight_and_distrib, Nat.shiftRight_eq_div_pow]
      have hmask : (2 ^ 64 - 1 - PTE_U) >>> 10 = 2 ^ 54 - 1 := rfl
      rw [hmask, Nat.and_two_pow_sub_one_eq_mod]
      omega
    unfold pte2pa
    rw [hshift]
  · unfold pteFlags
    rw [Nat.and_mod_two_pow]
    rfl

theorem uvmclear_spec (ht : Table s pt) (hs : s.Sound) (hva : va < MAXVA)
    (he : s.lookup pt va = some e) :
    ∃ s', uvmclear pt va s = .ok ((), s') ∧ Table s' pt ∧ s'.Sound ∧ s'.kend = s.kend ∧
      (∀ va', va' < MAXVA → s'.lookup pt va' =
        put (s.lookup pt) va (some (e.1, e.2 &&& (2 ^ 10 - 1 - PTE_U))) va') ∧
      (∀ p, p ∈ s'.tables pt ↔ p ∈ s.tables pt) ∧ s'.freelist = s.freelist ∧
      ∀ p, p ∉ s.tables pt → s'.page p = s.page p := by
  obtain ⟨p, hp, hvalid, rfl⟩ := Ram.lookup_some hva he
  have hlt : s.pte p (px 0 va) < 2 ^ 64 := Bytes.dword_lt ..
  obtain ⟨hflags, hpa, hlow⟩ := clear_flag hlt
  have hnew : s.pte p (px 0 va) &&& (2 ^ 64 - 1 - PTE_U) < 2 ^ 64 := lt_of_le_of_lt Nat.and_le_left hlt
  have hwalk := walk_bottom hva hp
  refine ⟨s.setPte p (px 0 va) (s.pte p (px 0 va) &&& (2 ^ 64 - 1 - PTE_U)), ?_,
    ht.setLeaf hp hnew fun _ => ?_, hs.setPte .., Ram.setPte_kend .., fun va' hva' => ?_,
    ht.setLeaf_tables hp _, Ram.setPte_freelist .., fun x hx => ?_⟩
  · unfold uvmclear
    rw [run_bind_ok hwalk]
    rfl
  · rw [hflags _ (List.mem_cons_of_mem _ (List.mem_singleton_self _))]
    exact ht.leaf [px 2 va, px 1 va] p (px 0 va) rfl hp hvalid
  · have hdecode : decode (s.pte p (px 0 va) &&& (2 ^ 64 - 1 - PTE_U)) =
        some (pte2pa (s.pte p (px 0 va)), pteFlags (s.pte p (px 0 va)) &&& (2 ^ 10 - 1 - PTE_U)) := by
      unfold decode
      rw [hflags _ (List.mem_cons_self ..), if_pos hvalid, hpa, hlow]
    rw [ht.setLeaf_lookup hva hp hnew hva', hdecode]
    rfl
  · have hxp : x ≠ p := fun he => hx (he ▸ Table.mem_of_bottom hp)
    exact s.setPte_page_ne _ _ hxp

/-! ## Giving the table back -/

/-- A subtree of the allocator's pages whose entries lead on for `n` levels and map nothing. -/
structure Bare (s : Ram) (a n : Nat) : Prop where
  tree : Trie.Tree s.child a n
  managed : ∀ p ∈ Trie.nodes s.child n a, s.Managed p
  link : ∀ (q : List (Fin 512)) p i, q.length < n → Trie.follow s.child a q = some p →
    has (s.pte p i) PTE_V = true → has (s.pte p i) (PTE_R ||| PTE_W ||| PTE_X) = false
  empty : ∀ (q : List (Fin 512)) p i, q.length = n → Trie.follow s.child a q = some p →
    has (s.pte p i) PTE_V = false

namespace Bare

variable {a b n : Nat} {i : Fin 512} {t : Ram}

theorem follow_sub (hb : s.child a i = some b) {q : List (Fin 512)} :
    Trie.follow s.child a (i :: q) = Trie.follow s.child b q := by
  rw [Trie.follow_cons, hb]
  rfl

theorem sub (h : Bare s a (n + 1)) (hb : s.child a i = some b) : Bare s b n where
  tree := h.tree.sub hb
  managed p hp := by
    obtain ⟨q, hq, hp⟩ := Trie.mem_nodes.mp hp
    exact h.managed p (Trie.mem_nodes.mpr ⟨i :: q, Nat.succ_le_succ hq, (follow_sub hb).trans hp⟩)
  link q p j hq hp := h.link (i :: q) p j (Nat.succ_lt_succ hq) ((follow_sub hb).trans hp)
  empty q p j hq hp := h.empty (i :: q) p j (congrArg Nat.succ hq) ((follow_sub hb).trans hp)

/-- A subtree depends only on its own pages. -/
theorem congr (h : Bare s a n) (hpage : ∀ p ∈ Trie.nodes s.child n a, t.page p = s.page p)
    (hkend : t.kend = s.kend) :
    Bare t a n ∧ Trie.nodes t.child n a = Trie.nodes s.child n a := by
  have hchild : ∀ (q : List (Fin 512)) p, q.length < n → Trie.follow s.child a q = some p →
      t.child p = s.child p := fun q p hq hp =>
    Ram.child_congr (hpage p (Trie.mem_nodes.mpr ⟨q, Nat.le_of_lt hq, hp⟩))
  have hnodes := Trie.nodes_congr hchild
  have hfollow : ∀ (q : List (Fin 512)), q.length ≤ n →
      Trie.follow t.child a q = Trie.follow s.child a q := fun q hq => Trie.follow_congr hchild hq
  refine ⟨⟨h.tree.congr hchild, fun p hp => ?_, fun q p j hq hp => ?_, fun q p j hq hp => ?_⟩, hnodes⟩
  · rw [hnodes] at hp
    unfold Ram.Managed
    rw [hkend]
    exact h.managed p hp
  · rw [hfollow q (Nat.le_of_lt hq)] at hp
    rw [Ram.pte_congr (hpage p (Trie.mem_nodes.mpr ⟨q, Nat.le_of_lt hq, hp⟩))]
    exact h.link q p j hq hp
  · rw [hfollow q (Nat.le_of_eq hq)] at hp
    rw [Ram.pte_congr (hpage p (Trie.mem_nodes.mpr ⟨q, Nat.le_of_eq hq, hp⟩))]
    exact h.empty q p j hq hp

end Bare

section Entries

variable {a b : Nat} {i : Fin 512} {t : Ram} {free : Nat → M Unit}

theorem freeEntry_none (h : has (s.pte a i) PTE_V = false) : freeEntry free a i s = .ok ((), s) := by
  unfold freeEntry
  rw [run_get_bind]
  show (if _ then _ else _ : M Unit) s = _
  rw [h, Bool.false_and, if_neg (by decide), if_neg (by decide)]
  rfl

theorem freeEntry_link (h : has (s.pte a i) PTE_V = true)
    (hlink : has (s.pte a i) (PTE_R ||| PTE_W ||| PTE_X) = false)
    (hfree : free (pte2pa (s.pte a i)) s = .ok ((), t)) :
    freeEntry free a i s = .ok ((), t.setPte a i 0) := by
  unfold freeEntry
  rw [run_get_bind]
  show (if _ then _ else _ : M Unit) s = _
  rw [h, hlink, if_pos (by decide), run_bind_ok hfree]
  rfl

end Entries

/-- The nodes below an entry. -/
def below (s : Ram) (a n : Nat) (i : Fin 512) : List Nat :=
  ((s.child a i).map (Trie.nodes s.child n)).getD []

theorem nodes_succ (s : Ram) (a n : Nat) :
    Trie.nodes s.child (n + 1) a = (List.finRange 512).flatMap (below s a n) ++ [a] := rfl

theorem mem_below {x : Nat} {i : Fin 512} (hx : x ∈ below s a n i) :
    ∃ q : List (Fin 512), q.length ≤ n ∧ Trie.follow s.child a (i :: q) = some x := by
  unfold below at hx
  cases hb : s.child a i with
  | none =>
    rw [hb] at hx
    cases hx
  | some b =>
    rw [hb] at hx
    obtain ⟨q, hq, hx⟩ := Trie.mem_nodes.mp hx
    exact ⟨q, hq, (Bare.follow_sub hb).trans hx⟩

/-- What `freewalk` does to a subtree. -/
def Freed (s : Ram) (ps : List Nat) (s' : Ram) : Prop :=
  s'.freelist = ps.reverse ++ s.freelist ∧ s'.kend = s.kend ∧ ∀ p, p ∉ ps → s'.page p = s.page p

/-- The loop of `freewalk` over the entries `is`, from a state `t` in which these entries and what
is below them are as they were in `s`. -/
theorem freeEntries_spec {free : Nat → M Unit} (h : Bare s a (n + 1))
    (hfree : ∀ b t, Bare t b n → ∃ t', free b t = .ok ((), t') ∧
      Freed t (Trie.nodes t.child n b) t') (is : List (Fin 512)) (hnodup : is.Nodup) {t : Ram}
    (hpte : ∀ i ∈ is, t.pte a i = s.pte a i)
    (hpage : ∀ i ∈ is, ∀ p ∈ below s a n i, t.page p = s.page p) (hkend : t.kend = s.kend) :
    ∃ t', is.forM (freeEntry free a) t = .ok ((), t') ∧
      t'.freelist = (is.flatMap (below s a n)).reverse ++ t.freelist ∧ t'.kend = s.kend ∧
      ∀ p, p ≠ a → p ∉ is.flatMap (below s a n) → t'.page p = t.page p := by
  induction is generalizing t with
  | nil => exact ⟨t, rfl, rfl, hkend, fun _ _ _ => rfl⟩
  | cons i is ih =>
    obtain ⟨hi, hnodup⟩ := List.nodup_cons.mp hnodup
    have hpi := hpte i (List.mem_cons_self ..)
    cases hv : has (s.pte a i) PTE_V with
    | false =>
      have hbelow : below s a n i = [] := by
        unfold below
        rw [Ram.child_eq_none_iff.mpr hv]
        rfl
      obtain ⟨t', hrun, hlist, hk, hsame⟩ := ih hnodup
        (fun j hj => hpte j (List.mem_cons_of_mem _ hj))
        (fun j hj => hpage j (List.mem_cons_of_mem _ hj)) hkend
      refine ⟨t', ?_, ?_, hk, fun p hp hnot => hsame p hp fun hin => hnot ?_⟩
      · show (freeEntry free a i >>= fun _ => is.forM (freeEntry free a)) t = _
        rw [run_bind_ok (freeEntry_none (hpi ▸ hv)), hrun]
      · rw [List.flatMap_cons, hbelow, List.nil_append]
        exact hlist
      · rw [List.flatMap_cons, hbelow, List.nil_append]
        exact hin
    | true =>
      have hchild : s.child a i = some (pte2pa (s.pte a i)) := if_pos hv
      have hlink := h.link [] a i (Nat.succ_pos n) rfl hv
      have hbelow : below s a n i = Trie.nodes s.child n (pte2pa (s.pte a i)) := by
        unfold below
        rw [hchild]
        rfl
      -- the subtree is as it was, so the recursive call gives it back
      obtain ⟨hbare, hnodes⟩ := (h.sub hchild).congr
        (fun p hp => hpage i (List.mem_cons_self ..) p (hbelow ▸ hp)) hkend
      obtain ⟨u, hrun, hlist, hk, hsame⟩ := hfree _ t hbare
      rw [hnodes, ← hbelow] at hlist hsame
      have hnota : a ∉ below s a n i := by
        intro hin
        obtain ⟨q, hq, hfollow⟩ := mem_below hin
        have heq := h.tree (i :: q) [] a (Nat.succ_le_succ hq) (Nat.zero_le _) hfollow rfl
        cases heq
      have hdisjoint : ∀ j ∈ is, ∀ p ∈ below s a n j, p ∉ below s a n i ∧ p ≠ a := by
        intro j hj p hp
        obtain ⟨q, hq, hfollow⟩ := mem_below hp
        refine ⟨fun hin => ?_, ?_⟩
        · obtain ⟨q', hq', hfollow'⟩ := mem_below hin
          have heq := h.tree (j :: q) (i :: q') p (Nat.succ_le_succ hq) (Nat.succ_le_succ hq') hfollow
            hfollow'
          exact hi ((List.cons.inj heq).1 ▸ hj)
        · rintro rfl
          have heq := h.tree (j :: q) [] p (Nat.succ_le_succ hq) (Nat.zero_le _) hfollow rfl
          cases heq
      obtain ⟨t', hrun', hlist', hk', hsame'⟩ := ih (t := u.setPte a i 0) hnodup
        (fun j hj => by
          have hji : j ≠ i := fun he => hi (he ▸ hj)
          rw [Ram.pte_setPte_ne _ _ _ hji, Ram.pte_congr (hsame a hnota)]
          exact hpte j (List.mem_cons_of_mem _ hj))
        (fun j hj p hp => by
          obtain ⟨hnot, hne⟩ := hdisjoint j hj p hp
          rw [Ram.setPte_page_ne _ _ _ hne, hsame p hnot]
          exact hpage j (List.mem_cons_of_mem _ hj) p hp)
        ((Ram.setPte_kend ..).trans (hk.trans hkend))
      refine ⟨t', ?_, ?_, hk', fun p hp hnot => ?_⟩
      · show (freeEntry free a i >>= fun _ => is.forM (freeEntry free a)) t = _
        rw [run_bind_ok (freeEntry_link (hpi ▸ hv) (hpi ▸ hlink) (hpi ▸ hrun)), hrun']
      · rw [hlist', Ram.setPte_freelist, hlist, List.flatMap_cons, List.reverse_append,
          List.append_assoc]
      · rw [List.flatMap_cons, List.mem_append, not_or] at hnot
        rw [hsame' p hp hnot.2, Ram.setPte_page_ne _ _ _ hp, hsame p hnot.1]

/-- `freewalk` gives back the pages of a subtree without mappings, children before parents. -/
theorem freewalk_spec (h : Bare s a n) :
    ∃ s', freewalk (n + 1) a s = .ok ((), s') ∧ Freed s (Trie.nodes s.child n a) s' := by
  induction n generalizing s a with
  | zero =>
    have hloop : ∀ is : List (Fin 512),
        is.forM (freeEntry (freewalk 0) a) s = .ok ((), s) := by
      intro is
      induction is with
      | nil => rfl
      | cons i is ih =>
        show (freeEntry _ a i >>= fun _ => is.forM (freeEntry _ a)) s = _
        rw [run_bind_ok (freeEntry_none (h.empty [] a i rfl rfl)), ih]
    have hmanaged : s.Managed a := h.managed a (List.mem_singleton_self _)
    refine ⟨s.giveBack a, ?_, rfl, rfl, fun p hp => ?_⟩
    · show ((List.finRange 512).forM (freeEntry (freewalk 0) a) >>= fun _ => kfree a) s = _
      rw [run_bind_ok (hloop _), kfree_ok hmanaged]
    · exact s.setPage_page_ne _ fun he => hp (he ▸ List.mem_singleton_self _)
  | succ n ih =>
    obtain ⟨t, hrun, hlist, hk, hsame⟩ := freeEntries_spec h (fun b t hb => ih hb)
      (List.finRange 512) (List.nodup_finRange 512) (fun _ _ => rfl) (fun _ _ _ _ => rfl) rfl
    have hmanaged : t.Managed a := by
      unfold Ram.Managed
      rw [hk]
      exact h.managed a (Trie.mem_nodes.mpr ⟨[], Nat.zero_le _, rfl⟩)
    refine ⟨t.giveBack a, ?_, ?_, hk, fun p hp => ?_⟩
    · show ((List.finRange 512).forM (freeEntry (freewalk (n + 1)) a) >>= fun _ => kfree a) s = _
      rw [run_bind_ok hrun, kfree_ok hmanaged]
    · show a :: t.freelist = _
      rw [hlist, nodes_succ, List.reverse_append, List.reverse_singleton, List.singleton_append,
        List.cons_append]
    · rw [nodes_succ, List.mem_append, not_or] at hp
      have hpa : p ≠ a := fun he => hp.2 (he ▸ List.mem_singleton_self _)
      show (t.setPage a (filled 1)).page p = _
      rw [t.setPage_page_ne _ hpa, hsame p hpa hp.1]

/-- A table without entries is such a subtree. -/
theorem Table.bare (ht : Table s pt) (hempty : ∀ va, va < MAXVA → s.lookup pt va = none) :
    Bare s pt 2 where
  tree := ht.tree
  managed p hp := (ht.own p hp).1
  link q p i hq hp := ht.link q p i hq hp
  empty q p k hq hp := by
    -- the path and the index are those of a virtual address
    obtain ⟨i, j, rfl⟩ := List.length_eq_two.mp hq
    have hi : i.val < 256 := by
      by_contra hge
      rw [Trie.follow_cons, ht.half i (Nat.not_lt.mp hge)] at hp
      cases hp
    obtain ⟨va, hva, h2, h1, h0⟩ : ∃ va, va < MAXVA ∧ px 2 va = i ∧ px 1 va = j ∧ px 0 va = k := by
      have hj := j.isLt
      have hk := k.isLt
      refine ⟨i.val * 2 ^ 30 + j.val * 2 ^ 21 + k.val * 2 ^ 12, ?_, ?_, ?_, ?_⟩
      · show _ < 2 ^ 38
        omega
      · unfold px
        refine Fin.ext ?_
        show (i.val * 2 ^ 30 + j.val * 2 ^ 21 + k.val * 2 ^ 12) / 2 ^ 30 % 512 = i.val
        omega
      · unfold px
        refine Fin.ext ?_
        show (i.val * 2 ^ 30 + j.val * 2 ^ 21 + k.val * 2 ^ 12) / 2 ^ 21 % 512 = j.val
        omega
      · unfold px
        refine Fin.ext ?_
        show (i.val * 2 ^ 30 + j.val * 2 ^ 21 + k.val * 2 ^ 12) / 2 ^ 12 % 512 = k.val
        omega
    have hnone := hempty va hva
    have hbottom : s.bottom pt va = some p := by
      unfold Ram.bottom
      rw [h2, h1]
      exact hp
    rw [Ram.lookup_eq hva, hbottom, h0] at hnone
    change decode (s.pte p k) = none at hnone
    cases hv : has (s.pte p k) PTE_V with
    | false => rfl
    | true =>
      unfold decode at hnone
      rw [if_pos hv] at hnone
      cases hnone

/-! ## A table without entries -/

/-- A path from a cleared page leads nowhere. -/
theorem follow_cleared (h : s.page pt = filled 0) {q : List (Fin 512)}
    (hp : Trie.follow s.child pt q = some p) : q = [] ∧ p = pt := by
  cases q with
  | nil => exact ⟨rfl, (Option.some.inj hp).symm⟩
  | cons i q =>
    have hnone : s.child pt i = none := by
      rw [Ram.child_eq_none_iff, Ram.pte_zero h]
      rfl
    rw [Trie.follow_cons, hnone] at hp
    cases hp

/-- A cleared page is a page table without entries. -/
theorem Table.cleared (h : s.page pt = filled 0) (hmanaged : s.Managed pt) (hfree : pt ∉ s.freelist) :
    Table s pt where
  tree q q' a _ _ hq hq' := by
    rw [(follow_cleared h hq).1, (follow_cleared h hq').1]
  own p hp := by
    obtain ⟨q, -, hp⟩ := mem_tables_iff.mp hp
    rw [(follow_cleared h hp).2]
    exact ⟨hmanaged, hfree⟩
  link q p i _ hp hv := by
    rw [(follow_cleared h hp).2, Ram.pte_zero h] at hv
    cases hv
  leaf q p i hq hp _ := by
    rw [(follow_cleared h hp).1] at hq
    cases hq
  half i _ := by
    rw [Ram.child_eq_none_iff, Ram.pte_zero h]
    rfl

theorem Ram.lookup_cleared (h : s.page pt = filled 0) (hva : va < MAXVA) :
    s.lookup pt va = none := by
  rw [lookup_eq hva]
  cases hb : s.bottom pt va with
  | none => rfl
  | some p => cases (follow_cleared h hb).1

/-! ## The law -/

/-- Page tables are finite maps. For a well-formed table: `mappages` of one page that is not mapped
adds its entry, or changes no entry when memory runs out, with the new tables fresh and cleared;
`uvmunmap` of mapped pages removes their entries, and gives the pages back if it is told to;
`uvmclear` takes `PTE_U` from one entry; all of them keep the table well formed; and `freewalk` of a
table without entries gives back its pages, each once. -/
theorem page_table_is_map (ht : Table s pt) (hs : s.Sound) :
    (∀ va pa perm, va < MAXVA → va % PGSIZE = 0 → pa < 2 ^ 56 → pa % PGSIZE = 0 → perm < 2 ^ 10 →
      has perm (PTE_R ||| PTE_W ||| PTE_X) = true → s.lookup pt va = none →
        ∃ r s', mappages pt va PGSIZE pa perm s = .ok (r, s') ∧ Table s' pt ∧ s'.Sound ∧
          (r = 0 ∧ (∀ va', va' < MAXVA → s'.lookup pt va' =
              if va' / PGSIZE = va / PGSIZE then some (pa, perm ||| PTE_V) else s.lookup pt va') ∨
            r = -1 ∧ s'.freelist = [] ∧ ∀ va', va' < MAXVA → s'.lookup pt va' = s.lookup pt va') ∧
          ∀ p ∈ s'.tables pt, p ∉ s.tables pt →
            p ∈ s.freelist ∧ ∀ i, has (s'.pte p i) PTE_V = false → s'.pte p i = 0) ∧
      (∀ va npages doFree, va % PGSIZE = 0 → va + npages * PGSIZE ≤ MAXVA →
        (∀ k, k < npages → (s.lookup pt (va + k * PGSIZE)).isSome) →
        (doFree = true → Returnable s pt (s.frames pt npages va)) →
          ∃ s', uvmunmap pt va npages doFree s = .ok ((), s') ∧ Table s' pt ∧ s'.Sound ∧
            ∀ va', va' < MAXVA → s'.lookup pt va' =
              if va ≤ va' ∧ va' < va + npages * PGSIZE then none else s.lookup pt va') ∧
      (∀ va pa flags, va < MAXVA → s.lookup pt va = some (pa, flags) →
        ∃ s', uvmclear pt va s = .ok ((), s') ∧ Table s' pt ∧ s'.Sound ∧
          ∀ va', va' < MAXVA → s'.lookup pt va' =
            if va' / PGSIZE = va / PGSIZE then some (pa, flags &&& (2 ^ 10 - 1 - PTE_U))
            else s.lookup pt va') ∧
      ((∀ va, va < MAXVA → s.lookup pt va = none) →
        ∃ s', freewalk 3 pt s = .ok ((), s') ∧ (s.tables pt).Nodup ∧
          s'.freelist = (s.tables pt).reverse ++ s.freelist) := by
  refine ⟨fun va pa perm hva hpage hlt hpa hperm hrwx hnone => ?_,
    fun va npages doFree hpage hmax hmapped hret => ?_, fun va pa flags hva he => ?_, fun hempty => ?_⟩
  · rw [mappages_one hva hpage]
    obtain ⟨r, s', hrun, ⟨rfl, hupdated⟩ | ⟨rfl, hupdated, hempty⟩⟩ :=
      mapPage_spec ht hs hva hpa hlt hperm hrwx hnone
    · exact ⟨0, s', hrun, hupdated.table, hupdated.sound, .inl ⟨rfl, hupdated.lookup⟩,
        fun p hp hnot => ⟨hupdated.mem_free hp hnot, hupdated.fresh p hp hnot⟩⟩
    · exact ⟨-1, s', hrun, hupdated.table, hupdated.sound, .inr ⟨rfl, hempty, hupdated.lookup⟩,
        fun p hp hnot => ⟨hupdated.mem_free hp hnot, hupdated.fresh p hp hnot⟩⟩
  · obtain ⟨s', hrun, hunmapped⟩ := uvmunmap_spec doFree ht hs hmax hpage hmapped hret
    exact ⟨s', hrun, hunmapped.table, hunmapped.sound, hunmapped.lookup⟩
  · obtain ⟨s', hrun, htable, hsound, -, hlookup, -⟩ := uvmclear_spec ht hs hva he
    exact ⟨s', hrun, htable, hsound, hlookup⟩
  · obtain ⟨s', hrun, hlist, -⟩ := freewalk_spec (ht.bare hempty)
    exact ⟨s', hrun, ht.nodup, hlist⟩

/-- Cleared memory with four free pages. -/
def clearedRam : Ram where
  page _ := filled 0
  freelist := [KERNBASE + 0x1000, KERNBASE + 0x2000, KERNBASE + 0x3000, KERNBASE + 0x4000]
  kend := KERNBASE

theorem clearedRam_sound : clearedRam.Sound := by
  refine ⟨by decide, fun p hp => ?_, Nat.le_refl _⟩
  have hall : ∀ p ∈ clearedRam.freelist, clearedRam.Managed p := by decide
  exact hall p hp

theorem clearedRam_table : Table clearedRam KERNBASE := .cleared rfl (by decide) (by decide)

/-- A page is mapped in an empty table, and nothing else is. -/
theorem page_table_is_map_first :
    ∃ s', mappages KERNBASE 0x5000 PGSIZE 0x80004000 PTE_R clearedRam = .ok (0, s') ∧
      s'.lookup KERNBASE 0x5000 = some (0x80004000, PTE_R ||| PTE_V) ∧
      s'.lookup KERNBASE 0x6000 = none := by
  obtain ⟨hmap, -⟩ := page_table_is_map clearedRam_table clearedRam_sound
  have hnone : ∀ va, va < MAXVA → clearedRam.lookup KERNBASE va = none := fun _ hva =>
    Ram.lookup_cleared rfl hva
  obtain ⟨r, s', hrun, -, -, hcases, -⟩ := hmap 0x5000 0x80004000 PTE_R (by norm_num) (by decide)
    (by norm_num) (by decide) (by norm_num) (by decide) (hnone _ (by norm_num))
  have hr : (mappages KERNBASE 0x5000 PGSIZE 0x80004000 PTE_R clearedRam).map Prod.fst = .ok 0 := by
    decide +kernel
  rw [hrun] at hr
  cases hr
  rcases hcases with ⟨-, hlookup⟩ | ⟨habsurd, -⟩
  · refine ⟨s', hrun, ?_, ?_⟩
    · rw [hlookup _ (by norm_num), if_pos rfl]
    · rw [hlookup _ (by norm_num), if_neg (by decide)]
      exact hnone _ (by norm_num)
  · cases habsurd

/-- A mapped page that is not the allocator's cannot be given back. -/
theorem uvmunmap_foreign (ht : Table s pt) (hva : va < MAXVA) (hpage : va % PGSIZE = 0)
    (he : s.lookup pt va = some e) (hforeign : ¬ s.Managed e.1) :
    uvmunmap pt va 1 true s = .error (.panic "kfree") := by
  obtain ⟨p, hp, hvalid, hflags, rfl⟩ := Ram.lookup_flags ht hva he
  have hwalk := walk_bottom hva hp
  have hkfree : kfree (pte2pa (s.pte p (px 0 va))) s = .error (.panic "kfree") := by
    unfold kfree
    rw [run_get_bind]
    show (if _ then _ else _ : M Unit) s = _
    rw [if_neg hforeign]
    rfl
  have hone : unmapPage pt va true s = .error (.panic "kfree") := by
    unfold unmapPage
    rw [run_bind_ok hwalk]
    show (get >>= fun s => if (!has (s.pte p (px 0 va)) PTE_V) = true then _ else _ : M Unit) s = _
    rw [run_get_bind, hvalid, if_neg (by decide), if_neg hflags, if_pos rfl, run_bind_error hkfree]
  have hrounds : ((va + 1 * PGSIZE) % 2 ^ 64 - va) / PGSIZE = 1 := by
    have hlt : va + 1 * PGSIZE < 2 ^ 64 := by
      rw [Nat.one_mul]
      exact lt_of_lt_of_le (Nat.add_lt_add_right hva _) (by norm_num)
    rw [Nat.mod_eq_of_lt hlt, Nat.add_sub_cancel_left, Nat.mul_div_cancel 1 (by norm_num)]
  unfold uvmunmap
  rw [if_neg (not_not.mpr hpage), hrounds]
  show (unmapPage pt va true >>= fun _ => unmapLoop pt true 0 (va + PGSIZE)) s = _
  rw [run_bind_error hone]

/-- A page at address 0 is mapped in an empty table. `uvmunmap` does not remove it when it is told to
give the page back: `kfree` panics. -/
theorem uvmunmap_panics_on_foreign_page :
    ∃ s, Table s KERNBASE ∧ s.Sound ∧ s.lookup KERNBASE 0 = some (0, PTE_R ||| PTE_V) ∧
      uvmunmap KERNBASE 0 1 true s = .error (.panic "kfree") := by
  have hnone : clearedRam.lookup KERNBASE 0 = none := Ram.lookup_cleared rfl (by norm_num)
  obtain ⟨r, t, hrun, hcases⟩ := mapPage_spec clearedRam_table clearedRam_sound (by norm_num)
    (Nat.zero_mod PGSIZE) (by norm_num) (by norm_num) (rfl : has PTE_R _ = true) hnone
  have hr : (mapPage KERNBASE 0 0 PTE_R clearedRam).map Prod.fst = .ok 0 := by
    decide +kernel
  rw [hrun] at hr
  cases hr
  rcases hcases with ⟨-, hupdated⟩ | ⟨habsurd, -⟩
  · have hlookup : t.lookup KERNBASE 0 = some (0, PTE_R ||| PTE_V) :=
      (hupdated.lookup 0 (by norm_num)).trans (if_pos rfl)
    have hforeign : ¬ t.Managed 0 := by
      intro hmanaged
      have hkend : t.kend = KERNBASE := hupdated.kend
      exact absurd hmanaged.2.1 (by rw [hkend]; decide)
    exact ⟨t, hupdated.table, hupdated.sound, hlookup,
      uvmunmap_foreign hupdated.table (by norm_num) rfl hlookup hforeign⟩
  · cases habsurd

end Xv6.Vm
