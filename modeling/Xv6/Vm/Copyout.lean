import Xv6.Base.Overlay
import Xv6.Vm.Space

/-!
# Copying to user memory

What `copyout` does: it writes the bytes one behind the other, each to the place its address is mapped
to, up to the first one whose page `walkaddr` does not accept (`copyout_spec`).
-/

namespace Xv6.Vm

open Base Function

variable {s s' : Ram} {pt va pa p : Nat}

/-! ## Places in user memory -/

namespace Ram

/-- The page a user address is on. `walkaddr` answers its address, or 0. -/
def user (s : Ram) (pt va : Nat) : Option Nat :=
  (s.lookup pt va).bind fun e => if has e.2 PTE_U = true ∧ e.1 ≠ 0 then some e.1 else none

/-- The place of a user address in memory: a page, and an offset in it. -/
def place (s : Ram) (pt va : Nat) : Option (Nat × Fin PGSIZE) :=
  (s.user pt va).map fun pa => (pa, ⟨va % PGSIZE, Nat.mod_lt va (by norm_num)⟩)

/-- Memory after some bytes have been written. -/
def deposit (s : Ram) (l : List ((Nat × Fin PGSIZE) × UInt8)) : Ram :=
  { s with page := fun p j => overlay (fun x : Nat × Fin PGSIZE => s.page x.1 x.2) l (p, j) }

/-- The bytes of a list that are written: those up to the first one without a place. -/
def taken (s : Ram) (pt : Nat) : List (Nat × UInt8) → List ((Nat × Fin PGSIZE) × UInt8)
  | [] => []
  | w :: l =>
    match s.place pt w.1 with
    | none => []
    | some x => (x, w.2) :: s.taken pt l

/-- All bytes of a list have a place. -/
def fits (s : Ram) (pt : Nat) (l : List (Nat × UInt8)) : Bool := l.all fun w => (s.place pt w.1).isSome

end Ram

/-- Bytes at one address and the addresses behind it. -/
def bytesAt : Nat → List UInt8 → List (Nat × UInt8)
  | _, [] => []
  | va, b :: bs => (va, b) :: bytesAt (va + 1) bs

/-- No page of the table is mapped for the user. -/
def Separate (s : Ram) (pt : Nat) : Prop := ∀ va pa, s.user pt va = some pa → pa ∉ s.tables pt

theorem bytesAt_append (va : Nat) (a b : List UInt8) :
    bytesAt va (a ++ b) = bytesAt va a ++ bytesAt (va + a.length) b := by
  induction a generalizing va with
  | nil => rfl
  | cons x a ih =>
    have hnext : va + (x :: a).length = va + 1 + a.length := by
      rw [List.length_cons, Nat.add_assoc, Nat.add_comm 1]
    rw [List.cons_append, bytesAt, ih, hnext, bytesAt, List.cons_append]

theorem mem_bytesAt {bs : List UInt8} {w : Nat × UInt8} :
    w ∈ bytesAt va bs ↔ ∃ i, w.1 = va + i ∧ bs[i]? = some w.2 := by
  induction bs generalizing va with
  | nil => simp [bytesAt]
  | cons b bs ih =>
    rw [bytesAt, List.mem_cons, ih]
    constructor
    · rintro (rfl | ⟨i, hi, hb⟩)
      · exact ⟨0, rfl, rfl⟩
      · exact ⟨i + 1, by omega, by rw [List.getElem?_cons_succ, hb]⟩
    · rintro ⟨_ | i, hi, hb⟩
      · exact .inl (Prod.ext hi (Option.some.inj hb).symm)
      · exact .inr ⟨i, by omega, by rw [← hb, List.getElem?_cons_succ]⟩

namespace Ram

theorem lookup_high (h : MAXVA ≤ va) : s.lookup pt va = none := by
  unfold lookup walk
  rw [if_pos h]
  rfl

theorem user_lt (h : s.user pt va = some pa) : va < MAXVA := by
  by_contra hge
  unfold user at h
  rw [lookup_high (Nat.not_lt.mp hge)] at h
  cases h

theorem user_congr {va' : Nat} (h : va / PGSIZE = va' / PGSIZE) : s.user pt va = s.user pt va' := by
  have hsize : PGSIZE = 4096 := rfl
  have hmax : MAXVA = 274877906944 := by norm_num
  unfold user
  by_cases hva : va < MAXVA
  · have hva' : va' < MAXVA := by
      rw [hsize] at h
      rw [hmax] at hva ⊢
      omega
    rw [lookup_congr h hva hva']
  · have hva' : ¬ va' < MAXVA := by
      rw [hsize] at h
      rw [hmax] at hva ⊢
      omega
    rw [lookup_high (Nat.not_lt.mp hva), lookup_high (Nat.not_lt.mp hva')]

theorem user_eq_some (h : s.user pt va = some pa) :
    ∃ flags, s.lookup pt va = some (pa, flags) ∧ has flags PTE_U = true ∧ pa ≠ 0 := by
  unfold user at h
  obtain ⟨e, he, hif⟩ := Option.bind_eq_some_iff.mp h
  split at hif
  next hu =>
    cases hif
    exact ⟨e.2, he, hu⟩
  next => cases hif

end Ram

theorem SameTable.user (h : SameTable s pt s') (va : Nat) : s'.user pt va = s.user pt va := by
  unfold Ram.user
  by_cases hva : va < MAXVA
  · rw [h.lookup hva]
  · rw [Ram.lookup_high (Nat.not_lt.mp hva), Ram.lookup_high (Nat.not_lt.mp hva)]

theorem SameTable.place (h : SameTable s pt s') (va : Nat) : s'.place pt va = s.place pt va := by
  unfold Ram.place
  rw [h.user]

theorem SameTable.taken (h : SameTable s pt s') (l : List (Nat × UInt8)) :
    s'.taken pt l = s.taken pt l := by
  induction l with
  | nil => rfl
  | cons w l ih =>
    unfold Ram.taken
    rw [h.place, ih]

theorem SameTable.fits (h : SameTable s pt s') (l : List (Nat × UInt8)) :
    s'.fits pt l = s.fits pt l := by
  unfold Ram.fits
  congr 1
  funext w
  rw [h.place]

theorem SameTable.separate (h : SameTable s pt s') (hsep : Separate s pt) : Separate s' pt := by
  intro va pa hpa
  rw [h.user] at hpa
  rw [h.tables]
  exact hsep va pa hpa

theorem SameTable.trans {s'' : Ram} (h : SameTable s pt s') (h' : SameTable s' pt s'') :
    SameTable s pt s'' := by
  refine ⟨fun p hp => ?_, h'.kend.trans h.kend⟩
  rw [h'.page p (by rw [h.tables]; exact hp), h.page p hp]

/-! ## Writing bytes -/

namespace Ram

variable {l m : List (Nat × UInt8)} {x : Nat × Fin PGSIZE}

theorem deposit_append (s : Ram) (l m : List ((Nat × Fin PGSIZE) × UInt8)) :
    s.deposit (l ++ m) = (s.deposit l).deposit m := by
  unfold deposit
  rw [overlay_append]

theorem taken_cons {w : Nat × UInt8} (h : s.place pt w.1 = some x) :
    s.taken pt (w :: l) = (x, w.2) :: s.taken pt l := by
  rw [taken, h]

theorem taken_append (h : s.fits pt l = true) :
    s.taken pt (l ++ m) = s.taken pt l ++ s.taken pt m := by
  induction l with
  | nil => rfl
  | cons w l ih =>
    obtain ⟨hw, hl⟩ := List.all_cons.symm.trans h |> Bool.and_eq_true_iff.mp
    obtain ⟨x, hx⟩ := Option.isSome_iff_exists.mp hw
    rw [List.cons_append, taken_cons hx, taken_cons hx, ih hl, List.cons_append]

theorem taken_append_of_not (h : s.fits pt l = false) : s.taken pt (l ++ m) = s.taken pt l := by
  induction l with
  | nil => cases h
  | cons w l ih =>
    cases hx : s.place pt w.1 with
    | none =>
      rw [List.cons_append, taken, taken, hx]
    | some x =>
      have hl : s.fits pt l = false := by
        unfold fits at h
        rw [List.all_cons, hx] at h
        exact h
      rw [List.cons_append, taken_cons hx, taken_cons hx, ih hl]

theorem fits_append : s.fits pt (l ++ m) = (s.fits pt l && s.fits pt m) := List.all_append

/-- What is written is written to a page of the user. -/
theorem mem_taken {w : (Nat × Fin PGSIZE) × UInt8} (h : w ∈ s.taken pt l) :
    ∃ va, s.place pt va = some w.1 ∧ (va, w.2) ∈ l := by
  induction l with
  | nil => cases h
  | cons v l ih =>
    cases hx : s.place pt v.1 with
    | none =>
      rw [taken, hx] at h
      cases h
    | some x =>
      rw [taken_cons hx] at h
      rcases List.mem_cons.mp h with rfl | h
      · exact ⟨v.1, hx, List.mem_cons_self ..⟩
      · obtain ⟨va, hva, hin⟩ := ih h
        exact ⟨va, hva, List.mem_cons_of_mem _ hin⟩

/-- When all bytes have a place, all are written there. -/
theorem mem_taken_of_fits {va : Nat} {b : UInt8} (h : s.fits pt l = true) (hmem : (va, b) ∈ l)
    (hx : s.place pt va = some x) : (x, b) ∈ s.taken pt l := by
  induction l with
  | nil => cases hmem
  | cons w l ih =>
    obtain ⟨hw, hl⟩ : (s.place pt w.1).isSome = true ∧ s.fits pt l = true :=
      Bool.and_eq_true_iff.mp h
    obtain ⟨y, hy⟩ := Option.isSome_iff_exists.mp hw
    rw [taken_cons hy]
    rcases List.mem_cons.mp hmem with rfl | hmem
    · rw [Option.some.inj (hx.symm.trans hy)]
      exact List.mem_cons_self ..
    · exact List.mem_cons_of_mem _ (ih hl hmem)

theorem place_eq_some (h : s.place pt va = some x) :
    s.user pt va = some x.1 ∧ x.2.val = va % PGSIZE := by
  obtain ⟨pa, hpa, rfl⟩ := Option.map_eq_some_iff.mp h
  exact ⟨hpa, rfl⟩

theorem isSome_place : (s.place pt va).isSome = (s.user pt va).isSome := Option.isSome_map

theorem fits_bytesAt {bs : List UInt8} : s.fits pt (bytesAt va bs) = true ↔
    ∀ i, i < bs.length → (s.user pt (va + i)).isSome = true := by
  unfold fits
  simp only [List.all_eq_true, isSome_place]
  constructor
  · intro h i hi
    exact h (va + i, bs[i]) (mem_bytesAt.mpr ⟨i, rfl, List.getElem?_eq_getElem hi⟩)
  · intro h w hw
    obtain ⟨i, hi, hb⟩ := mem_bytesAt.mp hw
    rw [hi]
    exact h i (List.getElem?_eq_some_iff.mp hb).1

/-- Bytes at addresses less than a page apart have places of their own. -/
theorem bytesAt_place {a : Nat} {bs : List UInt8} (hlen : bs.length ≤ PGSIZE) {w w' : Nat × UInt8}
    (hw : w ∈ bytesAt a bs) (hw' : w' ∈ bytesAt a bs) (hx : s.place pt w.1 = some x)
    (hx' : s.place pt w'.1 = some x) : w.2 = w'.2 := by
  obtain ⟨i, hi, hb⟩ := mem_bytesAt.mp hw
  obtain ⟨j, hj, hb'⟩ := mem_bytesAt.mp hw'
  have hoff : w.1 % PGSIZE = w'.1 % PGSIZE := by
    rw [← (place_eq_some hx).2, ← (place_eq_some hx').2]
  have hilt : i < bs.length := (List.getElem?_eq_some_iff.mp hb).1
  have hjlt : j < bs.length := (List.getElem?_eq_some_iff.mp hb').1
  have hij : i = j := by
    rw [hi, hj] at hoff
    have hsub := Nat.ModEq.add_left_cancel' a (show a + i ≡ a + j [MOD PGSIZE] from hoff)
    exact Nat.ModEq.eq_of_lt_of_lt hsub (by omega) (by omega)
  rw [hij, hb'] at hb
  exact (Option.some.inj hb).symm

theorem deposit_page_of_not_mem {l : List ((Nat × Fin PGSIZE) × UInt8)} (h : ∀ w ∈ l, w.1.1 ≠ p) :
    (s.deposit l).page p = s.page p := by
  funext j
  apply overlay_of_not_mem (a := (p, j))
  intro w hw he
  exact h w hw (congrArg Prod.fst he)

/-- Writing to user memory does not touch the table. -/
theorem deposit_same (hsep : Separate s pt) (l : List (Nat × UInt8)) :
    SameTable s pt (s.deposit (s.taken pt l)) := by
  refine ⟨fun p hp => deposit_page_of_not_mem fun w hw he => ?_, rfl⟩
  obtain ⟨va, hva, -⟩ := mem_taken hw
  exact hsep va w.1.1 (place_eq_some hva).1 (he ▸ hp)

end Ram

/-! ## `copyout` -/

theorem walkaddr_spec (pt va : Nat) (s : Ram) :
    walkaddr pt va s = .ok ((s.user pt va).getD 0, s) := by
  unfold walkaddr
  by_cases hva : va < MAXVA
  · rw [if_neg (Nat.not_le.mpr hva), run_bind_ok (walk_false hva pt s)]
    unfold Ram.user
    rw [Ram.lookup_eq hva]
    cases s.bottom pt va with
    | none => rfl
    | some p =>
      show (get >>= fun s => if (!has (s.pte p (px 0 va)) PTE_V) = true then _ else _ : M Nat) s = _
      rw [run_get_bind]
      show _ = Except.ok (((decode (s.pte p (px 0 va))).bind _).getD 0, s)
      unfold decode
      cases hv : has (s.pte p (px 0 va)) PTE_V with
      | false => rfl
      | true =>
        rw [if_neg (by decide), if_pos rfl]
        show _ = Except.ok ((if has (pteFlags _) PTE_U = true ∧ _ then _ else none).getD 0, s)
        rw [has_flags (by norm_num)]
        cases hu : has (s.pte p (px 0 va)) PTE_U with
        | false => rfl
        | true =>
          by_cases hzero : pte2pa (s.pte p (px 0 va)) = 0
          · rw [hzero]
            rfl
          · rw [if_neg (by decide), if_pos ⟨rfl, hzero⟩]
            rfl
  · rw [if_pos (Nat.not_lt.mp hva)]
    unfold Ram.user
    rw [Ram.lookup_high (Nat.not_lt.mp hva)]
    rfl

theorem Ram.write_page (s : Ram) (pa off : Nat) (bs : List UInt8) (p : Nat) (j : Fin PGSIZE) :
    (s.write pa off bs).page p j =
      if p = pa ∧ off ≤ j.val ∧ j.val < off + bs.length then bs.getD (j.val - off) 0
      else s.page p j := by
  unfold Ram.write Ram.setPage
  by_cases hp : p = pa
  · subst hp
    show update s.page p _ p j = _
    rw [update_self]
    unfold Bytes.patch
    by_cases hin : off ≤ j.val ∧ j.val < off + bs.length
    · rw [if_pos hin, if_pos ⟨rfl, hin⟩]
    · rw [if_neg hin, if_neg fun h => hin h.2]
  · show update s.page pa _ p j = _
    rw [update_of_ne hp, if_neg fun h => hp h.1]

theorem Ram.ext_page (hpage : ∀ p j, s'.page p j = s.page p j) (hfree : s'.freelist = s.freelist)
    (hkend : s'.kend = s.kend) : s' = s := by
  have heq : s'.page = s.page := by
    funext p j
    exact hpage p j
  cases s
  cases s'
  congr

theorem Ram.write_nil (s : Ram) (pa off : Nat) : s.write pa off [] = s := by
  refine ext_page ?_ rfl rfl
  intro p j
  rw [write_page, if_neg]
  rintro ⟨-, hge, hlt⟩
  exact absurd hlt (Nat.not_lt.mpr hge)

/-- The first byte is written before the others. -/
theorem Ram.write_cons (s : Ram) (pa : Nat) (off : Fin PGSIZE) (b : UInt8) (bs : List UInt8) :
    s.write pa off.val (b :: bs) = (s.deposit [((pa, off), b)]).write pa (off.val + 1) bs := by
  refine ext_page ?_ rfl rfl
  intro p j
  rw [write_page, write_page, List.length_cons]
  show _ = if _ then _ else
    update (fun x : Nat × Fin PGSIZE => s.page x.1 x.2) (pa, off) b (p, j)
  by_cases hp : p = pa
  · subst hp
    rcases Nat.lt_trichotomy j.val off.val with hlt | heq | hgt
    · have hne : (p, j) ≠ (p, off) := by
        intro he
        exact absurd (congrArg (fun x => x.2.val) he) (Nat.ne_of_lt hlt)
      rw [if_neg (by omega), if_neg (by omega), update_of_ne hne]
    · have hj : j = off := Fin.ext heq
      subst hj
      rw [if_pos (by omega), if_neg (by omega), update_self, Nat.sub_self]
      rfl
    · have hne : (p, j) ≠ (p, off) := by
        intro he
        exact absurd (congrArg (fun x => x.2.val) he) (Nat.ne_of_gt hgt)
      rw [update_of_ne hne]
      by_cases hin : j.val < off.val + 1 + bs.length
      · have hindex : j.val - off.val = (j.val - (off.val + 1)) + 1 := by omega
        rw [if_pos (by omega), if_pos (by omega), hindex, List.getD_cons_succ]
      · rw [if_neg (by omega), if_neg (by omega)]
  · have hne : (p, j) ≠ (pa, off) := fun he => hp (congrArg Prod.fst he)
    rw [if_neg fun h => hp h.1, if_neg fun h => hp h.1, update_of_ne hne]

/-- Bytes that stay on one page are written by one `memmove`. -/
theorem deposit_taken_page {bs : List UInt8} (hu : s.user pt va = some pa)
    (hfit : va % PGSIZE + bs.length ≤ PGSIZE) (t : Ram) :
    s.fits pt (bytesAt va bs) = true ∧
      t.deposit (s.taken pt (bytesAt va bs)) = t.write pa (va % PGSIZE) bs := by
  induction bs generalizing va t with
  | nil => exact ⟨rfl, (t.write_nil ..).symm⟩
  | cons b bs ih =>
    rw [List.length_cons] at hfit
    have hplace : s.place pt va = some (pa, ⟨va % PGSIZE, Nat.mod_lt va (by norm_num)⟩) := by
      unfold Ram.place
      rw [hu]
      rfl
    have hrest : ∀ t : Ram, s.fits pt (bytesAt (va + 1) bs) = true ∧
        t.deposit (s.taken pt (bytesAt (va + 1) bs)) = t.write pa (va % PGSIZE + 1) bs := by
      intro t
      cases bs with
      | nil => exact ⟨rfl, (t.write_nil ..).symm⟩
      | cons c bs =>
        -- the next byte is on the same page
        have hsize : PGSIZE = 4096 := rfl
        rw [List.length_cons, hsize] at hfit
        have hmod : (va + 1) % PGSIZE = va % PGSIZE + 1 := by
          rw [hsize]
          omega
        have hpage : (va + 1) / PGSIZE = va / PGSIZE := by
          rw [hsize]
          omega
        rw [← hmod]
        apply ih
        · rw [Ram.user_congr hpage]
          exact hu
        · rw [hmod, List.length_cons, hsize]
          omega
    constructor
    · show ((s.place pt va).isSome && s.fits pt (bytesAt (va + 1) bs)) = true
      rw [hplace, (hrest t).1]
      rfl
    · rw [bytesAt, Ram.taken_cons hplace]
      refine Eq.trans ?_ (t.write_cons pa ⟨va % PGSIZE, Nat.mod_lt va (by norm_num)⟩ b bs).symm
      exact (hrest (t.deposit [((pa, ⟨va % PGSIZE, Nat.mod_lt va (by norm_num)⟩), b)])).2

/-- The offset of an address in its page. -/
theorem sub_pgrounddown (va : Nat) : va - pgrounddown va = va % PGSIZE := by
  have hsize : PGSIZE = 4096 := rfl
  unfold pgrounddown
  rw [hsize]
  omega

/-- A page has one number. -/
theorem pgrounddown_div (va : Nat) : pgrounddown va / PGSIZE = va / PGSIZE := by
  unfold pgrounddown
  exact Nat.mul_div_cancel _ (by norm_num)

theorem mod_pgsize_lt (va : Nat) : va % PGSIZE < PGSIZE := Nat.mod_lt va (by norm_num)

/-- A copy that is not done at the end of a page goes on at the next one. -/
theorem next_page {va n len : Nat} (hva : va < MAXVA) (hn : n = min (PGSIZE - va % PGSIZE) len)
    (hmore : n < len) : (PGSIZE + pgrounddown va) % 2 ^ 64 = va + n := by
  have hsize : PGSIZE = 4096 := rfl
  have hmax : MAXVA = 2 ^ 38 := by norm_num
  have hmod := mod_pgsize_lt va
  unfold pgrounddown
  rw [hsize] at hn hmod ⊢
  omega

/-- The loop of `copyout`. -/
theorem copyoutLoop_spec {rounds : Nat} {src : List UInt8} (hsep : Separate s pt)
    (hlen : src.length ≤ rounds) :
    copyoutLoop pt rounds va src s =
      .ok (if s.fits pt (bytesAt va src) then 0 else -1, s.deposit (s.taken pt (bytesAt va src))) := by
  induction rounds generalizing s va src with
  | zero =>
    have hnil : src = [] := List.length_eq_zero_iff.mp (Nat.le_zero.mp hlen)
    subst hnil
    rfl
  | succ rounds ih =>
    by_cases hnil : src = []
    · subst hnil
      rfl
    · rw [copyoutLoop, if_neg hnil]
      show (walkaddr pt (pgrounddown va) >>= fun pa0 => if pa0 = 0 then _ else _ : M Int) s = _
      rw [run_bind_ok (walkaddr_spec ..), Ram.user_congr (pgrounddown_div va)]
      cases hu : s.user pt va with
      | none =>
        obtain ⟨b, bs, rfl⟩ := List.exists_cons_of_ne_nil hnil
        have hplace : s.place pt va = none := by
          unfold Ram.place
          rw [hu]
          rfl
        have hfits : s.fits pt (bytesAt va (b :: bs)) = false := by
          show ((s.place pt va).isSome && _) = false
          rw [hplace]
          rfl
        have htaken : s.taken pt (bytesAt va (b :: bs)) = [] := by
          rw [bytesAt, Ram.taken, hplace]
        rw [hfits, htaken]
        rfl
      | some pa =>
        obtain ⟨-, -, -, hne⟩ := Ram.user_eq_some hu
        have hva := Ram.user_lt hu
        obtain ⟨n, hn⟩ : ∃ n, n = min (PGSIZE - va % PGSIZE) src.length := ⟨_, rfl⟩
        have hbound : va % PGSIZE + (src.take n).length ≤ PGSIZE := by
          have hmod := mod_pgsize_lt va
          rw [List.length_take]
          omega
        obtain ⟨hfits, hwrite⟩ := deposit_taken_page hu hbound s
        have hsplit : bytesAt va src = bytesAt va (src.take n) ++ bytesAt (va + n) (src.drop n) := by
          have hlen' : (src.take n).length = n := by
            rw [List.length_take]
            omega
          conv_lhs => rw [← List.take_append_drop n src]
          rw [bytesAt_append, hlen']
        -- the next round starts where this one has ended
        have hnext : bytesAt ((PGSIZE + pgrounddown va) % 2 ^ 64) (src.drop n) =
            bytesAt (va + n) (src.drop n) := by
          by_cases hlast : src.drop n = []
          · rw [hlast]
            rfl
          · have hmore : n < src.length := by
              by_contra hge
              exact hlast (List.drop_eq_nil_of_le (Nat.not_lt.mp hge))
            rw [next_page hva hn hmore]
        have hpos : 0 < n := by
          have hmod := mod_pgsize_lt va
          have hlen0 : 0 < src.length := List.length_pos_iff.mpr hnil
          omega
        have hshort : (src.drop n).length ≤ rounds := by
          rw [List.length_drop]
          omega
        have hsame := Ram.deposit_same hsep (bytesAt va (src.take n))
        rw [Option.getD_some, if_neg hne, sub_pgrounddown, ← hn]
        show copyoutLoop pt rounds _ (src.drop n) (s.write pa (va % PGSIZE) (src.take n)) = _
        rw [← hwrite, ih (hsame.separate hsep) hshort, hnext, hsame.fits, hsame.taken, hsplit,
          Ram.taken_append hfits, Ram.fits_append, hfits, Bool.true_and, Ram.deposit_append]

theorem copyout_spec (hsep : Separate s pt) (va : Nat) (src : List UInt8) :
    copyout pt va src s =
      .ok (if s.fits pt (bytesAt va src) then 0 else -1, s.deposit (s.taken pt (bytesAt va src))) :=
  copyoutLoop_spec hsep (Nat.le_refl _)

end Xv6.Vm
