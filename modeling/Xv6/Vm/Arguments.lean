import Xv6.Base.Blocks
import Xv6.Vm.Copyin
import Xv6.Vm.Exec

/-!
# The arguments of a new image

The part of `exec` that pushes the argument strings and the array of their addresses. The stack is one
page, so every `copyout` is one `memmove` into it, and what has been pushed before stays where it is.
The strings and the array are the blocks of a `blocksBelow` from the top of the page.
-/

namespace Xv6.Vm

open Base Extent

variable {s s' s₀ : Ram} {pt n base pa va sp : Nat}

/-- The user finds these bytes at an address. -/
def Ram.Finds (s : Ram) (pt va : Nat) (bytes : List UInt8) : Prop :=
  ∀ i b, bytes[i]? = some b → (s.user pt (va + i)).isSome = true ∧ s.userByte pt (va + i) = b

/-- The stack of an image. -/
structure StackPage (s : Ram) (pt base pa : Nat) : Prop where
  aligned : base % PGSIZE = 0
  above : PGSIZE ≤ base
  low : base < MAXVA
  user : s.user pt base = some pa

/-- The lengths of what is pushed for the strings. -/
def lengths (args : List (List UInt8)) : List Nat := args.map fun arg => arg.length + 1

/-! ## One push -/

namespace StackPage

theorem user_eq (h : StackPage s pt base pa) (hlow : base ≤ va) (hhigh : va < base + PGSIZE) :
    s.user pt va = some pa := by
  have hsize : PGSIZE = 4096 := rfl
  have haligned := h.aligned
  have hpage : va / PGSIZE = base / PGSIZE := by
    rw [hsize] at haligned hhigh ⊢
    omega
  rw [Ram.user_congr hpage]
  exact h.user

theorem congr (h : StackPage s pt base pa) (hsame : SameTable s pt s') : StackPage s' pt base pa :=
  ⟨h.aligned, h.above, h.low, (hsame.user base).trans h.user⟩

theorem copyout (h : StackPage s pt base pa) (hfresh : Fresh s₀ s pt n) (va : Nat) (src : List UInt8)
    (hsrc : 0 < src.length) (hlow : base ≤ va) (hhigh : va + src.length ≤ base + PGSIZE) :
    ∃ s', copyout pt va src s = .ok (0, s') ∧ Fresh s₀ s' pt n ∧ SameTable s pt s' ∧
      s'.Finds pt va src ∧
      ∀ va', base ≤ va' → va' < base + PGSIZE → va' < va ∨ va + src.length ≤ va' →
        s'.userByte pt va' = s.userByte pt va' := by
  have hsize : PGSIZE = 4096 := rfl
  have haligned := h.aligned
  have hu : s.user pt va = some pa := h.user_eq hlow (by omega)
  have hoff : ∀ va', base ≤ va' → va' < base + PGSIZE → va' % PGSIZE = va' - base := by
    intro va' hlow' hhigh'
    rw [hsize] at haligned hhigh' ⊢
    omega
  have hpos := hoff va hlow (by omega)
  have hfit : va % PGSIZE + src.length ≤ PGSIZE := by omega
  obtain ⟨hfits, hwrite⟩ := deposit_taken_page hu hfit s
  have hframe := (hfresh.user_frame hu).2
  obtain ⟨hfresh', hsame⟩ := @Fresh.touch s (s.write pa (va % PGSIZE) src) _ _ _ hfresh
    (fun p hp => s.setPage_page_ne _ fun he => hp (he ▸ hframe)) rfl rfl
  have hbyte : ∀ va', base ≤ va' → va' < base + PGSIZE →
      (s.write pa (va % PGSIZE) src).userByte pt va' =
        if va ≤ va' ∧ va' < va + src.length then src.getD (va' - va) 0 else s.userByte pt va' := by
    intro va' hlow' hhigh'
    have hu' := h.user_eq hlow' hhigh'
    have hpage : (s.write pa (va % PGSIZE) src).page pa =
        (s.page pa).patch (va % PGSIZE) src.length fun i => src.getD i 0 := Ram.setPage_page_self ..
    have hpos' := hoff va' hlow' hhigh'
    rw [Ram.userByte_eq ((hsame.user va').trans hu'), Ram.userByte_eq hu', hpage, Bytes.byte_patch]
    by_cases hin : va ≤ va' ∧ va' < va + src.length
    · have hindex : va' % PGSIZE - va % PGSIZE = va' - va := by omega
      rw [if_pos hin, if_pos (by omega), hindex]
    · rw [if_neg hin, if_neg (by omega)]
  refine ⟨_, ?_, hfresh', hsame, fun i b hb => ?_, fun va' hlow' hhigh' hout => ?_⟩
  · rw [copyout_spec hfresh.separate, hfits, hwrite]
    rfl
  · have hi : i < src.length := (List.getElem?_eq_some_iff.mp hb).1
    refine ⟨?_, ?_⟩
    · rw [hsame.user, h.user_eq (by omega) (by omega)]
      rfl
    · rw [hbyte _ (by omega) (by omega), if_pos (by omega), Nat.add_sub_cancel_left, List.getD, hb]
      rfl
  · rw [hbyte va' hlow' hhigh', if_neg (by omega)]

end StackPage

theorem Ram.Finds.congr {bytes : List UInt8} (h : s.Finds pt va bytes) (hsame : SameTable s pt s')
    (hbytes : ∀ i, i < bytes.length → s'.userByte pt (va + i) = s.userByte pt (va + i)) :
    s'.Finds pt va bytes := by
  intro i b hb
  obtain ⟨hmapped, hbyte⟩ := h i b hb
  refine ⟨?_, ?_⟩
  · rw [hsame.user]
    exact hmapped
  · rw [hbytes i (List.getElem?_eq_some_iff.mp hb).1]
    exact hbyte

theorem pushDown_eq (haligned : sp % 16 = 0) (hle : n ≤ sp) (hsp : sp < 2 ^ 64) :
    pushDown sp n = sp - roundUp 16 n := by
  have hsub : (2 ^ 64 - n + sp) % 2 ^ 64 = sp - n := by omega
  unfold pushDown
  rw [hsub, sub_div_mul (by decide) haligned hle]

/-! ## All pushes -/

namespace StackPage

/-- The loop over the strings. It succeeds when there is room for them. -/
theorem pushArgs (h : StackPage s pt base pa) (hfresh : Fresh s₀ s pt n) (args : List (List UInt8))
    (sp : Nat) (ustack : List Nat) (hlow : base ≤ sp) (hhigh : sp ≤ base + PGSIZE) (haligned : sp % 16 = 0)
    (hcount : ustack.length + args.length ≤ MAXARG) (hlen : ∀ arg ∈ args, arg.length < PGSIZE) :
    ∃ r s', pushArgs pt base args sp ustack s = .ok (r, s') ∧ Fresh s₀ s' pt n ∧ SameTable s pt s' ∧
      (depth 16 (lengths args) ≤ sp - base →
        r = some (sp - depth 16 (lengths args),
          ustack ++ (blocksBelow 16 sp (lengths args)).map Extent.start) ∧
        List.Forall₂ (fun e arg => s'.Finds pt e.start (arg ++ [0])) (blocksBelow 16 sp (lengths args)) args ∧
        ∀ va, sp ≤ va → va < base + PGSIZE → s'.userByte pt va = s.userByte pt va) ∧
      (sp - base < depth 16 (lengths args) → r = none) := by
  induction args generalizing s sp ustack with
  | nil =>
    refine ⟨some (sp, ustack), s, rfl, hfresh, ⟨fun _ _ => rfl, rfl⟩, fun _ => ⟨?_, .nil, fun _ _ _ => rfl⟩,
      fun hlt => absurd hlt (Nat.not_lt_zero _)⟩
    show some (sp, ustack) = some (sp - 0, ustack ++ [])
    rw [List.append_nil]
    rfl
  | cons arg rest ih =>
    have hsize : PGSIZE = 4096 := rfl
    have hmax : MAXVA = 274877906944 := by norm_num
    have hbase := h.low
    have habove := h.above
    obtain ⟨harg, hrest⟩ := List.forall_mem_cons.mp hlen
    rw [List.length_cons] at hcount
    have hdown : pushDown sp (arg.length + 1) = sp - roundUp 16 (arg.length + 1) :=
      pushDown_eq haligned (by omega) (by omega)
    have hround := le_roundUp (show 0 < 16 by decide) (arg.length + 1)
    have hmod := roundUp_mod 16 (arg.length + 1)
    have hdepth : depth 16 (lengths (arg :: rest)) =
      roundUp 16 (arg.length + 1) + depth 16 (lengths rest) := rfl
    rw [Vm.pushArgs, if_neg (by omega), hdown]
    by_cases hroom : sp - roundUp 16 (arg.length + 1) < base
    · rw [if_pos hroom]
      exact ⟨none, s, rfl, hfresh, ⟨fun _ _ => rfl, rfl⟩, fun hle => by omega, fun _ => rfl⟩
    rw [if_neg hroom]
    obtain ⟨sp', hsp'⟩ : ∃ sp', sp' = sp - roundUp 16 (arg.length + 1) := ⟨_, rfl⟩
    rw [← hsp'] at hroom ⊢
    have hsrc : (arg ++ [0]).length = arg.length + 1 := List.length_append
    obtain ⟨t, hcopy, hfresht, hsame, hfinds, hkept⟩ := h.copyout hfresh sp' (arg ++ [0])
      (by omega) (by omega) (by omega)
    obtain ⟨r, s', hrun, hfresh', hsame', hfit, hnofit⟩ := ih (h.congr hsame) hfresht sp'
      (ustack ++ [sp']) (by omega) (by omega) (by omega)
      (by rw [List.length_append, List.length_singleton]; omega) hrest
    refine ⟨r, s', ?_, hfresh', hsame.trans hsame', fun hle => ?_, fun hlt => hnofit (by omega)⟩
    · rw [run_bind_ok hcopy, if_neg (by decide)]
      exact hrun
    · obtain ⟨hr, hstrings, hsame_bytes⟩ := hfit (by omega)
      refine ⟨?_, ?_, fun va hge hlt => ?_⟩
      · rw [hr, hdepth, hsp', Nat.sub_sub, List.append_assoc]
        rfl
      · show List.Forall₂ _ (⟨sp - roundUp 16 (arg.length + 1), arg.length + 1⟩ ::
          blocksBelow 16 (sp - roundUp 16 (arg.length + 1)) (lengths rest)) (arg :: rest)
        rw [← hsp']
        refine .cons (hfinds.congr hsame' fun i hi => ?_) hstrings
        exact hsame_bytes _ (by omega) (by omega)
      · rw [hsame_bytes va (by omega) hlt]
        exact hkept va (by omega) hlt (.inr (by omega))

end StackPage

/-- The lengths of all that is pushed: the strings, and the array of their addresses. -/
def pushes (args : List (List UInt8)) : List Nat := lengths args ++ [(args.length + 1) * 8]

/-- The addresses of the strings. -/
def addresses (top : Nat) (args : List (List UInt8)) : List Nat :=
  (blocksBelow 16 top (lengths args)).map Extent.start

/-- The strings and the array of their addresses are where they have been pushed. -/
structure Pushed (s : Ram) (pt top : Nat) (args : List (List UInt8)) : Prop where
  strings : List.Forall₂ (fun e arg => s.Finds pt e.start (arg ++ [0]))
    (blocksBelow 16 top (lengths args)) args
  array : s.Finds pt (top - depth 16 (pushes args)) ((addresses top args ++ [0]).flatMap pointer)

theorem depth_pushes (args : List (List UInt8)) :
    depth 16 (pushes args) = depth 16 (lengths args) + roundUp 16 ((args.length + 1) * 8) := by
  unfold pushes
  rw [depth_append]
  rfl

theorem length_addresses (top : Nat) (args : List (List UInt8)) :
    (addresses top args).length = args.length := by
  unfold addresses lengths
  rw [List.length_map, length_blocksBelow, List.length_map]

theorem length_flatMap_pointer (l : List Nat) : (l.flatMap pointer).length = l.length * 8 := by
  induction l with
  | nil => rfl
  | cons v l ih =>
    rw [List.flatMap_cons, List.length_append, ih, List.length_cons]
    show 8 + _ = _
    omega

/-- Strings are found as long as nobody writes to the room they take. -/
theorem strings_congr {args : List (List UInt8)} {top : Nat} (hle : depth 16 (lengths args) ≤ top)
    (h : List.Forall₂ (fun e arg => s.Finds pt e.start (arg ++ [0])) (blocksBelow 16 top (lengths args)) args)
    (hsame : SameTable s pt s')
    (hbytes : ∀ va, top - depth 16 (lengths args) ≤ va → va < top → s'.userByte pt va = s.userByte pt va) :
    List.Forall₂ (fun e arg => s'.Finds pt e.start (arg ++ [0])) (blocksBelow 16 top (lengths args)) args := by
  induction args generalizing top with
  | nil => exact .nil
  | cons arg rest ih =>
    have hround := le_roundUp (show 0 < 16 by decide) (arg.length + 1)
    change roundUp 16 (arg.length + 1) + depth 16 (lengths rest) ≤ top at hle
    change ∀ va, top - (roundUp 16 (arg.length + 1) + depth 16 (lengths rest)) ≤ va → _ at hbytes
    change List.Forall₂ _ (⟨top - roundUp 16 (arg.length + 1), _⟩ ::
      blocksBelow 16 (top - roundUp 16 (arg.length + 1)) (lengths rest)) _ at h
    obtain ⟨hfirst, hrest⟩ := List.forall₂_cons.mp h
    have hlater := ih (show depth 16 (lengths rest) ≤ top - roundUp 16 (arg.length + 1) by omega) hrest
      fun va hge hlt => hbytes va (by omega) (by omega)
    refine .cons (hfirst.congr hsame fun i hi => hbytes _ ?_ ?_) hlater
    · show _ ≤ top - roundUp 16 (arg.length + 1) + i
      omega
    · rw [List.length_append, List.length_singleton] at hi
      show top - roundUp 16 (arg.length + 1) + i < top
      omega

theorem Pushed.congr {args : List (List UInt8)} {top : Nat} (h : Pushed s pt top args)
    (hle : depth 16 (pushes args) ≤ top) (hsame : SameTable s pt s')
    (hbytes : ∀ va, top - depth 16 (pushes args) ≤ va → va < top →
      s'.userByte pt va = s.userByte pt va) : Pushed s' pt top args := by
  have hdepth := depth_pushes args
  refine ⟨strings_congr (by omega) h.strings hsame fun va hge hlt => hbytes va (by omega) hlt,
    h.array.congr hsame fun i hi => hbytes _ (Nat.le_add_right ..) ?_⟩
  have hround := le_roundUp (show 0 < 16 by decide) ((args.length + 1) * 8)
  rw [length_flatMap_pointer, List.length_append, length_addresses, List.length_singleton] at hi
  omega

/-- All arguments are pushed exactly when there is room for them. -/
theorem StackPage.pushAll (h : StackPage s pt base pa) (hfresh : Fresh s₀ s pt n) (argv : Argv) :
    ∃ r s', pushAll pt (base + PGSIZE) argv s = .ok (r, s') ∧ Fresh s₀ s' pt n ∧ SameTable s pt s' ∧
      (depth 16 (pushes argv.args) ≤ PGSIZE →
        r = some (base + PGSIZE - depth 16 (pushes argv.args)) ∧
        Pushed s' pt (base + PGSIZE) argv.args) ∧
      (PGSIZE < depth 16 (pushes argv.args) → r = none) := by
  have hsize : PGSIZE = 4096 := rfl
  have hmax : MAXVA = 274877906944 := by norm_num
  have haligned := h.aligned
  have habove := h.above
  have hbase := h.low
  have hcount := argv.count
  have hargs : MAXARG = 32 := rfl
  have hdepth := depth_pushes argv.args
  have hround := le_roundUp (show 0 < 16 by decide) ((argv.args.length + 1) * 8)
  have hmod := roundUp_mod 16 ((argv.args.length + 1) * 8)
  have hmod' := depth_mod 16 (lengths argv.args)
  have htop : (base + PGSIZE) % 16 = 0 := by
    rw [hsize] at haligned ⊢
    omega
  obtain ⟨r, t, hrun, hfresht, hsame, hfit, hnofit⟩ := h.pushArgs hfresh argv.args
    (base + PGSIZE) [] (Nat.le_add_right ..) (Nat.le_refl _) htop
    (by rw [List.length_nil]; omega) argv.page
  unfold Vm.pushAll
  rw [Nat.add_sub_cancel, run_bind_ok hrun]
  by_cases hroom : depth 16 (lengths argv.args) ≤ base + PGSIZE - base
  · obtain ⟨hr, hstrings, hkept⟩ := hfit hroom
    rw [List.nil_append] at hr
    change r = some (_, addresses (base + PGSIZE) argv.args) at hr
    obtain ⟨sp, hsp⟩ : ∃ sp, sp = base + PGSIZE - depth 16 (lengths argv.args) := ⟨_, rfl⟩
    have hdown : pushDown sp ((argv.args.length + 1) * 8) =
        sp - roundUp 16 ((argv.args.length + 1) * 8) := pushDown_eq (by omega) (by omega) (by omega)
    rw [hr, ← hsp]
    dsimp only
    unfold pushUstack
    rw [length_addresses, if_neg (Nat.not_le.mpr hcount), hdown]
    by_cases hroom' : sp - roundUp 16 ((argv.args.length + 1) * 8) < base
    · rw [if_pos hroom']
      exact ⟨none, t, rfl, hfresht, hsame, fun hle => by omega, fun _ => rfl⟩
    · rw [if_neg hroom']
      have hlen : ((addresses (base + PGSIZE) argv.args ++ [0]).flatMap pointer).length =
          (argv.args.length + 1) * 8 := by
        rw [length_flatMap_pointer, List.length_append, length_addresses, List.length_singleton]
      obtain ⟨s', hcopy, hfresh', hsame', hfinds, hkept'⟩ := (h.congr hsame).copyout hfresht
        (sp - roundUp 16 ((argv.args.length + 1) * 8))
        ((addresses (base + PGSIZE) argv.args ++ [0]).flatMap pointer) (by omega) (by omega) (by omega)
      refine ⟨some (sp - roundUp 16 ((argv.args.length + 1) * 8)), s', ?_, hfresh', hsame.trans hsame',
        fun hle => ⟨?_, ?_, ?_⟩, fun hlt => by omega⟩
      · rw [run_bind_ok hcopy, if_neg (by decide)]
        rfl
      · rw [hdepth, hsp, Nat.sub_sub]
      · refine strings_congr (by omega) hstrings hsame' fun va hge hlt => ?_
        exact hkept' va (by omega) hlt (.inr (by omega))
      · rw [hdepth, ← Nat.sub_sub, ← hsp]
        exact hfinds
  · rw [hnofit (Nat.not_le.mp hroom)]
    exact ⟨none, t, rfl, hfresht, hsame, fun hle => by omega, fun _ => rfl⟩

end Xv6.Vm
