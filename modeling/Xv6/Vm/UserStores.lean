import Xv6.Vm.Copyout

/-!
# System calls that store into user memory

The part of `read`, `fstat`, `pipe`, `wait` and `waitx` that stores into the memory of the caller. All of
them do it by `copyout`. What they store (the bytes of a file or a pipe, the status of a child) is
an argument here.

`copyout` asks `walkaddr` for the page of an address, and `walkaddr` looks at `PTE_V` and `PTE_U`, not
at `PTE_W`. So these calls write to pages that the program itself may not write.
-/

namespace Xv6.Vm

open Base

/-! ## The calls -/

/-- The bytes of an `int`. -/
def word (v : UInt32) : List UInt8 :=
  [v.toUInt8, (v >>> 8).toUInt8, (v >>> 16).toUInt8, (v >>> 24).toUInt8]

/-- `struct stat`, with the bytes between `nlink` and `size` that `stati` does not set. -/
structure Stat where
  dev : UInt32
  ino : UInt32
  type : UInt16
  nlink : UInt16
  pad : UInt32
  size : UInt64

/-- `struct stat` in memory. -/
def Stat.bytes (st : Stat) : List UInt8 :=
  word st.dev ++ word st.ino ++ [st.type.toUInt8, (st.type >>> 8).toUInt8] ++
    [st.nlink.toUInt8, (st.nlink >>> 8).toUInt8] ++ word st.pad ++ word st.size.toUInt32 ++
    word (st.size >>> 32).toUInt32

/-- A child that has exited. -/
structure Exited where
  pid : Int
  xstate : UInt32

/-- The loop of `piperead`, and of `consoleread`, over the bytes that are there: one `copyout` for each.
The answer is the number of bytes stored. -/
def copyEach (pagetable addr : Nat) : Nat → List UInt8 → M Int
  | i, [] => pure i
  | i, ch :: rest => do
    let r ← copyout pagetable ((addr + i) % 2 ^ 64) [ch]
    if r = -1 then pure i else copyEach pagetable addr (i + 1) rest

/-- The loop of `readi`, over the parts of the blocks it reads: one `copyout` for each. -/
def copyBlocks (pagetable : Nat) : Nat → Nat → List (List UInt8) → M Int
  | _, tot, [] => pure tot
  | dst, tot, part :: rest => do
    let r ← copyout pagetable dst part
    if r = -1 then pure (-1)
    else copyBlocks pagetable ((dst + part.length) % 2 ^ 64) (tot + part.length) rest

/-- `wait(addr)` and `waitx(addr, ..)`, for the exited child they find, if any. -/
def copyStatus (pagetable addr : Nat) (child : Option Exited) : M Int :=
  match child with
  | none => pure (-1)
  | some pp =>
    if addr = 0 then pure pp.pid
    else do
      let r ← copyout pagetable addr (word pp.xstate)
      if r < 0 then pure (-1) else pure pp.pid

/-- A system call that stores into user memory: the addresses it is given, and what it stores. -/
inductive Call where
  /-- `read` from a pipe or from the console -/
  | readBytes (addr : UInt64) (bytes : List UInt8)
  /-- `read` from a file -/
  | readBlocks (addr : UInt64) (parts : List (List UInt8))
  | fstat (addr : UInt64) (st : Stat)
  | pipe (fdarray : UInt64) (fd0 fd1 : UInt32)
  | wait (addr : UInt64) (child : Option Exited)
  | waitx (addr addr1 addr2 : UInt64) (child : Option Exited) (wtime rtime : UInt32)

namespace Call

/-- What a call does to memory, and what it answers. -/
def run (pagetable : Nat) : Call → M Int
  | .readBytes addr bytes => copyEach pagetable addr.toNat 0 bytes
  | .readBlocks addr parts => copyBlocks pagetable addr.toNat 0 parts
  | .fstat addr st => do
    let r ← copyout pagetable addr.toNat st.bytes
    if r < 0 then pure (-1) else pure 0
  | .pipe fdarray fd0 fd1 => do
    let r ← copyout pagetable fdarray.toNat (word fd0)
    if r < 0 then pure (-1)
    else do
      let r ← copyout pagetable ((fdarray.toNat + 4) % 2 ^ 64) (word fd1)
      if r < 0 then pure (-1) else pure 0
  | .wait addr child => copyStatus pagetable addr.toNat child
  | .waitx addr addr1 addr2 child wtime rtime => do
    let ret ← copyStatus pagetable addr.toNat child
    let r ← copyout pagetable addr1.toNat (word wtime)
    if r < 0 then pure (-1)
    else do
      let r ← copyout pagetable addr2.toNat (word rtime)
      if r < 0 then pure (-1) else pure ret

/-- The status of a child, where it is wanted. -/
def statusAt (addr : UInt64) (child : Option Exited) : List (Nat × UInt8) :=
  match child with
  | none => []
  | some pp => if addr.toNat = 0 then [] else bytesAt addr.toNat (word pp.xstate)

/-- The bytes a call stores, in sequences that each end at the first byte that cannot be stored. Only
`waitx` has two: it goes on when it could not store the status. -/
def stores : Call → List (List (Nat × UInt8))
  | .readBytes addr bytes => [bytesAt addr.toNat bytes]
  | .readBlocks addr parts => [bytesAt addr.toNat parts.flatten]
  | .fstat addr st => [bytesAt addr.toNat st.bytes]
  | .pipe fdarray fd0 fd1 => [bytesAt fdarray.toNat (word fd0 ++ word fd1)]
  | .wait addr child => [statusAt addr child]
  | .waitx addr addr1 addr2 child wtime rtime =>
    [statusAt addr child, bytesAt addr1.toNat (word wtime) ++ bytesAt addr2.toNat (word rtime)]

/-- The bytes a call writes. -/
def written (s : Ram) (pt : Nat) (call : Call) : List ((Nat × Fin PGSIZE) × UInt8) :=
  call.stores.flatMap (s.taken pt)

/-- The addresses a call reaches: those of each sequence up to the first one that is not mapped
with `PTE_V` and `PTE_U`. -/
def reached (s : Ram) (pt : Nat) (call : Call) : List Nat :=
  call.stores.flatMap fun l => (l.map Prod.fst).takeWhile fun va => (s.user pt va).isSome

end Call

variable {s t : Ram} {pt va pa : Nat} {w : (Nat × Fin PGSIZE) × UInt8}

/-! ## What they write -/

/-- The address behind bytes that have been stored. -/
theorem next_addr {bs : List UInt8} (hfits : s.fits pt (bytesAt va bs) = true) (hva : va < 2 ^ 64) :
    (va + bs.length) % 2 ^ 64 = va + bs.length := by
  rcases List.eq_nil_or_concat bs with rfl | ⟨xs, x, rfl⟩
  · exact Nat.mod_eq_of_lt hva
  · have hlast : (s.place pt (va + xs.length)).isSome = true := by
      rw [List.concat_eq_append, bytesAt_append, Ram.fits_append, Bool.and_eq_true] at hfits
      exact (List.all_cons.symm.trans hfits.2 |> Bool.and_eq_true_iff.mp).1
    obtain ⟨y, hy⟩ := Option.isSome_iff_exists.mp hlast
    have hlt := Ram.user_lt (Ram.place_eq_some hy).1
    have hmax : MAXVA = 274877906944 := by norm_num
    rw [List.length_concat]
    rw [hmax] at hlt
    exact Nat.mod_eq_of_lt (by omega)

theorem copyEach_spec (hsep : Separate s pt) {addr i : Nat} (bytes : List UInt8)
    (h : addr + i < 2 ^ 64) :
    ∃ r, copyEach pt addr i bytes s = .ok (r, s.deposit (s.taken pt (bytesAt (addr + i) bytes))) := by
  induction bytes generalizing s i with
  | nil => exact ⟨i, rfl⟩
  | cons ch rest ih =>
    have hsame := Ram.deposit_same hsep (bytesAt (addr + i) [ch])
    have hsplit : bytesAt (addr + i) (ch :: rest) =
        bytesAt (addr + i) [ch] ++ bytesAt (addr + (i + 1)) rest := rfl
    rw [copyEach, Nat.mod_eq_of_lt h, run_bind_ok (copyout_spec hsep ..), hsplit]
    cases hfits : s.fits pt (bytesAt (addr + i) [ch]) with
    | false =>
      rw [Ram.taken_append_of_not hfits]
      exact ⟨i, rfl⟩
    | true =>
      have hnext : addr + (i + 1) < 2 ^ 64 := by
        have hmod := next_addr hfits h
        have hlt := Nat.mod_lt (addr + i + [ch].length) (show 2 ^ 64 > 0 by norm_num)
        rw [hmod] at hlt
        exact hlt
      obtain ⟨r, hr⟩ := ih (hsame.separate hsep) hnext
      rw [hsame.taken] at hr
      refine ⟨r, ?_⟩
      rw [Ram.taken_append hfits, Ram.deposit_append]
      exact hr

theorem copyBlocks_spec (hsep : Separate s pt) {dst : Nat} (tot : Nat) (parts : List (List UInt8))
    (h : dst < 2 ^ 64) :
    ∃ r, copyBlocks pt dst tot parts s =
      .ok (r, s.deposit (s.taken pt (bytesAt dst parts.flatten))) := by
  induction parts generalizing s dst tot with
  | nil => exact ⟨tot, rfl⟩
  | cons part rest ih =>
    have hsame := Ram.deposit_same hsep (bytesAt dst part)
    rw [copyBlocks, run_bind_ok (copyout_spec hsep ..), List.flatten_cons, bytesAt_append]
    cases hfits : s.fits pt (bytesAt dst part) with
    | false =>
      rw [Ram.taken_append_of_not hfits]
      exact ⟨-1, rfl⟩
    | true =>
      have hnext := next_addr hfits h
      have hlt : dst + part.length < 2 ^ 64 := by
        rw [← hnext]
        exact Nat.mod_lt _ (by norm_num)
      obtain ⟨r, hr⟩ := ih (hsame.separate hsep) (tot + part.length) hlt
      rw [hsame.taken] at hr
      refine ⟨r, ?_⟩
      rw [Ram.taken_append hfits, Ram.deposit_append, hnext]
      exact hr

/-- Two stores, the second if the first has been made. -/
theorem copyout_then (hsep : Separate s pt) (a b : Nat) (x y : List UInt8) (ret : Int) :
    (copyout pt a x >>= fun r => if r < 0 then pure (-1) else
        copyout pt b y >>= fun r => if r < 0 then pure (-1) else pure ret : M Int) s =
      .ok (if s.fits pt (bytesAt a x ++ bytesAt b y) then ret else -1,
        s.deposit (s.taken pt (bytesAt a x ++ bytesAt b y))) := by
  have hsame := Ram.deposit_same hsep (bytesAt a x)
  rw [run_bind_ok (copyout_spec hsep ..), Ram.fits_append]
  cases hfits : s.fits pt (bytesAt a x) with
  | false =>
    rw [Ram.taken_append_of_not hfits]
    rfl
  | true =>
    rw [Ram.taken_append hfits, Ram.deposit_append]
    show (copyout pt b y >>= fun r => if r < 0 then pure (-1) else pure ret : M Int) _ = _
    rw [run_bind_ok (copyout_spec (hsame.separate hsep) ..), hsame.fits, hsame.taken]
    cases s.fits pt (bytesAt b y) <;> rfl

theorem copyStatus_spec (hsep : Separate s pt) (addr : UInt64) (child : Option Exited) :
    ∃ r, copyStatus pt addr.toNat child s =
      .ok (r, s.deposit (s.taken pt (Call.statusAt addr child))) := by
  unfold copyStatus Call.statusAt
  cases child with
  | none => exact ⟨-1, rfl⟩
  | some pp =>
    dsimp only
    by_cases haddr : addr.toNat = 0
    · rw [if_pos haddr, if_pos haddr]
      exact ⟨pp.pid, rfl⟩
    · rw [if_neg haddr, if_neg haddr, run_bind_ok (copyout_spec hsep ..)]
      cases s.fits pt (bytesAt addr.toNat (word pp.xstate)) with
      | false => exact ⟨-1, rfl⟩
      | true => exact ⟨pp.pid, rfl⟩

theorem Call.run_spec (hsep : Separate s pt) (call : Call) :
    ∃ r, call.run pt s = .ok (r, s.deposit (call.written s pt)) := by
  have hone : ∀ l : List (Nat × UInt8), [l].flatMap (s.taken pt) = s.taken pt l := fun l =>
    List.append_nil _
  unfold written
  cases call with
  | readBytes addr bytes =>
    rw [stores, hone]
    exact copyEach_spec hsep bytes addr.toNat_lt
  | readBlocks addr parts =>
    rw [stores, hone]
    exact copyBlocks_spec hsep 0 parts addr.toNat_lt
  | fstat addr st =>
    rw [stores, hone, run, run_bind_ok (copyout_spec hsep ..)]
    cases s.fits pt (bytesAt addr.toNat st.bytes) with
    | false => exact ⟨-1, rfl⟩
    | true => exact ⟨0, rfl⟩
  | pipe fdarray fd0 fd1 =>
    have hr := copyout_then hsep fdarray.toNat ((fdarray.toNat + 4) % 2 ^ 64) (word fd0)
      (word fd1) 0
    rw [stores, hone, bytesAt_append]
    cases hfits : s.fits pt (bytesAt fdarray.toNat (word fd0)) with
    | false =>
      rw [Ram.taken_append_of_not hfits] at hr ⊢
      exact ⟨_, hr⟩
    | true =>
      have hnext : (fdarray.toNat + 4) % 2 ^ 64 = fdarray.toNat + (word fd0).length :=
        next_addr hfits fdarray.toNat_lt
      rw [← hnext]
      exact ⟨_, hr⟩
  | wait addr child =>
    rw [stores, hone]
    exact copyStatus_spec hsep addr child
  | waitx addr addr1 addr2 child wtime rtime =>
    have hsame := Ram.deposit_same hsep (statusAt addr child)
    obtain ⟨ret, hret⟩ := copyStatus_spec hsep addr child
    have hr := copyout_then (hsame.separate hsep) addr1.toNat addr2.toNat (word wtime)
      (word rtime) ret
    rw [hsame.taken] at hr
    rw [run, run_bind_ok hret, stores, List.flatMap_cons, hone, Ram.deposit_append]
    exact ⟨_, hr⟩

/-! ## The addresses they reach -/

/-- Every address that is reached is written to. -/
theorem Ram.taken_of_reached {l : List (Nat × UInt8)}
    (h : va ∈ (l.map Prod.fst).takeWhile fun va => (s.user pt va).isSome) :
    ∃ w ∈ s.taken pt l, s.place pt va = some w.1 := by
  induction l with
  | nil => cases h
  | cons v l ih =>
    rw [List.map_cons, List.takeWhile_cons] at h
    split at h
    next hu =>
      obtain ⟨pa, hpa⟩ := Option.isSome_iff_exists.mp hu
      have hplace : s.place pt v.1 = some (pa, ⟨v.1 % PGSIZE, Nat.mod_lt v.1 (by norm_num)⟩) := by
        unfold Ram.place
        rw [hpa]
        rfl
      rw [taken_cons hplace]
      rcases List.mem_cons.mp h with rfl | h
      · exact ⟨_, List.mem_cons_self .., hplace⟩
      · obtain ⟨w, hw, hva⟩ := ih h
        exact ⟨w, List.mem_cons_of_mem _ hw, hva⟩
    next => cases h

/-- Every place that is written is that of an address that is reached. -/
theorem Ram.reached_of_taken {l : List (Nat × UInt8)} (h : w ∈ s.taken pt l) :
    ∃ va ∈ (l.map Prod.fst).takeWhile fun va => (s.user pt va).isSome, s.place pt va = some w.1 := by
  induction l with
  | nil => cases h
  | cons v l ih =>
    cases hx : s.place pt v.1 with
    | none =>
      rw [taken, hx] at h
      cases h
    | some x =>
      have hu : (s.user pt v.1).isSome = true := by
        rw [(place_eq_some hx).1]
        rfl
      rw [taken_cons hx] at h
      rw [List.map_cons, List.takeWhile_cons, if_pos hu]
      rcases List.mem_cons.mp h with rfl | h
      · exact ⟨v.1, List.mem_cons_self .., hx⟩
      · obtain ⟨va, hva, hplace⟩ := ih h
        exact ⟨va, List.mem_cons_of_mem _ hva, hplace⟩

namespace Call

theorem written_of_reached {call : Call} (h : va ∈ call.reached s pt) :
    ∃ w ∈ call.written s pt, s.place pt va = some w.1 := by
  obtain ⟨l, hl, hva⟩ := List.mem_flatMap.mp h
  obtain ⟨w, hw, hplace⟩ := Ram.taken_of_reached hva
  exact ⟨w, List.mem_flatMap.mpr ⟨l, hl, hw⟩, hplace⟩

theorem reached_of_written {call : Call} {w : (Nat × Fin PGSIZE) × UInt8}
    (h : w ∈ call.written s pt) : ∃ va ∈ call.reached s pt, s.place pt va = some w.1 := by
  obtain ⟨l, hl, hw⟩ := List.mem_flatMap.mp h
  obtain ⟨va, hva, hplace⟩ := Ram.reached_of_taken hw
  exact ⟨va, List.mem_flatMap.mpr ⟨l, hl, hva⟩, hplace⟩

theorem written_congr (h : SameTable s pt t) (call : Call) : call.written t pt = call.written s pt := by
  unfold written
  congr 1
  funext l
  exact h.taken l

theorem reached_congr (h : SameTable s pt t) (call : Call) : call.reached t pt = call.reached s pt := by
  unfold reached
  have huser : t.user pt = s.user pt := by
    funext va
    exact h.user va
  rw [huser]

end Call

/-! ## The law -/

/-- A page that the table maps for the user to write. -/
def Ram.Writable (s : Ram) (pt pa : Nat) : Prop :=
  ∃ va flags, s.lookup pt va = some (pa, flags) ∧ has flags PTE_V = true ∧ has flags PTE_U = true ∧
    has flags PTE_W = true

theorem SameTable.writable (h : SameTable s pt t) : t.Writable pt pa ↔ s.Writable pt pa := by
  have hlookup : ∀ va, t.lookup pt va = s.lookup pt va := by
    intro va
    by_cases hva : va < MAXVA
    · exact h.lookup hva
    · rw [Ram.lookup_high (Nat.not_lt.mp hva), Ram.lookup_high (Nat.not_lt.mp hva)]
  unfold Ram.Writable
  simp only [hlookup]

/-- A call that reaches only writable pages changes only writable pages. -/
theorem Call.page_eq_of_not_writable {call : Call}
    (h : ∀ va ∈ call.reached s pt, ∀ pa, s.user pt va = some pa → s.Writable pt pa)
    (hpa : ¬ s.Writable pt pa) : (s.deposit (call.written s pt)).page pa = s.page pa := by
  apply Ram.deposit_page_of_not_mem
  rintro w hw rfl
  obtain ⟨va, hva, hplace⟩ := reached_of_written hw
  exact hpa (h va hva w.1.1 (Ram.place_eq_some hplace).1)

/-- A place in user memory that is written can hold a byte that is changed. -/
theorem Ram.exists_changed (hsep : Separate s pt) {l : List ((Nat × Fin PGSIZE) × UInt8)}
    (hw : w ∈ l) (hplace : s.place pt va = some w.1) :
    ∃ t, SameTable s pt t ∧ (t.deposit l).page w.1.1 ≠ t.page w.1.1 := by
  -- memory that holds another byte than the one written last
  obtain ⟨f, hf⟩ : ∃ f, f = overlay (fun x : Nat × Fin PGSIZE => s.page x.1 x.2) l w.1 := ⟨_, rfl⟩
  have hsame : SameTable s pt (s.deposit [(w.1, f + 1)]) := by
    refine ⟨fun p hp => Ram.deposit_page_of_not_mem fun v hv he => ?_, rfl⟩
    rw [List.mem_singleton.mp hv] at he
    rw [← he] at hp
    exact hsep va w.1.1 (Ram.place_eq_some hplace).1 hp
  refine ⟨_, hsame, fun heq => ?_⟩
  have hbyte := congrFun heq w.1.2
  have hafter : ((s.deposit [(w.1, f + 1)]).deposit l).page w.1.1 w.1.2 = f := by
    rw [hf]
    exact overlay_of_mem ⟨w, hw, rfl⟩
  have hbefore : (s.deposit [(w.1, f + 1)]).page w.1.1 w.1.2 = f + 1 := by
    show Function.update (fun x : Nat × Fin PGSIZE => s.page x.1 x.2) w.1 (f + 1) w.1 = f + 1
    exact Function.update_self ..
  rw [hafter, hbefore] at hbyte
  exact absurd hbyte.symm (by simp)

/-- A page that a call reaches can hold a byte that the call changes. -/
theorem Call.exists_changed (hsep : Separate s pt) {call : Call} (hva : va ∈ call.reached s pt)
    (hpa : s.user pt va = some pa) :
    ∃ t, SameTable s pt t ∧ (t.deposit (call.written s pt)).page pa ≠ t.page pa := by
  obtain ⟨w, hw, hplace⟩ := written_of_reached hva
  have hfst : w.1.1 = pa := by
    have huser := (Ram.place_eq_some hplace).1
    rw [hpa] at huser
    exact (Option.some.inj huser).symm
  rw [← hfst]
  exact Ram.exists_changed hsep hw hplace

/-- The calls that store into user memory and write permissions. Whatever memory holds, a call changes
only pages mapped with `PTE_V`, `PTE_U` and `PTE_W`, and answers -1 when it reaches a page mapped
for the user without `PTE_W`, exactly when every page it reaches is mapped with `PTE_W`. -/
theorem stores_respect_permissions_iff (hsep : Separate s pt) (call : Call) :
    (∀ t, SameTable s pt t → ∃ r t', call.run pt t = .ok (r, t') ∧
      (∀ pa, t'.page pa ≠ t.page pa → t.Writable pt pa) ∧
      ∀ va ∈ call.reached t pt, ∀ pa, t.user pt va = some pa → ¬ t.Writable pt pa → r = -1) ↔
    ∀ va ∈ call.reached s pt, ∀ pa, s.user pt va = some pa → s.Writable pt pa := by
  constructor
  · intro h va hva pa hpa
    obtain ⟨t, hsame, hchanged⟩ := Call.exists_changed hsep hva hpa
    obtain ⟨r, t', hrun, honly, -⟩ := h t hsame
    obtain ⟨r', hrun'⟩ := call.run_spec (hsame.separate hsep)
    rw [hrun'] at hrun
    cases hrun
    rw [call.written_congr hsame] at honly
    exact hsame.writable.mp (honly pa hchanged)
  · intro h t hsame
    have hwritable : ∀ va ∈ call.reached t pt, ∀ pa, t.user pt va = some pa → t.Writable pt pa := by
      intro va hva pa hpa
      rw [call.reached_congr hsame] at hva
      rw [hsame.user] at hpa
      exact hsame.writable.mpr (h va hva pa hpa)
    obtain ⟨r, hrun⟩ := call.run_spec (hsame.separate hsep)
    refine ⟨r, _, hrun, fun pa hchanged => ?_, fun va hva pa hpa hnot => ?_⟩
    · by_contra hnot
      exact hchanged (Call.page_eq_of_not_writable hwritable hnot)
    · exact absurd (hwritable va hva pa hpa) hnot

/-- A page of user memory as `exec` allocates it for a segment with these permissions. -/
theorem exists_segment {xperm : Nat} (hx : xperm < 2 ^ 10)
    (hrun : (uvmalloc KERNBASE 0 4096 xperm clearedRam).map Prod.fst = .ok 4096) :
    ∃ s p, uvmalloc KERNBASE 0 4096 xperm clearedRam = .ok (4096, s) ∧ Separate s KERNBASE ∧
      s.lookup KERNBASE 0 = some (p, PTE_R ||| PTE_U ||| xperm ||| PTE_V) ∧
      s.user KERNBASE 0 = some p ∧ s.page p = filled 0 ∧
      ∀ va e, s.lookup KERNBASE va = some e →
        va < 4096 ∧ e.2 = PTE_R ||| PTE_U ||| xperm ||| PTE_V := by
  have hempty : Space clearedRam KERNBASE (pages 0) :=
    .cleared rfl clearedRam_sound (by decide) (by decide)
  obtain ⟨r, s, halloc, hcases⟩ := uvmalloc_spec hempty (Nat.zero_le 4096) hx
  rw [halloc] at hrun
  cases hrun
  rcases hcases with ⟨-, hext⟩ | ⟨habsurd, -⟩
  · -- nothing is mapped above the page
    have hbelow : ∀ va e, s.lookup KERNBASE va = some e → va < pages 4096 * PGSIZE := by
      intro va e he
      by_contra hge
      by_cases hva : va < MAXVA
      · rw [hext.old va hva (.inr (Nat.not_lt.mp hge)), Ram.lookup_cleared rfl hva] at he
        cases he
      · rw [Ram.lookup_high (Nat.not_lt.mp hva)] at he
        cases he
    obtain ⟨p, -, hlookup, hzero⟩ := hext.new 0 (by decide) (by decide)
    have hmanaged := (hext.space.frame (hext.space.mem_frames (by decide) hlookup)).1
    have hne : p ≠ 0 := by
      have hge := hmanaged.2.1
      have hkend := hext.space.sound.kend
      have hbase : KERNBASE = 2147483648 := by norm_num
      omega
    have hu : has (PTE_R ||| PTE_U ||| xperm ||| PTE_V) PTE_U = true := by
      rw [has_or, has_or, show has (PTE_R ||| PTE_U) PTE_U = true from rfl, Bool.true_or, Bool.true_or]
    have huser : s.user KERNBASE 0 = some p := by
      unfold Ram.user
      rw [hlookup]
      exact if_pos ⟨hu, hne⟩
    refine ⟨s, p, halloc, fun va pa hpa => ?_, hlookup, huser, hzero, fun va e he => ?_⟩
    · obtain ⟨flags, he, -⟩ := Ram.user_eq_some hpa
      exact (hext.space.frame (hext.space.mem_frames (hbelow va _ he) he)).2.1
    · obtain ⟨q, -, hq, -⟩ := hext.new va (Nat.zero_le _) (hbelow va e he)
      rw [he] at hq
      cases hq
      exact ⟨hbelow va _ he, rfl⟩
  · cases habsurd

/-- A page of data at address 0, and nothing else. -/
theorem exists_data : ∃ m, Separate m KERNBASE ∧ ∃ pa,
    (∀ va, va < 4096 → m.user KERNBASE va = some pa) ∧
      ∀ va, 4096 ≤ va → m.user KERNBASE va = none := by
  obtain ⟨m, pa, -, hsep, -, huser, -, hflags⟩ := exists_segment
    (show flags2perm 6 < 2 ^ 10 by decide) (by decide +kernel)
  refine ⟨m, hsep, pa, fun va hva => ?_, fun va hva => ?_⟩
  · have hpage : va / PGSIZE = 0 / PGSIZE := by rw [Nat.div_eq_of_lt hva, Nat.zero_div]
    rw [Ram.user_congr hpage, huser]
  · cases hu : m.user KERNBASE va with
    | none => rfl
    | some p =>
      obtain ⟨flags, he, -⟩ := Ram.user_eq_some hu
      exact absurd (hflags va _ he).1 (Nat.not_lt.mpr hva)

/-- A byte is read from a pipe into a page of data. -/
theorem stores_respect_permissions_data :
    ∃ s, Separate s KERNBASE ∧ ∃ r t', (Call.readBytes 0 [42]).run KERNBASE s = .ok (r, t') ∧
      ∀ pa, t'.page pa ≠ s.page pa → s.Writable KERNBASE pa := by
  obtain ⟨s, p, -, hsep, -, -, -, hflags⟩ := exists_segment (show flags2perm 6 < 2 ^ 10 by decide)
    (by decide +kernel)
  refine ⟨s, hsep, ?_⟩
  have hreached : ∀ va ∈ (Call.readBytes 0 [42]).reached s KERNBASE, ∀ pa,
      s.user KERNBASE va = some pa → s.Writable KERNBASE pa := by
    intro va hva pa hpa
    obtain ⟨flags, he, -⟩ := Ram.user_eq_some hpa
    have hdata : flags = PTE_R ||| PTE_U ||| flags2perm 6 ||| PTE_V := (hflags va _ he).2
    subst hdata
    exact ⟨va, _, he, by decide, by decide, by decide⟩
  obtain ⟨r, t', hrun, honly, -⟩ :=
    (stores_respect_permissions_iff hsep (.readBytes 0 [42])).mpr hreached s ⟨fun _ _ => rfl, rfl⟩
  exact ⟨r, t', hrun, honly⟩

/-- A byte is read from a pipe into a page of text, as `exec` maps the text of a program. The call
succeeds and changes the page, which is not mapped with `PTE_W`. -/
theorem read_overwrites_text :
    ∃ s p t', uvmalloc KERNBASE 0 4096 (flags2perm 5) clearedRam = .ok (4096, s) ∧
      s.lookup KERNBASE 0 = some (p, PTE_R ||| PTE_U ||| PTE_X ||| PTE_V) ∧
      (Call.readBytes 0 [42]).run KERNBASE s = .ok (1, t') ∧ t'.page p ≠ s.page p ∧
      ¬ s.Writable KERNBASE p := by
  obtain ⟨s, p, halloc, hsep, hlookup, huser, hzero, hflags⟩ :=
    exists_segment (show flags2perm 5 < 2 ^ 10 by decide) (by decide +kernel)
  have hplace : s.place KERNBASE 0 = some (p, 0) := by
    unfold Ram.place
    rw [huser]
    rfl
  have hfits : s.fits KERNBASE (bytesAt 0 [42]) = true := by
    show ((s.place KERNBASE 0).isSome && true) = true
    rw [hplace]
    rfl
  have htaken : s.taken KERNBASE (bytesAt 0 [42]) = [((p, 0), 42)] := by
    rw [bytesAt, Ram.taken_cons hplace]
    rfl
  have hrun : copyout KERNBASE 0 [42] s = .ok (0, s.deposit [((p, 0), 42)]) := by
    rw [copyout_spec hsep, hfits, htaken]
    rfl
  refine ⟨s, p, s.deposit [((p, 0), 42)], halloc, hlookup, ?_, fun heq => ?_, ?_⟩
  · show (copyout KERNBASE 0 [42] >>= fun r => if r = -1 then _ else _ : M Int) s = _
    rw [run_bind_ok hrun]
    rfl
  · have hbyte := congrFun heq 0
    have hafter : (s.deposit [((p, 0), 42)]).page p 0 = 42 := by
      show Function.update (fun x : Nat × Fin PGSIZE => s.page x.1 x.2) (p, 0) 42 (p, 0) = 42
      exact Function.update_self ..
    rw [hafter, hzero] at hbyte
    cases hbyte
  · rintro ⟨va, flags, he, -, -, hw⟩
    have htext : flags = PTE_R ||| PTE_U ||| flags2perm 5 ||| PTE_V := (hflags va _ he).2
    subst htext
    cases hw

end Xv6.Vm
