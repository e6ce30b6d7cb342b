import Xv6.Vm.Arguments

/-!
# `exec` is atomic

Whatever the file and the arguments are, and wherever memory or a read fails, `exec` does not
panic, and if it fails it leaves everything as it was. The new image is built from free pages
(`Fresh`), so giving its table back gives back all of them, and no page of the caller is touched.
-/

namespace Xv6.Vm

open Base

variable {k k₀ : Sys} {io : Io} {env : Env} {file : List UInt8} {pt n sz va : Nat} {s : Ram}
  {path : List UInt8}

theorem mem_run {α : Type} {x : M α} {a : α} (h : x k.ram = .ok (a, s)) :
    mem x k = .ok (a, { k with ram := s }) := by
  unfold mem
  rw [h]

/-! ## Loading -/

/-- The image that is being built in `k`, from a call that started in `k₀`, with `n` user pages. -/
structure Loading (k₀ k : Sys) (io : Io) (pt n : Nat) : Prop where
  fresh : Fresh k₀.ram k.ram pt n
  task : k.task = k₀.task
  io : k.io = io

/-- All user pages are mapped for the user. -/
def Open (s : Ram) (pt n : Nat) : Prop := ∀ va, va < n * PGSIZE → (s.user pt va).isSome

theorem readi_run (env : Env) (file : List UInt8) (off n : Nat) (k : Sys) :
    readi env file off n k =
      .ok (readBytes file (env.short k.reads) off n, { k with reads := k.reads + 1 }) := rfl

theorem Loading.write {pa : Nat} (h : Loading k₀ k io pt n) (hopen : Open k.ram pt n)
    (hpa : k.ram.user pt va = some pa) (off : Nat) (data : List UInt8) (reads : Nat) :
    Loading k₀ { k with ram := k.ram.write pa off data, reads := reads } io pt n ∧
      Open (k.ram.write pa off data) pt n := by
  have hframe := (h.fresh.user_frame hpa).2
  have hpage : ∀ p, p ∉ k.ram.frames pt n 0 → (k.ram.write pa off data).page p = k.ram.page p :=
    fun p hp => k.ram.setPage_page_ne _ fun he => hp (he ▸ hframe)
  obtain ⟨hfresh, hsame⟩ := h.fresh.touch hpage rfl rfl
  refine ⟨⟨hfresh, h.task, h.io⟩, fun va hva => ?_⟩
  rw [hsame.user]
  exact hopen va hva

theorem loadLoop_spec {offset i : Nat} (rounds : Nat) (h : Loading k₀ k io pt n)
    (hopen : Open k.ram pt n) (hend : va + sz ≤ n * PGSIZE) (hrounds : sz ≤ i + rounds * PGSIZE) :
    ∃ r k', loadLoop env file pt va offset sz (rounds + 1) i k = .ok (r, k') ∧
      Loading k₀ k' io pt n ∧ Open k'.ram pt n := by
  induction rounds generalizing k i with
  | zero =>
    rw [Nat.zero_mul, Nat.add_zero] at hrounds
    refine ⟨0, k, ?_, h, hopen⟩
    rw [loadLoop, if_neg (Nat.not_lt.mpr hrounds)]
    rfl
  | succ rounds ih =>
    by_cases hi : i < sz
    · have hmem := Nat.mul_le_mul_right PGSIZE h.fresh.drawn.space.le_memory
      have hsmall : va + sz ≤ 134217728 := Nat.le_trans hend hmem
      have haddr : (va + i) % 2 ^ 64 = va + i := Nat.mod_eq_of_lt (by omega)
      have hlt : va + i < n * PGSIZE := Nat.lt_of_lt_of_le (Nat.add_lt_add_left hi va) hend
      obtain ⟨pa, hpa⟩ := Option.isSome_iff_exists.mp (hopen _ hlt)
      have hwalk : walkaddr pt (va + i) k.ram = .ok (pa, k.ram) := by
        rw [walkaddr_spec, hpa]
        rfl
      obtain ⟨-, -, -, hne⟩ := Ram.user_eq_some hpa
      obtain ⟨m, hm⟩ : ∃ m, m = if sz - i < PGSIZE then sz - i else PGSIZE := ⟨_, rfl⟩
      obtain ⟨data, hdata⟩ : ∃ data, readi env file ((offset + i) % 2 ^ 32) m k =
        .ok (data, { k with reads := k.reads + 1 }) := ⟨_, readi_run ..⟩
      obtain ⟨hloading, hopen'⟩ := h.write hopen hpa 0 data (k.reads + 1)
      have hnext : (i + PGSIZE) % 2 ^ 32 = i + PGSIZE := by
        have hsize : PGSIZE = 4096 := rfl
        rw [hsize]
        exact Nat.mod_eq_of_lt (by omega)
      have hstep : loadLoop env file pt va offset sz (rounds + 1 + 1) i k =
          (if data.length ≠ m then pure (-1)
            else loadLoop env file pt va offset sz (rounds + 1) (i + PGSIZE) : X Int)
          { k with ram := k.ram.write pa 0 data, reads := k.reads + 1 } := by
        rw [loadLoop, if_pos hi, haddr, run_bind_ok (mem_run hwalk), if_neg hne]
        rw [← hm, run_bind_ok hdata, run_bind_ok (mem_run rfl), hnext]
      rw [hstep]
      by_cases hshort : data.length ≠ m
      · rw [if_pos hshort]
        exact ⟨-1, _, rfl, hloading, hopen'⟩
      · rw [if_neg hshort]
        apply ih hloading hopen'
        rw [Nat.succ_mul, Nat.add_comm (rounds * PGSIZE), ← Nat.add_assoc] at hrounds
        exact hrounds
    · refine ⟨0, k, ?_, h, hopen⟩
      rw [loadLoop, if_neg hi]
      rfl

/-- `loadseg` writes the segment's pages only. -/
theorem loadseg_spec (env : Env) (file : List UInt8) (offset : Nat) (h : Loading k₀ k io pt n)
    (hopen : Open k.ram pt n) (hend : va + sz ≤ n * PGSIZE) (hsz : sz < 2 ^ 32) :
    ∃ r k', loadseg env file pt va offset sz k = .ok (r, k') ∧ Loading k₀ k' io pt n ∧
      Open k'.ram pt n := by
  have hrounds : sz ≤ 0 + 2 ^ 20 * PGSIZE := by
    have hpow : 0 + 2 ^ 20 * PGSIZE = 2 ^ 32 := by norm_num
    rw [hpow]
    exact Nat.le_of_lt hsz
  exact loadLoop_spec (2 ^ 20) h hopen hend hrounds

theorem field_lt (bytes : List UInt8) (off n : Nat) : field bytes off n < 256 ^ n := by
  have hfold : ∀ l : List UInt8, l.foldr (fun b v => b.toNat + 256 * v) 0 < 256 ^ l.length := by
    intro l
    induction l with
    | nil => exact Nat.zero_lt_one
    | cons b l ih =>
      have hb := b.toNat_lt
      rw [List.foldr_cons, List.length_cons, Nat.pow_succ]
      omega
  have hlen : ((bytes.drop off).take n).length ≤ n := by
    rw [List.length_take]
    exact Nat.min_le_left ..
  exact Nat.lt_of_lt_of_le (hfold _) (Nat.pow_le_pow_right (by norm_num) hlen)

theorem flags2perm_lt (flags : Nat) : flags2perm flags < 2 ^ 10 := by
  unfold flags2perm
  split <;> split <;> decide

/-- `uvmalloc` in the new image, for a size that may also be smaller. -/
theorem Loading.uvmalloc {newsz xperm : Nat} (h : Loading k₀ k io pt (pages sz))
    (hopen : Open k.ram pt (pages sz)) (hx : xperm < 2 ^ 10) :
    ∃ r s', uvmalloc pt sz newsz xperm k.ram = .ok (r, s') ∧
      ((r = max sz newsz ∧ Loading k₀ { k with ram := s' } io pt (pages r) ∧ Open s' pt (pages r)) ∨
        (r = 0 ∧ Loading k₀ { k with ram := s' } io pt (pages sz) ∧ Open s' pt (pages sz))) := by
  have hkept : ∀ {s' : Ram} {n' flags : Nat}, has flags PTE_U = true →
      Extends k.ram pt (pages sz) flags s' n' →
      Loading k₀ { k with ram := s' } io pt n' ∧ Open s' pt n' := by
    intro s' n' flags hu hext
    have hfresh := h.fresh.grown hext
    refine ⟨⟨hfresh, h.task, h.io⟩, fun va hva => ?_⟩
    by_cases hold : va < pages sz * PGSIZE
    · obtain ⟨pa, hpa⟩ := Option.isSome_iff_exists.mp (hopen va hold)
      have hsame := hext.old va (hext.space.lt_maxva hva) (.inl hold)
      unfold Ram.user at hpa ⊢
      rw [hsame, hpa]
      rfl
    · obtain ⟨p, -, hlookup, -⟩ := hext.new va (Nat.not_lt.mp hold) hva
      have hne : p ≠ 0 := by
        have hmanaged := (hext.space.frame (hext.space.mem_frames hva hlookup)).1
        have hge := hmanaged.2.1
        have hkend := hext.space.sound.kend
        have hbase : KERNBASE = 2147483648 := by norm_num
        omega
      unfold Ram.user
      rw [hlookup]
      show (if has flags PTE_U = true ∧ p ≠ 0 then some p else none).isSome = true
      rw [if_pos ⟨hu, hne⟩]
      rfl
  by_cases hless : newsz < sz
  · refine ⟨sz, k.ram, ?_, .inl ⟨?_, h, hopen⟩⟩
    · unfold Vm.uvmalloc
      rw [if_pos hless]
      rfl
    · exact (Nat.max_eq_left (Nat.le_of_lt hless)).symm
  · have hle := Nat.not_lt.mp hless
    have hu : has (PTE_R ||| PTE_U ||| xperm ||| PTE_V) PTE_U = true := by
      rw [has_or, has_or, show has (PTE_R ||| PTE_U) PTE_U = true from rfl, Bool.true_or, Bool.true_or]
    obtain ⟨r, s', hrun, ⟨rfl, hext⟩ | ⟨rfl, hext⟩⟩ := uvmalloc_spec h.fresh.drawn.space hle hx
    · exact ⟨r, s', hrun, .inl ⟨(Nat.max_eq_right hle).symm, hkept hu hext⟩⟩
    · exact ⟨0, s', hrun, .inr ⟨rfl, hkept hu hext⟩⟩

theorem loadSegment_spec (ph : List UInt8) (h : Loading k₀ k io pt (pages sz))
    (hopen : Open k.ram pt (pages sz)) :
    ∃ r k', loadSegment env file pt sz ph k = .ok (r, k') ∧ Loading k₀ k' io pt (pages r.1) ∧
      Open k'.ram pt (pages r.1) := by
  have hvaddr : field ph 16 8 < 2 ^ 64 := field_lt ph 16 8
  have hmemsz : field ph 40 8 < 2 ^ 64 := field_lt ph 40 8
  unfold loadSegment
  by_cases htype : field ph 0 4 ≠ ELF_PROG_LOAD
  · rw [if_pos htype]
    exact ⟨(sz, true), k, rfl, h, hopen⟩
  rw [if_neg htype]
  by_cases hsize : field ph 40 8 < field ph 32 8
  · rw [if_pos hsize]
    exact ⟨(sz, false), k, rfl, h, hopen⟩
  rw [if_neg hsize]
  by_cases hwrap : (field ph 16 8 + field ph 40 8) % 2 ^ 64 < field ph 16 8
  · rw [if_pos hwrap]
    exact ⟨(sz, false), k, rfl, h, hopen⟩
  rw [if_neg hwrap]
  by_cases halign : field ph 16 8 % PGSIZE ≠ 0
  · rw [if_pos halign]
    exact ⟨(sz, false), k, rfl, h, hopen⟩
  rw [if_neg halign]
  have htop : (field ph 16 8 + field ph 40 8) % 2 ^ 64 = field ph 16 8 + field ph 40 8 := by omega
  rw [htop]
  obtain ⟨sz1, s', hrun, hcases⟩ := h.uvmalloc hopen (flags2perm_lt (field ph 4 4))
  rw [run_bind_ok (mem_run hrun)]
  by_cases hzero : sz1 = 0
  · subst hzero
    rw [if_pos rfl]
    rcases hcases with ⟨hmax, hloading, hopen'⟩ | ⟨-, hloading, hopen'⟩
    · have hsz : sz = 0 := by omega
      subst hsz
      exact ⟨(0, false), _, rfl, hloading, hopen'⟩
    · exact ⟨(sz, false), _, rfl, hloading, hopen'⟩
  · rw [if_neg hzero]
    rcases hcases with ⟨hmax, hloading, hopen'⟩ | ⟨habsurd, -⟩
    · -- the segment lies within the space
      have hend : field ph 16 8 + field ph 32 8 % 2 ^ 32 ≤ pages sz1 * PGSIZE := by
        have hmod := Nat.mod_le (field ph 32 8) (2 ^ 32)
        have hpages := le_pages_mul sz1
        omega
      obtain ⟨r, k', hload, hloading', hopen''⟩ := loadseg_spec env file (field ph 8 8 % 2 ^ 32)
        hloading hopen' hend (Nat.mod_lt _ (by norm_num))
      rw [run_bind_ok hload]
      by_cases hr : r < 0
      · rw [if_pos hr]
        exact ⟨(sz1, false), k', rfl, hloading', hopen''⟩
      · rw [if_neg hr]
        exact ⟨(sz1, true), k', rfl, hloading', hopen''⟩
    · exact absurd habsurd hzero

theorem loadSegments_spec (env : Env) (file : List UInt8) (count off : Nat) (h : Loading k₀ k io pt (pages sz))
    (hopen : Open k.ram pt (pages sz)) :
    ∃ r k', loadSegments env file pt count off sz k = .ok (r, k') ∧
      Loading k₀ k' io pt (pages r.1) := by
  induction count generalizing k off sz with
  | zero => exact ⟨(sz, true), k, rfl, h⟩
  | succ count ih =>
    have hloading : Loading k₀ { k with reads := k.reads + 1 } io pt (pages sz) :=
      ⟨h.fresh, h.task, h.io⟩
    rw [loadSegments, run_bind_ok (readi_run ..)]
    by_cases hshort : (readBytes file (env.short k.reads) off 56).length ≠ 56
    · rw [if_pos hshort]
      exact ⟨(sz, false), _, rfl, hloading⟩
    · rw [if_neg hshort]
      obtain ⟨r, k', hrun, hloading', hopen'⟩ := loadSegment_spec
        (readBytes file (env.short k.reads) off 56) hloading hopen
      rw [run_bind_ok hrun]
      by_cases hok : r.2 = true
      · rw [if_pos hok]
        exact ih _ hloading' hopen'
      · rw [if_neg hok]
        exact ⟨r, k', rfl, hloading'⟩

/-! ## Failing -/

/-- The state of a call that has failed. -/
structure Undone (k₀ k : Sys) : Prop where
  ram : Restored k₀.ram k.ram
  task : k.task = k₀.task
  io : k.io = k₀.io

/-- What `exec` holds while it reads the program. -/
def Io.held (io : Io) : Io := ⟨io.ref + 1, true, io.outstanding + 1⟩

theorem iunlockput_run (hio : k.io = io.held) :
    iunlockput k = .ok ((), { k with io := ⟨io.ref, false, io.outstanding + 1⟩ }) := by
  have hheld : ¬ (k.io.locked = false ∨ k.io.ref < 1) := by
    rw [hio]
    rintro (hlocked | href)
    · cases hlocked
    · exact absurd href (Nat.not_lt.mpr (Nat.succ_pos _))
  unfold iunlockput
  rw [run_get_bind, if_neg hheld]
  show Except.ok ((), { k with io := ⟨k.io.ref - 1, false, k.io.outstanding⟩ }) = _
  rw [hio]
  rfl

/-- The inode and the log operation are given back. -/
theorem release_run {α : Type} (hio : k.io = io.held) (hunlocked : io.locked = false) (x : X α) :
    (iunlockput >>= fun _ => endOp >>= fun _ => x) k = x { k with io := io } := by
  rw [run_bind_ok (iunlockput_run hio)]
  show x { k with io := ⟨io.ref, false, io.outstanding⟩ } = _
  rw [← hunlocked]

theorem bad_spec {pagetable : Option Nat} (ip : Bool) (hunlocked : k₀.io.locked = false)
    (hfree : freeNew pagetable sz k = .ok ((), { k with ram := s })) (hram : Restored k₀.ram s)
    (htask : k.task = k₀.task) (hio : k.io = if ip then k₀.io.held else k₀.io) :
    ∃ k', bad pagetable sz ip k = .ok (-1, k') ∧ Undone k₀ k' := by
  unfold bad
  rw [run_bind_ok hfree]
  cases ip with
  | true =>
    refine ⟨{ k with ram := s, io := k₀.io }, ?_, hram, htask, rfl⟩
    exact release_run (k := { k with ram := s }) hio hunlocked (pure (-1))
  | false => exact ⟨_, rfl, hram, htask, hio⟩

/-- The way out of `exec` gives everything back. -/
theorem Loading.bad (ip : Bool) (hunlocked : k₀.io.locked = false)
    (h : Loading k₀ k (if ip then k₀.io.held else k₀.io) pt (pages sz)) :
    ∃ k', bad (some pt) sz ip k = .ok (-1, k') ∧ Undone k₀ k' := by
  obtain ⟨s, hrun, hrestored⟩ := h.fresh.released
  exact bad_spec ip hunlocked (mem_run hrun) hrestored h.task h.io

/-! ## Committing -/

/-- A table whose pages are not free is as it was while another one is built. -/
theorem Drawn.survives {s₀ : Ram} {old m : Nat} (hd : Drawn s₀ s pt n) (h : Space s₀ old m) :
    SameTable s₀ old s ∧ Space s old m := by
  have hfree : ∀ p ∈ s.freelist, p ∈ s₀.freelist := fun p hp =>
    hd.mem_owned.mp (Ram.mem_owned.mpr (.inr hp))
  have hsame : SameTable s₀ old s :=
    ⟨fun p hp => hd.outside p (h.table.own p hp).2, hd.kend⟩
  have htable : Table s old :=
    hsame.table h.table fun p hp hin => (h.table.own p hp).2 (hfree p hin)
  have hframes : s.frames old m 0 = s₀.frames old m 0 := Ram.frames_congr_of_lt fun va hva =>
    hsame.lookup (h.lt_maxva hva)
  refine ⟨hsame, htable, hd.space.sound, h.low, fun va hva => ?_, fun va hge hlt => ?_, ?_,
    fun p hp => ?_⟩
  · rw [hsame.lookup (h.lt_maxva hva)]
    exact h.mapped va hva
  · rw [hsame.lookup (Nat.lt_trans hlt (by norm_num))]
    exact h.above va hge hlt
  · obtain ⟨hleft, -, hdisjoint⟩ := Multiset.nodup_add.mp h.nodup
    unfold Ram.owned
    rw [hsame.tables, hframes]
    refine Multiset.nodup_add.mpr ⟨hleft, Multiset.coe_nodup.mpr hd.space.sound.nodup, ?_⟩
    rw [Multiset.disjoint_left] at hdisjoint ⊢
    intro p hp hin
    exact hdisjoint hp (Multiset.mem_coe.mpr (hfree p (Multiset.mem_coe.mp hin)))
  · have hmem : p ∈ s₀.owned old m := by
      rw [Ram.mem_owned, hsame.tables, hframes] at hp
      exact Ram.mem_owned.mpr (hp.imp_right (hfree p))
    unfold Ram.Managed
    rw [hd.kend]
    exact h.managed p hmem

/-- The process that calls `exec`. -/
structure Ready (env : Env) (k : Sys) : Prop where
  whole : Whole k.ram k.task.pagetable (pages k.task.sz)
  trapframe : k.ram.Managed k.task.trapframe ∧ k.task.trapframe ∉ k.ram.freelist
  trampoline : env.trampoline % PGSIZE = 0 ∧ env.trampoline < 2 ^ 56
  unlocked : k.io.locked = false

/-- The old image is given back, and nothing of the new one is touched. -/
theorem commit_spec {argv : Argv} {sp entry : Nat} (hready : Ready env k₀)
    (h : Loading k₀ k io pt n) :
    ∃ s, commit path argv pt sz sp entry k = .ok ((argv.args.length : Int),
        { k with ram := s, task := k.task.image path pt sz sp entry }) ∧
      s.kend = k.ram.kend ∧ ∀ p ∈ k₀.ram.freelist, s.page p = k.ram.page p := by
  have hold := hready.whole.space
  obtain ⟨hsame, hspace⟩ := h.fresh.drawn.survives hold
  have hwhole : Whole k.ram k₀.task.pagetable (pages k₀.task.sz) := by
    refine ⟨hspace, ?_, ?_⟩
    · rw [hsame.lookup (by norm_num)]
      exact hready.whole.top
    · rw [hsame.lookup (by norm_num)]
      exact hready.whole.frame
  obtain ⟨s, hrun, hreleased⟩ := procFreepagetable_spec hwhole
  rw [← h.task] at hrun
  have hset : (set { k with task := k.task.image path pt sz sp entry } : X PUnit) k =
      .ok ((), { k with task := k.task.image path pt sz sp entry }) := rfl
  refine ⟨s, ?_, hreleased.kend, fun p hp => hreleased.outside p ?_ ?_⟩
  · unfold commit
    rw [run_get_bind, run_bind_ok hset]
    exact run_bind_ok (mem_run hrun)
  · rw [hsame.tables]
    exact fun hin => (hold.table.own p hin).2 hp
  · rw [Ram.frames_congr_of_lt fun va hva => hsame.lookup (hold.lt_maxva hva)]
    exact fun hin => (hold.frame hin).2.2 hp

/-! ## `exec` -/

/-- A new image but for the arguments: its last two pages are the guard and the stack. -/
structure Stacked (k₀ k : Sys) (pt n : Nat) : Prop where
  loading : Loading k₀ k k₀.io pt n
  two : 2 ≤ n
  stack : (k.ram.user pt ((n - 1) * PGSIZE)).isSome
  guard : k.ram.user pt ((n - 2) * PGSIZE) = none

/-- What `exec` does with it. -/
def finish (path : List UInt8) (argv : Argv) (pagetable sz entry : Nat) : X Int := do
  match ← mem (pushAll pagetable sz argv) with
  | none => bad (some pagetable) sz false
  | some sp => commit path argv pagetable sz sp entry

/-- What a call comes to before it looks at its arguments: it fails and has changed nothing, or it has
a new image. -/
def Outcome (k₀ : Sys) (path : List UInt8) (x : Argv → X Int) (k : Sys) : Prop :=
  (∃ k', (∀ argv, x argv k = .ok (-1, k')) ∧ Undone k₀ k') ∨
    ∃ k' pt n entry, Stacked k₀ k' pt n ∧ ∀ argv, x argv k = finish path argv pt (n * PGSIZE) entry k'

theorem Outcome.of_undone {x : X Int} (h : ∃ k', x k = .ok (-1, k') ∧ Undone k₀ k') :
    Outcome k₀ path (fun _ => x) k := by
  obtain ⟨k', hrun, hundone⟩ := h
  exact .inl ⟨k', fun _ => hrun, hundone⟩

theorem Outcome.bind {α : Type} {x : X α} {f : α → Argv → X Int} {a : α} {k' : Sys}
    (h : x k = .ok (a, k')) (hf : Outcome k₀ path (f a) k') :
    Outcome k₀ path (fun argv => x >>= fun a => f a argv) k := by
  unfold Outcome
  simp only [run_bind_ok h]
  exact hf

theorem Outcome.of_eq {x y : Argv → X Int} {k' : Sys} (h : ∀ argv, x argv k = y argv k')
    (hy : Outcome k₀ path y k') : Outcome k₀ path x k := by
  unfold Outcome
  simp only [h]
  exact hy

theorem pgroundup_add (hle : pages sz ≤ 32768) (hsz : sz < 2 ^ 63) :
    (pgroundup sz + 2 * PGSIZE) % 2 ^ 64 = (pages sz + 2) * PGSIZE := by
  have hsize : PGSIZE = 4096 := rfl
  rw [pgroundup_eq hsz, ← Nat.add_mul]
  apply Nat.mod_eq_of_lt
  rw [hsize]
  omega

/-- With two more pages there is a guard and a stack. -/
theorem Loading.stacked {entry : Nat} (h : Loading k₀ k k₀.io pt (pages sz))
    (hext : Extends k.ram pt (pages sz) (PTE_R ||| PTE_U ||| PTE_W ||| PTE_V) s (pages sz + 2))
    (halloc : Vm.uvmalloc pt (pgroundup sz) ((pages sz + 2) * PGSIZE) PTE_W k.ram =
      .ok ((pages sz + 2) * PGSIZE, s)) :
    ∃ k', Stacked k₀ k' pt (pages sz + 2) ∧ ∀ argv, execStack path argv pt sz entry k =
      finish path argv pt ((pages sz + 2) * PGSIZE) entry k' := by
  have hspace := h.fresh.drawn.space
  have hpos : (pages sz + 2) * PGSIZE ≠ 0 := Nat.mul_ne_zero (Nat.succ_ne_zero _) (by decide)
  have hguard : (pages sz + 2) * PGSIZE - 2 * PGSIZE = pages sz * PGSIZE := by
    rw [← Nat.sub_mul, Nat.add_sub_cancel]
  obtain ⟨s₁, hclear, hfresh, huser⟩ := (h.fresh.grown hext).clear
    (Nat.mul_lt_mul_of_pos_right (show pages sz < pages sz + 2 by omega) (by decide))
  refine ⟨{ k with ram := s₁ }, ⟨⟨hfresh, h.task, h.io⟩, ?_, ?_, ?_⟩, fun argv => ?_⟩
  · exact Nat.le_add_left ..
  · obtain ⟨p, hp, hlookup, -⟩ := hext.new ((pages sz + 1) * PGSIZE)
      (Nat.mul_le_mul_right _ (Nat.le_succ _))
      (Nat.mul_lt_mul_of_pos_right (Nat.lt_succ_self _) (by decide))
    have hne : p ≠ 0 := by
      have hge := (hspace.sound.managed p hp).2.1
      have hkend := hspace.sound.kend
      have hbase : KERNBASE = 2147483648 := by norm_num
      omega
    have hother : ¬ (pages sz + 1) * PGSIZE / PGSIZE = pages sz * PGSIZE / PGSIZE := by
      rw [Nat.mul_div_cancel _ (by decide), Nat.mul_div_cancel _ (by decide)]
      omega
    show (s₁.user pt ((pages sz + 1) * PGSIZE)).isSome = true
    rw [huser, if_neg hother]
    unfold Ram.user
    rw [hlookup]
    show (if has (PTE_R ||| PTE_U ||| PTE_W ||| PTE_V) PTE_U = true ∧ p ≠ 0 then some p
      else none).isSome = true
    rw [if_pos ⟨by decide, hne⟩]
    rfl
  · show s₁.user pt (pages sz * PGSIZE) = none
    rw [huser, if_pos rfl]
  · unfold execStack
    rw [pgroundup_add hspace.le_memory hspace.size_lt, run_bind_ok (mem_run halloc), if_neg hpos, hguard,
      run_bind_ok (mem_run (k := { k with ram := s }) hclear)]
    rfl

theorem execStack_outcome {entry : Nat} (hready : Ready env k₀)
    (h : Loading k₀ k k₀.io pt (pages sz)) :
    Outcome k₀ path (fun argv => execStack path argv pt sz entry) k := by
  have hspace := h.fresh.drawn.space
  have hround := pgroundup_eq hspace.size_lt
  have hpages : pages (pgroundup sz) = pages sz := by rw [hround, pages_mul]
  have hle : pgroundup sz ≤ (pages sz + 2) * PGSIZE := by
    rw [hround]
    exact Nat.mul_le_mul_right _ (Nat.le_add_right _ _)
  have hw : PTE_W < 2 ^ 10 := by decide
  rw [← hpages] at hspace
  obtain ⟨r, s, halloc, ⟨rfl, hext⟩ | ⟨rfl, hext⟩⟩ := uvmalloc_spec hspace hle hw
  · rw [hpages, pages_mul] at hext
    obtain ⟨k', hstacked, hrun⟩ := @Loading.stacked _ _ _ _ s path entry h hext halloc
    exact .inr ⟨k', pt, _, entry, hstacked, hrun⟩
  · rw [hpages] at hspace
    have hloading : Loading k₀ { k with ram := s } k₀.io pt (pages (pgroundup sz)) := by
      refine ⟨?_, h.task, h.io⟩
      rw [hpages] at hext ⊢
      exact h.fresh.grown hext
    unfold execStack
    dsimp only
    rw [pgroundup_add hspace.le_memory hspace.size_lt]
    refine Outcome.bind (mem_run halloc) ?_
    exact .of_undone (hloading.bad false hready.unlocked)

theorem execLoad_outcome {hdr : List UInt8} (hready : Ready env k₀)
    (h : Loading k₀ k k₀.io.held pt (pages 0)) :
    Outcome k₀ path (fun argv => execLoad env file path argv hdr pt) k := by
  have hopen : Open k.ram pt (pages 0) := fun va hva => absurd hva (Nat.not_lt_zero va)
  obtain ⟨⟨sz, ok⟩, k', hrun, hloading⟩ :=
    loadSegments_spec env file (field hdr 56 2) (field hdr 32 8 % 2 ^ 32) h hopen
  unfold execLoad
  refine Outcome.bind hrun ?_
  cases ok with
  | false => exact .of_undone (hloading.bad true hready.unlocked)
  | true =>
    exact .of_eq (fun argv => release_run hloading.io hready.unlocked _)
      (execStack_outcome hready ⟨hloading.fresh, hloading.task, rfl⟩)

theorem execFile_outcome (hready : Ready env k₀) (hram : k.ram = k₀.ram) (htask : k.task = k₀.task)
    (hio : k.io = k₀.io.held) :
    Outcome k₀ path (fun argv => execFile env file path argv) k := by
  have hbad : ∀ {k' : Sys}, Restored k₀.ram k'.ram → k'.task = k₀.task → k'.io = k₀.io.held →
      Outcome k₀ path (fun _ => bad none 0 true) k' := fun hres htask hio =>
    .of_undone (bad_spec true hready.unlocked rfl hres htask hio)
  have hsame : Restored k₀.ram k₀.ram := ⟨rfl, rfl, fun _ _ => rfl⟩
  unfold execFile
  refine Outcome.bind (readi_run ..) ?_
  by_cases hlen : (readBytes file (env.short k.reads) 0 64).length ≠ 64
  · simp only [if_pos hlen]
    exact hbad (hram ▸ hsame) htask hio
  simp only [if_neg hlen]
  by_cases hmagic : field (readBytes file (env.short k.reads) 0 64) 0 4 ≠ ELF_MAGIC
  · simp only [if_pos hmagic]
    exact hbad (hram ▸ hsame) htask hio
  simp only [if_neg hmagic]
  refine .of_eq (fun argv => run_get_bind ..) ?_
  have hframe : k₀.ram.Managed k.task.trapframe := by
    rw [htask]
    exact hready.trapframe.1
  obtain ⟨r, s, hrun, hcases⟩ := procPagetable_spec hready.whole.space.sound hframe.1
    (Nat.lt_trans hframe.2.2 (by decide)) hready.trampoline.1 hready.trampoline.2
  rw [← hram] at hrun
  refine Outcome.bind (mem_run (k := { k with reads := k.reads + 1 }) hrun) ?_
  obtain ⟨rfl, hrestored⟩ | ⟨pt, rfl, hfresh⟩ := hcases
  · exact hbad hrestored htask hio
  · exact execLoad_outcome hready ⟨hfresh, htask, hio⟩

/-- `exec` commits, or undoes all it did. -/
theorem exec_outcome (h : Ready env k) (path : List UInt8) :
    Outcome k path (fun argv => exec env path argv) k := by
  unfold exec
  refine Outcome.bind rfl ?_
  cases env.file path with
  | none => exact .of_undone ⟨_, rfl, ⟨rfl, rfl, fun _ _ => rfl⟩, rfl, rfl⟩
  | some file =>
    refine Outcome.bind rfl ?_
    exact execFile_outcome h rfl rfl rfl

namespace Stacked

theorem page (h : Stacked k₀ k pt n) : ∃ pa, StackPage k.ram pt ((n - 1) * PGSIZE) pa := by
  obtain ⟨pa, hpa⟩ := Option.isSome_iff_exists.mp h.stack
  have htwo := h.two
  have habove : 1 * PGSIZE ≤ (n - 1) * PGSIZE := Nat.mul_le_mul_right _ (by omega)
  rw [Nat.one_mul] at habove
  exact ⟨pa, Nat.mul_mod_left .., habove, Ram.user_lt hpa, hpa⟩

theorem top (h : Stacked k₀ k pt n) : n * PGSIZE = (n - 1) * PGSIZE + PGSIZE := by
  have htwo := h.two
  rw [← Nat.succ_mul, Nat.succ_eq_add_one, Nat.sub_add_cancel (by omega)]

/-- With a new image, `exec` pushes the arguments and commits to it when there is room for them, and
gives it back when there is not. -/
theorem finish_spec {path : List UInt8} {entry : Nat} (hready : Ready env k₀) (h : Stacked k₀ k pt n)
    (argv : Argv) :
    (depth 16 (pushes argv.args) ≤ PGSIZE →
      ∃ s, finish path argv pt (n * PGSIZE) entry k = .ok ((argv.args.length : Int),
          { k with
            ram := s
            task := k.task.image path pt (n * PGSIZE) (n * PGSIZE - depth 16 (pushes argv.args)) entry }) ∧
        SameTable k.ram pt s ∧ Pushed s pt (n * PGSIZE) argv.args) ∧
    (PGSIZE < depth 16 (pushes argv.args) →
      ∃ k', finish path argv pt (n * PGSIZE) entry k = .ok (-1, k') ∧ Undone k₀ k') := by
  obtain ⟨pa, hpage⟩ := h.page
  obtain ⟨r, s, hpush, hfresh, hsame, hroom, hnoroom⟩ := hpage.pushAll h.loading.fresh argv
  have hloading : Loading k₀ { k with ram := s } k₀.io pt n := ⟨hfresh, h.loading.task, h.loading.io⟩
  rw [← h.top] at hpush hroom
  unfold finish
  refine ⟨fun hle => ?_, fun hlt => ?_⟩
  · obtain ⟨rfl, hpushed⟩ := hroom hle
    obtain ⟨s', hcommit, hkend, hkept⟩ := commit_spec hready hloading
    refine ⟨s', (run_bind_ok (mem_run hpush)).trans hcommit, ?_⟩
    have howned : ∀ p, p ∈ s.tables pt ∨ p ∈ s.frames pt n 0 → s'.page p = s.page p := fun p hp =>
      hkept p (hfresh.drawn.mem_owned.mp (Ram.mem_owned.mpr (.inl hp)))
    have hsame' : SameTable s pt s' := ⟨fun p hp => howned p (.inl hp), hkend⟩
    have htop := h.top
    obtain ⟨base, hbase⟩ : ∃ base, base = (n - 1) * PGSIZE := ⟨_, rfl⟩
    rw [← hbase] at hpage htop
    refine ⟨hsame.trans hsame', hpushed.congr (by omega) hsame' fun va hge hlt => ?_⟩
    -- the stack is a page of the image
    rw [htop] at hge hlt
    have hu : s.user pt va = some pa := (hpage.congr hsame).user_eq (by omega) hlt
    rw [Ram.userByte_eq hu, Ram.userByte_eq ((hsame'.user va).trans hu),
      howned pa (.inr (hfresh.user_frame hu).2)]
  · obtain rfl := hnoroom hlt
    rw [← pages_mul n] at hloading
    rw [run_bind_ok (mem_run hpush)]
    exact hloading.bad false hready.unlocked

end Stacked

/-- `exec` returns for every file, path and argument list, from every free list and with every read
failing. If it returns -1, the process is as it was, its page table maps what it did to pages with
the bytes they had, the free pages are those that were free, and the inode and the log operation
have been given back. -/
theorem exec_atomic (h : Ready env k) (path : List UInt8) (argv : Argv) :
    ∃ r k', exec env path argv k = .ok (r, k') ∧
      (r = -1 →
        k'.task = k.task ∧
          (∀ va, va < MAXVA →
            k'.ram.lookup k.task.pagetable va = k.ram.lookup k.task.pagetable va) ∧
          (∀ va p flags, va < pages k.task.sz * PGSIZE →
            k.ram.lookup k.task.pagetable va = some (p, flags) → k'.ram.page p = k.ram.page p) ∧
          k'.ram.page k.task.trapframe = k.ram.page k.task.trapframe ∧
          k'.ram.freelist.Perm k.ram.freelist ∧ k'.io = k.io) := by
  obtain ⟨r, k', hrun, hundone⟩ : ∃ r k', exec env path argv k = .ok (r, k') ∧ (r = -1 → Undone k k') := by
    rcases exec_outcome h path with ⟨k', hrun, hundone⟩ | ⟨k', pt, n, entry, hstacked, hrun⟩
    · exact ⟨-1, k', hrun argv, fun _ => hundone⟩
    · obtain ⟨hroom, hnoroom⟩ := @Stacked.finish_spec _ _ _ _ _ path entry h hstacked argv
      rcases Nat.lt_or_ge PGSIZE (depth 16 (pushes argv.args)) with hlt | hle
      · obtain ⟨k'', hfinish, hundone⟩ := hnoroom hlt
        exact ⟨-1, k'', (hrun argv).trans hfinish, fun _ => hundone⟩
      · obtain ⟨s, hfinish, -⟩ := hroom hle
        refine ⟨_, _, (hrun argv).trans hfinish, fun hneg => ?_⟩
        have hcount := Int.natCast_nonneg argv.args.length
        rw [hneg] at hcount
        exact absurd hcount (by decide)
  refine ⟨r, k', hrun, fun hr => ?_⟩
  obtain ⟨hram, htask, hio⟩ := hundone hr
  have hspace := h.whole.space
  have hsame : SameTable k.ram k.task.pagetable k'.ram :=
    ⟨fun p hp => hram.outside p (hspace.table.own p hp).2, hram.kend⟩
  refine ⟨htask, fun va hva => hsame.lookup hva, ?_, hram.outside _ h.trapframe.2,
    Multiset.coe_eq_coe.mp hram.freelist, hio⟩
  intro va p flags hva he
  exact hram.outside p (hspace.frame (hspace.mem_frames hva he)).2.2

/-- A program of no segments. -/
def noSegments : Env where
  file _ := some ([0x7f, 0x45, 0x4c, 0x46] ++ List.replicate 60 0)
  short _ := none
  trampoline := KERNBASE

/-- A process without user memory. -/
def nascent (s : Ram) (pagetable : Nat) : Sys where
  ram := s
  task := ⟨pagetable, 0, KERNBASE + 0x5000, 0, 0, 0, [], fun _ => 0⟩
  io := ⟨0, false, 0⟩
  reads := 0

/-- The same process with a page of user memory. -/
def grown (s : Ram) (pagetable : Nat) : Sys :=
  { nascent s pagetable with task := { (nascent s pagetable).task with sz := PGSIZE } }

/-- Cleared memory with so many free pages. -/
def roomyRam (n : Nat) : Ram where
  page _ := filled 0
  freelist := (List.range n).map fun i => KERNBASE + (i + 6) * PGSIZE
  kend := KERNBASE

theorem roomyRam_sound (hn : n ≤ 12) : (roomyRam n).Sound ∧
    (roomyRam n).Managed (KERNBASE + 0x5000) ∧ KERNBASE + 0x5000 ∉ (roomyRam n).freelist := by
  have hall : ∀ n ≤ 12, (roomyRam n).freelist.Nodup ∧ (∀ p ∈ (roomyRam n).freelist,
      (roomyRam n).Managed p) ∧ KERNBASE + 0x5000 ∉ (roomyRam n).freelist := by
    decide +kernel
  obtain ⟨hnodup, hmanaged, hout⟩ := hall n hn
  exact ⟨⟨hnodup, hmanaged, Nat.le_refl _⟩, ⟨by decide, Nat.le_add_right _ _, by decide⟩, hout⟩

theorem fresh_roomy (hn : n ≤ 12)
    (hrun : procPagetable (KERNBASE + 0x5000) KERNBASE (roomyRam n) = .ok (some pt, s)) :
    Fresh (roomyRam n) s pt (pages 0) := by
  obtain ⟨r, s', hrun', hcases⟩ := procPagetable_spec (roomyRam_sound hn).1
    (show (KERNBASE + 0x5000) % PGSIZE = 0 by decide) (by decide)
    (show KERNBASE % PGSIZE = 0 by decide) (by decide)
  have hsame := hrun.symm.trans hrun'
  cases hsame
  obtain ⟨habsurd, -⟩ | ⟨pt', hpt, hfresh⟩ := hcases
  · cases habsurd
  · cases hpt
    exact hfresh

/-- A process with a new table is ready. -/
theorem Fresh.ready (hn : n ≤ 12) {k : Sys} (hframe : k.task.trapframe = KERNBASE + 0x5000)
    (hio : k.io.locked = false) (h : Fresh (roomyRam n) k.ram k.task.pagetable (pages k.task.sz)) :
    Ready noSegments k := by
  obtain ⟨-, hmanaged, hout⟩ := roomyRam_sound hn
  refine ⟨⟨h.drawn.space, h.top, h.frame⟩, ?_, by decide, hio⟩
  rw [hframe]
  refine ⟨?_, fun hin => hout (h.drawn.mem_owned.mp (Ram.mem_owned.mpr (.inr hin)))⟩
  unfold Ram.Managed
  rw [h.drawn.kend]
  exact hmanaged

/-- A process with a page of user memory calls `exec`, which finds two free pages where it needs
three and gives back what it took. -/
theorem exec_atomic_grown :
    ∃ (s : Ram) (pt p flags : Nat) (k' : Sys), Ready noSegments (grown s pt) ∧
      s.lookup pt 0 = some (p, flags) ∧
      exec noSegments [] ⟨[], by decide, by decide⟩ (grown s pt) = .ok (-1, k') ∧
      k'.task = (grown s pt).task ∧ k'.ram.lookup pt 0 = some (p, flags) ∧
      k'.ram.page p = s.page p ∧ k'.ram.freelist.Perm s.freelist ∧ k'.io = (grown s pt).io := by
  have htest : (procPagetable (KERNBASE + 0x5000) KERNBASE (roomyRam 8)).toOption.any (fun x =>
      x.1.any fun pt => (uvmalloc pt 0 PGSIZE PTE_W x.2).toOption.any fun y => y.1 == PGSIZE &&
        ((exec noSegments [] ⟨[], by decide, by decide⟩ (grown y.2 pt)).map Prod.fst).toOption ==
          some (-1)) = true := by
    decide +kernel
  simp only [Option.any_eq_true, Bool.and_eq_true, beq_iff_eq] at htest
  obtain ⟨⟨_, s₁⟩, hrun, pt, rfl, ⟨_, s⟩, halloc, rfl, hfails⟩ := htest
  have hfresh := fresh_roomy (n := 8) (by decide) (ok_of_toOption hrun)
  obtain ⟨r, s', halloc', hcases⟩ := uvmalloc_spec hfresh.drawn.space (Nat.zero_le PGSIZE)
    (show PTE_W < 2 ^ 10 by decide)
  have hsame := (ok_of_toOption halloc).symm.trans halloc'
  cases hsame
  obtain ⟨-, hext⟩ | ⟨habsurd, -⟩ := hcases
  · have hready : Ready noSegments (grown s pt) := (hfresh.grown hext).ready (by decide) rfl rfl
    obtain ⟨p, -, hpage, -⟩ := hext.new 0 (by decide) (by decide)
    obtain ⟨r, k', hexec, hundone⟩ := exec_atomic hready [] ⟨[], by decide, by decide⟩
    obtain rfl : r = -1 := by
      rw [hexec] at hfails
      exact Option.some.inj hfails
    obtain ⟨htask, hlookup, hsaved, -, hfree, hio⟩ := hundone rfl
    exact ⟨s, pt, p, _, k', hready, hpage, hexec, htask, (hlookup 0 (by decide)).trans hpage,
      hsaved 0 p _ (show 0 < pages PGSIZE * PGSIZE by decide) hpage, hfree, hio⟩
  · cases habsurd

end Xv6.Vm
