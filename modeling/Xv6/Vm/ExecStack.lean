import Xv6.Vm.ExecLaws

/-!
# The stack of a new image

After a successful `exec` the last page of the image holds the arguments, the page below it is closed to
the user, and the registers tell where the arguments are. Apart from what can fail before the arguments
are looked at, `exec` fails exactly when they do not fit into the page.
-/

namespace Xv6.Vm

open Base Extent

variable {env : Env} {k k' : Sys} {pt top n : Nat} {args : List (List UInt8)}

/-- The strings and the array of their addresses, as pieces of memory. -/
def pieces (sp : Nat) (ptrs : List Nat) (args : List (List UInt8)) : List Extent :=
  List.zipWith (fun p arg => ⟨p, arg.length + 1⟩) ptrs args ++ [⟨sp, (args.length + 1) * 8⟩]

/-- A process whose stack holds these arguments, at these addresses. -/
structure Argued (k : Sys) (args : List (List UInt8)) (ptrs : List Nat) : Prop where
  count : ptrs.length = args.length
  a1 : k.task.a1 = k.task.sp
  aligned : k.task.sp % 16 = 0
  low : k.task.sz - PGSIZE ≤ k.task.sp
  high : k.task.sp < k.task.sz
  nonnull : ∀ p ∈ ptrs, p ≠ 0
  array : k.ram.Finds k.task.pagetable k.task.sp ((ptrs ++ [0]).flatMap pointer)
  strings : List.Forall₂ (fun p arg => k.ram.Finds k.task.pagetable p (arg ++ [0])) ptrs args
  apart : (pieces k.task.sp ptrs args).Pairwise Apart
  inside : ∀ e ∈ pieces k.task.sp ptrs args, k.task.sz - PGSIZE ≤ e.start ∧ e.stop ≤ k.task.sz
  guard : 2 * PGSIZE ≤ k.task.sz ∧ ∀ va, k.task.sz - 2 * PGSIZE ≤ va → va < k.task.sz - PGSIZE →
    k.ram.user k.task.pagetable va = none

theorem zipWith_addresses (top : Nat) (args : List (List UInt8)) :
    List.zipWith (fun p arg => ⟨p, arg.length + 1⟩) (addresses top args) args =
      blocksBelow 16 top (lengths args) := by
  induction args generalizing top with
  | nil => rfl
  | cons arg rest ih => exact congrArg (List.cons _) (ih (top - roundUp 16 (arg.length + 1)))

/-- What has been pushed is a stack of blocks. -/
theorem pieces_addresses (top : Nat) (args : List (List UInt8)) :
    pieces (top - depth 16 (pushes args)) (addresses top args) args =
      blocksBelow 16 top (pushes args) := by
  unfold pieces
  rw [zipWith_addresses, depth_pushes, ← Nat.sub_sub]
  unfold pushes
  rw [blocksBelow_append]
  rfl

theorem depth_pushes_pos (args : List (List UInt8)) : 0 < depth 16 (pushes args) := by
  have hround := le_roundUp (show 0 < 16 by decide) ((args.length + 1) * 8)
  rw [depth_pushes]
  omega

/-- The image that `exec` has committed to. -/
theorem Pushed.argued {t : Task} {s : Ram} (hpushed : Pushed s pt (n * PGSIZE) args) (htwo : 2 ≤ n)
    (hle : depth 16 (pushes args) ≤ PGSIZE) (hguard : s.user pt ((n - 2) * PGSIZE) = none)
    (path : List UInt8) (entry : Nat) (io : Io) (reads : Nat) :
    Argued ⟨s, t.image path pt (n * PGSIZE) (n * PGSIZE - depth 16 (pushes args)) entry, io, reads⟩ args
      (addresses (n * PGSIZE) args) := by
  have hsize : PGSIZE = 4096 := rfl
  have hpos := depth_pushes_pos args
  have hmod := depth_mod 16 (pushes args)
  obtain ⟨top, htop⟩ : ∃ top, top = n * PGSIZE := ⟨_, rfl⟩
  have hbig : 2 * PGSIZE ≤ top ∧ top % PGSIZE = 0 := by
    rw [htop]
    exact ⟨Nat.mul_le_mul_right _ htwo, Nat.mul_mod_left ..⟩
  rw [← htop] at hpushed ⊢
  rw [hsize] at hle hbig
  have hinside : ∀ e ∈ blocksBelow 16 top (pushes args), top - 4096 ≤ e.start ∧ e.stop ≤ top := by
    intro e he
    have hin := blocksBelow_inside (by decide) (by omega) he
    omega
  refine ⟨length_addresses .., rfl, ?_, ?_, ?_, ?_, hpushed.array, ?_, ?_, ?_, ?_⟩
  · show (top - depth 16 (pushes args)) % 16 = 0
    omega
  · show top - 4096 ≤ top - depth 16 (pushes args)
    omega
  · show top - depth 16 (pushes args) < top
    omega
  · intro p hp
    obtain ⟨e, he, rfl⟩ := List.mem_map.mp hp
    have hin : e ∈ blocksBelow 16 top (pushes args) := by
      unfold pushes
      rw [blocksBelow_append]
      exact List.mem_append_left _ he
    have hge := (hinside e hin).1
    omega
  · exact List.forall₂_map_left_iff.mpr hpushed.strings
  · show (pieces (top - depth 16 (pushes args)) _ args).Pairwise Apart
    rw [pieces_addresses]
    exact blocksBelow_apart (by decide) (by omega)
  · show ∀ e ∈ pieces (top - depth 16 (pushes args)) _ args, top - 4096 ≤ e.start ∧ e.stop ≤ top
    rw [pieces_addresses]
    exact hinside
  · refine ⟨hbig.1, fun va hge hlt => ?_⟩
    change top - 2 * 4096 ≤ va at hge
    change va < top - 4096 at hlt
    have hpage : va / PGSIZE = (n - 2) * PGSIZE / PGSIZE := by
      rw [Nat.mul_div_cancel _ (by decide)]
      rw [hsize] at htop ⊢
      omega
    show s.user pt va = none
    rw [Ram.user_congr hpage]
    exact hguard

/-- No arguments. -/
def Argv.none : Argv := ⟨[], by decide, fun arg harg => absurd harg List.not_mem_nil⟩

/-- A call of `exec` that succeeds returns the number of its arguments and leaves a process whose stack
holds them. If a call without arguments succeeds, a call with arguments fails exactly when their
strings and the array of their addresses, each rounded up to 16 bytes, take more than a page. -/
theorem exec_stack (h : Ready env k) (path : List UInt8) (argv : Argv) :
    (∀ r k', exec env path argv k = .ok (r, k') → r ≠ -1 →
      r = argv.args.length ∧ ∃ ptrs, Argued k' argv.args ptrs) ∧
    ∀ k', exec env path .none k = .ok (0, k') →
      ((∃ k', exec env path argv k = .ok (-1, k')) ↔
        PGSIZE < ((argv.args.map fun arg => roundUp 16 (arg.length + 1)).sum +
          roundUp 16 ((argv.args.length + 1) * 8))) := by
  have hdepth : (argv.args.map fun arg => roundUp 16 (arg.length + 1)).sum +
      roundUp 16 ((argv.args.length + 1) * 8) = depth 16 (pushes argv.args) := by
    rw [depth_pushes]
    unfold depth lengths
    rw [List.map_map]
    rfl
  rw [hdepth]
  rcases exec_outcome h path with ⟨k₁, hrun, -⟩ | ⟨k₁, pt, n, entry, hstacked, hrun⟩
  · refine ⟨fun r k' hexec hr => ?_, fun k' hexec => ?_⟩
    · have hsame := hexec.symm.trans (hrun argv)
      cases hsame
      exact absurd rfl hr
    · have hsame := hexec.symm.trans (hrun .none)
      cases hsame
  · obtain ⟨hroom, hnoroom⟩ := @Stacked.finish_spec _ _ _ _ _ path entry h hstacked argv
    rw [← hrun argv] at hroom hnoroom
    refine ⟨fun r k' hexec hr => ?_, fun _ _ => ⟨?_, fun hlt => ?_⟩⟩
    · rcases Nat.lt_or_ge PGSIZE (depth 16 (pushes argv.args)) with hlt | hle
      · obtain ⟨k'', hfail, -⟩ := hnoroom hlt
        have hsame := hexec.symm.trans hfail
        cases hsame
        exact absurd rfl hr
      · obtain ⟨s, hdone, hsame, hpushed⟩ := hroom hle
        have hresult := hexec.symm.trans hdone
        cases hresult
        refine ⟨rfl, _, hpushed.argued hstacked.two hle ?_ path entry _ _⟩
        rw [hsame.user]
        exact hstacked.guard
    · rintro ⟨k', hexec⟩
      by_contra hle
      obtain ⟨s, hdone, -⟩ := hroom (Nat.not_lt.mp hle)
      have hresult : (-1 : Int) = argv.args.length :=
        congrArg Prod.fst (Except.ok.inj (hexec.symm.trans hdone))
      omega
    · obtain ⟨k', hfail, -⟩ := hnoroom hlt
      exact ⟨k', hfail⟩

/-- The program without segments is loaded as soon as there is a page table. -/
theorem exec_noSegments {s s' : Ram} {old : Nat}
    (hrun : procPagetable (KERNBASE + 0x5000) KERNBASE s = .ok (some pt, s')) (path : List UInt8)
    (argv : Argv) :
    exec noSegments path argv (nascent s old) =
      execStack path argv pt 0 0 { nascent s old with ram := s', reads := 1 } := by
  obtain ⟨file, hfile⟩ : ∃ file, noSegments.file path = some file := ⟨_, rfl⟩
  obtain ⟨hdr, hhdr⟩ : ∃ hdr, hdr = readBytes file none 0 64 := ⟨_, rfl⟩
  have hfields : hdr.length = 64 ∧ field hdr 0 4 = ELF_MAGIC ∧ field hdr 56 2 = 0 ∧ field hdr 24 8 = 0 := by
    cases hfile
    rw [hhdr]
    decide +kernel
  obtain ⟨hlen, hmagic, hcount, hentry⟩ := hfields
  have hstart : exec noSegments path argv (nascent s old) =
      execFile noSegments file path argv ⟨s, (nascent s old).task, ⟨1, true, 1⟩, 0⟩ := by
    unfold exec
    rw [hfile]
    rfl
  have hread : readi noSegments file 0 64 ⟨s, (nascent s old).task, ⟨1, true, 1⟩, 0⟩ =
      .ok (hdr, ⟨s, (nascent s old).task, ⟨1, true, 1⟩, 1⟩) := by
    rw [hhdr]
    rfl
  have htable : mem (procPagetable (nascent s old).task.trapframe noSegments.trampoline)
      ⟨s, (nascent s old).task, ⟨1, true, 1⟩, 1⟩ =
      .ok (some pt, ⟨s', (nascent s old).task, ⟨1, true, 1⟩, 1⟩) := mem_run hrun
  rw [hstart]
  unfold execFile
  rw [run_bind_ok hread, if_neg (not_not.mpr hlen), if_neg (not_not.mpr hmagic), run_get_bind,
    run_bind_ok htable]
  dsimp only
  unfold execLoad
  rw [hcount, hentry]
  have hload : loadSegments noSegments file pt 0 (field hdr 32 8 % 2 ^ 32) 0
      ⟨s', (nascent s old).task, ⟨1, true, 1⟩, 1⟩ =
      .ok ((0, true), ⟨s', (nascent s old).task, ⟨1, true, 1⟩, 1⟩) := rfl
  have hheld : (⟨s', (nascent s old).task, ⟨1, true, 1⟩, 1⟩ : Sys).io = Io.held ⟨0, false, 0⟩ := rfl
  rw [run_bind_ok hload, if_pos rfl, release_run hheld rfl]
  rfl

/-- A process that has no memory starts a program with the argument `hi`. -/
theorem exec_stack_hi :
    ∃ s pt k', Ready noSegments (nascent s pt) ∧
      exec noSegments [] ⟨[[104, 105]], by decide, by decide⟩ (nascent s pt) = .ok (1, k') ∧
      ∃ ptrs, Argued k' [[104, 105]] ptrs := by
  have htable : (procPagetable (KERNBASE + 0x5000) KERNBASE (roomyRam 12)).toOption.any
      (fun x => x.1.isSome) = true := by
    decide +kernel
  simp only [Option.any_eq_true, Option.isSome_iff_exists] at htable
  obtain ⟨⟨_, s⟩, hrun, old, rfl⟩ := htable
  have hrun := ok_of_toOption hrun
  have hready : Ready noSegments (nascent s old) :=
    (fresh_roomy (by decide) hrun).ready (by decide) rfl rfl
  -- there is memory for another table and two pages
  have henough : ((procPagetable (KERNBASE + 0x5000) KERNBASE >>= fun _ =>
      procPagetable (KERNBASE + 0x5000) KERNBASE >>= fun r => r.elim (pure 0) fun pt =>
        uvmalloc pt (pgroundup 0) ((pages 0 + 2) * PGSIZE) PTE_W : M Nat) (roomyRam 12)).map
      Prod.fst = .ok ((pages 0 + 2) * PGSIZE) := by
    decide +kernel
  obtain ⟨r, s₁, hrun₁, hcases⟩ := procPagetable_spec hready.whole.space.sound hready.trapframe.1.1
    (Nat.lt_trans hready.trapframe.1.2.2 (by decide)) hready.trampoline.1 hready.trampoline.2
  change procPagetable (KERNBASE + 0x5000) KERNBASE s = .ok (r, s₁) at hrun₁
  rw [run_bind_ok hrun, run_bind_ok hrun₁] at henough
  obtain ⟨rfl, -⟩ | ⟨pt, rfl, hfresh⟩ := hcases
  · cases henough
  have hloading : Loading (nascent s old) { nascent s old with ram := s₁, reads := 1 }
      (nascent s old).io pt (pages 0) := ⟨hfresh, rfl, rfl⟩
  have hzero : pages (pgroundup 0) = 0 := by decide +kernel
  have hspace : Space s₁ pt (pages (pgroundup 0)) := hzero.symm ▸ hfresh.drawn.space
  have hw : PTE_W < 2 ^ 10 := by decide
  obtain ⟨r, s₂, halloc, hcases⟩ := uvmalloc_spec hspace
    (show pgroundup 0 ≤ (pages 0 + 2) * PGSIZE by decide +kernel) hw
  dsimp only [Option.elim] at henough
  rw [halloc] at henough
  obtain ⟨rfl, hext⟩ | ⟨rfl, -⟩ := hcases
  · rw [hzero, pages_mul] at hext
    obtain ⟨k₁, hstacked, hfinish⟩ := @Loading.stacked _ _ pt 0 s₂ [] 0 hloading hext halloc
    obtain ⟨hroom, -⟩ := @Stacked.finish_spec k₁ _ _ pt _ [] 0 hready hstacked
      ⟨[[104, 105]], by decide, by decide⟩
    obtain ⟨s₃, hdone, -⟩ := hroom (by decide +kernel)
    have hexec := (exec_noSegments hrun₁ [] ⟨[[104, 105]], by decide, by decide⟩).trans
      ((hfinish _).trans hdone)
    obtain ⟨-, hargued⟩ := (exec_stack hready [] ⟨[[104, 105]], by decide, by decide⟩).1 _ _ hexec
      (by decide)
    exact ⟨s, old, _, hready, hexec, hargued⟩
  · have hne : 0 ≠ (pages 0 + 2) * PGSIZE := by decide
    exact absurd (Except.ok.inj henough) hne

end Xv6.Vm
