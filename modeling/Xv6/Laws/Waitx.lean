import Xv6.Laws.System
import Xv6.Vm.UserStores

/-!
# `sys_waitx` and the memory of its caller

`sys_waitx` calls `waitx` and then copies the two times out, whatever `waitx` has answered. When `waitx`
fails without an exited child, the two variables have not been set, and the call copies to user
memory whatever was on the kernel stack. When `waitx` succeeds, it has freed the child by the time
the copies are made, and a copy that fails turns the answer into -1. `Answerable` lists the addresses
with which nothing of this happens, and `sys_waitx_iff` says that there are no others.
-/

namespace Xv6

open Base Base.Machine Vm

variable {n : Nat} {k : Kernel n} {p np : Slot} {c : Fin n} {cfg : Config} {m m' : Ram} {pt : Nat}
  {addr addr1 addr2 : UInt64}

/-! ## The call -/

/-- The copy of the exit status that `waitx` makes before it frees the child it has found. -/
def copyXstate (k : Kernel n) (p : Slot) (pt : Nat) (addr : UInt64) : M Int :=
  match k.exitedChild p with
  | some np => if addr = 0 then pure 0
      else copyout pt addr.toNat (word (UInt32.ofInt (k.proc np).xstate))
  | none => pure 0

/-- The copies of the two times, after which `sys_waitx` returns `ret`. -/
def copyTimes (pt : Nat) (addr1 addr2 : UInt64) (ret : Int) (wtime rtime : UInt32) : M Int := do
  let r ← copyout pt addr1.toNat (word wtime)
  if r < 0 then pure (-1)
  else do
    let r ← copyout pt addr2.toNat (word rtime)
    if r < 0 then pure (-1) else pure ret

/-- `sys_waitx()` of the process `p`, whose page table is `pt`, from a scan of `waitx` on. `stack` is
what the variables `wtime` and `rtime` hold before they are set. No answer means that the process
sleeps until the next scan. -/
def sysWaitx (k : Kernel n) (c : Fin n) (p : Slot) (pt : Nat) (addr addr1 addr2 : UInt64)
    (stack : UInt32 × UInt32) (m : Ram) : Except Fault ((Kernel n × Ram) × Option Int) := do
  let (copied, m) ← copyXstate k p pt addr m
  let (k, answer) ← k.waitx c p (copied < 0)
  match answer with
  | none => return ((k, m), none)
  | some (ret, times) =>
    let (wtime, rtime) := match times with
      | some (wtime, rtime) => (UInt32.ofNat wtime, UInt32.ofNat rtime)
      | none => stack
    let (v, m) ← copyTimes pt addr1 addr2 ret wtime rtime m
    return ((k, m), some v)

/-- The scan of `waitx` that finds this table is the last one of its call. -/
def Kernel.lastScan (k : Kernel n) (p : Slot) : Prop :=
  (k.exitedChild p).isSome = true ∨ k.havekids p = false ∨ (k.proc p).killed = true

/-- The waiting time of an exited process. -/
def Kernel.wtime (k : Kernel n) (np : Slot) : UInt32 :=
  UInt32.ofNat (uint32 ((k.proc np).etime + 2 * 2 ^ 32 - (k.proc np).ctime - (k.proc np).rtime))

/-- The running time of a process. -/
def Kernel.rtime (k : Kernel n) (np : Slot) : UInt32 := UInt32.ofNat (k.proc np).rtime

/-! ## What it should do -/

/-- These bytes stand in user memory. -/
def Stored (m : Ram) (pt : Nat) (l : List (Nat × UInt8)) : Prop :=
  ∀ w ∈ l, ∃ x, m.place pt w.1 = some x ∧ m.page x.1 x.2 = w.2

/-- The answer `v` of `sys_waitx`, which leads from `k` and `m` to `k'` and `m'`: an answer of -1 means
that no child has been reaped and no memory changed, and any other one is the pid of a child that
has been reaped, whose times stand at the two addresses. -/
structure Faithful (k : Kernel n) (p : Slot) (pt : Nat) (addr1 addr2 : UInt64) (m : Ram)
    (k' : Kernel n) (m' : Ram) (v : Int) : Prop where
  failed : v = -1 → k' = k ∧ m' = m
  reaped : v ≠ -1 → ∃ np, k.exitedChild p = some np ∧ v = (k.proc np).pid ∧
    (k'.proc np).state = .unused ∧ Stored m' pt (bytesAt addr1.toNat (word (k.wtime np))) ∧
    Stored m' pt (bytesAt addr2.toNat (word (k.rtime np)))

/-- An `int` at this address is in user memory. -/
def Mapped (m : Ram) (pt : Nat) (addr : UInt64) : Prop :=
  ∀ i, i < 4 → (m.user pt (addr.toNat + i)).isSome = true

instance (m : Ram) (pt : Nat) (addr : UInt64) : Decidable (Mapped m pt addr) :=
  inferInstanceAs (Decidable (∀ i, i < 4 → (m.user pt (addr.toNat + i)).isSome = true))

/-- No byte of one list has to stand where another byte of the other list stands. -/
def Compatible (m : Ram) (pt : Nat) (l l' : List (Nat × UInt8)) : Prop :=
  ∀ w ∈ l, ∀ w' ∈ l', m.place pt w.1 = m.place pt w'.1 → w.2 = w'.2

/-- The addresses with which `sys_waitx` answers faithfully. Without an exited child, the first address
is not mapped, so that nothing is copied. With one, either all three addresses are good, or the
addresses of the status and of the waiting time are bad from their first byte on. -/
def Answerable (k : Kernel n) (p : Slot) (pt : Nat) (addr addr1 addr2 : UInt64) (m : Ram) : Prop :=
  match k.exitedChild p with
  | none => m.user pt addr1.toNat = none
  | some np =>
    if addr = 0 ∨ Mapped m pt addr then
      Mapped m pt addr1 ∧ Mapped m pt addr2 ∧
        Compatible m pt (bytesAt addr1.toNat (word (k.wtime np)))
          (bytesAt addr2.toNat (word (k.rtime np)))
    else m.user pt addr.toNat = none ∧ m.user pt addr1.toNat = none

/-! ## What it does -/

/-- The bytes of the two times. -/
def timesAt (addr1 addr2 : UInt64) (wtime rtime : UInt32) : List (Nat × UInt8) :=
  bytesAt addr1.toNat (word wtime) ++ bytesAt addr2.toNat (word rtime)

/-- The bytes of the exit status. -/
def xstateAt (k : Kernel n) (np : Slot) (addr : UInt64) : List (Nat × UInt8) :=
  if addr = 0 then [] else bytesAt addr.toNat (word (UInt32.ofInt (k.proc np).xstate))

theorem copyTimes_spec (hsep : Separate m pt) (addr1 addr2 : UInt64) (ret : Int)
    (wtime rtime : UInt32) : copyTimes pt addr1 addr2 ret wtime rtime m =
      .ok (if m.fits pt (timesAt addr1 addr2 wtime rtime) then ret else -1,
        m.deposit (m.taken pt (timesAt addr1 addr2 wtime rtime))) :=
  copyout_then hsep ..

theorem sysWaitx_none (hsep : Separate m pt) (hlast : k.lastScan p) (hnone : k.exitedChild p = none)
    (addr addr1 addr2 : UInt64) (stack : UInt32 × UInt32) :
    sysWaitx k c p pt addr addr1 addr2 stack m =
      .ok ((k, m.deposit (m.taken pt (timesAt addr1 addr2 stack.1 stack.2))), some (-1)) := by
  have hscan : k.waitx c p false = .ok (k, some (-1, none)) := by
    have hend : (!k.havekids p || (k.proc p).killed) = true := by
      rcases hlast with h | h | h
      · rw [hnone] at h
        cases h
      · rw [h]
        rfl
      · rw [h, Bool.or_true]
    rw [Kernel.waitx, hnone]
    exact if_pos hend
  have hcopy : copyXstate k p pt addr m = .ok (0, m) := by
    rw [copyXstate, hnone]
    rfl
  rw [sysWaitx, hcopy]
  show (k.waitx c p false >>= _) = _
  rw [hscan]
  show (copyTimes pt addr1 addr2 (-1) stack.1 stack.2 m >>= _) = _
  rw [copyTimes_spec hsep, ite_self]
  rfl

theorem copyXstate_spec (hsep : Separate m pt) (hnp : k.exitedChild p = some np) (addr : UInt64) :
    copyXstate k p pt addr m = .ok (if m.fits pt (xstateAt k np addr) then 0 else -1,
      m.deposit (m.taken pt (xstateAt k np addr))) := by
  rw [copyXstate, hnp]
  unfold xstateAt
  by_cases haddr : addr = 0
  · simp only [if_pos haddr]
    rfl
  · simp only [if_neg haddr]
    exact copyout_spec hsep ..

/-- `waitx` frees the child it finds unless the copy of the status fails. -/
theorem waitx_some (hinv : Inv k) (hnp : k.exitedChild p = some np) (copyoutFails : Bool) :
    ∃ times, times = (uint32 ((k.proc np).etime + 2 * 2 ^ 32 - (k.proc np).ctime -
        (k.proc np).rtime), (k.proc np).rtime) ∧
      k.waitx c p copyoutFails = .ok (if copyoutFails then (k, some (-1, some times))
        else (k.modify np Proc.freed, some ((k.proc np).pid, some times))) := by
  refine ⟨_, rfl, ?_⟩
  have hzombie : (k.proc np).state = .zombie := (exitedChild_zombie hnp).2
  have hoff : ¬ ((k.proc np).state.ready = true) := by
    rw [hzombie]
    simp
  rw [Kernel.waitx, hnp]
  cases copyoutFails with
  | true => rfl
  | false =>
    show (k.freeproc np >>= _) = _
    rw [freeproc_eq hinv.queued hoff (fun x => hinv.pid_pos) (hinv.level np)]
    rfl

/-- With one: the status and the times are copied out, and the child is freed in between. -/
theorem sysWaitx_some (hinv : Inv k) (hsep : Separate m pt) (hnp : k.exitedChild p = some np)
    (addr addr1 addr2 : UInt64) (stack : UInt32 × UInt32) :
    sysWaitx k c p pt addr addr1 addr2 stack m =
      .ok ((if m.fits pt (xstateAt k np addr) then k.modify np Proc.freed else k,
        (m.deposit (m.taken pt (xstateAt k np addr))).deposit
          (m.taken pt (timesAt addr1 addr2 (k.wtime np) (k.rtime np)))),
        some (if m.fits pt (xstateAt k np addr) ∧
          m.fits pt (timesAt addr1 addr2 (k.wtime np) (k.rtime np)) then (k.proc np).pid else -1)) := by
  have hsame := Ram.deposit_same hsep (xstateAt k np addr)
  have hcopies : ∀ ret, copyTimes pt addr1 addr2 ret (k.wtime np) (k.rtime np)
      (m.deposit (m.taken pt (xstateAt k np addr))) =
        .ok (if m.fits pt (timesAt addr1 addr2 (k.wtime np) (k.rtime np)) then ret else -1,
          (m.deposit (m.taken pt (xstateAt k np addr))).deposit
            (m.taken pt (timesAt addr1 addr2 (k.wtime np) (k.rtime np)))) := by
    intro ret
    rw [copyTimes_spec (hsame.separate hsep), hsame.fits, hsame.taken]
  rw [sysWaitx, copyXstate_spec hsep hnp]
  cases m.fits pt (xstateAt k np addr) with
  | true =>
    obtain ⟨times, rfl, hscan⟩ := waitx_some (c := c) hinv hnp false
    show (k.waitx c p false >>= _) = _
    rw [hscan]
    show (copyTimes pt addr1 addr2 (k.proc np).pid (k.wtime np) (k.rtime np) _ >>= _) = _
    rw [hcopies]
    simp only [true_and]
    rfl
  | false =>
    obtain ⟨times, rfl, hscan⟩ := waitx_some (c := c) hinv hnp true
    show (k.waitx c p true >>= _) = _
    rw [hscan]
    show (copyTimes pt addr1 addr2 (-1) (k.wtime np) (k.rtime np) _ >>= _) = _
    rw [hcopies, ite_self]
    simp only [Bool.false_eq_true, false_and, if_false]
    rfl

/-! ## Bytes and places -/

theorem fits_word (v : UInt32) :
    m.fits pt (bytesAt addr.toNat (word v)) = true ↔ Mapped m pt addr := Ram.fits_bytesAt

/-- Nothing is written exactly if the first byte has no place. -/
theorem taken_word (v : UInt32) (l : List (Nat × UInt8)) :
    m.taken pt (bytesAt addr.toNat (word v) ++ l) = [] ↔ m.user pt addr.toNat = none := by
  cases hplace : m.place pt addr.toNat with
  | none =>
    refine iff_of_true ?_ (Option.map_eq_none_iff.mp hplace)
    rw [word, bytesAt, List.cons_append, Ram.taken, hplace]
  | some x =>
    refine iff_of_false ?_ ?_
    · rw [word, bytesAt, List.cons_append, Ram.taken_cons hplace]
      exact List.cons_ne_nil _ _
    · rw [(Ram.place_eq_some hplace).1]
      exact Option.some_ne_none _

/-- Two words are in memory after they have been written exactly if they are compatible. -/
theorem stored_iff (hsep : Separate m pt) {v v' : UInt32} (hsame : SameTable m pt m')
    (hfits : m.fits pt (timesAt addr1 addr2 v v') = true) :
    (Stored (m'.deposit (m.taken pt (timesAt addr1 addr2 v v'))) pt (bytesAt addr1.toNat (word v)) ∧
      Stored (m'.deposit (m.taken pt (timesAt addr1 addr2 v v'))) pt
        (bytesAt addr2.toNat (word v'))) ↔
    Compatible m pt (bytesAt addr1.toNat (word v)) (bytesAt addr2.toNat (word v')) := by
  have hafter : SameTable m pt (m'.deposit (m.taken pt (timesAt addr1 addr2 v v'))) := by
    rw [← hsame.taken]
    exact hsame.trans (Ram.deposit_same (hsame.separate hsep) _)
  have hword : ∀ v : UInt32, (word v).length ≤ PGSIZE := by
    intro v
    show 4 ≤ PGSIZE
    decide
  constructor
  · rintro ⟨h, h'⟩ w hw w' hw' heq
    obtain ⟨x, hx, hb⟩ := h w hw
    obtain ⟨x', hx', hb'⟩ := h' w' hw'
    rw [hafter.place] at hx hx'
    rw [hx, hx'] at heq
    rw [← hb, ← hb', Option.some.inj heq]
  · intro hcompat
    -- all bytes for one place agree, whichever of the words they are of
    have hagree : ∀ w ∈ timesAt addr1 addr2 v v', ∀ w' ∈ timesAt addr1 addr2 v v', ∀ x,
        m.place pt w.1 = some x → m.place pt w'.1 = some x → w.2 = w'.2 := by
      intro w hw w' hw' x hx hx'
      have heq : m.place pt w.1 = m.place pt w'.1 := hx.trans hx'.symm
      rcases List.mem_append.mp hw with hw | hw <;> rcases List.mem_append.mp hw' with hw' | hw'
      · exact Ram.bytesAt_place (hword v) hw hw' hx hx'
      · exact hcompat w hw w' hw' heq
      · exact (hcompat w' hw' w hw heq.symm).symm
      · exact Ram.bytesAt_place (hword v') hw hw' hx hx'
    have hstored : Stored (m'.deposit (m.taken pt (timesAt addr1 addr2 v v'))) pt
        (timesAt addr1 addr2 v v') := by
      intro w hw
      obtain ⟨x, hx⟩ := Option.isSome_iff_exists.mp (List.all_eq_true.mp hfits w hw)
      refine ⟨x, (hafter.place w.1).trans hx, ?_⟩
      refine overlay_eq (a := x) ⟨(x, w.2), Ram.mem_taken_of_fits hfits hw hx, rfl⟩ ?_
      intro u hu hux
      obtain ⟨va, hva, hin⟩ := Ram.mem_taken hu
      rw [hux] at hva
      exact hagree (va, u.2) hin w hw x hva hx
    exact ⟨fun w hw => hstored w (List.mem_append_left _ hw),
      fun w hw => hstored w (List.mem_append_right _ hw)⟩

/-- Writes that change no memory with this table are no writes. -/
theorem unchanged_iff (hsep : Separate m pt) {l : List ((Nat × Fin PGSIZE) × UInt8)}
    (hplaces : ∀ w ∈ l, ∃ va, m.place pt va = some w.1) :
    (∀ t, SameTable m pt t → t.deposit l = t) ↔ l = [] := by
  constructor
  · intro h
    by_contra hne
    obtain ⟨w, hw⟩ := List.exists_mem_of_ne_nil l hne
    obtain ⟨va, hva⟩ := hplaces w hw
    obtain ⟨t, hsame, hchanged⟩ := Ram.exists_changed hsep hw hva
    rw [h t hsame] at hchanged
    exact hchanged rfl
  · rintro rfl t -
    rfl

theorem taken_places (l : List (Nat × UInt8)) :
    ∀ w ∈ m.taken pt l, ∃ va, m.place pt va = some w.1 := by
  intro w hw
  obtain ⟨va, hva, -⟩ := Ram.mem_taken hw
  exact ⟨va, hva⟩

/-! ## The law -/

theorem fits_xstateAt (k : Kernel n) (np : Slot) :
    m.fits pt (xstateAt k np addr) = true ↔ addr = 0 ∨ Mapped m pt addr := by
  unfold xstateAt
  by_cases haddr : addr = 0
  · rw [if_pos haddr]
    exact iff_of_true rfl (.inl haddr)
  · rw [if_neg haddr, fits_word]
    exact ⟨.inr, fun h => h.resolve_left haddr⟩

/-- The child is reaped: the call is faithful exactly if both times are stored. -/
theorem faithful_reaped_iff (hinv : Inv k) (hsep : Separate m pt) (hnp : k.exitedChild p = some np)
    {t : Ram} (hsame : SameTable m pt t) :
    Faithful k p pt addr1 addr2 t (k.modify np Proc.freed)
      ((t.deposit (m.taken pt (xstateAt k np addr))).deposit
        (m.taken pt (timesAt addr1 addr2 (k.wtime np) (k.rtime np))))
      (if m.fits pt (timesAt addr1 addr2 (k.wtime np) (k.rtime np)) then (k.proc np).pid else -1) ↔
    Mapped m pt addr1 ∧ Mapped m pt addr2 ∧ Compatible m pt
      (bytesAt addr1.toNat (word (k.wtime np))) (bytesAt addr2.toNat (word (k.rtime np))) := by
  have hzombie : (k.proc np).state = .zombie := (exitedChild_zombie hnp).2
  have hpid : (k.proc np).pid ≠ -1 := by
    have hpos := hinv.pids.pos np (by rw [hzombie]; exact Procstate.noConfusion)
    omega
  have hfreed : ((k.modify np Proc.freed).proc np).state = .unused := by
    rw [Kernel.modify_self]
    rfl
  have hbefore : SameTable m pt (t.deposit (m.taken pt (xstateAt k np addr))) := by
    rw [← hsame.taken]
    exact hsame.trans (Ram.deposit_same (hsame.separate hsep) _)
  have hmapped : m.fits pt (timesAt addr1 addr2 (k.wtime np) (k.rtime np)) = true ↔
      Mapped m pt addr1 ∧ Mapped m pt addr2 := by
    rw [timesAt, Ram.fits_append, Bool.and_eq_true, fits_word, fits_word]
  cases hfits : m.fits pt (timesAt addr1 addr2 (k.wtime np) (k.rtime np)) with
  | false =>
    refine iff_of_false (fun h => ?_) fun h => ?_
    · -- the child is gone, and the answer says that it is not
      rw [(h.failed rfl).1, hzombie] at hfreed
      cases hfreed
    · rw [hmapped.mpr ⟨h.1, h.2.1⟩] at hfits
      cases hfits
  | true =>
    have hstored := stored_iff hsep hbefore hfits
    rw [if_pos rfl]
    constructor
    · intro h
      obtain ⟨np', hnp', -, -, hfirst, hsecond⟩ := h.reaped hpid
      have heq : np = np' := Option.some.inj (hnp.symm.trans hnp')
      subst heq
      exact ⟨(hmapped.mp hfits).1, (hmapped.mp hfits).2, hstored.mp ⟨hfirst, hsecond⟩⟩
    · rintro ⟨-, -, hcompat⟩
      obtain ⟨hfirst, hsecond⟩ := hstored.mpr hcompat
      exact ⟨fun h => absurd h hpid, fun _ => ⟨np, hnp, rfl, hfreed, hfirst, hsecond⟩⟩

/-- No child is reaped: the call is faithful exactly if nothing is written. -/
theorem faithful_failed_iff {t t' : Ram} : Faithful k p pt addr1 addr2 t k t' (-1) ↔ t' = t :=
  ⟨fun h => (h.failed rfl).2, fun h => ⟨fun _ => ⟨rfl, h⟩, fun hne => absurd rfl hne⟩⟩

/-- For every reachable state, every page table and every three addresses: whatever the caller's
memory holds and whatever is on the kernel stack, `sys_waitx` leaves the children and the memory
alone when it answers -1, and otherwise reaps the child it answers and stores its times, exactly
with the addresses of `Answerable`. -/
theorem sys_waitx_iff (hreach : (system cfg n).Reachable k) (hlast : k.lastScan p)
    (hsep : Separate m pt) (c : Fin n) (addr addr1 addr2 : UInt64) :
    (∀ t, SameTable m pt t → ∀ stack, ∃ k' t' v,
      sysWaitx k c p pt addr addr1 addr2 stack t = .ok ((k', t'), some v) ∧
        Faithful k p pt addr1 addr2 t k' t' v) ↔
    Answerable k p pt addr addr1 addr2 m := by
  have hinv := inv_reachable hreach
  have hself : SameTable m pt m := ⟨fun _ _ => rfl, rfl⟩
  unfold Answerable
  cases hchild : k.exitedChild p with
  | none =>
    have hrun : ∀ t, SameTable m pt t → ∀ stack,
        sysWaitx k c p pt addr addr1 addr2 stack t =
          .ok ((k, t.deposit (m.taken pt (timesAt addr1 addr2 stack.1 stack.2))), some (-1)) := by
      intro t hsame stack
      rw [sysWaitx_none (hsame.separate hsep) hlast hchild, hsame.taken]
    constructor
    · intro h
      refine (taken_word 0 (bytesAt addr2.toNat (word 0))).mp ?_
      refine (unchanged_iff hsep (taken_places _)).mp fun t hsame => ?_
      obtain ⟨k', t', v, hcall, hfaithful⟩ := h t hsame (0, 0)
      rw [hrun t hsame] at hcall
      cases hcall
      exact faithful_failed_iff.mp hfaithful
    · intro hunmapped t hsame stack
      refine ⟨_, _, _, hrun t hsame stack, faithful_failed_iff.mpr ?_⟩
      rw [timesAt, (taken_word stack.1 _).mpr hunmapped]
      rfl
  | some np =>
    dsimp only
    have hrun : ∀ t, SameTable m pt t → ∀ stack, sysWaitx k c p pt addr addr1 addr2 stack t =
        .ok ((if m.fits pt (xstateAt k np addr) then k.modify np Proc.freed else k,
          (t.deposit (m.taken pt (xstateAt k np addr))).deposit
            (m.taken pt (timesAt addr1 addr2 (k.wtime np) (k.rtime np)))),
          some (if m.fits pt (xstateAt k np addr) ∧
            m.fits pt (timesAt addr1 addr2 (k.wtime np) (k.rtime np))
            then (k.proc np).pid else -1)) := by
      intro t hsame stack
      rw [sysWaitx_some hinv (hsame.separate hsep) hchild, hsame.fits, hsame.fits, hsame.taken,
        hsame.taken]
    by_cases hgood : addr = 0 ∨ Mapped m pt addr
    · have hfits := (fits_xstateAt k np).mpr hgood
      simp only [hfits, true_and, if_true] at hrun
      rw [if_pos hgood]
      constructor
      · intro h
        obtain ⟨k', t', v, hcall, hfaithful⟩ := h m hself (0, 0)
        rw [hrun m hself] at hcall
        cases hcall
        exact (faithful_reaped_iff hinv hsep hchild hself).mp hfaithful
      · intro h t hsame stack
        exact ⟨_, _, _, hrun t hsame stack,
          (faithful_reaped_iff hinv hsep hchild hsame).mpr h⟩
    · have hfits : m.fits pt (xstateAt k np addr) = false :=
        Bool.eq_false_iff.mpr fun h => hgood ((fits_xstateAt k np).mp h)
      simp only [hfits, Bool.false_eq_true, false_and, if_false, ← Ram.deposit_append] at hrun
      rw [if_neg hgood]
      have haddr : addr ≠ 0 := fun h => hgood (.inl h)
      have hnothing : m.taken pt (xstateAt k np addr) ++
          m.taken pt (timesAt addr1 addr2 (k.wtime np) (k.rtime np)) = [] ↔
            m.user pt addr.toNat = none ∧ m.user pt addr1.toNat = none := by
        have hfirst : m.taken pt (bytesAt addr.toNat
            (word (UInt32.ofInt (k.proc np).xstate)) ++ []) = [] ↔ m.user pt addr.toNat = none :=
          taken_word _ []
        rw [List.append_nil] at hfirst
        rw [List.append_eq_nil_iff, xstateAt, if_neg haddr, hfirst, timesAt, taken_word]
      have hplaces : ∀ w ∈ m.taken pt (xstateAt k np addr) ++
          m.taken pt (timesAt addr1 addr2 (k.wtime np) (k.rtime np)),
          ∃ va, m.place pt va = some w.1 := by
        intro w hw
        rcases List.mem_append.mp hw with hw | hw
        · exact taken_places _ w hw
        · exact taken_places _ w hw
      rw [← hnothing, ← unchanged_iff hsep hplaces]
      constructor
      · intro h t hsame
        obtain ⟨k', t', v, hcall, hfaithful⟩ := h t hsame (0, 0)
        rw [hrun t hsame] at hcall
        cases hcall
        exact faithful_failed_iff.mp hfaithful
      · intro h t hsame stack
        exact ⟨_, _, _, hrun t hsame stack, faithful_failed_iff.mpr (h t hsame)⟩

/-- Two words at different places of one page. -/
theorem compatible_of_user {pa : Nat} (huser : ∀ va, va < 4096 → m.user pt va = some pa)
    (v v' : UInt32) : Compatible m pt (bytesAt 0 (word v)) (bytesAt 8 (word v')) := by
  intro w hw w' hw' heq
  obtain ⟨i, hi, hb⟩ := mem_bytesAt.mp hw
  obtain ⟨j, hj, hb'⟩ := mem_bytesAt.mp hw'
  have hilt : i < 4 := (List.getElem?_eq_some_iff.mp hb).1
  have hjlt : j < 4 := (List.getElem?_eq_some_iff.mp hb').1
  have hplace : ∀ va, va < 4096 → (m.place pt va).map (fun x => x.2.val) = some va := by
    intro va hva
    rw [Ram.place, huser va hva]
    exact congrArg some (Nat.mod_eq_of_lt hva)
  have hoff := congrArg (Option.map fun x => x.2.val) heq
  rw [hplace _ (by omega), hplace _ (by omega), hi, hj] at hoff
  have := Option.some.inj hoff
  omega

theorem mapped_of_user {pa : Nat} (huser : ∀ va, va < 4096 → m.user pt va = some pa)
    (haddr : addr.toNat + 4 ≤ 4096) : Mapped m pt addr := by
  intro i hi
  rw [huser _ (by omega)]
  rfl

/-- The first process forks and calls `waitx`, and its child exits. -/
theorem exists_zombie : ∃ k : Kernel 1, (system mlfqConfig 1).Reachable k ∧ k.myproc 0 = some 0 ∧
    k.exitedChild 0 = some 1 := by
  obtain ⟨steps, k, hrun, htest⟩ := exists_run (M := system mlfqConfig 1)
    (firstRun 0 ++ [.syscall 0 zeroRegs 1, .fork 0 ⟨true, true⟩ true, .forkEnd 0, .ret 0 2,
      .syscall 0 zeroRegs 22, .waitx 0 false, .scheduler 0, .forkret 0, .syscall 0 zeroRegs 2,
      .exit 0 0, .scheduler 0, .resume 0])
    (fun _ k => k.myproc 0 == some 0 && k.exitedChild 0 == some 1) (by decide +kernel)
  rw [Bool.and_eq_true, beq_iff_eq, beq_iff_eq] at htest
  exact ⟨k, ⟨steps, hrun⟩, htest⟩

/-- With good addresses `sys_waitx` reaps the child and stores its times. -/
theorem sys_waitx_stores : ∃ (k : Kernel 1) (m : Ram), (system mlfqConfig 1).Reachable k ∧
    k.exitedChild 0 = some 1 ∧ ∀ stack, ∃ k' m' v,
      sysWaitx k 0 0 KERNBASE 0 0 8 stack m = .ok ((k', m'), some v) ∧
        Faithful k 0 KERNBASE 0 8 m k' m' v := by
  obtain ⟨k, hreach, -, hchild⟩ := exists_zombie
  obtain ⟨m, hsep, pa, huser, -⟩ := exists_data
  have hgood : Answerable k 0 KERNBASE 0 0 8 m := by
    rw [Answerable, hchild]
    dsimp only
    rw [if_pos (.inl rfl)]
    exact ⟨mapped_of_user huser (by decide), mapped_of_user huser (by decide),
      compatible_of_user huser _ _⟩
  refine ⟨k, m, hreach, hchild, fun stack => ?_⟩
  have hlast : k.lastScan 0 := .inl (by rw [hchild]; rfl)
  exact (sys_waitx_iff hreach hlast hsep 0 0 0 8).mpr hgood m ⟨fun _ _ => rfl, rfl⟩ stack

/-- The child of the first process has exited, and its parent calls `sys_waitx` with addresses that
are not mapped: the answer is -1, and the child is gone. And a process without children that calls
it with good addresses gets -1, and what was on the kernel stack. -/
theorem sys_waitx_loses_child :
    (∃ (k k' : Kernel 1) (m m' : Ram), (system mlfqConfig 1).Reachable k ∧ k.myproc 0 = some 0 ∧
      k.exitedChild 0 = some 1 ∧ Separate m KERNBASE ∧
      sysWaitx k 0 0 KERNBASE 0 0 8 (0, 0) m = .ok ((k', m'), some (-1)) ∧
        (k'.proc 1).state = .unused) ∧
    ∃ (k : Kernel 1) (m : Ram), (system mlfqConfig 1).Reachable k ∧ k.myproc 0 = some 0 ∧
      Separate m KERNBASE ∧ ∀ stack, ∃ m', sysWaitx k 0 0 KERNBASE 0 0 8 stack m =
        .ok ((k, m'), some (-1)) ∧ Stored m' KERNBASE (bytesAt 0 (word stack.1)) ∧
          Stored m' KERNBASE (bytesAt 8 (word stack.2)) := by
  constructor
  · obtain ⟨k, hreach, hc, hchild⟩ := exists_zombie
    have hnone : ∀ va, clearedRam.user KERNBASE va = none := by
      intro va
      unfold Ram.user
      by_cases hva : va < MAXVA
      · rw [Ram.lookup_cleared rfl hva]
        rfl
      · rw [Ram.lookup_high (Nat.not_lt.mp hva)]
        rfl
    have hsep : Separate clearedRam KERNBASE := by
      intro va pa hpa
      rw [hnone] at hpa
      cases hpa
    have hbad : clearedRam.fits KERNBASE (timesAt 0 8 (k.wtime 1) (k.rtime 1)) = false := by
      rw [timesAt, word, bytesAt, List.cons_append]
      unfold Ram.fits
      rw [List.all_cons, Ram.isSome_place, hnone]
      rfl
    have hnothing : clearedRam.fits KERNBASE (xstateAt k 1 0) = true := rfl
    have hrun := sysWaitx_some (c := 0) (inv_reachable hreach) hsep hchild 0 0 8 (0, 0)
    rw [hbad, hnothing] at hrun
    refine ⟨k, k.modify 1 Proc.freed, clearedRam, _, hreach, hc, hchild, hsep, hrun, ?_⟩
    rw [Kernel.modify_self]
    rfl
  · obtain ⟨steps, k, hrun, htest⟩ := exists_run (M := system mlfqConfig 1)
      (firstRun 0 ++ [.syscall 0 zeroRegs 22])
      (fun _ k => k.myproc 0 == some 0 && k.exitedChild 0 == none && !k.havekids 0)
      (by decide +kernel)
    simp only [Bool.and_eq_true, beq_iff_eq, Bool.not_eq_true'] at htest
    obtain ⟨⟨hc, hchild⟩, hkids⟩ := htest
    obtain ⟨m, hsep, pa, huser, -⟩ := exists_data
    refine ⟨k, m, ⟨steps, hrun⟩, hc, hsep, fun stack => ?_⟩
    refine ⟨_, sysWaitx_none hsep (.inr (.inl hkids)) hchild 0 0 8 stack, ?_⟩
    have hfits : m.fits KERNBASE (timesAt 0 8 stack.1 stack.2) = true := by
      rw [timesAt, Ram.fits_append, (fits_word _).mpr (mapped_of_user huser (by decide)),
        (fits_word _).mpr (mapped_of_user huser (by decide))]
      rfl
    exact (stored_iff hsep ⟨fun _ _ => rfl, rfl⟩ hfits).mpr (compatible_of_user huser _ _)

end Xv6
