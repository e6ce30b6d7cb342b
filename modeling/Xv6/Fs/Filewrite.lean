import Xv6.Fs.Content
import Xv6.Fs.Table

/-!
# Writing to an open file

The part of `filewrite` of `kernel/file.c` for a file of type `FD_INODE`. It writes a few blocks at a
time, each piece in an operation of its own between `begin_op` and `end_op`, since an operation may
give no more than `MAXOPBLOCKS` different blocks to `log_write`.

That this is so is a matter of counting. A piece of three blocks' length touches three data blocks,
or four if it does not start at the beginning of one, and then the first of the four is there
already. Each missing block costs a bitmap block as well. The indirect block, its bitmap block and
the inode block come on top.
-/

namespace Xv6.Fs

open Base Function

/-! ## The code -/

/-- The fields of `struct file` that `filewrite` uses. -/
structure File where
  writable : Bool
  ip : Nat
  off : UInt32

/-- The local `max` of `filewrite`. -/
abbrev maxWrite : Nat := ((MAXOPBLOCKS - 1 - 1 - 2) / 2) * BSIZE

/-- What one operation on the file system has done: the volume it started from, and the blocks it
gave to `log_write`. -/
structure Section where
  before : Vol
  blocks : List Nat

/-- Code between `begin_op` and `end_op`. -/
def operation {α : Type} (code : M α) : M (α × Section) := do
  let before ← get
  let a ← code
  return (a, ⟨before, (← get).logged.drop before.logged.length⟩)

/-- One piece of a write: the answer of `writei`, and the file with its new offset. -/
def writePiece (sb : Superblock) (src : Buffer) (f : File) (n1 : Nat) : M (Int × File) := do
  ilock sb f.ip
  let r ← writei sb f.ip src f.off.toNat n1
  iunlock f.ip
  return (r, if 0 < r then { f with off := f.off + .ofNat r.toNat } else f)

/-- The loop of `filewrite`. `user` is what the caller's memory holds from each address on. Every turn
but the last one moves on, so `fuel = n` turns are enough. -/
def filewriteLoop (sb : Superblock) (user : UInt64 → Buffer) (addr : UInt64) (n : Nat) :
    Nat → Nat → File → M (Nat × File × List Section)
  | 0, i, f => return (i, f, [])
  | fuel + 1, i, f => do
    if i < n then
      let n1 := min (n - i) maxWrite
      let ((r, f), sec) ← operation (writePiece sb (user (addr + .ofNat i)) f n1)
      if r ≠ n1 then return (i, f, [sec])
      else
        let (i, f, secs) ← filewriteLoop sb user addr n fuel (i + n1) f
        return (i, f, sec :: secs)
    else return (i, f, [])

/-- `filewrite` for an `FD_INODE` file: the answer, the file, and the operations it took. -/
def filewrite (sb : Superblock) (user : UInt64 → Buffer) (f : File) (addr : UInt64) (n : Int) :
    M (Int × File × List Section) := do
  if f.writable = false then return (-1, f, [])
  else
    let (i, f, secs) ← filewriteLoop sb user addr n.toNat n.toNat 0 f
    return (if (i : Int) = n then n else -1, f, secs)

/-! ## What is logged -/

section Charged

variable {sb : Superblock} {s s' s'' : Vol} {ip b bn c c' : Nat} {D D' : Finset Nat} {k : Slot13}

/-- The number of the indirect block in the inode table's copy. -/
def Vol.indirect (s : Vol) (ip : Nat) : Nat := (s.itable ip).addrs single

/-- The indirect block is still to come, with a bitmap block for it. -/
def Vol.unpaid (s : Vol) (ip : Nat) : Nat := if s.indirect ip = 0 then 1 else 0

/-- From `s` to `s'` the blocks logged are among `D`, the indirect block, and `c` bitmap blocks, one
more if the indirect block has been allocated. -/
structure Charged (ip : Nat) (D : Finset Nat) (c : Nat) (s s' : Vol) : Prop where
  indirect : s.indirect ip ≠ 0 → s'.indirect ip = s.indirect ip
  logged : ∃ new, s'.logged = s.logged ++ new ∧ ∃ B : Finset Nat,
    B.card + s'.unpaid ip ≤ c + s.unpaid ip ∧
    ∀ x ∈ new, x ∈ D ∨ x ∈ B ∨ x ≠ 0 ∧ x = s'.indirect ip

theorem Charged.of_logged (new : List Nat) (B : Finset Nat)
    (hind : s'.indirect ip = s.indirect ip) (hlog : s'.logged = s.logged ++ new) (hcard : B.card ≤ c)
    (hnew : ∀ x ∈ new, x ∈ D ∨ x ∈ B ∨ x ≠ 0 ∧ x = s.indirect ip) : Charged ip D c s s' := by
  refine ⟨fun _ => hind, new, hlog, B, ?_, ?_⟩
  · unfold Vol.unpaid
    rw [hind]
    omega
  · rwa [hind]

theorem Charged.refl (s : Vol) (ip : Nat) (D : Finset Nat) (c : Nat) : Charged ip D c s s :=
  .of_logged [] ∅ rfl (List.append_nil _).symm (Nat.zero_le c) (by simp)

/-- Charges add up. -/
theorem Charged.trans (h : Charged ip D c s s') (h' : Charged ip D' c' s' s'') :
    Charged ip (D ∪ D') (c + c') s s'' := by
  obtain ⟨new, hlog, B, hcard, hnew⟩ := h.logged
  obtain ⟨new', hlog', B', hcard', hnew'⟩ := h'.logged
  have hkept : ∀ x, x ≠ 0 ∧ x = s'.indirect ip → x ≠ 0 ∧ x = s''.indirect ip := by
    rintro x ⟨hx, rfl⟩
    exact ⟨hx, (h'.indirect hx).symm⟩
  refine ⟨fun hz => ?_, new ++ new', ?_, B ∪ B', ?_, fun x hx => ?_⟩
  · have hz' := h.indirect hz
    exact (h'.indirect (by rwa [hz'])).trans hz'
  · rw [hlog', hlog, List.append_assoc]
  · have hunion := Finset.card_union_le B B'
    omega
  · rw [Finset.mem_union, Finset.mem_union]
    rcases List.mem_append.mp hx with hx | hx
    · rcases hnew x hx with hD | hB | hind
      · exact .inl (.inl hD)
      · exact .inr (.inl (.inl hB))
      · exact .inr (.inr (hkept x hind))
    · rcases hnew' x hx with hD | hB | hind
      · exact .inl (.inr hD)
      · exact .inr (.inl (.inr hB))
      · exact .inr (.inr hind)

theorem Charged.mono (h : Charged ip D c s s') (hD : D ⊆ D') (hc : c ≤ c') :
    Charged ip D' c' s s' := by
  obtain ⟨new, hlog, B, hcard, hnew⟩ := h.logged
  exact ⟨h.indirect, new, hlog, B, by omega, fun x hx => (hnew x hx).imp_left (hD ·)⟩

/-- A charge bounds the blocks logged. -/
theorem Charged.card_le (h : Charged ip D c s s') : ∃ new, s'.logged = s.logged ++ new ∧
    ∃ S : Finset Nat, S.card ≤ D.card + c + 2 ∧ ∀ x ∈ new, x ∈ S := by
  obtain ⟨new, hlog, B, hcard, hnew⟩ := h.logged
  refine ⟨new, hlog, D ∪ B ∪ {s'.indirect ip}, ?_, fun x hx => ?_⟩
  · have h₁ := Finset.card_union_le (D ∪ B) {s'.indirect ip}
    have h₂ := Finset.card_union_le D B
    have h₃ : s.unpaid ip ≤ 1 := by
      unfold Vol.unpaid
      split <;> omega
    rw [Finset.card_singleton] at h₁
    omega
  · rw [Finset.mem_union, Finset.mem_union, Finset.mem_singleton]
    rcases hnew x hx with hD | hB | hind
    · exact .inl (.inl hD)
    · exact .inl (.inr hB)
    · exact .inr hind.2

/-! ### `bmap` -/

theorem balloc_answers (sb : Superblock) (s : Vol) : Answers (balloc sb s) fun r =>
    r = (0, s) ∨ ∃ b, b ≠ 0 ∧ r = (b, s.claim sb b) := by
  unfold balloc
  rw [run_get_bind]
  cases firstFree sb s with
  | none => exact .inl rfl
  | some b =>
    show Answers ((if _ then _ else _ : M Nat) s) _
    rw [run_ite]
    split
    · rename_i hdata
      exact .inr ⟨b, Superblock.ne_zero hdata, rfl⟩
    · exact not_false

theorem fill_answers (addr : Nat) (store : Nat → M Unit) (put : Vol → Nat → Vol)
    (hstore : ∀ b t, store b t = .ok ((), put t b)) : Answers (fill sb addr store s) fun r =>
    r = (addr, s) ∨ addr = 0 ∧ ∃ b, b ≠ 0 ∧ r = (b, put (s.claim sb b) b) := by
  by_cases haddr : addr = 0
  · subst haddr
    refine Post.seq (balloc_answers sb s) fun a s' hr => ?_
    rcases hr with hr | ⟨b, hb, hr⟩
    · cases hr
      exact .inl rfl
    · cases hr
      rw [if_neg hb, run_bind_ok (hstore _ _)]
      exact .inr ⟨rfl, _, hb, rfl⟩
  · rw [fill_filled haddr]
    exact .inl rfl

theorem charged_putAddr (hk : k ≠ single) :
    Charged ip {b} 1 s ((s.claim sb b).putAddr ip k b) := by
  refine .of_logged [sb.bblock b, b] {sb.bblock b} ?_ (List.append_assoc ..)
    (Finset.card_singleton _).le ?_
  · unfold Vol.indirect Vol.putAddr
    simp only [update_self]
    exact update_of_ne hk.symm ..
  · simp

theorem charged_putEntry (hptr : s.indirect ip ≠ 0) (j : Nat) :
    Charged ip {b} 1 s ((s.claim sb b).putEntry (s.indirect ip) j b) := by
  refine .of_logged [sb.bblock b, b, s.indirect ip] {sb.bblock b} rfl ?_
    (Finset.card_singleton _).le ?_
  · show s.logged ++ [_] ++ [_] ++ [_] = _
    simp only [List.append_assoc, List.cons_append, List.nil_append]
  · simp [hptr]

theorem charged_single (sb : Superblock) (hempty : s.indirect ip = 0) (hb : b ≠ 0) :
    Charged ip ∅ 0 s ((s.claim sb b).putAddr ip single b) ∧
      ((s.claim sb b).putAddr ip single b).indirect ip = b := by
  have hind : ((s.claim sb b).putAddr ip single b).indirect ip = b := by
    unfold Vol.indirect Vol.putAddr
    simp only [update_self]
  refine ⟨⟨fun hz => absurd hempty hz, [sb.bblock b, b], List.append_assoc .., {sb.bblock b}, ?_, ?_⟩,
    hind⟩
  · unfold Vol.unpaid
    rw [hind, hempty, if_neg hb, if_pos rfl, Finset.card_singleton]
  · rw [hind]
    simp [hb]

theorem bmapEntry_charged (sb : Superblock) (hptr : s.indirect ip ≠ 0) (j : Nat) :
    Answers (bmapEntry sb (s.indirect ip) j s) fun r => Charged ip {r.1} 1 s r.2 := by
  unfold bmapEntry
  refine Post.seq (Q := fun r => r.2 = s) ?_ fun bp t ht => ?_
  · unfold bread
    rw [run_ite]
    split
    · exact rfl
    · exact not_false
  · obtain rfl : t = s := ht
    refine (fill_answers (bp.word j) _ (fun t' b => t'.putEntry (t.indirect ip) j b)
      fun _ _ => rfl).mono fun r hr => ?_
    rcases hr with rfl | ⟨-, b, -, rfl⟩
    · exact .refl ..
    · exact charged_putEntry hptr j

/-- A call of `bmap` logs the block it answers, and pays for one bitmap block. -/
theorem bmap_charged (sb : Superblock) (ip bn : Nat) (s : Vol) :
    Answers (bmap sb ip bn s) fun r => Charged ip {r.1} 1 s r.2 := by
  have hstore : ∀ k b t, setAddr ip k b t = .ok ((), t.putAddr ip k b) := fun _ _ _ => rfl
  unfold bmap
  split
  · rename_i hd
    rw [run_get_bind]
    refine (fill_answers _ _ _ (hstore _)).mono fun r hr => ?_
    rcases hr with rfl | ⟨-, b, -, rfl⟩
    · exact .refl ..
    · exact charged_putAddr fun he => absurd (congrArg Fin.val he) (Nat.ne_of_lt hd)
  · split
    · rw [run_get_bind]
      refine Post.seq (fill_answers _ _ _ (hstore single)) fun addr t hr => ?_
      rw [run_ite]
      split
      · rename_i hz
        rcases hr with hr | ⟨-, b, hb, hr⟩
        · cases hr
          exact .refl ..
        · cases hr
          exact absurd hz hb
      · rename_i hpos
        rcases hr with hr | ⟨hempty, b, hb, hr⟩
        · cases hr
          exact bmapEntry_charged sb hpos _
        · cases hr
          obtain ⟨hfirst, hind⟩ := charged_single sb hempty hb
          have hrest := bmapEntry_charged sb (by rwa [hind] : Vol.indirect _ ip ≠ 0)
            (bn - NDIRECT)
          rw [hind] at hrest
          refine hrest.mono fun r hr => ?_
          exact (hfirst.trans hr).mono (by simp) (by simp)
    · exact not_false

/-- For a block that is there it logs nothing. -/
theorem bmap_there (hin : 0 < (s.itable ip).ref ∧ (s.itable ip).valid = true)
    (hb : s.blockOf ip bn ≠ 0) : Answers (bmap sb ip bn s) fun r => r.2 = s := by
  have haddr : ∀ k, s.addr ip k ≠ 0 → s.addr ip k = (s.itable ip).addrs k := by
    intro k hk
    unfold Vol.addr Vol.view at hk ⊢
    rw [if_pos hin] at hk ⊢
    split at hk
    · exact absurd rfl hk
    · rename_i htype
      exact if_neg htype
  unfold bmap
  by_cases hd : bn < NDIRECT
  · rw [s.blockOf_direct ip hd] at hb
    rw [dif_pos hd, run_get_bind, ← haddr _ hb, fill_filled hb]
    exact rfl
  · rw [dif_neg hd]
    by_cases hj : bn - NDIRECT < NINDIRECT
    · have hentry : s.slot (.entry ip ⟨bn - NDIRECT, hj⟩) ≠ 0 := by
        unfold Vol.blockOf at hb
        rwa [dif_neg hd, dif_pos hj] at hb
      have hptr : s.addr ip single ≠ 0 := by
        intro hz
        exact hentry (if_pos hz)
      have hword : (s.data (s.addr ip single)).word (bn - NDIRECT) ≠ 0 := by
        have he : s.slot (.entry ip ⟨bn - NDIRECT, hj⟩) = _ := if_neg hptr
        rwa [he] at hentry
      rw [if_pos hj, run_get_bind, ← haddr _ hptr, run_bind_ok (fill_filled hptr _), if_neg hptr]
      unfold bmapEntry bread
      by_cases hdata : sb.isData (s.addr ip single) = true
      · rw [if_pos hdata]
        show Answers (fill sb _ _ s) _
        rw [fill_filled hword]
        exact rfl
      · rw [if_neg hdata]
        exact not_false
    · rw [if_neg hj]
      exact not_false

end Charged

/-! ## Writes -/

section Pieces

variable {sb : Superblock} {s s' : Vol} {ip c t n tot off fuel : Nat} {src : Buffer}

/-- The number of turns the loop of `writei` takes for `n` bytes from `off` on. -/
def turns (off n : Nat) : Nat := if n = 0 then 0 else blocksEnd off n - off / BSIZE

theorem turns_piece (h : tot < n) : turns off (n - tot) =
    turns (off + piece n tot off) (n - (tot + piece n tot off)) + 1 := by
  have hb : BSIZE = 1024 := rfl
  unfold turns blocksEnd piece
  rw [hb]
  split <;> split <;> omega

theorem writeLoop_turn (h : tot < n)
    (hbmap : Answers (bmap sb ip (off / BSIZE) s) fun r => Charged ip {r.1} c s r.2)
    (hrest : ∀ s₂, Answers
      (writeLoop sb ip src n fuel (tot + piece n tot off) (off + piece n tot off) s₂) fun r =>
        ∃ D : Finset Nat, D.card ≤ t ∧ Charged ip D t s₂ r.2) :
    Answers (writeLoop sb ip src n (fuel + 1) tot off s) fun r =>
      ∃ D : Finset Nat, D.card ≤ t + 1 ∧ Charged ip D (c + t) s r.2 := by
  have hone : ∀ addr : Nat, ({addr} : Finset Nat).card ≤ t + 1 := fun addr => by
    rw [Finset.card_singleton]
    exact Nat.le_add_left ..
  rw [writeLoop, run_ite, if_pos h]
  refine Post.seq hbmap fun addr s₁ hfirst => ?_
  have hfirst : Charged ip {addr} c s s₁ := hfirst
  by_cases haddr : addr = 0
  · rw [if_pos haddr]
    exact ⟨{addr}, hone addr, hfirst.mono (Finset.Subset.refl _) (Nat.le_add_right ..)⟩
  · rw [if_neg haddr]
    by_cases hdata : sb.isData addr = true
    · rw [run_bind_ok (bread_of_isData hdata)]
      let s₂ : Vol := s₁.patch addr (off % BSIZE) (src.copies tot (piece n tot off))
        fun i => src.byte (tot + i)
      let s₃ : Vol := { s₂ with logged := s₂.logged ++ [addr] }
      by_cases hshort : src.copies tot (piece n tot off) < piece n tot off
      · have hstop : Charged ip {addr} c s s₂ := ⟨hfirst.indirect, hfirst.logged⟩
        simp only [if_pos hshort]
        exact ⟨{addr}, hone addr, hstop.mono (Finset.Subset.refl _) (Nat.le_add_right ..)⟩
      · have hlog : Charged ip {addr} 0 s₁ s₃ :=
          .of_logged [addr] ∅ rfl rfl (Nat.le_refl 0) (by simp)
        simp only [if_neg hshort]
        refine (hrest s₃).mono fun r hr => ?_
        obtain ⟨D, hcard, hD⟩ := hr
        refine ⟨{addr} ∪ {addr} ∪ D, ?_, (hfirst.trans hlog).trans hD⟩
        have hunion := Finset.card_union_le ({addr} ∪ {addr}) D
        rw [Finset.union_self, Finset.card_singleton] at hunion
        rw [Finset.union_self]
        omega
    · unfold bread
      rw [if_neg hdata]
      exact not_false

/-- The write loop is charged for its turns. -/
theorem writeLoop_charged (hfuel : n - tot ≤ fuel) (htot : tot ≤ n) :
    Answers (writeLoop sb ip src n fuel tot off s) fun r =>
      ∃ D : Finset Nat, D.card ≤ turns off (n - tot) ∧
        Charged ip D (turns off (n - tot)) s r.2 := by
  induction fuel generalizing s tot off with
  | zero => exact ⟨∅, Nat.zero_le _, .refl ..⟩
  | succ fuel ih =>
    by_cases hlt : tot < n
    · have hpos := @piece_pos n tot off hlt
      have hle := @piece_le n tot off
      rw [turns_piece hlt, Nat.add_comm _ 1, Nat.add_comm 1]
      refine (writeLoop_turn hlt (bmap_charged sb ip (off / BSIZE) s) fun s₂ =>
        ih (by omega) (by omega)).mono fun r hr => ?_
      obtain ⟨D, hcard, hD⟩ := hr
      exact ⟨D, hcard, hD.mono (Finset.Subset.refl _) (by omega)⟩
    · rw [writeLoop_done hlt]
      exact ⟨∅, Nat.zero_le _, .refl ..⟩

/-- With the first block there, the loop pays for one block less. -/
theorem writeLoop_first (hn : 0 < n) (hin : 0 < (s.itable ip).ref ∧ (s.itable ip).valid = true)
    (hb : s.blockOf ip (off / BSIZE) ≠ 0) : Answers (writeLoop sb ip src n n 0 off s) fun r =>
      ∃ D : Finset Nat, D.card ≤ turns off n ∧ Charged ip D (turns off n - 1) s r.2 := by
  obtain ⟨fuel, rfl⟩ : ∃ fuel, n = fuel + 1 := ⟨n - 1, by omega⟩
  have hpos := @piece_pos (fuel + 1) 0 off hn
  have hle := @piece_le (fuel + 1) 0 off
  have hturns := @turns_piece (fuel + 1) 0 off hn
  rw [Nat.sub_zero] at hturns
  rw [hturns]
  refine (writeLoop_turn hn (c := 0) ?_ fun s₂ => writeLoop_charged (by omega) (by omega)).mono
    fun r hr => ?_
  · refine (bmap_there hin hb).mono fun r hr => ?_
    rw [hr]
    exact .refl ..
  · obtain ⟨D, hcard, hD⟩ := hr
    exact ⟨D, hcard, hD.mono (Finset.Subset.refl _) (by omega)⟩

end Pieces

/-- Every block below the size of the inode is allocated. -/
def Vol.Allocated (s : Vol) (ip : Nat) : Prop :=
  ∀ bn, bn * BSIZE < (s.view ip).size → s.blockOf ip bn ≠ 0

section Sections

variable {sb : Superblock} {s s' : Vol} {ip n off : Nat} {src : Buffer} {f : File}

theorem writei_charged (hin : 0 < (s.itable ip).ref ∧ (s.itable ip).valid = true)
    (hall : s.Allocated ip) (hn : n ≤ maxWrite) : Answers (writei sb ip src off n s) fun r =>
      ∃ new, r.2.logged = s.logged ++ new ∧ new.toFinset.card ≤ MAXOPBLOCKS := by
  have hb : BSIZE = 1024 := rfl
  have hmax : maxWrite = 3072 := rfl
  have hmaxop : MAXOPBLOCKS = 10 := rfl
  have hview : s.view ip = (s.itable ip).toDinode := if_pos hin
  have hnothing : ∃ new, s.logged = s.logged ++ new ∧ new.toFinset.card ≤ MAXOPBLOCKS :=
    ⟨[], (List.append_nil _).symm, Nat.zero_le _⟩
  -- the loop logs at most nine different blocks
  have hloop : off ≤ (s.view ip).size → Answers (writeLoop sb ip src n n 0 off s) fun r =>
      ∃ new, r.2.logged = s.logged ++ new ∧
        ∃ S : Finset Nat, S.card ≤ 9 ∧ ∀ x ∈ new, x ∈ S := by
    intro hoff
    by_cases haligned : off % BSIZE = 0 ∨ n = 0
    · have hturns : turns off n ≤ 3 := by
        unfold turns blocksEnd
        rw [hb] at haligned ⊢
        split <;> omega
      refine (writeLoop_charged (Nat.sub_le ..) (Nat.zero_le n)).mono fun r hr => ?_
      obtain ⟨D, hcard, hD⟩ := hr
      rw [Nat.sub_zero] at hcard hD
      obtain ⟨new, hlog, S, hS, hnew⟩ := hD.card_le
      exact ⟨new, hlog, S, by omega, hnew⟩
    · rw [not_or] at haligned
      obtain ⟨hodd, hpos⟩ := haligned
      have hthere : s.blockOf ip (off / BSIZE) ≠ 0 := by
        refine hall _ ?_
        rw [hb] at hodd ⊢
        omega
      have hturns : turns off n ≤ 4 := by
        unfold turns blocksEnd
        rw [hb]
        split <;> omega
      refine (writeLoop_first (Nat.pos_of_ne_zero hpos) hin hthere).mono fun r hr => ?_
      obtain ⟨D, hcard, hD⟩ := hr
      obtain ⟨new, hlog, S, hS, hnew⟩ := hD.card_le
      exact ⟨new, hlog, S, by omega, hnew⟩
  unfold writei
  rw [run_get_bind, run_ite]
  split
  · exact hnothing
  · rename_i hoff
    rw [run_ite]
    split
    · exact hnothing
    · rw [not_or, Nat.not_lt] at hoff
      refine Post.seq (hloop (by rw [hview]; exact hoff.1)) fun r t hr => ?_
      obtain ⟨new, hlog, S, hS, hnew⟩ := hr
      refine ⟨new ++ [sb.iblock ip], ?_, ?_⟩
      · show t.logged ++ [sb.iblock ip] = _
        rw [show t.logged = _ from hlog, List.append_assoc]
      · have hsub : (new ++ [sb.iblock ip]).toFinset ⊆ S ∪ {sb.iblock ip} := by
          intro x hx
          rw [List.mem_toFinset, List.mem_append, List.mem_singleton] at hx
          rw [Finset.mem_union, Finset.mem_singleton]
          exact hx.imp_left (hnew x)
        have hcard := (Finset.card_le_card hsub).trans (Finset.card_union_le ..)
        rw [Finset.card_singleton] at hcard
        omega

/-- The volume after `ilock` has read the inode if need be. -/
def Vol.lock (s : Vol) (ip : Nat) : Vol :=
  if (s.itable ip).valid then s
  else
    { s with
      itable := update s.itable ip
        { s.itable ip with toDinode := s.dinode ip, valid := true } }

theorem Vol.lock_logged (s : Vol) (ip : Nat) : (s.lock ip).logged = s.logged := by
  unfold lock
  split <;> rfl

theorem Vol.lock_in (href : 0 < (s.itable ip).ref) :
    0 < ((s.lock ip).itable ip).ref ∧ ((s.lock ip).itable ip).valid = true := by
  unfold lock
  split
  · rename_i hvalid
    exact ⟨href, hvalid⟩
  · simp only [update_self]
    exact ⟨href, trivial⟩

theorem Vol.lock_same (href : 0 < (s.itable ip).ref) : SameFiles s (s.lock ip) := by
  unfold lock
  split
  · exact .refl s
  · rename_i hvalid
    refine ⟨fun i => ?_, rfl, rfl⟩
    unfold view
    by_cases hi : i = ip
    · subst hi
      simp only [update_self]
      rw [if_pos ⟨href, trivial⟩, if_neg fun h => hvalid h.2]
    · simp only [update_of_ne hi]

theorem ilock_answers (sb : Superblock) (ip : Nat) (s : Vol) :
    Answers (ilock sb ip s) fun r => r.2 = s.lock ip ∧ 0 < (s.itable ip).ref := by
  unfold ilock Vol.lock
  rw [run_get_bind, run_ite]
  split
  · exact not_false
  · rename_i href
    rw [run_ite]
    split
    · exact ⟨rfl, by omega⟩
    · rw [run_ite]
      split
      · exact not_false
      · rw [run_ite]
        split
        · exact not_false
        · exact ⟨rfl, by omega⟩

theorem SameFiles.allocated (h : SameFiles s s') (hall : s.Allocated ip) : s'.Allocated ip := by
  intro bn hbn
  rw [h.view] at hbn
  rw [Vol.blockOf_congr h.slot]
  exact hall bn hbn

theorem writePiece_blocks (hn : n ≤ maxWrite) :
    Answers (operation (writePiece sb src f n) s) fun r =>
      r.1.1.2.ip = f.ip ∧ r.1.2.before = s ∧
        (s.Allocated f.ip → r.1.2.blocks.toFinset.card ≤ MAXOPBLOCKS) := by
  unfold operation
  rw [run_get_bind]
  refine Post.seq (Q := fun r => r.1.2.ip = f.ip ∧ (s.Allocated f.ip → ∃ new,
    r.2.logged = s.logged ++ new ∧ new.toFinset.card ≤ MAXOPBLOCKS)) ?_ fun r t hr => ?_
  · unfold writePiece
    refine Post.seq (ilock_answers sb f.ip s) fun _ s₁ hlock => ?_
    obtain ⟨rfl, href⟩ : s₁ = s.lock f.ip ∧ _ := hlock
    refine Post.seq (Q := fun r => s.Allocated f.ip → ∃ new,
      r.2.logged = s.logged ++ new ∧ new.toFinset.card ≤ MAXOPBLOCKS) ?_ fun r s₂ hwrite => ?_
    · by_cases hall : s.Allocated f.ip
      · refine (writei_charged (Vol.lock_in href) ((Vol.lock_same href).allocated hall) hn).mono
          fun r hr _ => ?_
        rwa [Vol.lock_logged] at hr
      · cases writei sb f.ip src f.off.toNat n (s.lock f.ip) with
        | ok r => exact fun h => absurd h hall
        | error e => exact not_false
    · refine Post.seq (Q := fun r => r.2 = s₂) ?_ fun _ s₃ hs₃ => ?_
      · unfold iunlock
        rw [run_get_bind, run_ite]
        split
        · exact not_false
        · exact rfl
      · obtain rfl : s₃ = s₂ := hs₃
        refine ⟨?_, hwrite⟩
        dsimp only
        split <;> rfl
  · refine ⟨hr.1, rfl, fun hall => ?_⟩
    obtain ⟨new, hlog, hcard⟩ := hr.2 hall
    show (t.logged.drop s.logged.length).toFinset.card ≤ _
    rw [show t.logged = _ from hlog, List.drop_left]
    exact hcard

theorem filewriteLoop_blocks {user : UInt64 → Buffer} {addr : UInt64} {fuel i : Nat} :
    Answers (filewriteLoop sb user addr n fuel i f s) fun r =>
      ∀ sec ∈ r.1.2.2, sec.before.Allocated f.ip → sec.blocks.toFinset.card ≤ MAXOPBLOCKS := by
  induction fuel generalizing i f s with
  | zero => exact fun _ h => absurd h List.not_mem_nil
  | succ fuel ih =>
    rw [filewriteLoop, run_ite]
    split
    · refine Post.seq (writePiece_blocks (Nat.min_le_right ..)) fun r s₁ hr => ?_
      obtain ⟨hip, hbefore, hblocks⟩ := hr
      have hfirst : r.2.before.Allocated f.ip → r.2.blocks.toFinset.card ≤ MAXOPBLOCKS := by
        intro hall
        rw [hbefore] at hall
        exact hblocks hall
      obtain ⟨⟨ret, f'⟩, sec₀⟩ := r
      dsimp only at hip hfirst ⊢
      rw [run_ite]
      split
      · intro sec hsec
        obtain rfl := List.mem_singleton.mp hsec
        exact hfirst
      · refine Post.seq ih fun r' s₂ hrest sec hsec => ?_
        rcases List.mem_cons.mp hsec with rfl | hsec
        · exact hfirst
        · rw [← hip]
          exact hrest sec hsec
    · exact fun _ h => absurd h List.not_mem_nil

/-- The inode of an open file: it is on the disk and not free, and the table has an entry for it. -/
structure Vol.Held (sb : Superblock) (s : Vol) (ip : Nat) : Prop where
  ref : 0 < (s.itable ip).ref
  inum : ip < sb.ninodes
  type : (s.view ip).type ≠ .free

theorem Vol.Live.held (h : s.Live ip) (hip : ip < sb.ninodes) : s.Held sb ip :=
  ⟨h.ref, hip, by rw [h.view]; exact h.type⟩

theorem Vol.Held.live (h : s.Held sb ip) : (s.lock ip).Live ip := by
  obtain ⟨href, hvalid⟩ := lock_in h.ref
  refine ⟨href, hvalid, ?_⟩
  have hview : (s.lock ip).view ip = ((s.lock ip).itable ip).toDinode := if_pos ⟨href, hvalid⟩
  rw [← hview, (lock_same h.ref).view]
  exact h.type

theorem ilock_held (h : s.Held sb ip) : ilock sb ip s = .ok ((), s.lock ip) := by
  have href := h.ref
  unfold ilock Vol.lock
  rw [run_get_bind]
  show (if _ then _ else _ : M Unit) s = _
  rw [if_neg (by omega)]
  by_cases hvalid : (s.itable ip).valid = true
  · rw [if_pos hvalid, if_pos hvalid]
    rfl
  · have htype : (s.dinode ip).type ≠ .free := by
      have hview : s.view ip = s.dinode ip := if_neg fun hv => hvalid hv.2
      rw [← hview]
      exact h.type
    rw [if_neg hvalid, if_neg hvalid, if_neg (Nat.not_le.mpr h.inum), if_neg htype]
    rfl

/-- After a full piece, the blocks below the size are allocated again. -/
theorem Wrote.allocated {val : Nat → UInt8} {bad : Option Nat}
    (h : Wrote sb ip val off n bad s n s') (hip : s.Live ip) (hoff : off ≤ (s.view ip).size)
    (hall : s.Allocated ip) : (s'.resize sb ip (off + n)).Allocated ip := by
  obtain ⟨e, hwritten, -⟩ := h.written
  have hlive := hwritten.live hip
  obtain ⟨a, ha⟩ := hwritten.view ip
  intro bn hbn
  rw [Vol.view_resize hlive, if_pos rfl, ha] at hbn
  rw [Vol.blockOf_congr (Vol.slot_resize hlive _)]
  by_cases hold : bn * BSIZE < (s.view ip).size
  · have hthere := hall bn hold
    rwa [hwritten.blockOf_kept hthere]
  · have hnew : bn * BSIZE < off + n := by
      have hmax : bn * BSIZE < max (s.view ip).size (off + n) := hbn
      omega
    have hblock := h.blocks (bn * BSIZE) (by omega) hnew
    rwa [Nat.mul_div_cancel bn (by decide)] at hblock

/-- One section of `filewrite` keeps the volume sound. -/
theorem writePiece_spec (h : s.Sound sb) (hheld : s.Held sb f.ip) (hn : n ≤ maxWrite)
    (src : Buffer) : ∃ r s', operation (writePiece sb src f n) s = .ok (r, s') ∧
      s'.Sound sb ∧ s'.Held sb r.1.2.ip ∧ r.1.2.ip = f.ip ∧ r.2.before = s ∧
      (r.1.1 = n → s.Allocated f.ip → s'.Allocated f.ip) := by
  have hsame := Vol.lock_same hheld.ref
  have hlive := hheld.live
  have hsound := hsame.sound h
  obtain ⟨r, t, hwrite, ht, hlive', hall⟩ : ∃ r t,
      writei sb f.ip src f.off.toNat n (s.lock f.ip) = .ok (r, t) ∧ t.Sound sb ∧ t.Live f.ip ∧
        (r = n → (s.lock f.ip).Allocated f.ip → t.Allocated f.ip) := by
    by_cases hin : f.off.toNat ≤ ((s.lock f.ip).view f.ip).size ∧ f.off.toNat + n ≤ MAXFILE * BSIZE
    · obtain ⟨m, t, hok, hwrote⟩ := writei_spec hsound hlive src hin.1 hin.2
      obtain ⟨e, hwritten, -⟩ := hwrote.written
      have hlive' := hwritten.live hlive
      refine ⟨m, _, hok, hwritten.sound.resize hlive' _, hlive'.resize .., fun hm hall => ?_⟩
      obtain rfl : m = n := by omega
      exact hwrote.allocated hlive hin.1 hall
    · rw [not_and_or, Nat.not_le, Nat.not_le] at hin
      have hmax : maxWrite < 2 ^ 32 := by decide
      refine ⟨-1, _, writei_refused hlive src ⟨f.off.toNat, f.off.toNat_lt⟩ ⟨n, by omega⟩
        (hin.imp_right .inr), hsound, hlive, fun hm => ?_⟩
      omega
  have hunlock : iunlock f.ip t = .ok ((), t) := by
    have href := hlive'.ref
    unfold iunlock
    rw [run_get_bind, run_ite, if_neg (by omega)]
    rfl
  have hrun : writePiece sb src f n s = .ok
      ((r, if 0 < r then { f with off := f.off + .ofNat r.toNat } else f), t) := by
    unfold writePiece
    rw [run_bind_ok (ilock_held hheld), run_bind_ok hwrite, run_bind_ok hunlock]
    rfl
  have hip : (if 0 < r then { f with off := f.off + .ofNat r.toNat } else f).ip = f.ip := by
    split <;> rfl
  refine ⟨((r, _), ⟨s, t.logged.drop s.logged.length⟩), t, ?_, ht, ?_, hip, rfl,
    fun hr hs => hall hr (hsame.allocated hs)⟩
  · unfold operation
    rw [run_get_bind, run_bind_ok hrun]
    rfl
  · show t.Held sb (if _ then _ else _ : File).ip
    rw [hip]
    exact hlive'.held hheld.inum

/-- So do all of them. -/
theorem filewriteLoop_spec (user : UInt64 → Buffer) (addr : UInt64) (n fuel i : Nat)
    (h : s.Sound sb) (hheld : s.Held sb f.ip) (hall : s.Allocated f.ip) :
    ∃ r s', filewriteLoop sb user addr n fuel i f s = .ok (r, s') ∧
      ∀ sec ∈ r.2.2, sec.before.Allocated f.ip := by
  induction fuel generalizing i f s with
  | zero => exact ⟨_, s, rfl, fun _ h => absurd h List.not_mem_nil⟩
  | succ fuel ih =>
    rw [filewriteLoop, run_ite]
    by_cases hi : i < n
    · obtain ⟨⟨⟨r, f'⟩, sec⟩, s₁, hrun, hs₁, hheld₁, hip, hbefore, hall₁⟩ :=
        writePiece_spec h hheld (Nat.min_le_right (n - i) maxWrite) (user (addr + .ofNat i))
      dsimp only at hheld₁ hip hbefore hall₁
      have hfirst : sec.before.Allocated f.ip := by rwa [hbefore]
      rw [if_pos hi, run_bind_ok hrun]
      by_cases hr : r = (min (n - i) maxWrite : Nat)
      · obtain ⟨out, s₂, hrest, hsecs⟩ := ih (i + min (n - i) maxWrite) hs₁ hheld₁
          (by rw [hip]; exact hall₁ hr hall)
        refine ⟨(out.1, out.2.1, sec :: out.2.2), s₂, ?_, fun sec' hsec => ?_⟩
        · dsimp only
          rw [run_ite, if_neg (not_not.mpr hr), run_bind_ok hrest]
          rfl
        · rcases List.mem_cons.mp hsec with rfl | hsec
          · exact hfirst
          · rw [← hip]
            exact hsecs sec' hsec
      · refine ⟨(i, f', [sec]), s₁, ?_, fun sec' hsec => ?_⟩
        · dsimp only
          rw [run_ite, if_pos hr]
          rfl
        · obtain rfl := List.mem_singleton.mp hsec
          exact hfirst
    · rw [if_neg hi]
      exact ⟨_, s, rfl, fun _ h => absurd h List.not_mem_nil⟩

end Sections

/-- **A write never overflows its operations.** For every superblock and volume, every file, whatever the
offset, the length and the memory it is written from: an operation of `filewrite` that finds the
blocks below the inode's size allocated gives at most `MAXOPBLOCKS` different blocks to
`log_write`, also when the disk is full or the source cannot be read. And on a volume with block
ownership `filewrite` on an open file returns, and every operation finds the blocks allocated if
the first one does. -/
theorem filewrite_fits (sb : Superblock) (s : Vol) (user : UInt64 → Buffer) (f : File)
    (addr : UInt64) (n : Int) :
    (∀ out s', filewrite sb user f addr n s = .ok (out, s') →
      ∀ sec ∈ out.2.2, sec.before.Allocated f.ip → sec.blocks.toFinset.card ≤ MAXOPBLOCKS) ∧
    (s.Sound sb → s.Held sb f.ip → s.Allocated f.ip →
      ∃ out s', filewrite sb user f addr n s = .ok (out, s') ∧
        ∀ sec ∈ out.2.2, sec.before.Allocated f.ip) := by
  constructor
  · intro out s' hrun
    have hall : Answers (filewrite sb user f addr n s) fun r => ∀ sec ∈ r.1.2.2,
        sec.before.Allocated f.ip → sec.blocks.toFinset.card ≤ MAXOPBLOCKS := by
      unfold filewrite
      rw [run_ite]
      split
      · exact fun _ h => absurd h List.not_mem_nil
      · exact Post.seq filewriteLoop_blocks fun _ _ hr => hr
    exact hall.of_ok hrun
  · intro h hheld hall
    unfold filewrite
    rw [run_ite]
    split
    · exact ⟨_, s, rfl, fun _ h => absurd h List.not_mem_nil⟩
    · obtain ⟨r, s', hrun, hsecs⟩ := filewriteLoop_spec user addr n.toNat n.toNat 0 h hheld hall
      rw [run_bind_ok hrun]
      exact ⟨_, s', rfl, hsecs⟩

/-- The file of one block on a full disk: the write of 5000 bytes stops in its first operation. -/
theorem filewrite_fits_full : ∃ out s', filewrite tinySuperblock (fun _ => ⟨fun _ => 7, none⟩)
    ⟨true, 1, 1000⟩ 0 5000 oneFile = .ok (out, s') ∧
      ∀ sec ∈ out.2.2, sec.blocks.toFinset.card ≤ MAXOPBLOCKS := by
  have hall : oneFile.Allocated 1 := by
    intro bn hbn
    have hsize : (oneFile.view 1).size = 1024 := rfl
    have hb : BSIZE = 1024 := rfl
    rw [hsize, hb] at hbn
    obtain rfl : bn = 0 := by omega
    decide
  obtain ⟨hfits, hruns⟩ := filewrite_fits tinySuperblock oneFile (fun _ => ⟨fun _ => 7, none⟩)
    ⟨true, 1, 1000⟩ 0 5000
  obtain ⟨out, s', hrun, hsecs⟩ := hruns oneFile_sound (oneFile_live.held (by decide)) hall
  exact ⟨out, s', hrun, fun sec hsec => hfits out s' hrun sec hsec (hsecs sec hsec)⟩

end Xv6.Fs
