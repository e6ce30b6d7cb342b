import Xv6.Fs.Content
import Xv6.Fs.Mkfs

/-!
# `mkfs` appends as the kernel writes

`iappend` of `mkfs` and `writei` of the kernel were written apart, and yet take the same steps: the inode
in memory is `mkfs`'s local copy, the first free block is the next one, and a fresh block is all
zeroes because nothing has been written there. So an image in the making stands for a volume
(`State.vol`), and appending to a file is a write at its end. What is known of `writei` then holds
of `iappend`.

The two differ when the disk is full. The kernel writes what it can, and `mkfs` gives up.
-/

namespace Xv6.Fs

open Base Function

/-! ## An inode in memory -/

theorem Dinode.exists_addrs (d : Dinode) : ∃ a, d = { d with addrs := a } := ⟨d.addrs, rfl⟩

theorem Dinode.ofBytes_setAddr (d : RawDinode) (k : Slot13) {b : Nat} (hb : b < 2 ^ 32) :
    Dinode.ofBytes (d.setWord (addrWord k) b) =
      { Dinode.ofBytes d with addrs := update (Dinode.ofBytes d).addrs k b } := by
  have hk : (k : Nat) < 13 := k.isLt
  have hhalf : ∀ j, j < 4 → (d.setWord (addrWord k) b).half j = d.half j := fun j hj =>
    Bytes.half_setWord (by unfold addrWord; omega) b
  have haddr : ∀ l : Slot13, (d.setWord (addrWord k) b).word (addrWord l) =
      update (Dinode.ofBytes d).addrs k b l := by
    intro l
    by_cases hl : l = k
    · subst hl
      rw [update_self, Bytes.word_setWord (by unfold addrWord; omega), Nat.mod_eq_of_lt hb]
    · have hval : (l : Nat) ≠ k := fun he => hl (Fin.ext he)
      rw [update_of_ne hl, Bytes.word_setWord_ne (by unfold addrWord; omega)]
      rfl
  unfold Dinode.ofBytes at haddr ⊢
  rw [hhalf 0 (by omega), hhalf 1 (by omega), hhalf 2 (by omega), hhalf 3 (by omega),
    Bytes.word_setWord_ne (by unfold addrWord sizeWord; omega)]
  simp only [haddr]

theorem Dinode.ofBytes_setSize (d : RawDinode) {n : Nat} (hn : n < 2 ^ 32) :
    Dinode.ofBytes (d.setWord sizeWord n) = { Dinode.ofBytes d with size := n } := by
  have hhalf : ∀ j, j < 4 → (d.setWord sizeWord n).half j = d.half j := fun j hj =>
    Bytes.half_setWord (by unfold sizeWord; omega) n
  have haddr : ∀ l : Slot13, (d.setWord sizeWord n).word (addrWord l) = d.word (addrWord l) :=
    fun l => Bytes.word_setWord_ne (by unfold addrWord sizeWord; omega) n
  unfold Dinode.ofBytes
  rw [hhalf 0 (by omega), hhalf 1 (by omega), hhalf 2 (by omega), hhalf 3 (by omega),
    Bytes.word_setWord (by decide), Nat.mod_eq_of_lt hn]
  simp only [haddr]

namespace Mkfs

/-! ## The image as a volume -/

namespace State

/-- The volume that an image in the making stands for. The blocks given out are those below
`freeblock`, and every inode is in memory. -/
def vol (m : State) (log : List Nat) : Vol where
  dinode := m.disk.inode mkfsSuperblock
  used b := decide (b < m.freeblock)
  data b := if mkfsSuperblock.isData b then m.disk b else zeroBlock
  itable i := ⟨m.disk.inode mkfsSuperblock i, 1, true⟩
  inuse := []
  logged := log

/-- The same with the copy `din` of an inode in memory. -/
def opened (m : State) (inum : Nat) (din : RawDinode) (log : List Nat) : Vol :=
  { m.vol log with
    itable := update (m.vol log).itable inum ⟨.ofBytes din, 1, true⟩ }

/-- The next block has been given out. -/
def grow (m : State) : State := { m with freeblock := m.freeblock + 1 }

/-- A block has been written. -/
def put (m : State) (b : Nat) (blk : Block) : State := { m with disk := update m.disk b blk }

/-- The image file is complete, and what is not given out is zero. -/
structure Laid (m : State) : Prop where
  sectors : m.sectors = FSSIZE
  low : nmeta ≤ m.freeblock
  high : m.freeblock ≤ FSSIZE
  zero : ∀ b, m.freeblock ≤ b → b < FSSIZE → m.disk b = zeroBlock

end State

theorem State.put_self (m : State) (b : Nat) (blk : Block) : (m.put b blk).disk b = blk :=
  update_self ..

theorem State.put_of_ne (m : State) {b x : Nat} (h : x ≠ b) (blk : Block) :
    (m.put b blk).disk x = m.disk x :=
  update_of_ne h ..

theorem isData_iff {b : Nat} : mkfsSuperblock.isData b = true ↔ nmeta ≤ b ∧ b < FSSIZE :=
  Superblock.isData_iff

theorem iblock_lt {inum : Nat} (h : inum < NINODES) :
    mkfsSuperblock.inodestart ≤ mkfsSuperblock.iblock inum ∧
      mkfsSuperblock.iblock inum < mkfsSuperblock.bmapstart := by
  have hi : mkfsSuperblock.inodestart = 32 := rfl
  have hm : mkfsSuperblock.bmapstart = 45 := rfl
  have hp : IPB = 16 := rfl
  have hn : NINODES = 200 := rfl
  unfold Superblock.iblock
  rw [hi, hm, hp]
  omega

theorem seek_eq {sec : Nat} (h : sec ≤ FSSIZE) : seek sec = sec := by
  have hb : BSIZE = 1024 := rfl
  have hf : FSSIZE = 2000 := rfl
  unfold seek uint32
  rw [hb]
  omega

section Run

variable {m m' : State} {inum b : Nat} {din : RawDinode} {log : List Nat} {blk : Block}

theorem rsect_ok (h : m.sectors = FSSIZE) (hb : b < FSSIZE) : rsect b m = .ok (m.disk b, m) := by
  unfold rsect
  rw [run_get_bind, run_ite, seek_eq (Nat.le_of_lt hb), h, if_pos hb]
  rfl

/-- Nothing can be read behind the disk. -/
theorem rsect_end (h : m.sectors = FSSIZE) : rsect FSSIZE m = .error (.panic "read") := by
  unfold rsect
  rw [run_get_bind, run_ite, seek_eq (Nat.le_refl _), h, if_neg (Nat.lt_irrefl _)]
  rfl

theorem wsect_ok (h : m.sectors = FSSIZE) (hb : b < FSSIZE) (blk : Block) :
    wsect b blk m = .ok ((), m.put b blk) := by
  unfold wsect State.put
  rw [run_modify, seek_eq (Nat.le_of_lt hb), h, Nat.max_eq_left hb, ← h]

/-- Data blocks hold no inodes. -/
theorem inode_put (hb : nmeta ≤ b) (inum : Nat) :
    (m.put b blk).disk.inode mkfsSuperblock inum = m.disk.inode mkfsSuperblock inum := by
  unfold Disk.inode
  split
  · rename_i hinum
    have hlt := (iblock_lt hinum).2
    have hm : mkfsSuperblock.bmapstart = 45 := rfl
    have hn : nmeta = 46 := rfl
    unfold Disk.rawInode
    rw [m.put_of_ne (Nat.ne_of_lt (by omega))]
  · rfl

/-- Writing a data block, in the image and in the volume. -/
theorem State.opened_put (hb : mkfsSuperblock.isData b = true) :
    (m.put b blk).opened inum din log =
      { m.opened inum din log with
        data := update (m.opened inum din log).data b blk } := by
  have hlow := (isData_iff.mp hb).1
  have hdinode : (m.put b blk).disk.inode mkfsSuperblock = m.disk.inode mkfsSuperblock :=
    funext (inode_put hlow)
  have hdata : (fun x => if mkfsSuperblock.isData x then (m.put b blk).disk x else zeroBlock) =
      update (fun x => if mkfsSuperblock.isData x then m.disk x else zeroBlock) b blk := by
    funext x
    by_cases hx : x = b
    · subst hx
      rw [update_self, if_pos hb, m.put_self]
    · rw [update_of_ne hx, m.put_of_ne hx]
  unfold State.opened State.vol
  rw [hdinode, hdata]
  rfl

/-- The kernel's `balloc` gives out the next block as well. -/
theorem State.Laid.claim (h : m.Laid) (hfree : m.freeblock < FSSIZE) :
    (m.opened inum din log).claim mkfsSuperblock m.freeblock =
      m.grow.opened inum din
        (log ++ [mkfsSuperblock.bblock m.freeblock] ++ [m.freeblock]) := by
  have hused : update (fun x => decide (x < m.freeblock)) m.freeblock true =
      fun x => decide (x < m.freeblock + 1) := by
    funext x
    by_cases hx : x = m.freeblock
    · rw [hx, update_self]
      exact (decide_eq_true (Nat.lt_succ_self _)).symm
    · rw [update_of_ne hx]
      exact decide_eq_decide.mpr (by omega)
  have hdata : update (m.opened inum din log).data m.freeblock zeroBlock =
      (m.opened inum din log).data := by
    refine update_eq_self_iff.mpr ?_
    show zeroBlock = if _ then m.disk m.freeblock else zeroBlock
    rw [h.zero _ (Nat.le_refl _) hfree, ite_self]
  unfold Vol.claim
  rw [hdata]
  unfold State.opened State.vol State.grow
  simp only [hused]

/-- There are no inodes in memory but the open one to store numbers in. -/
theorem State.putAddr_opened (k : Slot13) (hb : b < 2 ^ 32) :
    (m.opened inum din log).putAddr inum k b =
      m.opened inum (din.setWord (addrWord k) b) log := by
  unfold Vol.putAddr State.opened
  rw [Dinode.ofBytes_setAddr din k hb]
  simp only [update_self, update_idem]

theorem State.putEntry_opened (hb : mkfsSuperblock.isData b = true) (j v : Nat) :
    (m.opened inum din log).putEntry b j v =
      (m.put b ((m.disk b).setWord j v)).opened inum din (log ++ [b]) := by
  have hblk : (m.opened inum din log).data b = m.disk b := if_pos hb
  rw [State.opened_put hb]
  unfold Vol.putEntry
  rw [hblk]
  rfl

theorem firstFree_opened (m : State) (inum : Nat) (din : RawDinode) (log : List Nat) :
    firstFree mkfsSuperblock (m.opened inum din log) =
      if m.freeblock < FSSIZE then some m.freeblock else none := by
  have hsize : mkfsSuperblock.size = FSSIZE := rfl
  unfold firstFree
  rw [hsize]
  by_cases hfree : m.freeblock < FSSIZE
  · rw [if_pos hfree]
    refine List.find?_range_eq_some.mpr ⟨?_, List.mem_range.mpr hfree, fun x hx => ?_⟩
    · show (!decide (m.freeblock < m.freeblock)) = true
      simp
    · show (!!decide (x < m.freeblock)) = true
      simpa using hx
  · rw [if_neg hfree, List.find?_eq_none]
    intro x hx
    have hx := List.mem_range.mp hx
    show ¬ (!decide (x < m.freeblock)) = true
    simp only [Bool.not_eq_true', decide_eq_false_iff_not, not_not]
    omega

/-- The kernel's `balloc` takes the block `mkfs` is at. -/
theorem balloc_opened (h : m.Laid) (inum : Nat) (din : RawDinode) (log : List Nat) :
    (m.freeblock < FSSIZE ∧ ∃ log', Fs.balloc mkfsSuperblock (m.opened inum din log) =
        .ok (m.freeblock, m.grow.opened inum din log')) ∨
      (m.freeblock = FSSIZE ∧
        Fs.balloc mkfsSuperblock (m.opened inum din log) = .ok (0, m.opened inum din log)) := by
  unfold Fs.balloc
  rw [run_get_bind, firstFree_opened]
  by_cases hfree : m.freeblock < FSSIZE
  · left
    refine ⟨hfree, log ++ [mkfsSuperblock.bblock m.freeblock] ++ [m.freeblock], ?_⟩
    rw [if_pos hfree, ← h.claim hfree]
    simp only [isData_iff.mpr ⟨h.low, hfree⟩, if_true]
    rfl
  · right
    rw [if_neg hfree]
    exact ⟨Nat.le_antisymm h.high (Nat.not_lt.mp hfree), rfl⟩

end Run

/-! ## Finding the block -/

/-- What `iappend` keeps of the image until it writes the inode back. -/
structure Follows (m m' : State) : Prop where
  laid : m'.Laid
  freeinode : m'.freeinode = m.freeinode
  low : ∀ b, b < nmeta → m'.disk b = m.disk b

section Blocks

variable {m m' m'' : State} {inum b bn : Nat} {din : RawDinode} {log : List Nat} {k : Slot13}

theorem Follows.refl (h : m.Laid) : Follows m m := ⟨h, rfl, fun _ _ => rfl⟩

theorem Follows.trans (h : Follows m m') (h' : Follows m' m'') : Follows m m'' :=
  ⟨h'.laid, h'.freeinode.trans h.freeinode, fun b hb => (h'.low b hb).trans (h.low b hb)⟩

theorem Follows.grow (h : m.Laid) (hfree : m.freeblock < FSSIZE) : Follows m m.grow :=
  ⟨⟨h.sectors, Nat.le_succ_of_le h.low, hfree, fun b hb => h.zero b (Nat.le_of_succ_le hb)⟩, rfl,
    fun _ _ => rfl⟩

theorem Follows.put (h : m.Laid) (hlow : nmeta ≤ b) (hb : b < m.freeblock) (blk : Block) :
    Follows m (m.put b blk) := by
  refine ⟨⟨h.sectors, h.low, h.high, fun x hx hlt => ?_⟩, rfl, fun x hx => ?_⟩
  · have hx : m.freeblock ≤ x := hx
    rw [m.put_of_ne (Nat.ne_of_gt (by omega))]
    exact h.zero x hx hlt
  · exact m.put_of_ne (Nat.ne_of_lt (by omega)) blk

/-- A sound volume only names blocks that have been given out. -/
theorem State.given (h : (m.opened inum din log).Sound mkfsSuperblock) {p : Place}
    (hp : (m.opened inum din log).slot p ≠ 0) :
    nmeta ≤ (m.opened inum din log).slot p ∧ (m.opened inum din log).slot p < m.freeblock := by
  obtain ⟨hdata, hused⟩ := h.owned.held p hp
  exact ⟨(isData_iff.mp hdata).1, of_decide_eq_true hused⟩

theorem State.opened_live (htype : (Dinode.ofBytes din).type ≠ .free) :
    (m.opened inum din log).Live inum := by
  unfold State.opened
  refine ⟨?_, ?_, ?_⟩
  · simp only [update_self]
    decide
  · simp only [update_self]
  · simp only [update_self]
    exact htype

/-- A number of the open inode, as `mkfs` and as the kernel find it. -/
theorem addrOf_sim (h : m.Laid) (hs : (m.opened inum din log).Sound mkfsSuperblock)
    (htype : (Dinode.ofBytes din).type ≠ .free) (k : Slot13) :
    (∃ addr din' m' log', fill mkfsSuperblock (din.word (addrWord k)) (setAddr inum k)
          (m.opened inum din log) = .ok (addr, m'.opened inum din' log') ∧
        addrOf din k m = .ok ((addr, din'), m') ∧ nmeta ≤ addr ∧ addr < m'.freeblock ∧
        Follows m m') ∨
      (∃ v, fill mkfsSuperblock (din.word (addrWord k)) (setAddr inum k)
          (m.opened inum din log) = .ok (0, v)) ∧
        ∃ din' m', addrOf din k m = .ok ((FSSIZE, din'), m') ∧ m'.sectors = FSSIZE := by
  by_cases hz : din.word (addrWord k) = 0
  · have hrun : addrOf din k m =
        .ok ((m.freeblock, din.setWord (addrWord k) m.freeblock), m.grow) := by
      unfold addrOf
      rw [run_ite, if_pos hz]
      rfl
    unfold fill
    rw [hz, if_neg (not_not.mpr rfl)]
    rcases balloc_opened h inum din log with ⟨hfree, log', hok⟩ | ⟨hfull, hok⟩
    · left
      have hlow := h.low
      have hlt : m.freeblock < 2 ^ 32 := Nat.lt_trans hfree (by decide)
      refine ⟨m.freeblock, _, m.grow, log', ?_, hrun, hlow, Nat.lt_succ_self _, .grow h hfree⟩
      rw [run_bind_ok hok, if_neg (Nat.ne_of_gt (Nat.lt_of_lt_of_le (by decide) hlow))]
      rw [← State.putAddr_opened k hlt]
      rfl
    · right
      rw [run_bind_ok hok, if_pos rfl]
      rw [hfull] at hrun
      exact ⟨⟨_, rfl⟩, _, _, hrun, h.sectors⟩
  · left
    have hslot : (m.opened inum din log).slot (.addr inum k) = din.word (addrWord k) := by
      show (m.opened inum din log).addr inum k = _
      rw [(State.opened_live htype).addr]
      unfold State.opened
      simp only [update_self]
      rfl
    have hgiven := @State.given m inum din log hs (.addr inum k) (by rwa [hslot])
    rw [hslot] at hgiven
    refine ⟨din.word (addrWord k), din, m, log, fill_filled hz _, ?_, hgiven.1, hgiven.2, .refl h⟩
    unfold addrOf
    rw [run_ite, if_neg hz]
    rfl

/-- So is its use of the indirect block. -/
theorem entryOf_sim (h : m.Laid) (hlow : nmeta ≤ b) (hb : b < m.freeblock) (j : Nat) :
    (∃ addr m' log', bmapEntry mkfsSuperblock b j (m.opened inum din log) =
          .ok (addr, m'.opened inum din log') ∧
        entryOf b j m = .ok (addr, m') ∧ addr ≠ 0 ∧ Follows m m') ∨
      (∃ v, bmapEntry mkfsSuperblock b j (m.opened inum din log) = .ok (0, v)) ∧
        ∃ m', entryOf b j m = .ok (FSSIZE, m') ∧ m'.sectors = FSSIZE := by
  have hhigh := h.high
  have hdata : mkfsSuperblock.isData b = true := isData_iff.mpr ⟨hlow, by omega⟩
  have hblk : (m.opened inum din log).data b = m.disk b := if_pos hdata
  have hread : rsect b m = .ok (m.disk b, m) := rsect_ok h.sectors (by omega)
  unfold bmapEntry entryOf
  rw [run_bind_ok (bread_of_isData hdata), run_bind_ok hread, hblk, run_ite]
  by_cases hz : (m.disk b).word j = 0
  · rw [if_pos hz, hz]
    unfold fill
    rw [if_neg (not_not.mpr rfl)]
    have hnext : nextBlock m = .ok (m.freeblock, m.grow) := rfl
    rw [run_bind_ok hnext]
    rcases balloc_opened h inum din log with ⟨hfree, log', hok⟩ | ⟨hfull, hok⟩
    · left
      have hpos : m.freeblock ≠ 0 := Nat.ne_of_gt (Nat.lt_of_lt_of_le (by decide) h.low)
      have hgrow := Follows.grow h hfree
      refine ⟨m.freeblock, m.grow.put b ((m.disk b).setWord j m.freeblock), log' ++ [b], ?_, ?_, hpos,
        hgrow.trans (.put hgrow.laid hlow (Nat.lt_succ_of_lt hb) _)⟩
      · rw [run_bind_ok hok, if_neg hpos]
        exact congrArg (fun v => Except.ok (m.freeblock, v)) (State.putEntry_opened hdata ..)
      · rw [run_bind_ok (wsect_ok hgrow.laid.sectors (by omega) _)]
        rfl
    · right
      have hsectors : m.grow.sectors = FSSIZE := h.sectors
      rw [run_bind_ok hok, if_pos rfl, run_bind_ok (wsect_ok hsectors (by omega) _), hfull]
      exact ⟨⟨_, rfl⟩, _, rfl, hsectors⟩
  · left
    rw [fill_filled hz, if_neg hz]
    exact ⟨_, m, log, rfl, rfl, hz, .refl h⟩

/-- The block for the next bytes. When the kernel finds none, `mkfs` has run into the end of the image,
or is about to. -/
theorem blockFor_sim (h : m.Laid) (hs : (m.opened inum din log).Sound mkfsSuperblock)
    (htype : (Dinode.ofBytes din).type ≠ .free) (hbn : bn < MAXFILE) :
    (∃ addr din' m' log', bmap mkfsSuperblock inum bn (m.opened inum din log) =
          .ok (addr, m'.opened inum din' log') ∧
        blockFor din bn m = .ok ((addr, din'), m') ∧ addr ≠ 0 ∧ Follows m m') ∨
      (∃ v, bmap mkfsSuperblock inum bn (m.opened inum din log) = .ok (0, v)) ∧
        ((∃ e, blockFor din bn m = .error e) ∨
          ∃ din' m', blockFor din bn m = .ok ((FSSIZE, din'), m') ∧ m'.sectors = FSSIZE) := by
  have hinode : ∀ k, ((m.opened inum din log).itable inum).addrs k = din.word (addrWord k) := by
    intro k
    unfold State.opened
    simp only [update_self]
    rfl
  unfold bmap blockFor
  rw [run_ite]
  by_cases hd : bn < NDIRECT
  · rw [dif_pos hd, if_pos hd, run_get_bind, hinode]
    rcases addrOf_sim h hs htype ⟨bn, Nat.lt_succ_of_lt hd⟩ with
      ⟨addr, din', m', log', hfill, hrun, hlow, -, hfollows⟩ | ⟨hfill, din', m', hrun, hsectors⟩
    · left
      exact ⟨addr, din', m', log', hfill, hrun, Nat.ne_of_gt (Nat.lt_of_lt_of_le (by decide) hlow),
        hfollows⟩
    · right
      exact ⟨hfill, .inr ⟨din', m', hrun, hsectors⟩⟩
  · have hj : bn - NDIRECT < NINDIRECT := by
      have hmax : MAXFILE = NDIRECT + NINDIRECT := rfl
      omega
    rw [dif_neg hd, if_neg hd, if_pos hj, run_get_bind, hinode]
    rcases addrOf_sim h hs htype single with
      ⟨addr, din', m', log', hfill, hrun, hlow, hlt, hfollows⟩ | ⟨⟨v, hfill⟩, din', m', hrun, hsectors⟩
    · have hpos : addr ≠ 0 := Nat.ne_of_gt (Nat.lt_of_lt_of_le (by decide) hlow)
      have hrun : addrOf din NDIRECT m = .ok ((addr, din'), m') := hrun
      rw [run_bind_ok hfill, if_neg hpos, run_bind_ok hrun]
      dsimp only
      rcases @entryOf_sim m' inum addr din' log' hfollows.laid hlow hlt (bn - NDIRECT) with
        ⟨b, m'', log'', hentry, hrest, hb, hlater⟩ | ⟨hentry, m'', hrest, hsectors⟩
      · left
        rw [run_bind_ok hrest]
        exact ⟨b, din', m'', log'', hentry, rfl, hb, hfollows.trans hlater⟩
      · right
        rw [run_bind_ok hrest]
        exact ⟨hentry, .inr ⟨din', m'', rfl, hsectors⟩⟩
    · right
      have hrun : addrOf din NDIRECT m = .ok ((FSSIZE, din'), m') := hrun
      have hentry : entryOf FSSIZE (bn - NDIRECT) m' = .error (.panic "read") := by
        unfold entryOf
        rw [run_bind_error (rsect_end hsectors)]
      rw [run_bind_ok hfill, if_pos rfl, run_bind_ok hrun]
      dsimp only
      rw [run_bind_error hentry]
      exact ⟨⟨v, rfl⟩, .inl ⟨_, rfl⟩⟩

end Blocks

/-! ## The loop -/

section Loop

variable {m : State} {inum off fuel tot : Nat} {din : RawDinode} {log : List Nat} {p : List UInt8}

theorem piece_eq (htot : tot ≤ p.length) : piece p.length tot off =
    min (p.drop tot).length ((off / BSIZE + 1) * BSIZE - off) := by
  have hb : BSIZE = 1024 := rfl
  unfold piece
  rw [List.length_drop, hb]
  omega

/-- One turn of `iappend` is one of the kernel's `writei`. -/
theorem turn_sim (h : m.Laid) (hs : (m.opened inum din log).Sound mkfsSuperblock)
    (htype : (Dinode.ofBytes din).type ≠ .free) (hlt : tot < p.length)
    (hmax : off + (p.length - tot) ≤ MAXFILE * BSIZE) (fuel : Nat) :
    (∃ din' m' log', (m'.opened inum din' log').Sound mkfsSuperblock ∧ Follows m m' ∧
        (∃ a, Dinode.ofBytes din' = { Dinode.ofBytes din with addrs := a }) ∧
        writeLoop mkfsSuperblock inum (.kernel p) p.length (fuel + 1) tot off
            (m.opened inum din log) =
          writeLoop mkfsSuperblock inum (.kernel p) p.length fuel (tot + piece p.length tot off)
            (off + piece p.length tot off) (m'.opened inum din' log') ∧
        iappendLoop (fuel + 1) din off (p.drop tot) m =
          iappendLoop fuel din' (off + piece p.length tot off)
            (p.drop (tot + piece p.length tot off)) m') ∨
      (∃ v, writeLoop mkfsSuperblock inum (.kernel p) p.length (fuel + 1) tot off
          (m.opened inum din log) = .ok ((tot, off), v)) ∧
        ∃ e, iappendLoop (fuel + 1) din off (p.drop tot) m = .error e := by
  have hbn := block_lt_maxfile hlt hmax
  have hlive : (m.opened inum din log).Live inum := State.opened_live htype
  have hlength : 0 < (p.drop tot).length := by
    rw [List.length_drop]
    omega
  obtain ⟨addr', v₁, hbmap', hm'⟩ := bmap_spec hs hlive hbn
  rw [writeLoop, run_ite, if_pos hlt, iappendLoop, run_ite, if_pos hlength]
  dsimp only
  rw [if_pos hbn]
  rcases blockFor_sim h hs htype hbn with
    ⟨addr, din', m', log', hbmap, hrun, haddr, hfollows⟩ | ⟨⟨v, hbmap⟩, hfail⟩
  · left
    have hm : Mapped mkfsSuperblock inum (off / BSIZE) (m.opened inum din log) addr
        (m'.opened inum din' log') := by
      rw [hbmap] at hbmap'
      cases hbmap'
      exact hm'
    have hdata := (hm.slice haddr p.length tot).1
    have hhigh := (isData_iff.mp hdata).2
    obtain ⟨hlow, hgiven⟩ : nmeta ≤ addr ∧ addr < m'.freeblock := by
      have hfound := hm.found
      obtain ⟨q, hq, -⟩ := Vol.blockOf_place _ (show Vol.blockOf _ inum (off / BSIZE) ≠ 0 by
        rwa [hfound])
      rw [hfound] at hq
      rw [hq] at haddr ⊢
      exact State.given hm.grown.sound haddr
    -- the block in the image is the block in the buffer
    let f : Nat → UInt8 := fun i => p.getD (tot + i) 0
    let blk : Block := Bytes.patch (m'.disk addr) (off % BSIZE) (piece p.length tot off) f
    have hblk : (m'.opened inum din' log').data addr = m'.disk addr := if_pos hdata
    have hv : ({ (m'.opened inum din' log').patch addr (off % BSIZE) (piece p.length tot off) f
        with logged := log' ++ [addr] } : Vol) =
        (m'.put addr blk).opened inum din' (log' ++ [addr]) := by
      rw [State.opened_put hdata]
      unfold Vol.patch
      rw [hblk]
      rfl
    have hroom : off % BSIZE + piece p.length tot off ≤ BSIZE := by
      have hmod : off % BSIZE < BSIZE := Nat.mod_lt _ (by decide)
      unfold piece
      omega
    obtain ⟨hwritten, -⟩ := @Mapped.patch _ _ _ _ _ (fun x => f (x - off)) f _ _ hm haddr hroom
      fun i _ => by rw [Nat.add_sub_cancel_left]
    refine ⟨din', m'.put addr blk, log' ++ [addr], ?_,
      hfollows.trans (.put hfollows.laid hlow hgiven blk), ?_, ?_, ?_⟩
    · rw [← hv]
      exact ⟨hwritten.sound.owned, hwritten.sound.metadata⟩
    · obtain ⟨a, ha⟩ := hm.grown.inode inum
      unfold State.opened at ha
      simp only [update_self] at ha
      exact ⟨a, congrArg Inode.toDinode ha⟩
    · have hcopies : (Buffer.kernel p).copies tot (piece p.length tot off) =
          piece p.length tot off := rfl
      rw [run_bind_ok hbmap, if_neg haddr, run_bind_ok (bread_of_isData hdata), ← hv, hcopies,
        if_neg (Nat.lt_irrefl _)]
      rfl
    · have hstart : off - off / BSIZE * BSIZE = off % BSIZE := by
        have hb : BSIZE = 1024 := rfl
        rw [hb]
        omega
      have hget : (fun i => (p.drop tot).getD i 0) = f := by
        funext i
        simp only [f, List.getD_eq_getElem?_getD, List.getElem?_drop]
      have hsectors := hfollows.laid.sectors
      rw [run_bind_ok hrun]
      dsimp only
      rw [run_bind_ok (rsect_ok hsectors hhigh), run_bind_ok (wsect_ok hsectors hhigh _), hstart,
        hget, ← piece_eq (Nat.le_of_lt hlt), List.drop_drop]
  · right
    constructor
    · rw [run_bind_ok hbmap, if_pos rfl]
      exact ⟨v, rfl⟩
    · rcases hfail with ⟨e, hrun⟩ | ⟨din', m', hrun, hsectors⟩
      · exact ⟨e, run_bind_error hrun⟩
      · rw [run_bind_ok hrun]
        exact ⟨_, run_bind_error (rsect_end hsectors)⟩

/-- The loops of `writei` and `iappend` go together until the disk is full. -/
theorem iappendLoop_sim (h : m.Laid) (hs : (m.opened inum din log).Sound mkfsSuperblock)
    (htype : (Dinode.ofBytes din).type ≠ .free) (hfuel : p.length - tot ≤ fuel)
    (htot : tot ≤ p.length) (hmax : off + (p.length - tot) ≤ MAXFILE * BSIZE) :
    (∃ din' m' log', Follows m m' ∧
        (∃ a, Dinode.ofBytes din' = { Dinode.ofBytes din with addrs := a }) ∧
        writeLoop mkfsSuperblock inum (.kernel p) p.length fuel tot off (m.opened inum din log) =
          .ok ((p.length, off + (p.length - tot)), m'.opened inum din' log') ∧
        iappendLoop fuel din off (p.drop tot) m = .ok ((din', off + (p.length - tot)), m')) ∨
      (∃ k off' v, k < p.length ∧ writeLoop mkfsSuperblock inum (.kernel p) p.length fuel tot off
          (m.opened inum din log) = .ok ((k, off'), v)) ∧
        ∃ e, iappendLoop fuel din off (p.drop tot) m = .error e := by
  induction fuel generalizing m din log tot off with
  | zero =>
    obtain rfl : tot = p.length := by omega
    left
    rw [Nat.sub_self]
    exact ⟨din, m, log, .refl h, Dinode.exists_addrs _, rfl, rfl⟩
  | succ fuel ih =>
    by_cases hlt : tot < p.length
    · have hpos := @piece_pos p.length tot off hlt
      have hle := @piece_le p.length tot off
      rcases turn_sim h hs htype hlt hmax fuel with
        ⟨din₁, m₁, log₁, hs₁, hfollows, ⟨a, ha⟩, hwrite, happend⟩ | ⟨⟨v, hwrite⟩, hfail⟩
      · have htype₁ : (Dinode.ofBytes din₁).type ≠ .free := by
          rw [ha]
          exact htype
        have hend : off + piece p.length tot off +
            (p.length - (tot + piece p.length tot off)) = off + (p.length - tot) := by
          omega
        rw [hwrite, happend, ← hend]
        rcases @ih m₁ (off + piece p.length tot off) (tot + piece p.length tot off) din₁ log₁
          hfollows.laid hs₁ htype₁ (by omega) (by omega) (by omega) with
          ⟨din', m', log', hlater, ⟨a', ha'⟩, hwrite', happend'⟩ | hfail
        · exact .inl ⟨din', m', log', hfollows.trans hlater, ⟨a', by rw [ha', ha]⟩, hwrite',
            happend'⟩
        · exact .inr hfail
      · exact .inr ⟨⟨tot, off, v, hlt, hwrite⟩, hfail⟩
    · obtain rfl : tot = p.length := by omega
      left
      rw [Nat.sub_self]
      refine ⟨din, m, log, .refl h, Dinode.exists_addrs _, ?_, ?_⟩
      · rw [writeLoop_done hlt]
        rfl
      · rw [iappendLoop, run_ite, if_neg (by simp)]
        rfl

end Loop

/-! ## The inode -/

section Inodes

variable {m : State} {inum : Nat} {din : RawDinode} {log : List Nat} {p : List UInt8}

/-- An inode has been written. -/
def State.putInode (m : State) (inum : Nat) (d : RawDinode) : State :=
  m.put (mkfsSuperblock.iblock inum)
    (Bytes.setRecord (m.disk (mkfsSuperblock.iblock inum)) (inum % IPB) d)

theorem winode_ok (h : m.sectors = FSSIZE) (hinum : inum < NINODES) (d : RawDinode) :
    winode inum d m = .ok ((), m.putInode inum d) := by
  have hb : mkfsSuperblock.iblock inum < FSSIZE :=
    Nat.lt_trans (iblock_lt hinum).2 (by decide)
  unfold winode
  rw [run_bind_ok (rsect_ok h hb)]
  exact wsect_ok h hb _

theorem rinode_ok (h : m.sectors = FSSIZE) (hinum : inum < NINODES) :
    rinode inum m = .ok (m.disk.rawInode mkfsSuperblock inum, m) := by
  have hb : mkfsSuperblock.iblock inum < FSSIZE :=
    Nat.lt_trans (iblock_lt hinum).2 (by decide)
  unfold rinode
  rw [run_bind_ok (rsect_ok h hb)]
  rfl

/-- Inodes have their own places in the inode blocks. -/
theorem State.rawInode_putInode (m : State) (inum : Nat) (d : RawDinode) (i : Nat) :
    (m.putInode inum d).disk.rawInode mkfsSuperblock i =
      if i = inum then d else m.disk.rawInode mkfsSuperblock i := by
  have hp : IPB = 16 := rfl
  unfold putInode Disk.rawInode
  by_cases hblock : mkfsSuperblock.iblock i = mkfsSuperblock.iblock inum
  · rw [hblock, m.put_self]
    by_cases hi : i = inum
    · rw [if_pos hi, hi]
      refine Bytes.record_setRecord ?_ d
      have hb : BSIZE = 1024 := rfl
      rw [hp, hb]
      omega
    · rw [if_neg hi]
      refine Bytes.record_setRecord_ne ?_ d
      unfold Superblock.iblock at hblock
      rw [hp] at hblock ⊢
      omega
  · have hi : i ≠ inum := fun he => hblock (by rw [he])
    rw [m.put_of_ne hblock, if_neg hi]

theorem State.inode_putInode (m : State) (hinum : inum < NINODES) (d : RawDinode) :
    (m.putInode inum d).disk.inode mkfsSuperblock =
      update (m.disk.inode mkfsSuperblock) inum (.ofBytes d) := by
  funext i
  unfold Disk.inode
  rw [m.rawInode_putInode]
  by_cases hi : i = inum
  · subst hi
    rw [update_self, if_pos rfl]
    exact if_pos hinum
  · rw [update_of_ne hi, if_neg hi]

theorem State.vol_putInode (m : State) (hinum : inum < NINODES) (d : RawDinode) (log : List Nat) :
    (m.putInode inum d).vol log =
      { m.vol log with
        dinode := update (m.vol log).dinode inum (.ofBytes d)
        itable := update (m.vol log).itable inum ⟨.ofBytes d, 1, true⟩ } := by
  have hlow := (iblock_lt hinum).2
  have hdata : (fun b => if mkfsSuperblock.isData b then (m.putInode inum d).disk b
      else zeroBlock) = fun b => if mkfsSuperblock.isData b then m.disk b else zeroBlock := by
    funext b
    by_cases hb : mkfsSuperblock.isData b = true
    · have hge := (isData_iff.mp hb).1
      have hm : mkfsSuperblock.bmapstart < nmeta := by decide
      unfold putInode
      rw [m.put_of_ne (Nat.ne_of_gt (by omega))]
    · rw [if_neg hb, if_neg hb]
  have hitable : (fun i => (⟨(m.putInode inum d).disk.inode mkfsSuperblock i, 1, true⟩ : Inode)) =
      update (m.vol log).itable inum ⟨.ofBytes d, 1, true⟩ := by
    funext i
    rw [m.inode_putInode hinum]
    by_cases hi : i = inum
    · subst hi
      rw [update_self, update_self]
    · rw [update_of_ne hi, update_of_ne hi]
      rfl
  unfold State.vol at hitable ⊢
  rw [hdata, hitable, m.inode_putInode hinum]
  rfl

theorem State.opened_rawInode (m : State) (hinum : inum < NINODES) (log : List Nat) :
    m.opened inum (m.disk.rawInode mkfsSuperblock inum) log = m.vol log := by
  have hinode : m.disk.inode mkfsSuperblock inum =
      .ofBytes (m.disk.rawInode mkfsSuperblock inum) := if_pos hinum
  have hself : update (m.vol log).itable inum
      ⟨.ofBytes (m.disk.rawInode mkfsSuperblock inum), 1, true⟩ = (m.vol log).itable := by
    refine update_eq_self_iff.mpr ?_
    rw [← hinode]
    rfl
  unfold opened
  rw [hself]

theorem State.view_vol (m : State) (log : List Nat) (i : Nat) :
    (m.vol log).view i = m.disk.inode mkfsSuperblock i := if_pos ⟨Int.one_pos, rfl⟩

theorem State.resize_opened (m : State) (hinum : inum < NINODES) {off : Nat}
    (hoff : (Dinode.ofBytes din).size ≤ off) (hlt : off < 2 ^ 32) :
    (m.opened inum din log).resize mkfsSuperblock inum off =
      (m.putInode inum (din.setWord sizeWord off)).vol
        (log ++ [mkfsSuperblock.iblock inum]) := by
  have hsize : (if (Dinode.ofBytes din).size < off then off else (Dinode.ofBytes din).size) = off := by
    split <;> omega
  rw [m.vol_putInode hinum, Dinode.ofBytes_setSize din hlt]
  unfold Vol.resize opened
  simp only [update_self, update_idem, hsize]
  rfl

/-- **Appending is writing at the end.** Either the two do the same, or the disk is full: the kernel
stops short, and `mkfs` ends. -/
theorem iappend_sim (h : m.Laid) (hs : (m.vol log).Sound mkfsSuperblock) (hinum : inum < NINODES)
    (htype : ((m.vol log).view inum).type ≠ .free)
    (hmax : ((m.vol log).view inum).size + p.length ≤ MAXFILE * BSIZE) :
    (∃ m' log', writei mkfsSuperblock inum (.kernel p) ((m.vol log).view inum).size p.length
          (m.vol log) = .ok ((p.length : Nat), m'.vol log') ∧
        iappend inum p m = .ok ((), m') ∧ m'.Laid ∧ m'.freeinode = m.freeinode ∧
        ∀ b, b < mkfsSuperblock.inodestart → m'.disk b = m.disk b) ∨
      (∃ (k : Nat) (v : Vol), k < p.length ∧ writei mkfsSuperblock inum (.kernel p)
          ((m.vol log).view inum).size p.length (m.vol log) = .ok ((k : Nat), v)) ∧
        ∃ e, iappend inum p m = .error e := by
  have hinode : m.disk.inode mkfsSuperblock inum =
      .ofBytes (m.disk.rawInode mkfsSuperblock inum) := if_pos hinum
  have hopened := m.opened_rawInode hinum log
  generalize hdin : m.disk.rawInode mkfsSuperblock inum = din at hinode hopened
  rw [m.view_vol, hinode] at htype hmax ⊢
  have hlive : (m.vol log).Live inum := by
    rw [← hopened]
    exact State.opened_live htype
  have hview : (Dinode.ofBytes din).size ≤ ((m.vol log).view inum).size := by
    rw [m.view_vol, hinode]
  have hread : rinode inum m = .ok (din, m) := by
    rw [rinode_ok h.sectors hinum, hdin]
  have hlt : (Dinode.ofBytes din).size + p.length < 2 ^ 32 := by
    have hm : MAXFILE * BSIZE = 274432 := rfl
    omega
  rcases @iappendLoop_sim m inum (Dinode.ofBytes din).size p.length 0 din log p h
    (by rw [hopened]; exact hs) htype (Nat.sub_le ..) (Nat.zero_le _) hmax with
    ⟨din', m', log', hfollows, ⟨a, ha⟩, hwrite, happend⟩ | ⟨⟨k, off', v, hk, hwrite⟩, e, happend⟩
  · left
    rw [hopened] at hwrite
    rw [List.drop_zero] at happend
    have hsize : (Dinode.ofBytes din').size = (Dinode.ofBytes din).size := by rw [ha]
    refine ⟨m'.putInode inum (din'.setWord sizeWord ((Dinode.ofBytes din).size + p.length)),
      log' ++ [mkfsSuperblock.iblock inum], ?_, ?_, ?_, hfollows.freeinode, fun b hb => ?_⟩
    · rw [writei_of_loop hlive hview hmax hwrite, Nat.sub_zero,
        m'.resize_opened hinum (by rw [hsize]; exact Nat.le_add_right ..) hlt]
    · have happend : iappendLoop p.length din (din.word sizeWord) p m = _ := happend
      unfold iappend
      rw [run_bind_ok hread, run_bind_ok happend]
      exact winode_ok hfollows.laid.sectors hinum _
    · have hlaid := hfollows.laid
      refine ⟨hlaid.sectors, hlaid.low, hlaid.high, fun b hb hlt => ?_⟩
      have hblock := (iblock_lt hinum).2
      have hmeta : mkfsSuperblock.bmapstart < nmeta := by decide
      have hlow := hlaid.low
      have hb : m'.freeblock ≤ b := hb
      unfold State.putInode
      rw [m'.put_of_ne (Nat.ne_of_gt (by omega))]
      exact hlaid.zero b hb hlt
    · have hblock := (iblock_lt hinum).1
      have hmeta : mkfsSuperblock.inodestart < nmeta := by decide
      unfold State.putInode
      rw [m'.put_of_ne (Nat.ne_of_lt (by omega))]
      exact hfollows.low b (by omega)
  · right
    rw [hopened] at hwrite
    rw [List.drop_zero] at happend
    refine ⟨⟨k, _, hk, writei_of_loop hlive hview hmax hwrite⟩, e, ?_⟩
    unfold iappend
    rw [run_bind_ok hread]
    exact run_bind_error happend

end Inodes

end Mkfs

end Xv6.Fs
