import Xv6.Fs.Filewrite
import Xv6.Fs.Format

/-!
# The finished image

`mkfs` ends with the size of the root directory, which it makes a multiple of the block size, and with
the bitmap. Then the image is a disk for the kernel (`Disk.volume`). It is a good one unless there
are too many files for the inode table, or just so many that the root directory fills its blocks:
its size is then made larger by a block that it does not have.
-/

namespace Xv6.Fs

open Base Function

namespace Mkfs

/-! ## The counter of inodes -/

section Counter

variable {α β : Type}

/-- Code that gives out no inode, wherever it starts. -/
def Keeps (c : Code α) : Prop := ∀ m, Answers (c m) fun r => r.2.freeinode = m.freeinode

theorem Keeps.pure (a : α) : Keeps (pure a : Code α) := fun _ => rfl

theorem Keeps.throw (e : Fault) : Keeps (throw e : Code α) := fun _ => not_false

/-- Code that keeps the inode counter composes. -/
theorem Keeps.bind {c : Code α} {f : α → Code β} (hc : Keeps c) (hf : ∀ a, Keeps (f a)) :
    Keeps (c >>= f) := fun m =>
  Post.seq (hc m) fun a m' h => (hf a m').mono fun _ h' => h'.trans h

/-- Reading the state keeps it. -/
theorem Keeps.get {f : State → Code β} (hf : ∀ m, Keeps (f m)) : Keeps (get >>= f) :=
  .bind (fun _ => rfl) hf

theorem Keeps.ite {p : Prop} [Decidable p] {c d : Code α} (hc : Keeps c) (hd : Keeps d) :
    Keeps (if p then c else d) := by
  split
  · exact hc
  · exact hd

/-- So does a loop of such code. -/
theorem Keeps.forM {ι : Type} {f : ι → Code Unit} (hf : ∀ i, Keeps (f i)) (l : List ι) :
    Keeps (l.forM f) := fun m =>
  Post.forM (I := fun m' => m'.freeinode = m.freeinode) l rfl fun i _ m' h =>
    (hf i m').mono fun _ h' => h'.trans h

/-- Writing a sector hands out no inode. -/
theorem keeps_wsect (sec : Nat) (buf : Block) : Keeps (wsect sec buf) := fun _ => rfl

theorem keeps_rsect (sec : Nat) : Keeps (rsect sec) := .get fun _ => .ite (.pure _) (.throw _)

/-- Writing an inode hands out none. -/
theorem keeps_winode (inum : Nat) (d : RawDinode) : Keeps (winode inum d) :=
  .bind (keeps_rsect _) fun _ => keeps_wsect _ _

theorem keeps_rinode (inum : Nat) : Keeps (rinode inum) := .bind (keeps_rsect _) fun _ => .pure _

/-- Handing out a block hands out no inode. -/
theorem keeps_nextBlock : Keeps nextBlock := .get fun _ => .bind (fun _ => rfl) fun _ => .pure _

theorem keeps_addrOf (din : RawDinode) (k : Nat) : Keeps (addrOf din k) :=
  .ite (.bind keeps_nextBlock fun _ => .pure _) (.pure _)

theorem keeps_entryOf (addr j : Nat) : Keeps (entryOf addr j) :=
  .bind (keeps_rsect _) fun _ => .ite
    (.bind keeps_nextBlock fun _ => .bind (keeps_wsect _ _) fun _ => .pure _) (.pure _)

theorem keeps_blockFor (din : RawDinode) (fbn : Nat) : Keeps (blockFor din fbn) :=
  .ite (keeps_addrOf _ _) (.bind (keeps_addrOf _ _) fun _ => .bind (keeps_entryOf _ _) fun _ => .pure _)

/-- The loop of `iappend` hands out no inode. -/
theorem keeps_iappendLoop (fuel : Nat) (din : RawDinode) (off : Nat) (p : List UInt8) :
    Keeps (iappendLoop fuel din off p) := by
  induction fuel generalizing din off p with
  | zero => exact .pure _
  | succ fuel ih =>
    refine .ite (.ite ?_ (.throw _)) (.pure _)
    refine .bind (keeps_blockFor _ _) fun _ => .bind (keeps_rsect _) fun _ => ?_
    exact .bind (keeps_wsect _ _) fun _ => ih _ _ _

/-- Appending to a file hands out no inode. -/
theorem keeps_iappend (inum : Nat) (p : List UInt8) : Keeps (iappend inum p) :=
  .bind (keeps_rinode _) fun _ => .bind (keeps_iappendLoop _ _ _ _) fun _ => keeps_winode _ _

/-- `ialloc` hands out one inode. -/
theorem ialloc_freeinode (type : UInt8) (m : State) :
    Answers (ialloc type m) fun r => r.2.freeinode = m.freeinode + 1 := by
  have hkeeps : Keeps (winode m.freeinode (newInode type) >>= fun _ => pure m.freeinode) :=
    .bind (keeps_winode _ _) fun _ => .pure _
  exact hkeeps { m with freeinode := m.freeinode + 1 }

/-- Adding a file hands out one inode. -/
theorem addFile_freeinode (rootino : Nat) (f : HostFile) (m : State) :
    Answers (addFile rootino f m) fun r => r.2.freeinode = m.freeinode + 1 := by
  unfold addFile
  rw [run_ite]
  split
  · exact not_false
  · refine Post.seq (ialloc_freeinode typeFile m) fun inum m₁ h₁ => ?_
    refine Post.mono ((Keeps.bind (keeps_iappend _ _) fun _ => .forM (keeps_iappend _) _) m₁)
      fun r hr => ?_
    exact hr.trans h₁

/-- One inode for each file and one for the root, however many there are. -/
theorem files_freeinode (rootino : Nat) (files : List HostFile) (m : State) :
    Answers (files.forM (addFile rootino) m) fun r =>
      r.2.freeinode = m.freeinode + files.length := by
  induction files generalizing m with
  | nil => exact rfl
  | cons f files ih =>
    refine Post.seq (addFile_freeinode rootino f m) fun _ m₁ h₁ => (ih m₁).mono fun r hr => ?_
    have h₁ : m₁.freeinode = m.freeinode + 1 := h₁
    rw [List.length_cons]
    omega

/-- Rounding the root's size hands out no inode. -/
theorem keeps_fixRoot (rootino : Nat) : Keeps (fixRoot rootino) :=
  .bind (keeps_rinode _) fun _ => keeps_winode _ _

/-- Writing the bitmap hands out no inode. -/
theorem keeps_balloc (used : Nat) : Keeps (balloc used) := .ite (keeps_wsect _ _) (.throw _)

end Counter

/-! ## The end of the program -/

/-- The bitmap block with the first `used` bits set. -/
def bitmap (used : Nat) : Block := (List.range used).foldl Bytes.setBit zeroBlock

/-- The bitmap's first `used` bits are set. -/
theorem bit_bitmap {used : Nat} (h : used ≤ BPB) (j : Nat) :
    (bitmap used).bit j = decide (j < used) := by
  induction used with
  | zero =>
    unfold bitmap Bytes.bit
    rw [List.range_zero, List.foldl_nil, byte_zeroBlock]
    simp
  | succ used ih =>
    have hp : BPB = 8192 := rfl
    have hlt : used / 8 < BSIZE := by
      have hb : BSIZE = 1024 := rfl
      omega
    have hlast : bitmap (used + 1) = (bitmap used).setBit used := by
      unfold bitmap
      rw [List.range_succ, List.foldl_append]
      rfl
    rw [hlast, Bytes.bit_setBit hlt, ih (by omega), ← Bool.decide_or]
    exact decide_eq_decide.mpr (by omega)

namespace State

/-- The size that the root directory gets in the end. -/
def rounded (m : State) : Nat := ((m.inode ROOTINO).size / BSIZE + 1) * BSIZE

/-- The image when the program ends. -/
def finish (m : State) : State :=
  (m.putInode ROOTINO ((m.disk.rawInode mkfsSuperblock ROOTINO).setWord sizeWord m.rounded)).put
    mkfsSuperblock.bmapstart (bitmap m.freeblock)

/-- What the kernel finds in the image. -/
def image (m : State) : Vol := m.disk.volume mkfsSuperblock

end State

section Main

variable {m : State} {files : List HostFile}

/-- The abstract inode is decoded from the disk. -/
theorem State.inode_eq (m : State) {i : Nat} (hi : i < NINODES) :
    m.inode i = .ofBytes (m.disk.rawInode mkfsSuperblock i) := if_pos hi

/-- `fixRoot` rounds the size of the root directory up. -/
theorem fixRoot_ok (h : m.Laid) : fixRoot ROOTINO m = .ok ((),
    m.putInode ROOTINO ((m.disk.rawInode mkfsSuperblock ROOTINO).setWord sizeWord m.rounded)) := by
  have hroot : ROOTINO < NINODES := by decide
  have hinode := m.inode_eq hroot
  unfold fixRoot
  rw [run_bind_ok (rinode_ok h.sectors hroot), winode_ok h.sectors hroot]
  unfold State.rounded
  rw [hinode]
  rfl

/-- `balloc` writes the bitmap block. -/
theorem balloc_ok (h : m.Laid) :
    balloc m.freeblock m = .ok ((), m.put mkfsSuperblock.bmapstart (bitmap m.freeblock)) := by
  have hhigh := h.high
  have hlt : m.freeblock < BSIZE * 8 := Nat.lt_of_le_of_lt hhigh (by decide)
  unfold balloc
  rw [run_ite, if_pos hlt, wsect_ok h.sectors (by decide)]
  rfl

/-- The end of `main` computes `finish`. -/
theorem finish_ok (h : m.Laid) :
    (do fixRoot ROOTINO
        balloc (← get).freeblock : Code Unit) m = .ok ((), m.finish) := by
  have hlaid : (m.putInode ROOTINO
      ((m.disk.rawInode mkfsSuperblock ROOTINO).setWord sizeWord m.rounded)).Laid := by
    refine ⟨h.sectors, h.low, h.high, fun b hb hlt => ?_⟩
    have hblock := (iblock_lt (show ROOTINO < NINODES by decide)).2
    have hmeta : mkfsSuperblock.bmapstart < nmeta := by decide
    have hlow := h.low
    have hb : m.freeblock ≤ b := hb
    unfold State.putInode
    rw [m.put_of_ne (Nat.ne_of_gt (by omega))]
    exact h.zero b hb hlt
  rw [run_bind_ok (fixRoot_ok h), run_get_bind]
  exact balloc_ok hlaid

/-- `main` makes the empty image, adds the files and finishes. -/
theorem main_eq : ∃ m₁ : State, m₁.Made [] ∧ ∀ files, main files start = (do
    files.forM (addFile ROOTINO)
    fixRoot ROOTINO
    balloc (← get).freeblock : Code Unit) m₁ := by
  obtain ⟨m₁, hformat, hm₁⟩ := format_spec
  refine ⟨m₁, hm₁, fun files => ?_⟩
  unfold main
  exact run_bind_ok hformat

/-- **The program.** With room in the inode table, `mkfs` ends with the files in the image or without
an image, and if everything fits it does not fail. -/
theorem mkfs_spec (hroom : files.length + 2 ≤ NINODES) :
    (∀ m, mkfs files = .ok m → ∃ m₀ : State, m₀.Made files ∧ m = m₀.finish) ∧
      (Fits files → ∃ m, mkfs files = .ok m) := by
  obtain ⟨m₁, hm₁, hmain⟩ := main_eq
  obtain ⟨hmade, hok⟩ := @files_spec m₁ files [] hm₁
    (by rw [List.length_nil, Nat.zero_add]; exact hroom)
  rw [List.nil_append] at hmade hok
  have hrun : ∀ m₂, files.forM (addFile ROOTINO) m₁ = .ok ((), m₂) →
      m₂.Made files ∧ mkfs files = .ok m₂.finish := by
    intro m₂ h₂
    have hm₂ : m₂.Made files := hmade.of_ok h₂
    refine ⟨hm₂, ?_⟩
    unfold mkfs
    rw [hmain, run_bind_ok h₂, finish_ok hm₂.built.laid]
    rfl
  refine ⟨fun m hm => ?_, fun hfits => ?_⟩
  · cases h₂ : files.forM (addFile ROOTINO) m₁ with
    | ok r =>
      obtain ⟨hm₂, hmkfs⟩ := hrun r.2 h₂
      rw [hmkfs] at hm
      cases hm
      exact ⟨r.2, hm₂, rfl⟩
    | error e =>
      unfold mkfs at hm
      rw [hmain, run_bind_error h₂] at hm
      cases hm
  · obtain ⟨m₂, h₂⟩ := hok hfits
    exact ⟨m₂.finish, (hrun m₂ h₂).2⟩

/-- However many files there are, each gets an inode number of its own. -/
theorem mkfs_freeinode (h : mkfs files = .ok m) : m.freeinode = files.length + 2 := by
  obtain ⟨m₁, hm₁, hmain⟩ := main_eq
  have hend : Keeps (do fixRoot ROOTINO
                        balloc (← get).freeblock) :=
    .bind (keeps_fixRoot _) fun _ => .get fun _ => keeps_balloc _
  unfold mkfs at h
  rw [hmain] at h
  cases hfiles : files.forM (addFile ROOTINO) m₁ with
  | ok r =>
    have hr := (files_freeinode ROOTINO files m₁).of_ok hfiles
    rw [run_bind_ok hfiles] at h
    cases hlast : (do fixRoot ROOTINO
                      balloc (← get).freeblock : Code Unit) r.2 with
    | ok r' =>
      rw [hlast] at h
      cases h
      rw [(hend r.2).of_ok hlast, hr, hm₁.freeinode, List.length_nil, Nat.zero_add, Nat.add_comm]
    | error e =>
      rw [hlast] at h
      cases h
  | error e =>
    rw [run_bind_error hfiles] at h
    cases h

/-! ## What the kernel finds -/

/-- The image shows the inodes of the state. -/
theorem State.image_view (m : State) (i : Nat) : m.image.view i = m.inode i :=
  if_neg fun h => Int.lt_irrefl 0 h.1

/-- Finishing changes the size of the root only. -/
theorem State.finish_inode (hsmall : (m.inode ROOTINO).size ≤ MAXFILE * BSIZE) :
    m.finish.inode = update m.inode ROOTINO { m.inode ROOTINO with size := m.rounded } := by
  have hroot : ROOTINO < NINODES := by decide
  have hinode := m.inode_eq hroot
  have hlt : m.rounded < 2 ^ 32 := by
    have hm : MAXFILE * BSIZE = 274432 := rfl
    have hb : BSIZE = 1024 := rfl
    unfold rounded
    rw [hb]
    omega
  have hput := m.inode_putInode hroot
    ((m.disk.rawInode mkfsSuperblock ROOTINO).setWord sizeWord m.rounded)
  rw [Dinode.ofBytes_setSize _ hlt, ← hinode] at hput
  funext i
  refine Eq.trans ?_ (congrFun hput i)
  unfold finish State.inode Disk.inode
  split
  · rename_i hi
    have hblock := (iblock_lt hi).2
    unfold Disk.rawInode
    rw [State.put_of_ne _ (Nat.ne_of_lt hblock)]
  · rfl

/-- The finished bitmap marks the blocks handed out. -/
theorem State.finish_used (h : m.Laid) (b : Nat) :
    m.finish.image.used b = decide (b < m.freeblock) := by
  have hhigh := h.high
  show (decide (b < FSSIZE) && Bytes.bit (m.finish.disk (mkfsSuperblock.bblock b)) (b % BPB)) = _
  by_cases hb : b < FSSIZE
  · have hf : FSSIZE = 2000 := rfl
    have hp : BPB = 8192 := rfl
    have hblock : mkfsSuperblock.bblock b = mkfsSuperblock.bmapstart := by
      unfold Superblock.bblock
      rw [Nat.div_eq_of_lt (by omega), Nat.zero_add]
    unfold finish
    rw [decide_eq_true hb, Bool.true_and, hblock, State.put_self, bit_bitmap (by omega),
      Nat.mod_eq_of_lt (by omega)]
  · rw [decide_eq_false hb, Bool.false_and]
    exact (decide_eq_false (by omega)).symm

/-- Finishing changes no file's data. -/
theorem State.finish_data (m : State) : m.finish.image.data = (m.vol []).data := by
  funext b
  show (if _ then m.finish.disk b else zeroBlock) = if _ then m.disk b else zeroBlock
  split
  · rename_i hb
    have hlow := (isData_iff.mp hb).1
    have hmeta : mkfsSuperblock.bmapstart < nmeta := by decide
    have hblock := (iblock_lt (show ROOTINO < NINODES by decide)).2
    unfold finish State.putInode
    rw [State.put_of_ne _ (Nat.ne_of_gt (by omega)), State.put_of_ne _ (Nat.ne_of_gt (by omega))]
  · rfl

/-- Finishing changes no block address. -/
theorem State.finish_slot (hsmall : (m.inode ROOTINO).size ≤ MAXFILE * BSIZE) :
    m.finish.image.slot = (m.vol []).slot := by
  refine Vol.slot_congr (fun i k => ?_) fun i _ => congrFun m.finish_data _
  unfold Vol.addr
  rw [m.finish.image_view, m.view_eq, State.finish_inode hsmall]
  by_cases hi : i = ROOTINO
  · rw [hi, update_self]
  · rw [update_of_ne hi]

namespace State.Made

/-- The root directory fits in a file. -/
theorem small (h : m.Made files) : (m.inode ROOTINO).size ≤ MAXFILE * BSIZE := by
  rw [← m.view_eq []]
  exact (h.built.dense ROOTINO).small

/-- The finished image is sound. -/
theorem sound (h : m.Made files) : m.finish.image.Sound mkfsSuperblock := by
  have hused : m.finish.image.used = (m.vol []).used := funext (finish_used h.built.laid)
  constructor
  · rw [finish_slot h.small, hused]
    exact h.built.sound.owned
  · rw [hused]
    exact h.built.sound.metadata

/-- A file has its blocks exactly up to its size. -/
theorem blockOf_finish (h : m.Made files) (i bn : Nat) :
    m.finish.image.blockOf i bn ≠ 0 ↔ bn * BSIZE < (m.inode i).size := by
  rw [Vol.blockOf_congr (finish_slot h.small), ← m.view_eq []]
  exact (h.built.dense i).blocks bn

/-- Every file but the root is fully allocated. -/
theorem allocated_of_ne (h : m.Made files) {i : Nat} (hi : i ≠ ROOTINO) :
    m.finish.image.Allocated i := by
  intro bn hbn
  rw [m.finish.image_view, finish_inode h.small, update_of_ne hi] at hbn
  exact (h.blockOf_finish i bn).mpr hbn

/-- The root directory has all its blocks unless its entries fill the last one. -/
theorem allocated_root_iff (h : m.Made files) :
    m.finish.image.Allocated ROOTINO ↔ (files.length + 2) % 64 ≠ 0 := by
  have hb : BSIZE = 1024 := rfl
  have hd : Dirent.size = 16 := rfl
  have hsize : (m.finish.image.view ROOTINO).size =
      (Dirent.size * (files.length + 2) / BSIZE + 1) * BSIZE := by
    rw [m.finish.image_view, finish_inode h.small, update_self]
    unfold rounded
    rw [h.size]
  unfold Vol.Allocated
  simp only [h.blockOf_finish, hsize, h.size]
  rw [hb, hd]
  constructor
  · intro hall hzero
    have hlast := hall (16 * (files.length + 2) / 1024) (by omega)
    omega
  · intro hne bn hbn
    omega

end State.Made

/-! ## Good images -/

/-- An image as the kernel expects it. -/
structure State.Good (m : State) : Prop where
  /-- the inode numbers that `ialloc` has given out -/
  inodes : ∀ i, 1 ≤ i → i < m.freeinode → i < NINODES
  blocks : ∀ p, m.image.slot p < FSSIZE
  allocated : ∀ i, m.image.Allocated i
  once : ∀ p q, m.image.slot p ≠ 0 → m.image.slot p = m.image.slot q → p = q
  bitmap : ∀ b, b < FSSIZE → (m.image.used b = true ↔ b < nmeta ∨ ∃ p, m.image.slot p = b)

/-- A finished image is a good file system. -/
theorem State.Made.good (h : m.Made files) (hroom : files.length + 2 ≤ NINODES)
    (hroot : (files.length + 2) % 64 ≠ 0) : m.finish.Good := by
  have hsound := h.sound
  have hheld := hsound.owned.held
  constructor
  · intro i _ hi
    have hi : i < m.freeinode := hi
    have hfree := h.freeinode
    omega
  · intro p
    by_cases hp : m.finish.image.slot p = 0
    · rw [hp]
      decide
    · exact (isData_iff.mp (hheld p hp).1).2
  · intro i
    by_cases hi : i = ROOTINO
    · rw [hi]
      exact h.allocated_root_iff.mpr hroot
    · exact h.allocated_of_ne hi
  · exact hsound.owned.inj
  · intro b hb
    constructor
    · intro hused
      by_cases hlow : b < nmeta
      · exact .inl hlow
      · exact .inr (hsound.owned.cover b (isData_iff.mpr ⟨Nat.not_lt.mp hlow, hb⟩) hused)
    · rintro (hlow | ⟨p, hp⟩)
      · exact hsound.metadata b hlow
      · by_cases hz : b = 0
        · exact hsound.metadata b (by rw [hz]; decide)
        · rw [← hp] at hz ⊢
          exact (hheld p hz).2

/-- **When the image is good.** If `mkfs` does not abort, there must not be more inodes than the inode
blocks hold, and the root directory must not end with a block. -/
theorem mkfs_good_iff (h : mkfs files = .ok m) :
    m.Good ↔ files.length + 2 ≤ NINODES ∧ (files.length + 2) % 64 ≠ 0 := by
  have hfree := mkfs_freeinode h
  by_cases hroom : files.length + 2 ≤ NINODES
  · obtain ⟨m₀, hm₀, rfl⟩ := (mkfs_spec hroom).1 m h
    refine ⟨fun hgood => ⟨hroom, ?_⟩, fun hboth => hm₀.good hroom hboth.2⟩
    exact hm₀.allocated_root_iff.mp (hgood.allocated ROOTINO)
  · refine ⟨fun hgood => absurd ?_ hroom, fun hboth => absurd hboth.1 hroom⟩
    by_contra hmany
    have hlast := hgood.inodes NINODES (by decide) (by omega)
    exact Nat.lt_irrefl _ hlast

end Main

/-- The file `user/_cat`, of three bytes. -/
def threeBytes : HostFile where
  arg := [117, 115, 101, 114, 47, 95, 99, 97, 116]
  pieces := [[1], [2, 3]]
  string := by simp
  read := by decide

/-- The empty file `f`. -/
def noBytes : HostFile where
  arg := [102]
  pieces := []
  string := by simp
  read := nofun

/-- An image with two files. -/
theorem mkfs_good_two : ∃ m, mkfs [threeBytes, noBytes] = .ok m ∧ m.Good ∧ m.freeinode = 4 := by
  obtain ⟨m, hm⟩ := (@mkfs_spec [threeBytes, noBytes] (by decide)).2
    ⟨by decide, by decide, by decide⟩
  exact ⟨m, hm, (mkfs_good_iff hm).mpr ⟨by decide, by decide⟩, mkfs_freeinode hm⟩

/-- An empty file, with a name of two letters. -/
def emptyFile (i : Fin 62) : HostFile where
  arg := [102, .ofNat (65 + i)]
  pieces := []
  string := by
    intro c hc hz
    have hi := i.isLt
    rw [List.mem_pair, hz] at hc
    rcases hc with h | h
    · exact absurd h (by decide)
    · have hnat : 0 = (65 + i.val) % 2 ^ 8 := (congrArg UInt8.toNat h).trans UInt8.toNat_ofNat
      omega
  read := nofun

/-- So many empty files that the root directory fills a block. -/
def fullBlock : List HostFile := (List.finRange 62).map emptyFile

/-- With 62 files the size of the root directory takes in a block that is not there. -/
theorem mkfs_full_block : ∃ m, mkfs fullBlock = .ok m ∧ ¬ m.Good ∧
    (m.image.view ROOTINO).size = 2 * BSIZE ∧ m.image.blockOf ROOTINO 1 = 0 := by
  have hlength : fullBlock.length = 62 := rfl
  have hroom : fullBlock.length + 2 ≤ NINODES := by
    rw [hlength]
    decide
  obtain ⟨hmade, hok⟩ := mkfs_spec hroom
  obtain ⟨m, hm⟩ := hok ⟨by decide, by decide, by decide⟩
  obtain ⟨m₀, hm₀, rfl⟩ := hmade m hm
  refine ⟨_, hm, fun hgood => ?_, ?_, ?_⟩
  · exact hm₀.allocated_root_iff.mp (hgood.allocated ROOTINO) (by rw [hlength])
  · rw [State.image_view, State.finish_inode hm₀.small, update_self]
    unfold State.rounded
    rw [hm₀.size, hlength]
    rfl
  · by_contra hne
    have hlt := (hm₀.blockOf_finish ROOTINO 1).mp hne
    rw [hm₀.size, hlength] at hlt
    exact absurd hlt (by decide)

end Mkfs

end Xv6.Fs
