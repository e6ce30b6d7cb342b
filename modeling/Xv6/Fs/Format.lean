import Xv6.Fs.Append
import Xv6.Fs.Dense
import Xv6.Fs.Directory

/-!
# The image that `mkfs` builds

As long as the inode numbers stay below `NINODES`, the image in the making is a sound volume of dense
files (`Built`). `ialloc` adds an empty file, and `iappend` appends bytes to one file and leaves
the others alone, or ends the program. From these two, what `main` makes of the arguments is known
to the last byte (`Made`).
-/

namespace Xv6.Fs

open Base Function

namespace Mkfs

namespace State

/-- An inode of the image. -/
def inode (m : State) (i : Nat) : Dinode := m.disk.inode mkfsSuperblock i

/-- The content of a file of the image. -/
def content (m : State) (i : Nat) : List UInt8 := (m.vol []).content i

/-- The image is a sound volume of dense files, and the inodes not given out are empty. -/
structure Built (m : State) : Prop where
  laid : m.Laid
  sound : (m.vol []).Sound mkfsSuperblock
  dense : ∀ i, (m.vol []).Dense i
  fresh : ∀ i, m.freeinode ≤ i → m.inode i = .zero

/-- What appending `p` to a file does. -/
structure Appended (m : State) (inum : Nat) (p : List UInt8) (m' : State) : Prop where
  built : m'.Built
  freeinode : m'.freeinode = m.freeinode
  boot : ∀ b, b < mkfsSuperblock.inodestart → m'.disk b = m.disk b
  type : (m'.inode inum).type = (m.inode inum).type
  spent : m'.freeblock + blocksFor (m.inode inum).size =
    m.freeblock + blocksFor ((m.inode inum).size + p.length)
  content : m'.content inum = m.content inum ++ p
  inodes : ∀ i, i ≠ inum → m'.inode i = m.inode i
  contents : ∀ i, i ≠ inum → m'.content i = m.content i

theorem view_eq (m : State) (log : List Nat) (i : Nat) : (m.vol log).view i = m.inode i :=
  m.view_vol log i

theorem length_content (m : State) (i : Nat) : (m.content i).length = (m.inode i).size := by
  unfold content Vol.content
  rw [List.length_map, List.length_range, m.view_eq]

theorem free_vol (m : State) (log : List Nat) :
    (m.vol log).free mkfsSuperblock = FSSIZE - m.freeblock := by
  have hfilter : ((Finset.range mkfsSuperblock.size).filter
      fun b => (m.vol log).used b = false) = Finset.Ico m.freeblock FSSIZE := by
    ext b
    rw [Finset.mem_filter, Finset.mem_range, Finset.mem_Ico]
    show b < FSSIZE ∧ decide (b < m.freeblock) = false ↔ _
    rw [decide_eq_false_iff_not, Nat.not_lt]
    exact and_comm
  unfold Vol.free
  rw [hfilter, Nat.card_Ico]

end State

/-! ## `iappend` -/

section Append

variable {m m' : State} {inum fuel off : Nat} {din : RawDinode} {p : List UInt8}

theorem iappendLoop_small (hfuel : p.length ≤ fuel) (hp : p ≠ []) :
    Answers (iappendLoop fuel din off p m) fun _ => off + p.length ≤ MAXFILE * BSIZE := by
  have hb : BSIZE = 1024 := rfl
  have hmax : MAXFILE = 268 := rfl
  induction fuel generalizing din off p m with
  | zero => exact absurd (List.length_eq_zero_iff.mp (Nat.le_zero.mp hfuel)) hp
  | succ fuel ih =>
    have hpos := List.length_pos_iff.mpr hp
    rw [iappendLoop, run_ite, if_pos hpos]
    dsimp only
    rw [run_ite]
    split
    · rename_i hfbn
      refine Answers.after _ fun r s₁ => ?_
      refine Answers.after _ fun buf s₂ => ?_
      refine Answers.after _ fun _ s₃ => ?_
      by_cases hlast : p.length ≤ (off / BSIZE + 1) * BSIZE - off
      · cases iappendLoop fuel _ _ _ s₃ with
        | ok r =>
          show off + p.length ≤ MAXFILE * BSIZE
          rw [hb] at hfbn hlast ⊢
          omega
        | error e => exact not_false
      · have hn1 : min p.length ((off / BSIZE + 1) * BSIZE - off) =
            (off / BSIZE + 1) * BSIZE - off := Nat.min_eq_right (Nat.le_of_not_le hlast)
        have hrest : (p.drop ((off / BSIZE + 1) * BSIZE - off)).length =
            p.length - ((off / BSIZE + 1) * BSIZE - off) := List.length_drop
        have hsome : 0 < (off / BSIZE + 1) * BSIZE - off := by
          rw [hb]
          omega
        rw [hn1]
        refine (ih (by omega) (List.length_pos_iff.mp (by omega))).mono fun _ hle => ?_
        rw [hrest] at hle
        omega
    · exact not_false

theorem State.vol_live (htype : (m.inode inum).type ≠ .free) (log : List Nat) :
    (m.vol log).Live inum :=
  ⟨Int.one_pos, rfl, htype⟩

theorem State.lt_ninodes (htype : (m.inode inum).type ≠ .free) : inum < NINODES := by
  by_contra hge
  have hzero : m.inode inum = .zero := if_neg hge
  rw [hzero] at htype
  exact htype rfl

theorem splice_end (bytes new : List UInt8) : splice bytes bytes.length new = bytes ++ new := by
  unfold splice
  rw [List.take_length, List.drop_eq_nil_of_le (Nat.le_add_right ..), List.append_nil]

/-- A write at the end that went through, seen in the image. -/
theorem State.Built.appended {log : List Nat} {v : Vol} (h : m.Built)
    (htype : (m.inode inum).type ≠ .free) (hlaid : m'.Laid) (hfreeinode : m'.freeinode = m.freeinode)
    (hboot : ∀ b, b < mkfsSuperblock.inodestart → m'.disk b = m.disk b)
    (hwrote : Wrote mkfsSuperblock inum (fun x => (Buffer.kernel p).byte (x - (m.inode inum).size))
      (m.inode inum).size p.length (Buffer.kernel p).unmapped (m.vol []) p.length v)
    (hv : m'.vol log = v.resize mkfsSuperblock inum ((m.inode inum).size + p.length)) :
    m.Appended inum p m' := by
  have hview : ∀ i, (m.vol []).view i = m.inode i := m.view_eq []
  have hview' : ∀ i, (m'.vol log).view i = m'.inode i := m'.view_eq log
  have hlive := State.vol_live htype []
  have hgood : (Buffer.kernel p).Good p.length := fun _ hk => by cases hk
  have hwritten := hwrote.exact hgood
  have hlive' := hwritten.live hlive
  rw [← hview] at hwrote hwritten hv
  obtain ⟨hdense, hspent⟩ := hwrote.dense hlive (h.dense inum)
  obtain ⟨hcontent, hcontents⟩ := hwritten.content hlive (Nat.le_refl _)
  have hsound : (m'.vol log).Sound mkfsSuperblock := by
    rw [hv]
    exact hwritten.sound.resize hlive' _
  have hinodes : ∀ i, i ≠ inum → m'.inode i = m.inode i := by
    intro i hi
    rw [← hview', ← hview, hv, Vol.view_resize hlive', if_neg hi, hwritten.view_ne hi]
  have hdense' : ∀ i, (m'.vol log).Dense i := by
    intro i
    rw [hv]
    by_cases hi : i = inum
    · rw [hi]
      exact hdense
    · refine (hwritten.dense_ne hi (h.dense i)).congr (Vol.slot_resize hlive' _) ?_
      rw [Vol.view_resize hlive', if_neg hi]
  rw [← hv] at hcontent hcontents
  refine ⟨⟨hlaid, ⟨hsound.owned, hsound.metadata⟩, fun i => ⟨(hdense' i).blocks, (hdense' i).indirect⟩,
    fun i hi => ?_⟩, hfreeinode, hboot, ?_, ?_, ?_, hinodes, hcontents⟩
  · have hfresh := h.fresh i (by omega)
    have hne : i ≠ inum := by
      rintro rfl
      rw [hfresh] at htype
      exact htype rfl
    rw [hinodes i hne, hfresh]
  · obtain ⟨a, ha⟩ := hwritten.view inum
    rw [← hview', ← hview, hv, Vol.view_resize hlive', if_pos rfl, ha]
  · have hfree : v.free mkfsSuperblock = (m'.vol log).free mkfsSuperblock := by
      rw [hv]
      rfl
    have hlow := h.laid.high
    have hhigh := hlaid.high
    rw [hfree, m'.free_vol, m.free_vol, hview] at hspent
    omega
  · have hbytes : (List.range p.length).map (Buffer.kernel p).byte = p := by
      refine List.ext_getElem (by simp) fun i hi hi' => ?_
      rw [List.getElem_map, List.getElem_range]
      show p.getD i 0 = _
      rw [List.getD_eq_getElem?_getD, List.getElem?_eq_getElem hi']
      rfl
    have hlength : (m.content inum).length = ((m.vol []).view inum).size := by
      rw [m.length_content, hview]
    rw [hbytes, ← hlength] at hcontent
    exact hcontent.trans (splice_end _ p)

/-- `iappend` appends, or ends the program. It goes through if the file stays within the limit and there
are blocks for it. -/
theorem iappend_spec (h : m.Built) (htype : (m.inode inum).type ≠ .free) (p : List UInt8) :
    Answers (iappend inum p m) (fun r => m.Appended inum p r.2) ∧
      ((m.inode inum).size + p.length ≤ MAXFILE * BSIZE →
        m.freeblock + blocksFor ((m.inode inum).size + p.length) ≤
          FSSIZE + blocksFor (m.inode inum).size →
        ∃ m', iappend inum p m = .ok ((), m')) := by
  have hinum := State.lt_ninodes htype
  have hlive := State.vol_live htype []
  have hview : (m.vol []).view inum = m.inode inum := m.view_eq [] inum
  by_cases hmax : (m.inode inum).size + p.length ≤ MAXFILE * BSIZE
  · have hgood : (Buffer.kernel p).Good p.length := fun _ hk => by cases hk
    have hoff : (m.inode inum).size ≤ ((m.vol []).view inum).size := by rw [hview]
    obtain ⟨k, v, hwritei, hwrote⟩ := writei_spec h.sound hlive (.kernel p) hoff hmax
    have hsim := @iappend_sim m inum [] p h.laid h.sound hinum (by rwa [hview]) (by rwa [hview])
    rw [hview] at hsim
    rcases hsim with ⟨m', log', hwrite, happend, hlaid, hfreeinode, hboot⟩ |
      ⟨⟨k', v', hk', hwrite⟩, e, happend⟩
    · rw [happend]
      refine ⟨?_, fun _ _ => ⟨m', rfl⟩⟩
      rw [hwritei] at hwrite
      obtain ⟨hk, hv⟩ := Prod.mk.inj (Except.ok.inj hwrite)
      obtain rfl : k = p.length := by omega
      exact h.appended htype hlaid hfreeinode hboot hwrote hv.symm
    · rw [happend]
      refine ⟨not_false, fun _ hroom => ?_⟩
      -- there was room, so the kernel has not stopped short
      rw [hwritei] at hwrite
      obtain ⟨hk, -⟩ := Prod.mk.inj (Except.ok.inj hwrite)
      have hlacking := (h.dense inum).lacking p.length
      rw [hview] at hlacking
      have hfree := m.free_vol []
      have hhigh := h.laid.high
      have hall := hwrote.all hgood (by omega)
      omega
  · refine ⟨?_, fun hle => absurd hle hmax⟩
    have hp : p ≠ [] := by
      rintro rfl
      have hsmall := (h.dense inum).small
      rw [hview] at hsmall
      exact hmax hsmall
    have hread := rinode_ok h.laid.sectors hinum
    have hsize : (m.disk.rawInode mkfsSuperblock inum).word sizeWord = (m.inode inum).size := by
      have hinode : m.inode inum = .ofBytes (m.disk.rawInode mkfsSuperblock inum) := if_pos hinum
      rw [hinode]
      rfl
    unfold iappend
    rw [run_bind_ok hread, hsize]
    refine Post.seq (iappendLoop_small (Nat.le_refl _) hp) fun r s hle => ?_
    exact absurd hle hmax

theorem State.Built.appended_nil (h : m.Built) (inum : Nat) : m.Appended inum [] m where
  built := h
  freeinode := rfl
  boot _ _ := rfl
  type := rfl
  spent := rfl
  content := (List.append_nil _).symm
  inodes _ _ := rfl
  contents _ _ := rfl

theorem State.Appended.size (h : m.Appended inum p m') :
    (m'.inode inum).size = (m.inode inum).size + p.length := by
  rw [← m'.length_content, h.content, List.length_append, m.length_content]

theorem State.Appended.trans {m'' : State} {q : List UInt8} (h : m.Appended inum p m')
    (h' : m'.Appended inum q m'') : m.Appended inum (p ++ q) m'' where
  built := h'.built
  freeinode := h'.freeinode.trans h.freeinode
  boot b hb := (h'.boot b hb).trans (h.boot b hb)
  type := h'.type.trans h.type
  spent := by
    have hspent := h.spent
    have hspent' := h'.spent
    rw [h.size] at hspent'
    rw [List.length_append, ← Nat.add_assoc]
    omega
  content := by rw [h'.content, h.content, List.append_assoc]
  inodes i hi := (h'.inodes i hi).trans (h.inodes i hi)
  contents i hi := (h'.contents i hi).trans (h.contents i hi)

theorem blocksFor_mono {a b : Nat} (h : a ≤ b) : blocksFor a ≤ blocksFor b := by
  have hb : BSIZE = 1024 := rfl
  unfold blocksFor blocksEnd
  rw [hb]
  split <;> split <;> omega

/-- A file is written piece by piece. -/
theorem pieces_spec (ps : List (List UInt8)) (h : m.Built) (htype : (m.inode inum).type ≠ .free) :
    Answers (ps.forM (iappend inum) m) (fun r => m.Appended inum ps.flatten r.2) ∧
      ((m.inode inum).size + ps.flatten.length ≤ MAXFILE * BSIZE →
        m.freeblock + blocksFor ((m.inode inum).size + ps.flatten.length) ≤
          FSSIZE + blocksFor (m.inode inum).size →
        ∃ m', ps.forM (iappend inum) m = .ok ((), m')) := by
  induction ps generalizing m with
  | nil => exact ⟨h.appended_nil inum, fun _ _ => ⟨m, rfl⟩⟩
  | cons p ps ih =>
    obtain ⟨hfirst, hok⟩ := iappend_spec h htype p
    have hcons : (p :: ps).forM (iappend inum) m =
        (iappend inum p >>= fun _ => ps.forM (iappend inum)) m := rfl
    rw [hcons, List.flatten_cons, List.length_append, ← Nat.add_assoc]
    refine ⟨?_, fun hmax hroom => ?_⟩
    · refine Post.seq hfirst fun _ m₁ hm₁ => ?_
      have hm₁ : m.Appended inum p m₁ := hm₁
      refine (ih hm₁.built (by rwa [hm₁.type])).1.mono fun r hr => ?_
      exact hm₁.trans hr
    · have hmono : blocksFor ((m.inode inum).size + p.length) ≤
          blocksFor ((m.inode inum).size + p.length + ps.flatten.length) :=
        blocksFor_mono (Nat.le_add_right ..)
      obtain ⟨m₁, hrun⟩ := hok (by omega) (by omega)
      have hm₁ : m.Appended inum p m₁ := hfirst.of_ok hrun
      obtain ⟨-, hrest⟩ := ih hm₁.built (by rwa [hm₁.type])
      have hspent := hm₁.spent
      rw [run_bind_ok hrun]
      exact hrest (by rwa [hm₁.size]) (by rw [hm₁.size]; omega)

end Append

/-! ## `ialloc` -/

section Alloc

variable {m m' : State} {type : UInt8}

/-- What taking a new inode does. -/
structure State.Extended (m : State) (type : Itype) (m' : State) : Prop where
  built : m'.Built
  freeinode : m'.freeinode = m.freeinode + 1
  freeblock : m'.freeblock = m.freeblock
  boot : ∀ b, b < mkfsSuperblock.inodestart → m'.disk b = m.disk b
  new : m'.inode m.freeinode = ⟨type, 0, 0, 1, 0, fun _ => 0⟩
  inodes : ∀ i, i ≠ m.freeinode → m'.inode i = m.inode i
  contents : ∀ i, i ≠ m.freeinode → m'.content i = m.content i

theorem ofBytes_newInode (type : UInt8) :
    Dinode.ofBytes (newInode type) = ⟨.ofShort type.toNat, 0, 0, 1, 0, fun _ => 0⟩ := by
  have hbyte : ∀ j, 8 ≤ j → (newInode type).byte j = 0 := by
    intro j hj
    unfold Bytes.byte newInode
    split
    · dsimp only
      rw [if_neg (by omega), if_neg (by omega)]
    · rfl
  have hword : ∀ i, 2 ≤ i → (newInode type).word i = 0 := by
    intro i hi
    unfold Bytes.word
    rw [hbyte _ (by omega), hbyte _ (by omega), hbyte _ (by omega), hbyte _ (by omega)]
    rfl
  have haddr : ∀ k : Slot13, (newInode type).word (addrWord k) = 0 := fun k =>
    hword _ (Nat.le_add_right_of_le (by decide))
  have hhalf : (newInode type).half 0 = type.toNat ∧ (newInode type).half 1 = 0 ∧
      (newInode type).half 2 = 0 ∧ (newInode type).half 3 = 1 := by
    simp [Bytes.half, Bytes.byte, newInode]
  unfold Dinode.ofBytes
  rw [hhalf.1, hhalf.2.1, hhalf.2.2.1, hhalf.2.2.2, hword sizeWord (Nat.le_refl 2)]
  simp only [haddr]
  rfl

/-- `ialloc` hands out the next inode. -/
theorem ialloc_spec (h : m.Built) (hroom : m.freeinode < NINODES) (type : UInt8) :
    ∃ m', ialloc type m = .ok (m.freeinode, m') ∧ m.Extended (.ofShort type.toNat) m' := by
  let m₁ : State := { m with freeinode := m.freeinode + 1 }
  let m' : State := m₁.putInode m.freeinode (newInode type)
  have hrun : ialloc type m = .ok (m.freeinode, m') := by
    have hsectors : m₁.sectors = FSSIZE := h.laid.sectors
    have hwrite : winode m.freeinode (newInode type) m₁ = .ok ((), m') :=
      winode_ok hsectors hroom _
    unfold ialloc
    rw [run_get_bind, run_modify_bind, run_bind_ok hwrite]
    rfl
  have hinode : m'.inode = update m.inode m.freeinode
      ⟨.ofShort type.toNat, 0, 0, 1, 0, fun _ => 0⟩ := by
    rw [← ofBytes_newInode]
    exact m₁.inode_putInode hroom _
  have hnew : m'.inode m.freeinode = ⟨.ofShort type.toNat, 0, 0, 1, 0, fun _ => 0⟩ := by
    rw [hinode, update_self]
  have hother : ∀ i, i ≠ m.freeinode → m'.inode i = m.inode i := by
    intro i hi
    rw [hinode, update_of_ne hi]
  have hzero := h.fresh m.freeinode (Nat.le_refl _)
  have hdata : (m'.vol []).data = (m.vol []).data := by
    rw [show m'.vol [] = _ from m₁.vol_putInode hroom (newInode type) []]
    rfl
  -- the new inode has no blocks, and it had none when it was free
  have hslot : (m'.vol []).slot = (m.vol []).slot := by
    refine Vol.slot_congr (fun i k => ?_) fun _ _ => by rw [hdata]
    unfold Vol.addr
    rw [m'.view_eq, m.view_eq]
    by_cases hi : i = m.freeinode
    · rw [hi, hnew, hzero]
      exact (ite_self 0).trans (if_pos rfl).symm
    · rw [hother i hi]
  have hsize : ∀ i, ((m'.vol []).view i).size = ((m.vol []).view i).size := by
    intro i
    rw [m'.view_eq, m.view_eq]
    by_cases hi : i = m.freeinode
    · rw [hi, hnew, hzero]
      rfl
    · rw [hother i hi]
  have hcontent : ∀ i, m'.content i = m.content i := by
    intro i
    unfold State.content Vol.content Vol.byteAt
    rw [hsize, hdata]
    simp only [Vol.blockOf_congr hslot]
  have hblock := iblock_lt hroom
  have hmeta : mkfsSuperblock.bmapstart < nmeta := by decide
  refine ⟨m', hrun, ⟨⟨h.laid.sectors, h.laid.low, h.laid.high, fun b hb hlt => ?_⟩, ⟨?_, ?_⟩,
    fun i => (h.dense i).congr hslot (hsize i), fun i hi => ?_⟩, rfl, rfl, fun b hb => ?_, hnew,
    hother, fun i _ => hcontent i⟩
  · have hlow := h.laid.low
    have hb : m.freeblock ≤ b := hb
    exact (m₁.put_of_ne (Nat.ne_of_gt (by omega)) _).trans (h.laid.zero b hb hlt)
  · rw [hslot]
    exact h.sound.owned
  · exact h.sound.metadata
  · have hi : m.freeinode + 1 ≤ i := hi
    rw [hother i (by omega)]
    exact h.fresh i (by omega)
  · exact m₁.put_of_ne (Nat.ne_of_lt (by omega)) _

end Alloc

/-! ## The program -/

/-- The root directory: the two entries for itself, and one for each file. -/
def rootBytes (files : List HostFile) : List UInt8 :=
  entryBytes ROOTINO [46] ++ entryBytes ROOTINO [46, 46] ++
    files.zipIdx.flatMap fun x => entryBytes (x.2 + 2) x.1.shortname

/-- The blocks that the root directory and the files take. -/
def demand (files : List HostFile) : Nat :=
  blocksFor (Dirent.size * (files.length + 2)) + (files.map fun f => blocksFor f.bytes.length).sum

/-- The image holds the root directory and these files. -/
structure State.Made (files : List HostFile) (m : State) : Prop where
  built : m.Built
  boot : m.disk 1 = superblock ∧ m.disk 2 = zeroBlock
  freeinode : m.freeinode = files.length + 2
  freeblock : m.freeblock = nmeta + demand files
  root : (m.inode ROOTINO).type = .dir
  entries : m.content ROOTINO = rootBytes files
  file : ∀ i f, files[i]? = some f →
    (m.inode (i + 2)).type = .file ∧ m.content (i + 2) = f.bytes

section Main

variable {m m' : State} {files : List HostFile} {f : HostFile}

theorem length_entryBytes (inum : Nat) (name : List UInt8) :
    (entryBytes inum name).length = Dirent.size := by
  unfold entryBytes Dirent.bytes
  rw [List.length_cons, List.length_cons, length_strncpy]
  rfl

theorem rootBytes_append (files : List HostFile) (f : HostFile) :
    rootBytes (files ++ [f]) = rootBytes files ++ entryBytes (files.length + 2) f.shortname := by
  unfold rootBytes
  rw [List.zipIdx_append, List.flatMap_append, ← List.append_assoc, Nat.zero_add]
  simp

theorem length_rootBytes (files : List HostFile) :
    (rootBytes files).length = Dirent.size * (files.length + 2) := by
  induction files using List.reverseRecOn with
  | nil =>
    unfold rootBytes
    simp [length_entryBytes, Nat.mul_two]
  | append_singleton files f ih =>
    rw [rootBytes_append, List.length_append, ih, length_entryBytes, List.length_append]
    rfl

theorem State.Made.size (h : m.Made files) :
    (m.inode ROOTINO).size = Dirent.size * (files.length + 2) := by
  rw [← m.length_content, h.entries, length_rootBytes]

theorem demand_append (files : List HostFile) (f : HostFile) :
    demand (files ++ [f]) + blocksFor (Dirent.size * (files.length + 2)) = demand files +
      blocksFor (Dirent.size * (files.length + 2) + Dirent.size) + blocksFor f.bytes.length := by
  have hsize : Dirent.size * (files.length + 1 + 2) =
      Dirent.size * (files.length + 2) + Dirent.size := by
    rw [← Nat.mul_succ]
  unfold demand
  rw [List.length_append, List.length_singleton, hsize, List.map_append, List.sum_append,
    List.map_singleton, List.sum_singleton]
  omega

/-- The state after a new inode, an entry for it and the bytes of the file. -/
theorem State.Made.add {m₁ m₂ m₃ : State} (h : m.Made files) (hm₁ : m.Extended .file m₁)
    (hm₂ : m₁.Appended ROOTINO (entryBytes (files.length + 2) f.shortname) m₂)
    (hm₃ : m₂.Appended (files.length + 2) f.bytes m₃) : m₃.Made (files ++ [f]) := by
  have hr : ROOTINO = 1 := rfl
  have hfree := h.freeinode
  have hnew : m₂.inode (files.length + 2) = ⟨.file, 0, 0, 1, 0, fun _ => 0⟩ := by
    rw [hm₂.inodes _ (by omega), ← hfree]
    exact hm₁.new
  have hempty : m₂.content (files.length + 2) = [] := by
    rw [← List.length_eq_zero_iff, m₂.length_content, hnew]
  have hroot : m₁.inode ROOTINO = m.inode ROOTINO := hm₁.inodes _ (by omega)
  refine ⟨hm₃.built, ?_, ?_, ?_, ?_, ?_, fun i f' hi => ?_⟩
  · have hboot : ∀ b, b < mkfsSuperblock.inodestart → m₃.disk b = m.disk b := fun b hb =>
      (hm₃.boot b hb).trans ((hm₂.boot b hb).trans (hm₁.boot b hb))
    rw [hboot 1 (by decide), hboot 2 (by decide)]
    exact h.boot
  · rw [hm₃.freeinode, hm₂.freeinode, hm₁.freeinode, hfree, List.length_append]
    rfl
  · have hspent₂ := hm₂.spent
    have hspent₃ := hm₃.spent
    have hdemand := demand_append files f
    have hzero : blocksFor 0 = 0 := rfl
    rw [hroot, h.size, length_entryBytes, hm₁.freeblock, h.freeblock] at hspent₂
    rw [hnew, hzero, Nat.zero_add] at hspent₃
    omega
  · rw [hm₃.inodes _ (by omega), hm₂.type, hroot]
    exact h.root
  · rw [hm₃.contents _ (by omega), hm₂.content, hm₁.contents _ (by omega), h.entries,
      rootBytes_append]
  · rcases Nat.lt_trichotomy i files.length with hlt | rfl | hgt
    · rw [List.getElem?_append_left hlt] at hi
      obtain ⟨htype, hcontent⟩ := h.file i f' hi
      rw [hm₃.inodes _ (by omega), hm₂.inodes _ (by omega), hm₁.inodes _ (by omega),
        hm₃.contents _ (by omega), hm₂.contents _ (by omega), hm₁.contents _ (by omega)]
      exact ⟨htype, hcontent⟩
    · rw [List.getElem?_concat_length] at hi
      cases hi
      rw [hm₃.type, hm₃.content, hnew, hempty]
      exact ⟨rfl, rfl⟩
    · rw [List.getElem?_eq_none (by rw [List.length_append, List.length_singleton]; omega)] at hi
      cases hi

/-- A file is added as the next entry of the root. -/
theorem addFile_spec (h : m.Made files) (hroom : files.length + 2 < NINODES) (f : HostFile) :
    Answers (addFile ROOTINO f m) (fun r => r.2.Made (files ++ [f])) ∧
      (slash ∉ f.base → f.bytes.length ≤ MAXFILE * BSIZE →
        nmeta + demand (files ++ [f]) ≤ FSSIZE → ∃ m', addFile ROOTINO f m = .ok ((), m')) := by
  by_cases hslash : slash ∈ f.base
  · refine ⟨?_, fun hno => absurd hslash hno⟩
    unfold addFile
    rw [run_ite, if_pos hslash]
    exact not_false
  have hr : ROOTINO = 1 := rfl
  have hfree := h.freeinode
  obtain ⟨m₁, halloc, hm₁⟩ := ialloc_spec h.built (by omega) typeFile
  have hm₁ : m.Extended .file m₁ := hm₁
  have hrun : addFile ROOTINO f m = (iappend ROOTINO (entryBytes (files.length + 2) f.shortname) >>=
      fun _ => f.pieces.forM (iappend (files.length + 2))) m₁ := by
    unfold addFile
    rw [run_ite, if_neg hslash, run_bind_ok halloc, hfree]
  have hroot : m₁.inode ROOTINO = m.inode ROOTINO := hm₁.inodes _ (by omega)
  have hdir : (m₁.inode ROOTINO).type ≠ .free := by
    rw [hroot, h.root]
    decide
  obtain ⟨hfirst, hok⟩ := iappend_spec hm₁.built hdir (entryBytes (files.length + 2) f.shortname)
  have hnew : ∀ m₂, m₁.Appended ROOTINO (entryBytes (files.length + 2) f.shortname) m₂ →
      m₂.inode (files.length + 2) = ⟨.file, 0, 0, 1, 0, fun _ => 0⟩ := by
    intro m₂ hm₂
    rw [hm₂.inodes _ (by omega), ← hfree]
    exact hm₁.new
  rw [hrun]
  refine ⟨?_, fun _ hsmall hfits => ?_⟩
  · refine Post.seq hfirst fun _ m₂ hm₂ => ?_
    have hm₂ : m₁.Appended ROOTINO (entryBytes (files.length + 2) f.shortname) m₂ := hm₂
    refine (pieces_spec f.pieces hm₂.built (by rw [hnew m₂ hm₂]; exact Itype.noConfusion)).1.mono
      fun r hr => ?_
    exact h.add hm₁ hm₂ hr
  · have hdemand := demand_append files f
    have hzero : blocksFor 0 = 0 := rfl
    rw [hroot, h.size, length_entryBytes, hm₁.freeblock, h.freeblock] at hok
    obtain ⟨m₂, hrun₂⟩ := hok (by
      have hd : Dirent.size = 16 := rfl
      have hn : NINODES = 200 := rfl
      have hm : MAXFILE * BSIZE = 274432 := rfl
      rw [hd, hm]
      omega) (by omega)
    have hm₂ : m₁.Appended ROOTINO (entryBytes (files.length + 2) f.shortname) m₂ :=
      hfirst.of_ok hrun₂
    have hspent := hm₂.spent
    rw [hroot, h.size, length_entryBytes, hm₁.freeblock, h.freeblock] at hspent
    obtain ⟨-, hrest⟩ := pieces_spec f.pieces hm₂.built
      (show (m₂.inode (files.length + 2)).type ≠ .free by rw [hnew m₂ hm₂]; exact Itype.noConfusion)
    rw [hnew m₂ hm₂, Nat.zero_add, hzero] at hrest
    rw [run_bind_ok hrun₂]
    exact hrest hsmall (by unfold HostFile.bytes at hdemand; omega)

theorem demand_le (pre files : List HostFile) : demand pre ≤ demand (pre ++ files) := by
  have hmono : blocksFor (Dirent.size * (pre.length + 2)) ≤
      blocksFor (Dirent.size * (pre.length + files.length + 2)) :=
    blocksFor_mono (Nat.mul_le_mul_left _ (by omega))
  unfold demand
  rw [List.length_append, List.map_append, List.sum_append]
  omega

/-- The files have names without slashes, none is too large, and there are blocks for all of them. -/
structure Fits (files : List HostFile) : Prop where
  names : ∀ f ∈ files, slash ∉ f.base
  small : ∀ f ∈ files, f.bytes.length ≤ MAXFILE * BSIZE
  blocks : nmeta + demand files ≤ FSSIZE

/-- So are all the files, if they fit. -/
theorem files_spec {pre : List HostFile} (h : m.Made pre)
    (hroom : pre.length + files.length + 2 ≤ NINODES) :
    Answers (files.forM (addFile ROOTINO) m) (fun r => r.2.Made (pre ++ files)) ∧
      (Fits (pre ++ files) → ∃ m', files.forM (addFile ROOTINO) m = .ok ((), m')) := by
  induction files generalizing m pre with
  | nil =>
    rw [List.append_nil]
    exact ⟨h, fun _ => ⟨m, rfl⟩⟩
  | cons f files ih =>
    rw [List.length_cons] at hroom
    have hcons : (f :: files).forM (addFile ROOTINO) m =
        (addFile ROOTINO f >>= fun _ => files.forM (addFile ROOTINO)) m := rfl
    have happend : pre ++ f :: files = pre ++ [f] ++ files := List.append_cons ..
    have hlater : (pre ++ [f]).length + files.length + 2 ≤ NINODES := by
      rw [List.length_append, List.length_singleton]
      omega
    obtain ⟨hfirst, hok⟩ := addFile_spec h (by omega) f
    rw [hcons, happend]
    refine ⟨Post.seq hfirst fun _ m₁ hm₁ => (ih hm₁ hlater).1, fun hfits => ?_⟩
    have hmem : f ∈ pre ++ [f] ++ files := by simp
    have hle := demand_le (pre ++ [f]) files
    have hblocks := hfits.blocks
    obtain ⟨m₁, hrun⟩ := hok (hfits.names f hmem) (hfits.small f hmem) (by omega)
    rw [run_bind_ok hrun]
    exact (ih (hfirst.of_ok hrun) hlater).2 hfits

/-! ### The start -/

/-- The image with nothing but the superblock. -/
def blank : State := ⟨update (fun _ => zeroBlock) 1 superblock, FSSIZE, 1, nmeta⟩

theorem zero_spec {n : Nat} (h : n ≤ FSSIZE) : (List.range n).forM (fun i => wsect i zeroBlock) start =
    .ok ((), { start with sectors := n }) := by
  induction n with
  | zero => rfl
  | succ n ih =>
    have hsplit : (List.range (n + 1)).forM (fun i => wsect i zeroBlock) =
        (do (List.range n).forM fun i => wsect i zeroBlock
            wsect n zeroBlock : Code Unit) := by
      rw [List.range_succ]
      exact List.forM_append.trans (by simp)
    rw [hsplit, run_bind_ok (ih (by omega))]
    unfold wsect
    rw [run_modify, seek_eq (by omega)]
    have hdisk : update start.disk n zeroBlock = start.disk :=
      update_eq_self_iff.mpr rfl
    show Except.ok ((), (⟨update start.disk n zeroBlock, max n (n + 1), 1, nmeta⟩ : State)) = _
    rw [hdisk, Nat.max_eq_right (Nat.le_succ n)]
    rfl

theorem byte_zeroBlock (j : Nat) : Bytes.byte zeroBlock j = 0 := by
  unfold Bytes.byte
  split <;> rfl

theorem ofBytes_zero : Dinode.ofBytes (fun _ => 0) = .zero := by
  have hbyte : ∀ j, Bytes.byte (fun _ => 0 : RawDinode) j = 0 := by
    intro j
    unfold Bytes.byte
    split <;> rfl
  have hhalf : ∀ j, Bytes.half (fun _ => 0 : RawDinode) j = 0 := by
    intro j
    simp [Bytes.half, hbyte]
  have hword : ∀ j, Bytes.word (fun _ => 0 : RawDinode) j = 0 := by
    intro j
    simp [Bytes.word, hbyte]
  unfold Dinode.ofBytes
  simp only [hhalf, hword]
  rfl

theorem blank_inode (i : Nat) : blank.inode i = .zero := by
  unfold State.inode Disk.inode
  split
  · rename_i hi
    have hne : mkfsSuperblock.iblock i ≠ 1 := by
      have hblock := (iblock_lt hi).1
      have hstart : mkfsSuperblock.inodestart = 32 := rfl
      omega
    have hdisk : blank.disk (mkfsSuperblock.iblock i) = zeroBlock :=
      update_of_ne hne superblock fun _ => zeroBlock
    have hrecord : Bytes.record 64 zeroBlock (i % IPB) = fun _ => 0 :=
      funext fun j => byte_zeroBlock _
    unfold Disk.rawInode
    rw [hdisk, hrecord, ofBytes_zero]
  · rfl

theorem blank_built : blank.Built := by
  have hslot : ∀ q, (blank.vol []).slot q = 0 := by
    have haddr : ∀ i k, (blank.vol []).addr i k = 0 := by
      intro i k
      unfold Vol.addr
      rw [blank.view_eq, blank_inode]
      rfl
    intro q
    cases q with
    | addr i k => exact haddr i k
    | entry i j => exact if_pos (haddr i single)
  have hsize : ∀ i, ((blank.vol []).view i).size = 0 := by
    intro i
    rw [blank.view_eq, blank_inode]
    rfl
  have hnone : ∀ i bn, (blank.vol []).blockOf i bn = 0 := by
    intro i bn
    unfold Vol.blockOf
    split
    · exact hslot _
    · split
      · exact hslot _
      · rfl
  refine ⟨⟨rfl, Nat.le_refl _, by decide, fun b hb _ => ?_⟩, ⟨⟨by decide, ?_, ?_, ?_⟩, ?_⟩,
    fun i => ⟨fun bn => ?_, ?_⟩, fun i _ => blank_inode i⟩
  · have hb : nmeta ≤ b := hb
    have hne : b ≠ 1 := by
      have hm : nmeta = 46 := rfl
      omega
    exact update_of_ne hne superblock fun _ => zeroBlock
  · exact fun q hq => absurd (hslot q) hq
  · exact fun q _ hq => absurd (hslot q) hq
  · intro b hb hused
    have hlow := (isData_iff.mp hb).1
    have hlt : b < nmeta := of_decide_eq_true hused
    omega
  · exact fun b hb => decide_eq_true (show b < nmeta from hb)
  · rw [hnone, hsize]
    exact ⟨fun h => absurd rfl h, fun h => absurd h (Nat.not_lt_zero _)⟩
  · rw [hsize]
    exact ⟨fun h => absurd (hslot (.addr i single)) h, fun h => absurd h (Nat.not_lt_zero _)⟩

/-- Formatting makes the empty image. -/
theorem format_spec : ∃ m, format start = .ok (ROOTINO, m) ∧ m.Made [] := by
  obtain ⟨m₁, halloc, hm₁⟩ := ialloc_spec blank_built (by decide) typeDir
  have hnew : m₁.inode ROOTINO = ⟨.dir, 0, 0, 1, 0, fun _ => 0⟩ := hm₁.new
  obtain ⟨hdot, hok⟩ := iappend_spec hm₁.built
    (show (m₁.inode ROOTINO).type ≠ .free by rw [hnew]; exact Itype.noConfusion)
    (entryBytes ROOTINO [46])
  have hfree₁ : m₁.freeblock = nmeta := hm₁.freeblock
  rw [hnew, length_entryBytes, hfree₁] at hok
  obtain ⟨m₂, hrun₂⟩ := hok (by decide) (by decide)
  have hm₂ : m₁.Appended ROOTINO (entryBytes ROOTINO [46]) m₂ := hdot.of_ok hrun₂
  have htype₂ : (m₂.inode ROOTINO).type = .dir := by rw [hm₂.type, hnew]
  have hsize₂ : (m₂.inode ROOTINO).size = Dirent.size := by
    rw [hm₂.size, hnew, length_entryBytes]
    rfl
  obtain ⟨hdots, hok⟩ := iappend_spec hm₂.built
    (show (m₂.inode ROOTINO).type ≠ .free by rw [htype₂]; exact Itype.noConfusion)
    (entryBytes ROOTINO [46, 46])
  have hfree₂ : m₂.freeblock = nmeta + 1 := by
    have hspent := hm₂.spent
    rw [hnew, length_entryBytes, hfree₁] at hspent
    exact hspent
  rw [hsize₂, length_entryBytes, hfree₂] at hok
  obtain ⟨m₃, hrun₃⟩ := hok (by decide) (by decide)
  have hm₃ : m₂.Appended ROOTINO (entryBytes ROOTINO [46, 46]) m₃ := hdots.of_ok hrun₃
  have hboot : ∀ b, b < mkfsSuperblock.inodestart → m₃.disk b = blank.disk b := fun b hb =>
    (hm₃.boot b hb).trans ((hm₂.boot b hb).trans (hm₁.boot b hb))
  refine ⟨m₃, ?_, hm₃.built, ⟨?_, ?_⟩, ?_, ?_, ?_, ?_, fun i f hi => by cases hi⟩
  · have hblank : wsect 1 superblock { start with sectors := FSSIZE } = .ok ((), blank) := rfl
    have halloc : ialloc typeDir blank = .ok (ROOTINO, m₁) := halloc
    unfold format
    rw [run_bind_ok (zero_spec (Nat.le_refl _)), run_bind_ok hblank, run_bind_ok halloc, if_pos rfl,
      run_bind_ok hrun₂, run_bind_ok hrun₃]
    rfl
  · rw [hboot 1 (by decide)]
    rfl
  · rw [hboot 2 (by decide)]
    rfl
  · rw [hm₃.freeinode, hm₂.freeinode, hm₁.freeinode]
    rfl
  · have hspent := hm₃.spent
    have hone : blocksFor Dirent.size = 1 := rfl
    have hdemand : demand [] = blocksFor (Dirent.size + Dirent.size) := rfl
    rw [hsize₂, length_entryBytes, hfree₂] at hspent
    omega
  · rw [hm₃.type, htype₂]
  · have hempty : m₁.content ROOTINO = [] := by
      rw [← List.length_eq_zero_iff, m₁.length_content, hnew]
    rw [hm₃.content, hm₂.content, hempty]
    rfl

end Main

end Mkfs

end Xv6.Fs
