import Xv6.Fs.Image

/-!
# From `mkfs` to the kernel

The image that `mkfs` writes is mounted by `fsinit`. The root directory has an entry for each file, so
that `namei` finds it, and `readi` gives back its bytes. The directory may be larger than its
entries, and may even lack its last block (see `allocated_root_iff`), but that lies behind the
last entry, where a look-up that succeeds does not get.
-/

namespace Xv6.Fs

open Base Function

/-! ## Mounting -/

theorem recoverFromLog_empty {d : Disk} {start : Nat} (h : d start = zeroBlock) :
    ∃ s, recoverFromLog start (.boot d) = .ok s ∧ s.cache = d := by
  have hzero : headBlock zeroBlock [] = zeroBlock := by
    funext j
    show (if _ then Bytes.digit 0 _ else (0 : UInt8)) = 0
    split
    · unfold Bytes.digit
      rw [Nat.zero_div]
      rfl
    · rfl
  have hhead : readHead zeroBlock = .ok [] := by
    have hword : Bytes.word zeroBlock 0 = 0 := by
      unfold Bytes.word
      simp [Mkfs.byte_zeroBlock]
    have hn : headN zeroBlock = 0 := by
      unfold headN
      rw [hword]
      rfl
    unfold readHead
    rw [hn, if_neg (by decide)]
    rfl
  refine ⟨writeHead start [] (.boot d), ?_, ?_⟩
  · unfold recoverFromLog
    rw [show (Buffers.boot d).cache start = zeroBlock from h, hhead]
    rfl
  · show update d start (headBlock (d start) []) = d
    rw [h, hzero, ← h, update_eq_self]

/-! ## Looking up one name -/

section Names

variable {sb : Superblock} {s : Vol} {dp i j fuel : Nat} {name path rest : List UInt8}

theorem skipelem_slash (path : List UInt8) : skipelem (slash :: path) = skipelem path := by
  unfold skipelem
  rw [List.dropWhile_cons_of_pos (by decide)]

/-- A name is the only element of its path. -/
theorem skipelem_name (hne : name ≠ []) (hslash : slash ∉ name) (hzero : ∀ c ∈ name, c ≠ 0)
    (hlen : name.length ≤ DIRSIZ) : skipelem name = some (name, []) := by
  have hall : name.takeWhile (fun c => decide (c ≠ slash) && decide (c ≠ 0)) = name := by
    refine List.takeWhile_eq_self_iff.mpr fun c hc => ?_
    rw [Bool.and_eq_true, decide_eq_true_eq, decide_eq_true_eq]
    exact ⟨fun he => hslash (he ▸ hc), hzero c hc⟩
  have hdrop : name.dropWhile (fun c => decide (c = slash)) = name := by
    refine List.dropWhile_eq_self_iff.mpr fun hpos hc => ?_
    have he := of_decide_eq_true hc
    exact hslash (he ▸ List.getElem_mem hpos)
  have hhead : name.headD 0 ≠ 0 := by
    cases name with
    | nil => exact absurd rfl hne
    | cons c name => exact hzero c (List.mem_cons_self ..)
  unfold skipelem
  simp only [hdrop, hall, if_neg hhead, List.take_of_length_le hlen, List.drop_length]
  rfl

theorem idup_ok (h : 0 < (s.itable i).ref) : idup i s = .ok ((), s.gets i) := by
  rw [Vol.gets_of_ref h]
  rfl

theorem Vol.gets_pos (s : Vol) (i : Nat) : 0 < ((s.gets i).itable i).ref := by
  by_cases hpos : 0 < (s.itable i).ref
  · rw [gets_of_ref hpos]
    simp only [update_self]
    omega
  · rw [gets_of_free hpos]
    simp only [update_self]
    decide

theorem Vol.lock_ref (s : Vol) (ip : Nat) :
    ((s.lock ip).itable ip).ref = (s.itable ip).ref ∧ (s.lock ip).inuse = s.inuse := by
  unfold lock
  split
  · exact ⟨rfl, rfl⟩
  · simp only [update_self, and_self]

theorem namexLoop_name (h : s.Sound sb) (hheld : s.Held sb dp) (hfile : s.DirFile dp)
    (hroom : s.inuse.length < NINODE) (hpath : skipelem path = some (name, rest))
    (hrest : skipelem rest = none) (hi : i ≠ dp) (hj : j < s.entries dp)
    (hthere : ∀ l, l ≤ j → s.blockOf dp (Dirent.size * l / BSIZE) ≠ 0)
    (hpass : ∀ l, l < j → key (s.dirent dp l).name ≠ key name)
    (hslot : (s.dirent dp j).slot = some (key name, i)) :
    ∃ t, namexLoop sb false (fuel + 2) dp path (s.gets dp) = .ok (some (i, []), t) ∧
      SameFiles s t ∧ 0 < (t.itable i).ref := by
  have href := hheld.ref
  have hgets := Vol.gets_of_ref href
  have hx₁ : (s.gets dp).itable dp = { s.itable dp with ref := (s.itable dp).ref + 1 } := by
    rw [hgets]
    exact update_self ..
  have hinuse₁ : (s.gets dp).inuse = s.inuse := by rw [hgets]
  have hsame₁ := s.gets_same dp
  have hheld₁ : (s.gets dp).Held sb dp := by
    refine ⟨?_, hheld.inum, ?_⟩
    · rw [hx₁]
      exact Int.lt_trans href (Int.lt_succ _)
    · rw [hsame₁.view]
      exact hheld.type
  generalize s.gets dp = s₁ at hx₁ hinuse₁ hsame₁ hheld₁
  obtain ⟨href₂, hinuse₂⟩ := s₁.lock_ref dp
  have hlive := hheld₁.live
  have hsame₂ := hsame₁.trans (Vol.lock_same hheld₁.ref)
  have hlock := ilock_held hheld₁
  generalize s₁.lock dp = s₂ at href₂ hinuse₂ hlive hsame₂ hlock
  have hfile₂ := hsame₂.dirFile hfile
  obtain ⟨hdirent, hentries, -⟩ := hsame₂.dir dp
  have htype : (s₂.itable dp).type = .dir := by
    rw [← hlive.view]
    exact hfile₂.type
  have hlookup : dirlookup sb dp name s₂ = .ok (some (i, Dirent.size * j), s₂.gets i) := by
    rw [dirlookup_found (hsame₂.sound h) hlive hfile₂ (by rwa [hentries])
      (fun l hl => by rw [Vol.blockOf_congr hsame₂.slot]; exact hthere l hl)
      (fun l hl => by rw [hdirent]; exact hpass l hl) (by rwa [hdirent]),
      run_bind_ok (iget_ok (.inr (by rwa [hinuse₂, hinuse₁])))]
    rfl
  have href₃ : 1 < ((s₂.gets i).itable dp).ref := by
    rw [Vol.gets_of_ne (Ne.symm hi), href₂, hx₁]
    show 1 < (s.itable dp).ref + 1
    omega
  have hspare : (s₂.gets i).Spare dp := .inl href₃
  have hput : iunlockput sb dp (s₂.gets i) = .ok ((), (s₂.gets i).puts dp) := by
    unfold iunlockput iunlock
    rw [bind_assoc, run_get_bind]
    show ((if _ then _ else _ : M Unit) >>= _) _ = _
    rw [if_neg (by omega)]
    exact iput_ok hspare.not_last
  refine ⟨(s₂.gets i).puts dp, ?_, (hsame₂.trans (s₂.gets_same i)).trans hspare.puts, ?_⟩
  · rw [namexLoop, hpath]
    show (ilock sb dp >>= _) s₁ = _
    rw [run_bind_ok hlock, run_get_bind]
    show (if _ then _ else _ : M (Option (Nat × List UInt8))) s₂ = _
    rw [if_neg (not_not.mpr htype), if_neg (fun hc => Bool.noConfusion hc.1), run_bind_ok hlookup]
    show (iunlockput sb dp >>= _) (s₂.gets i) = _
    rw [run_bind_ok hput, namexLoop, hrest]
    rfl
  · rw [Vol.puts_of_ne hi]
    exact s₂.gets_pos i

end Names

namespace Mkfs

/-! ## The root directory -/

/-- The name that a file gets in the directory: the short name, cut to `DIRSIZ` bytes. -/
def HostFile.name (f : HostFile) : List UInt8 := f.shortname.take DIRSIZ

/-- The numbers and names in the root directory. -/
def rootEntries (files : List HostFile) : List (Nat × List UInt8) :=
  (ROOTINO, [46]) :: (ROOTINO, [46, 46]) :: files.zipIdx.map fun x => (x.2 + 2, x.1.shortname)

theorem flatMap_piece {α β : Type} {f : α → List β} {n : Nat} (hf : ∀ a, (f a).length = n)
    {l : List α} {k : Nat} {a : α} (h : l[k]? = some a) :
    ((l.flatMap f).drop (n * k)).take n = f a := by
  induction l generalizing k with
  | nil => cases h
  | cons b l ih =>
    rw [List.flatMap_cons]
    cases k with
    | zero =>
      cases h
      rw [Nat.mul_zero, List.drop_zero, List.take_left' (hf a)]
    | succ k =>
      rw [Nat.mul_succ, Nat.add_comm, ← List.drop_drop, List.drop_left' (hf b)]
      exact ih h

section Image

variable {m : State} {files : List HostFile} {f : HostFile} {i k : Nat}

theorem rootBytes_eq (files : List HostFile) :
    rootBytes files = (rootEntries files).flatMap fun e => entryBytes e.1 e.2 := by
  unfold rootBytes rootEntries
  rw [List.flatMap_cons, List.flatMap_cons, List.flatMap_map, List.append_assoc]

theorem length_rootEntries (files : List HostFile) :
    (rootEntries files).length = files.length + 2 := by
  unfold rootEntries
  rw [List.length_cons, List.length_cons, List.length_map, List.length_zipIdx]

theorem rootEntries_file (hi : files[i]? = some f) :
    (rootEntries files)[i + 2]? = some (i + 2, f.shortname) := by
  unfold rootEntries
  rw [List.getElem?_cons_succ, List.getElem?_cons_succ, List.getElem?_map, List.getElem?_zipIdx, hi,
    Nat.zero_add]
  rfl

theorem State.Made.byteAt_finish (h : m.Made files) (i x : Nat) :
    m.finish.image.byteAt i x = (m.vol []).byteAt i x := by
  unfold Vol.byteAt
  rw [Vol.blockOf_congr (finish_slot h.small), m.finish_data]

/-- The kernel reads the entries that `mkfs` wrote. -/
theorem State.Made.dirent (h : m.Made files) {e : Nat × List UInt8}
    (hk : (rootEntries files)[k]? = some e) :
    m.finish.image.dirent ROOTINO k = ⟨e.1 % 2 ^ 16, strncpy e.2 DIRSIZ⟩ := by
  have hlt : k < files.length + 2 := by
    rw [← length_rootEntries]
    exact (List.getElem?_eq_some_iff.mp hk).1
  have hcount : min Dirent.size (((m.vol []).view ROOTINO).size - Dirent.size * k) = Dirent.size := by
    have hd : Dirent.size = 16 := rfl
    rw [m.view_eq, h.size, hd]
    omega
  have hread := (m.vol []).read_eq ROOTINO (Dirent.size * k) Dirent.size
  have hbytes : (m.vol []).read ROOTINO (Dirent.size * k) Dirent.size = entryBytes e.1 e.2 := by
    have hcontent : (m.vol []).content ROOTINO = rootBytes files := h.entries
    unfold Vol.read
    rw [hcontent, rootBytes_eq]
    exact flatMap_piece (fun e => length_entryBytes e.1 e.2) hk
  rw [hcount, hbytes] at hread
  unfold Vol.dirent
  simp only [h.byteAt_finish]
  rw [← hread]
  exact Dirent.ofBytes_bytes (Nat.mod_lt _ (by decide))

/-! ### Names -/

theorem HostFile.shortname_subset (f : HostFile) {c : UInt8} (hc : c ∈ f.shortname) : c ∈ f.base := by
  unfold shortname at hc
  split at hc
  · exact List.mem_of_mem_tail hc
  · exact hc

theorem HostFile.shortname_string (f : HostFile) {c : UInt8} (hc : c ∈ f.shortname) : c ≠ 0 := by
  have hbase := f.shortname_subset hc
  unfold base at hbase
  split at hbase
  · exact f.string c (List.mem_of_mem_drop hbase)
  · exact f.string c hbase

theorem HostFile.key_shortname (f : HostFile) : key f.shortname = f.name := by
  unfold key upTo
  refine List.takeWhile_eq_self_iff.mpr fun c hc => ?_
  exact bne_iff_ne.mpr (f.shortname_string (List.mem_of_mem_take hc))

theorem HostFile.key_name (f : HostFile) : key f.name = f.name := by
  have htake : f.name.take DIRSIZ = f.shortname.take DIRSIZ := by
    unfold name
    rw [List.take_take, Nat.min_self]
  have hkey := f.key_shortname
  unfold key upTo at hkey ⊢
  rw [htake, hkey]

/-- The names that the image can hold, and that `namei` can find. -/
structure Names (files : List HostFile) : Prop where
  nonempty : ∀ f ∈ files, f.name ≠ []
  plain : ∀ f ∈ files, slash ∉ f.name
  different : files.Pairwise fun f g => f.name ≠ g.name
  dot : ∀ f ∈ files, f.name ≠ [46]
  dots : ∀ f ∈ files, f.name ≠ [46, 46]

/-! ### The files -/

theorem State.Made.dirFile (h : m.Made files) (hroom : files.length + 2 ≤ NINODES) :
    m.finish.image.DirFile ROOTINO ∧ files.length + 2 ≤ m.finish.image.entries ROOTINO := by
  have hb : BSIZE = 1024 := rfl
  have hd : Dirent.size = 16 := rfl
  have hn : NINODES = 200 := rfl
  have hm : MAXFILE = 268 := rfl
  have hview : m.finish.image.view ROOTINO =
      { m.inode ROOTINO with size := (Dirent.size * (files.length + 2) / BSIZE + 1) * BSIZE } := by
    rw [m.finish.image_view, finish_inode h.small, update_self]
    unfold rounded
    rw [h.size]
  refine ⟨⟨?_, ?_, ?_⟩, ?_⟩
  · rw [hview]
    exact h.root
  · rw [hview, hb, hd]
    show (_ * 1024) % 16 = 0
    omega
  · rw [hview, hb, hd, hm]
    show (_ * 1024) ≤ _
    omega
  · unfold Vol.entries
    rw [hview, hb, hd]
    show _ ≤ _ * 1024 / 16
    omega

/-- The entry of a file is the first one with its name, and its block is there. -/
theorem State.Made.entry (h : m.Made files) (hroom : files.length + 2 ≤ NINODES)
    (hnames : Names files) (hi : files[i]? = some f) :
    (∀ l, l ≤ i + 2 → m.finish.image.blockOf ROOTINO (Dirent.size * l / BSIZE) ≠ 0) ∧
      (∀ l, l < i + 2 → key (m.finish.image.dirent ROOTINO l).name ≠ key f.name) ∧
      (m.finish.image.dirent ROOTINO (i + 2)).slot = some (key f.name, i + 2) := by
  have hlt : i < files.length := (List.getElem?_eq_some_iff.mp hi).1
  have hmem : f ∈ files := List.mem_of_getElem? hi
  refine ⟨fun l hl => ?_, fun l hl => ?_, ?_⟩
  · have hb : BSIZE = 1024 := rfl
    have hd : Dirent.size = 16 := rfl
    rw [h.blockOf_finish, h.size, hb, hd]
    omega
  · rw [f.key_name]
    match l with
    | 0 =>
      rw [h.dirent (e := (ROOTINO, [46])) rfl, key_strncpy]
      exact (hnames.dot f hmem).symm
    | 1 =>
      rw [h.dirent (e := (ROOTINO, [46, 46])) rfl, key_strncpy]
      exact (hnames.dots f hmem).symm
    | l + 2 =>
      have hl' : l < i := by omega
      have hg : files[l]? = some (files[l]) := List.getElem?_eq_getElem (Nat.lt_trans hl' hlt)
      rw [h.dirent (rootEntries_file hg), key_strncpy, HostFile.key_shortname]
      have hdiff := List.pairwise_iff_getElem.mp hnames.different l i (Nat.lt_trans hl' hlt) hlt hl'
      rwa [(List.getElem?_eq_some_iff.mp hi).2] at hdiff
  · have hn : NINODES = 200 := rfl
    rw [h.dirent (rootEntries_file hi), Dirent.slot_eq_some_iff, Nat.mod_eq_of_lt (by omega), key_strncpy,
      HostFile.key_shortname, f.key_name]
    exact ⟨Nat.succ_ne_zero _, rfl, rfl⟩

/-- A kernel that has changed nothing, where the root directory is in use and the inode table has
room. -/
structure Ready (v s : Vol) : Prop where
  files : SameFiles v s
  root : s.Held mkfsSuperblock ROOTINO
  room : s.inuse.length < NINODE

/-- `namei` finds each file, by its name and by its path from the root. -/
theorem namei_file {s : Vol} (h : m.Made files) (hroom : files.length + 2 ≤ NINODES)
    (hnames : Names files) (hi : files[i]? = some f) (hs : Ready m.finish.image s)
    {path : List UInt8} (hpath : path ∈ [f.name, slash :: f.name]) :
    ∃ t, namei mkfsSuperblock ROOTINO path s = .ok (some (i + 2), t) ∧ SameFiles s t ∧
      0 < (t.itable (i + 2)).ref := by
  have hlt : i < files.length := (List.getElem?_eq_some_iff.mp hi).1
  have hmem : f ∈ files := List.mem_of_getElem? hi
  have hr : ROOTINO = 1 := rfl
  obtain ⟨hfile, hentries⟩ := h.dirFile hroom
  obtain ⟨hthere, hpass, hslot⟩ := h.entry hroom hnames hi
  obtain ⟨hdirent, hsame, -⟩ := hs.files.dir ROOTINO
  have hname : skipelem f.name = some (f.name, []) := by
    refine skipelem_name (hnames.nonempty f hmem) (hnames.plain f hmem) (fun c hc => ?_) ?_
    · exact f.shortname_string (List.mem_of_mem_take hc)
    · exact (List.length_take_le ..)
  have helem : skipelem path = some (f.name, []) := by
    rcases List.mem_pair.mp hpath with rfl | rfl
    · exact hname
    · rw [skipelem_slash, hname]
  obtain ⟨n, hn⟩ : ∃ n, path.length = n + 1 := by
    refine Nat.exists_eq_succ_of_ne_zero fun hz => ?_
    rw [List.length_eq_zero_iff.mp hz] at helem
    cases helem
  obtain ⟨t, hrun, ht, href⟩ := @namexLoop_name mkfsSuperblock s ROOTINO (i + 2) (i + 2) n f.name
    path [] (hs.files.sound h.sound) hs.root (hs.files.dirFile hfile) hs.room helem rfl (by omega)
    (by omega) (fun l hl => by rw [Vol.blockOf_congr hs.files.slot]; exact hthere l hl)
    (fun l hl => by rw [hdirent]; exact hpass l hl) (by rwa [hdirent])
  refine ⟨t, ?_, ht, href⟩
  have hfuel : path.length + 1 = n + 2 := by omega
  have hnamex : namex mkfsSuperblock ROOTINO path false s = .ok (some (i + 2, []), t) := by
    unfold namex
    rw [run_ite, hfuel]
    split
    · rw [run_bind_ok (iget_ok (.inl hs.root.ref))]
      exact hrun
    · rw [run_bind_ok (idup_ok hs.root.ref)]
      exact hrun
  unfold namei
  rw [run_bind_ok hnamex]
  rfl

/-- `readi` answers the bytes of a file without holes, and nothing happens. -/
theorem readi_allocated {sb : Superblock} {s : Vol} {ip : Nat} (h : s.Sound sb) (hip : s.Live ip)
    (hall : s.Allocated ip) (hmax : (s.view ip).size ≤ MAXFILE * BSIZE) {dst : Buffer} {off n : Nat}
    (hdst : dst.Good n) (hwrap : off + n < 2 ^ 32) :
    readi sb ip dst off n s = .ok (((s.read ip off n).length, s.read ip off n), s) := by
  by_cases hoff : off ≤ (s.view ip).size
  · have hzero : s.lacking ip (off / BSIZE) (blocksEnd off (min n ((s.view ip).size - off))) = 0 := by
      refine Vol.lacking_eq_zero fun bn hlo hhi => hall bn ?_
      have hb : BSIZE = 1024 := rfl
      unfold blocksEnd at hhi
      rw [hb] at hlo hhi ⊢
      omega
    obtain ⟨s', hok, hfilled, -⟩ := readi_inside h hip hdst hoff hwrap hmax (Nat.le_refl _)
      (Nat.le_refl _) (by rw [hzero]; exact Nat.zero_le _)
    rw [hok, hfilled.same hzero]
  · have hempty : s.read ip off n = [] := by
      rw [Vol.read_eq, Nat.sub_eq_zero_of_le (Nat.le_of_not_le hoff), Nat.min_zero]
      rfl
    rw [readi_outside hip (.inl (Nat.lt_of_not_le hoff)), hempty]
    rfl

/-- `namei` of the root itself, which makes it the current directory of the first process. -/
theorem namei_root (h : m.Made files) (cwd : Nat) :
    ∃ s, namei mkfsSuperblock cwd [slash] m.finish.image = .ok (some ROOTINO, s) ∧
      Ready m.finish.image s := by
  have hget : iget ROOTINO m.finish.image = .ok ((), m.finish.image.gets ROOTINO) :=
    iget_ok (.inr (show 0 < NINODE by decide))
  have hnamex : namex mkfsSuperblock cwd [slash] false m.finish.image =
      .ok (some (ROOTINO, []), m.finish.image.gets ROOTINO) := by
    unfold namex
    rw [run_ite, if_pos (show [slash].headD 0 = slash from rfl), run_bind_ok hget]
    rfl
  refine ⟨m.finish.image.gets ROOTINO, ?_, m.finish.image.gets_same ROOTINO, ⟨?_, ?_, ?_⟩, ?_⟩
  · unfold namei
    rw [run_bind_ok hnamex]
    rfl
  · exact m.finish.image.gets_pos ROOTINO
  · decide
  · rw [(m.finish.image.gets_same ROOTINO).view, m.finish.image_view, State.finish_inode h.small,
      update_self]
    show (m.inode ROOTINO).type ≠ .free
    rw [h.root]
    decide
  · rw [Vol.gets_of_free (s := m.finish.image) (i := ROOTINO) (by exact Int.lt_irrefl 0)]
    exact (by decide : 1 < NINODE)

theorem readsb_superblock : readsb superblock = some mkfsSuperblock := by
  unfold readsb
  rw [dif_pos (by decide)]
  rfl

/-- The kernel mounts the image. -/
theorem fsinit_finish (h : m.Made files) :
    fsinit m.finish.disk = .ok (mkfsSuperblock, m.finish.image) := by
  have hlow : ∀ b, b < mkfsSuperblock.inodestart → m.finish.disk b = m.disk b := by
    intro b hb
    have hblock := (iblock_lt (show ROOTINO < NINODES by decide)).1
    have hmap : mkfsSuperblock.inodestart < mkfsSuperblock.bmapstart := by decide
    unfold State.finish State.putInode
    rw [State.put_of_ne _ (Nat.ne_of_lt (by omega)), State.put_of_ne _ (Nat.ne_of_lt (by omega))]
  obtain ⟨hone, htwo⟩ := h.boot
  rw [← hlow 1 (by decide)] at hone
  rw [← hlow 2 (by decide)] at htwo
  obtain ⟨s, hrecover, hcache⟩ := recoverFromLog_empty htwo
  have hmagic : superblock.word 0 = FSMAGIC := rfl
  have hlog : superblock.word 5 = 2 := rfl
  unfold fsinit
  rw [hone, if_pos hmagic, readsb_superblock, hlog]
  show (recoverFromLog 2 _ >>= _) = _
  rw [hrecover, ok_bind, hcache]
  rfl

/-! ## There and back -/

/-- The inode is a file with these bytes: `ilock` finds its type and its size, and `readi` answers
them. -/
structure HasFile (t : Vol) (ip : Nat) (bytes : List UInt8) : Prop where
  lock : ilock mkfsSuperblock ip t = .ok ((), t.lock ip)
  type : ((t.lock ip).itable ip).type = .file
  size : ((t.lock ip).itable ip).size = bytes.length
  read : ∀ (dst : Buffer) (off n : Nat), dst.Good n → off + n < 2 ^ 32 →
    readi mkfsSuperblock ip dst off n (t.lock ip) =
      .ok ((((bytes.drop off).take n).length, (bytes.drop off).take n), t.lock ip)

theorem State.Made.hasFile (h : m.Made files) (hi : files[i]? = some f) {t : Vol}
    (ht : SameFiles m.finish.image t) (href : 0 < (t.itable (i + 2)).ref) :
    HasFile t (i + 2) f.bytes := by
  have hne : i + 2 ≠ ROOTINO := by
    have hr : ROOTINO = 1 := rfl
    omega
  obtain ⟨htype, hcontent⟩ := h.file i f hi
  have hfree : (m.inode (i + 2)).type ≠ .free := by
    rw [htype]
    decide
  have hview : m.finish.image.view (i + 2) = m.inode (i + 2) := by
    rw [m.finish.image_view, finish_inode h.small, update_of_ne hne]
  have hheld : t.Held mkfsSuperblock (i + 2) :=
    ⟨href, State.lt_ninodes hfree, by rw [ht.view, hview]; exact hfree⟩
  have hlive := hheld.live
  have hsame := ht.trans (Vol.lock_same href)
  have hinode : (t.lock (i + 2)).view (i + 2) = m.inode (i + 2) := (hsame.view _).trans hview
  have hsize : (m.inode (i + 2)).size = f.bytes.length := by rw [← hcontent, m.length_content]
  have hbytes : (t.lock (i + 2)).content (i + 2) = f.bytes := by
    rw [← hcontent]
    unfold State.content Vol.content
    rw [hinode, m.view_eq]
    exact List.map_congr_left fun x _ => (hsame.byteAt _ x).trans (h.byteAt_finish _ x)
  refine ⟨ilock_held hheld, ?_, ?_, fun dst off n hdst hwrap => ?_⟩
  · rw [← hlive.view, hinode, htype]
  · rw [← hlive.size, hinode, hsize]
  · have hsmall : ((t.lock (i + 2)).view (i + 2)).size ≤ MAXFILE * BSIZE := by
      rw [hinode, ← m.view_eq []]
      exact (h.built.dense (i + 2)).small
    have hread := readi_allocated (hsame.sound h.sound) hlive
      (hsame.allocated (h.allocated_of_ne hne)) hsmall hdst hwrap
    unfold Vol.read at hread
    rwa [hbytes] at hread

/-- While the bits of `v` are set in the bitmap, `balloc` answers, with 0 or with a data block that `v`
does not use. -/
structure Guarded (sb : Superblock) (v : Vol) : Prop where
  unused : ∀ s, (∀ b, v.used b = true → s.used b = true) →
    ∃ b t, Fs.balloc sb s = .ok (b, t) ∧ (b = 0 ∨ sb.isData b = true ∧ ∀ p, v.slot p ≠ b)

theorem guarded_of_sound {sb : Superblock} {v : Vol} (hv : v.Sound sb) : Guarded sb v := by
  refine ⟨fun s hs => ?_⟩
  -- the bits of the metadata are set in `s` too, so the first free block lies behind it
  rcases balloc_spec fun b hb => hs b (hv.metadata b hb) with ⟨hfull, -⟩ | ⟨b, hdata, hfree, hok⟩
  · exact ⟨0, s, hfull, .inl rfl⟩
  · refine ⟨b, _, hok, .inr ⟨hdata, fun p hp => ?_⟩⟩
    have hz : v.slot p ≠ 0 := by
      rw [hp]
      exact Superblock.ne_zero hdata
    have hused := hs _ (hv.owned.held p hz).2
    rw [hp, hfree] at hused
    cases hused

theorem HostFile.slash_shortname (f : HostFile) (h : slash ∉ f.shortname) : slash ∉ f.base := by
  unfold shortname at h
  split at h
  · rename_i hhead
    intro hmem
    cases hbase : f.base with
    | nil =>
      rw [hbase] at hmem
      cases hmem
    | cons c rest =>
      rw [hbase] at hmem hhead h
      have hc : c = 95 := hhead
      rcases List.mem_cons.mp hmem with he | hrest
      · rw [hc] at he
        exact absurd he (by decide)
      · exact h hrest
  · exact h

/-- **`mkfs` and mounting is a round trip.** With room in the inode table and names that can be told
apart, `mkfs` makes an image if the names have no slash, no file is too large and there are blocks
for all of them. In every image it makes, the kernel finds each file by its name and reads back
its bytes, and `balloc` answers 0 or a data block that the image does not use. -/
theorem mkfs_roundtrip (hinodes : files.length + 2 ≤ NINODES) (hnames : Names files) :
    ((∀ f ∈ files, slash ∉ f.shortname) → (∀ f ∈ files, f.bytes.length ≤ MAXFILE * BSIZE) →
      nmeta + demand files ≤ FSSIZE → ∃ m, mkfs files = .ok m) ∧
    ∀ m, mkfs files = .ok m → ∃ v, fsinit m.disk = .ok (mkfsSuperblock, v) ∧
      (∃ s, namei mkfsSuperblock 0 [slash] v = .ok (some ROOTINO, s) ∧ Ready v s) ∧
      (∀ s, Ready v s → ∀ f ∈ files, ∀ path ∈ [f.name, slash :: f.name], ∃ ip t,
        namei mkfsSuperblock ROOTINO path s = .ok (some ip, t) ∧ HasFile t ip f.bytes) ∧
      Guarded mkfsSuperblock v := by
  obtain ⟨hmade, hok⟩ := mkfs_spec hinodes
  refine ⟨fun hslash hsmall hblocks => hok ⟨fun f hf => ?_, hsmall, hblocks⟩, fun m hm => ?_⟩
  · exact f.slash_shortname (hslash f hf)
  obtain ⟨m₀, hm₀, rfl⟩ := hmade m hm
  refine ⟨m₀.finish.image, fsinit_finish hm₀, namei_root hm₀ 0, fun s hs f hf path hpath => ?_,
    guarded_of_sound hm₀.sound⟩
  obtain ⟨i, hi⟩ := List.mem_iff_getElem?.mp hf
  obtain ⟨t, hrun, ht, href⟩ := namei_file hm₀ hinodes hnames hi hs hpath
  exact ⟨i + 2, t, hrun, hm₀.hasFile hi (hs.files.trans ht) href⟩

end Image

/-- The file `user/_cat` is `cat` in the image. -/
theorem mkfs_roundtrip_cat : ∃ m v s ip t, mkfs [threeBytes] = .ok m ∧
    fsinit m.disk = .ok (mkfsSuperblock, v) ∧
    namei mkfsSuperblock 0 [slash] v = .ok (some ROOTINO, s) ∧
    namei mkfsSuperblock ROOTINO [99, 97, 116] s = .ok (some ip, t) ∧ HasFile t ip [1, 2, 3] := by
  obtain ⟨hok, hall⟩ := @mkfs_roundtrip [threeBytes] (by decide)
    ⟨by decide, by decide, by decide, by decide, by decide⟩
  obtain ⟨m, hm⟩ := hok (by decide) (by decide) (by decide)
  obtain ⟨v, hv, ⟨s, hroot, hs⟩, hfiles, -⟩ := hall m hm
  obtain ⟨ip, t, ht, hfile⟩ := hfiles s hs threeBytes (List.mem_singleton.mpr rfl)
    [99, 97, 116] (by decide)
  exact ⟨m, v, s, ip, t, hm, hv, hroot, ht, hfile⟩

end Mkfs

end Xv6.Fs
