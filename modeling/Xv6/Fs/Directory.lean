import Xv6.Base.SlotTable
import Xv6.Fs.Content
import Xv6.Fs.Dir
import Xv6.Fs.Table

/-!
# Directories as tables

A directory is a file of fixed-size entries. An entry with inode number 0 is free, and free ones
are reused wherever they are. Names are compared by their first `DIRSIZ` bytes up to the
terminator (`key`), however long they are, and that is also what is stored, so a directory is a
table of slots under those keys (`Vol.dir`). `dirlookup`, `dirlink` and the clearing of an entry in
`sys_unlink` are `find`, `put` and freeing a slot of it.

The scans of these functions read the directory, and a read allocates a block that is missing. So
each of them may fill holes (`Filled`), and panics at a hole when the disk is full.
-/

namespace Xv6.Fs

open Base

/-! ## Names -/

section Names

variable {n : Nat} {p q t : List UInt8}

/-- The first `n` bytes of a string, up to its terminator. -/
def upTo (n : Nat) (s : List UInt8) : List UInt8 := (s.take n).takeWhile fun c => c != 0

/-- What names are compared by. -/
def key (name : List UInt8) : List UInt8 := upTo DIRSIZ name

theorem upTo_succ (n : Nat) (s : List UInt8) :
    upTo (n + 1) s = if s.headD 0 = 0 then [] else s.headD 0 :: upTo n s.tail := by
  cases s with
  | nil => rfl
  | cons c s =>
    unfold upTo
    rw [List.take_succ_cons, List.takeWhile_cons]
    by_cases hc : c = 0
    · subst hc
      rfl
    · have hne : (c != 0) = true := bne_iff_ne.mpr hc
      rw [if_pos hne]
      exact (if_neg hc).symm

/-- Equal heads of strings give 0, and only they. -/
theorem sub_toNat_eq_zero_iff {a b : UInt8} : (a.toNat : Int) - b.toNat = 0 ↔ a = b := by
  rw [← UInt8.toNat_inj]
  omega

/-- `strncmp` compares up to the first zero. -/
theorem strncmp_eq_zero_iff (n : Nat) (p q : List UInt8) :
    strncmp p q n = 0 ↔ upTo n p = upTo n q := by
  induction n generalizing p q with
  | zero => exact ⟨fun _ => rfl, fun _ => rfl⟩
  | succ n ih =>
    rw [strncmp, upTo_succ, upTo_succ]
    by_cases hp : p.headD 0 = 0
    · rw [if_neg fun hc => hc.1 hp, sub_toNat_eq_zero_iff, if_pos hp, hp]
      by_cases hq : q.headD 0 = 0
      · rw [if_pos hq, hq]
        exact ⟨fun _ => rfl, fun _ => rfl⟩
      · rw [if_neg hq]
        exact ⟨fun h => absurd h.symm hq, fun h => (by cases h)⟩
    · rw [if_neg hp]
      by_cases he : p.headD 0 = q.headD 0
      · have hq : ¬ q.headD 0 = 0 := he ▸ hp
        rw [if_pos ⟨hp, he⟩, ih, if_neg hq, he]
        exact ⟨fun h => by rw [h], fun h => (List.cons.inj h).2⟩
      · rw [if_neg fun hc => he hc.2, sub_toNat_eq_zero_iff]
        refine ⟨fun h => absurd h he, fun h => ?_⟩
        by_cases hq : q.headD 0 = 0
        · rw [if_pos hq] at h
          cases h
        · rw [if_neg hq] at h
          exact (List.cons.inj h).1

/-- `namecmp` compares keys. -/
theorem namecmp_eq_zero_iff (s t : List UInt8) : namecmp s t = 0 ↔ key s = key t :=
  strncmp_eq_zero_iff DIRSIZ s t

/-- `strncpy` copies up to the first zero. -/
theorem upTo_strncpy (n : Nat) (t : List UInt8) : upTo n (strncpy t n) = upTo n t := by
  induction n generalizing t with
  | zero => rfl
  | succ n ih =>
    rw [strncpy, upTo_succ, upTo_succ]
    by_cases ht : t.headD 0 = 0
    · rw [if_pos ht, if_pos ht]
      exact if_pos rfl
    · rw [if_neg ht, if_neg ht]
      show (if t.headD 0 = 0 then [] else t.headD 0 :: upTo n (strncpy t.tail n)) = _
      rw [if_neg ht, ih]

/-- A name is stored under its key. -/
theorem key_strncpy (name : List UInt8) : key (strncpy name DIRSIZ) = key name :=
  upTo_strncpy DIRSIZ name

theorem length_strncpy (n : Nat) (t : List UInt8) : (strncpy t n).length = n := by
  induction n generalizing t with
  | zero => rfl
  | succ n ih =>
    rw [strncpy]
    split
    · exact List.length_replicate
    · rw [List.length_cons, ih]

end Names

/-! ## Entries -/

namespace Dirent

variable {de : Dirent}

/-- The slot of the table that an entry is. -/
def slot (de : Dirent) : Option (List UInt8 × Nat) :=
  if de.inum = 0 then none else some (key de.name, de.inum)

/-- An entry is read back from its bytes. -/
theorem ofBytes_bytes (h : de.inum < 2 ^ 16) : ofBytes de.bytes = de := by
  have hlow : (UInt8.ofNat de.inum).toNat = de.inum % 256 := UInt8.toNat_ofNat
  have hhigh : (UInt8.ofNat (de.inum / 256)).toNat = de.inum / 256 % 256 := UInt8.toNat_ofNat
  have hinum : (UInt8.ofNat de.inum).toNat + 256 * (UInt8.ofNat (de.inum / 256)).toNat =
      de.inum := by
    rw [hlow, hhigh]
    omega
  show (⟨_, de.name⟩ : Dirent) = de
  rw [show (de.bytes.getD 0 0).toNat + 256 * (de.bytes.getD 1 0).toNat = de.inum from hinum]

theorem slot_eq_some_iff {k : List UInt8} {inum : Nat} :
    de.slot = some (k, inum) ↔ de.inum ≠ 0 ∧ key de.name = k ∧ de.inum = inum := by
  unfold slot
  by_cases hz : de.inum = 0
  · rw [if_pos hz]
    exact ⟨fun h => (by cases h), fun h => absurd hz h.1⟩
  · rw [if_neg hz, Option.some.injEq, Prod.mk.injEq]
    exact ⟨fun h => ⟨hz, h⟩, fun h => h.2⟩

theorem slot_eq_none_iff : de.slot = none ↔ de.inum = 0 := by
  unfold slot
  by_cases hz : de.inum = 0
  · rw [if_pos hz]
    exact ⟨fun _ => hz, fun _ => rfl⟩
  · rw [if_neg hz]
    exact ⟨fun h => (by cases h), fun h => absurd h hz⟩

end Dirent

namespace Vol

/-- An entry of a directory. -/
def dirent (s : Vol) (dp k : Nat) : Dirent :=
  .ofBytes ((List.range Dirent.size).map fun i => s.byteAt dp (Dirent.size * k + i))

/-- The number of entries. -/
def entries (s : Vol) (dp : Nat) : Nat := (s.view dp).size / Dirent.size

/-- A directory as a table. -/
def dir (s : Vol) (dp : Nat) : SlotTable (List UInt8) Nat :=
  (List.range (s.entries dp)).map fun k => (s.dirent dp k).slot

/-- A directory is a sequence of entries within the limit of a file. -/
structure DirFile (s : Vol) (dp : Nat) : Prop where
  type : (s.view dp).type = .dir
  whole : (s.view dp).size % Dirent.size = 0
  small : (s.view dp).size ≤ MAXFILE * BSIZE

/-- The blocks that a directory still needs for its first `size` bytes. -/
def needs (s : Vol) (dp size : Nat) : Nat := s.lacking dp 0 (blocksEnd 0 size)

end Vol

section Dirs

variable {sb : Superblock} {s s' : Vol} {dp ip k : Nat}

/-- The directory as a list, entry by entry. -/
theorem Vol.getElem?_dir (s : Vol) (dp k : Nat) :
    (s.dir dp)[k]? = if k < s.entries dp then some (s.dirent dp k).slot else none := by
  unfold dir
  rw [List.getElem?_map]
  by_cases hk : k < s.entries dp
  · rw [if_pos hk, List.getElem?_range hk]
    rfl
  · rw [if_neg hk, List.getElem?_eq_none (by rw [List.length_range]; omega)]
    rfl

theorem Vol.length_dir (s : Vol) (dp : Nat) : (s.dir dp).length = s.entries dp := by
  unfold dir
  rw [List.length_map, List.length_range]

theorem Vol.DirFile.size_eq (h : s.DirFile dp) :
    Dirent.size * s.entries dp = (s.view dp).size := by
  have hw := h.whole
  unfold Vol.entries
  have hs : Dirent.size = 16 := rfl
  rw [hs] at hw ⊢
  omega

/-- Directories are a matter of sizes and bytes. -/
theorem Vol.dir_congr (hsize : (s'.view dp).size = (s.view dp).size)
    (hbytes : ∀ x, s'.byteAt dp x = s.byteAt dp x) :
    (∀ k, s'.dirent dp k = s.dirent dp k) ∧ s'.entries dp = s.entries dp ∧
      s'.dir dp = s.dir dp := by
  have hdirent : ∀ k, s'.dirent dp k = s.dirent dp k := by
    intro k
    unfold dirent
    simp only [hbytes]
  have hentries : s'.entries dp = s.entries dp := by
    unfold entries
    rw [hsize]
  refine ⟨hdirent, hentries, ?_⟩
  unfold dir
  rw [hentries]
  simp only [hdirent]

theorem Extended.size (h : Extended sb ip s s') (i : Nat) :
    (s'.view i).size = (s.view i).size := by
  obtain ⟨a, ha⟩ := h.view i
  rw [ha]

theorem Extended.type (h : Extended sb ip s s') (i : Nat) :
    (s'.view i).type = (s.view i).type := by
  obtain ⟨a, ha⟩ := h.view i
  rw [ha]

/-- A directory whose map grows is one still. -/
theorem Extended.dirFile (h : Extended sb ip s s') {i : Nat} (hi : s.DirFile i) : s'.DirFile i :=
  ⟨by rw [h.type]; exact hi.type, by rw [h.size]; exact hi.whole, by rw [h.size]; exact hi.small⟩

/-- Growing a file's map changes no directory. -/
theorem Grown.dir (h : Grown sb ip s s') (dp : Nat) :
    (∀ k, s'.dirent dp k = s.dirent dp k) ∧ s'.entries dp = s.entries dp ∧
      s'.dir dp = s.dir dp :=
  Vol.dir_congr (h.size dp) (h.bytes dp)

end Dirs

/-! ## Scanning a directory -/

/-- What a scan from entry `k` on answers: the first entry that is accepted, or the end. -/
inductive Scanned (s : Vol) (dp : Nat) (stop : Dirent → Bool) (k : Nat) :
    Nat × Option Dirent → Prop
  | found {j : Nat} (hk : k ≤ j) (hj : j < s.entries dp) (hstop : stop (s.dirent dp j) = true) :
      Scanned s dp stop k (Dirent.size * j, some (s.dirent dp j))
  | none (hall : ∀ j, k ≤ j → j < s.entries dp → stop (s.dirent dp j) = false) :
      Scanned s dp stop k ((s.view dp).size, none)

section Scan

variable {sb : Superblock} {s s' : Vol} {dp k fuel : Nat} {msg : String} {stop : Dirent → Bool}
  {r : Nat × Option Dirent}

theorem Scanned.pass (h : Scanned s dp stop (k + 1) r)
    (hk : stop (s.dirent dp k) = false) : Scanned s dp stop k r := by
  cases h with
  | found hle hj hstop => exact .found (Nat.le_of_succ_le hle) hj hstop
  | none hall =>
    refine .none fun j hkj hj => ?_
    rcases Nat.eq_or_lt_of_le hkj with rfl | hlt
    · exact hk
    · exact hall j hlt hj

/-- A scan of the grown volume is one of the old. -/
theorem Grown.scanned {ip : Nat} (h : Grown sb ip s s') (hs : Scanned s' dp stop k r) :
    Scanned s dp stop k r := by
  obtain ⟨hdirent, hentries, -⟩ := h.dir dp
  cases hs with
  | found hk hj hstop =>
    rw [hdirent] at hstop
    rw [hdirent]
    exact .found hk (hentries ▸ hj) hstop
  | none hall =>
    rw [h.size]
    refine .none fun j hk hj => ?_
    rw [← hdirent]
    exact hall j hk (hentries.symm ▸ hj)

theorem blocksEnd_entry (k : Nat) :
    blocksEnd (Dirent.size * k) Dirent.size = Dirent.size * k / BSIZE + 1 := by
  have hb : BSIZE = 1024 := rfl
  have hd : Dirent.size = 16 := rfl
  unfold blocksEnd
  rw [hb, hd]
  omega

theorem Vol.lacking_one (s : Vol) (ip bn : Nat) : s.lacking ip bn (bn + 1) = s.lacks ip bn := by
  rw [s.lacking_split ip (Nat.le_refl bn) (Nat.lt_succ_self bn), Nat.Ico_succ_singleton,
    Finset.erase_singleton, Finset.sum_empty, if_neg (by omega), Nat.add_zero, Nat.add_zero]

theorem Filled.widen {bn lo hi : Nat} (h : Filled sb dp bn (bn + 1) s s') (hlo : lo ≤ bn)
    (hhi : bn < hi) : Filled sb dp lo hi s s' := by
  refine ⟨h.toGrown, fun lo' hi' hlo' hhi' => ?_, fun hz => h.same ?_⟩
  · exact h.paid lo' hi' (Nat.le_trans hlo' hlo) (Nat.le_trans hhi hhi')
  · have hle := s.lacks_le_lacking dp hlo hhi
    rw [Vol.lacking_one]
    omega

/-- The block of an entry is one of the directory's. -/
theorem Vol.DirFile.block_lt (hfile : s.DirFile dp) (hk : k < s.entries dp) :
    Dirent.size * k / BSIZE < blocksEnd 0 (s.view dp).size := by
  have hsize := hfile.size_eq
  have hd : Dirent.size = 16 := rfl
  have hb : BSIZE = 1024 := rfl
  unfold blocksEnd
  rw [hd] at hsize ⊢
  rw [hb]
  omega

/-- Reading one entry: it is read, or its block is missing and there is none for it. -/
theorem readi_dirent (h : s.Sound sb) (hdp : s.Live dp) (hfile : s.DirFile dp)
    (hk : k < s.entries dp) :
    (s.free sb < s.lacks dp (Dirent.size * k / BSIZE) ∧
        ∃ s', readi sb dp (.kernel []) (Dirent.size * k) Dirent.size s = .ok ((0, []), s')) ∨
      ∃ s', readi sb dp (.kernel []) (Dirent.size * k) Dirent.size s = .ok (((Dirent.size : Nat),
          (List.range Dirent.size).map fun i => s.byteAt dp (Dirent.size * k + i)), s') ∧
        Filled sb dp (Dirent.size * k / BSIZE) (Dirent.size * k / BSIZE + 1) s s' ∧
        ∀ x, Dirent.size * k ≤ x → x < Dirent.size * k + Dirent.size →
          s'.blockOf dp (x / BSIZE) ≠ 0 := by
  have hsize := hfile.size_eq
  have hsmall := hfile.small
  have hmax : MAXFILE * BSIZE = 274432 := rfl
  have hd : Dirent.size = 16 := rfl
  have hcount : min Dirent.size ((s.view dp).size - Dirent.size * k) = Dirent.size := by
    rw [hd] at hsize ⊢
    omega
  have hoff : Dirent.size * k ≤ (s.view dp).size := by
    rw [hd] at hsize ⊢
    omega
  have hwrap : Dirent.size * k + Dirent.size < 2 ^ 32 := by
    rw [hd] at hsize ⊢
    omega
  by_cases hfree : s.lacks dp (Dirent.size * k / BSIZE) ≤ s.free sb
  · right
    have hbuf : (Buffer.kernel []).Good Dirent.size := fun _ hu => by cases hu
    have hend : blocksEnd (Dirent.size * k) (min Dirent.size ((s.view dp).size - Dirent.size * k)) ≤
        Dirent.size * k / BSIZE + 1 := by
      rw [hcount, blocksEnd_entry]
    obtain ⟨s', hok, hfilled, hblocks⟩ := readi_inside h hdp hbuf hoff hwrap hsmall (Nat.le_refl _)
      hend (by rwa [Vol.lacking_one])
    rw [hcount] at hblocks
    refine ⟨s', ?_, hfilled, hblocks⟩
    rw [hok, Vol.read_eq, hcount, List.length_map, List.length_range]
  · left
    refine ⟨Nat.lt_of_not_le hfree, ?_⟩
    obtain ⟨addr, s', hbmap, hm⟩ := bmap_spec h hdp
      (show Dirent.size * k / BSIZE < MAXFILE by
        have hb : BSIZE = 1024 := rfl
        have hmf : MAXFILE = 268 := rfl
        rw [hd] at hsize ⊢
        rw [hb, hmf]
        omega)
    have hzero : addr = 0 := by
      by_contra hne
      have hpaid := hm.paid
      rw [Vol.lacks_eq_zero_iff.mpr (hm.found ▸ hne)] at hpaid
      omega
    refine ⟨s', ?_⟩
    unfold readi
    rw [run_get_bind]
    show (if _ then _ else _ : M (Int × List UInt8)) s = _
    rw [uint32_of_lt hwrap, ← hdp.size, if_neg (by omega), if_neg (by rw [hd] at hsize ⊢; omega)]
    show readLoop sb dp _ Dirent.size (15 + 1) 0 _ [] s = _
    rw [readLoop, run_ite, if_pos (by decide), run_bind_ok hbmap, if_pos hzero]
    rfl

/-- One turn of the scan. -/
theorem dirScan_turn (hdp : s.Live dp) (hfile : s.DirFile dp) (hk : k < s.entries dp)
    (hread : readi sb dp (.kernel []) (Dirent.size * k) Dirent.size s = .ok (((Dirent.size : Nat),
      (List.range Dirent.size).map fun i => s.byteAt dp (Dirent.size * k + i)), s')) :
    dirScan sb dp msg stop (fuel + 1) (Dirent.size * k) s =
      (if stop (s.dirent dp k) then pure (Dirent.size * k, some (s.dirent dp k))
        else dirScan sb dp msg stop fuel (Dirent.size * (k + 1)) : M (Nat × Option Dirent)) s' := by
  have hoff : Dirent.size * k < (s.itable dp).size := by
    rw [← hdp.size, ← hfile.size_eq]
    exact Nat.mul_lt_mul_of_pos_left hk (by decide)
  rw [dirScan, run_get_bind]
  show (if _ then _ else _ : M (Nat × Option Dirent)) s = _
  rw [if_pos hoff, run_bind_ok hread]
  show (if _ then _ else _ : M (Nat × Option Dirent)) s' = _
  rw [if_neg (not_not.mpr rfl)]
  rfl

/-- If no block is missing up to the first entry that is accepted, the loop changes nothing. -/
theorem dirScan_found (h : s.Sound sb) (hdp : s.Live dp) (hfile : s.DirFile dp) {j : Nat}
    (hj : j < s.entries dp) (hthere : ∀ l, l ≤ j → s.blockOf dp (Dirent.size * l / BSIZE) ≠ 0)
    (hpass : ∀ l, l < j → stop (s.dirent dp l) = false) (hstop : stop (s.dirent dp j) = true)
    (hk : k ≤ j) (hfuel : j < k + fuel) :
    dirScan sb dp msg stop fuel (Dirent.size * k) s =
      .ok ((Dirent.size * j, some (s.dirent dp j)), s) := by
  induction fuel generalizing k with
  | zero => omega
  | succ fuel ih =>
    have hlt : k < s.entries dp := Nat.lt_of_le_of_lt hk hj
    have hlacks : s.lacks dp (Dirent.size * k / BSIZE) = 0 := Vol.lacks_eq_zero_iff.mpr (hthere k hk)
    rcases readi_dirent h hdp hfile hlt with ⟨hshort, -⟩ | ⟨s₁, hread, hfilled, -⟩
    · omega
    obtain rfl : s₁ = s := hfilled.same (by rw [Vol.lacking_one, hlacks])
    rw [dirScan_turn hdp hfile hlt hread]
    rcases Nat.eq_or_lt_of_le hk with rfl | hbefore
    · rw [if_pos hstop]
      rfl
    · rw [if_neg (Bool.eq_false_iff.mp (hpass k hbefore))]
      exact ih hbefore (by omega)

/-- The loop finds the first entry that is accepted. It fills the holes it comes across, and gives
up at one it cannot fill. -/
theorem dirScan_spec (h : s.Sound sb) (hdp : s.Live dp) (hfile : s.DirFile dp)
    (hfuel : s.entries dp - k ≤ fuel) (hk : k ≤ s.entries dp) :
    (s.free sb < s.needs dp (s.view dp).size ∧
        dirScan sb dp msg stop fuel (Dirent.size * k) s = .error (.panic msg)) ∨
      ∃ r s', dirScan sb dp msg stop fuel (Dirent.size * k) s = .ok (r, s') ∧
        Scanned s dp stop k r ∧ Filled sb dp 0 (blocksEnd 0 (s.view dp).size) s s' ∧
        ∀ x, Dirent.size * k ≤ x → x < r.1 + Dirent.size → x < (s.view dp).size →
          s'.blockOf dp (x / BSIZE) ≠ 0 := by
  induction fuel generalizing s k with
  | zero =>
    have hsize := hfile.size_eq
    obtain rfl : k = s.entries dp := by omega
    refine .inr ⟨_, s, ?_, .none fun j hlo hhi => absurd hhi (by omega), .refl h,
      fun x hlo _ hhi => absurd hhi (by omega)⟩
    rw [← hsize]
    rfl
  | succ fuel ih =>
    have hsize := hfile.size_eq
    by_cases hlt : k < s.entries dp
    · have hoff : Dirent.size * k < (s.itable dp).size := by
        rw [← hdp.size, ← hsize]
        exact Nat.mul_lt_mul_of_pos_left hlt (by decide)
      have hbn := hfile.block_lt hlt
      rcases readi_dirent h hdp hfile hlt with ⟨hshort, s₁, hread⟩ | ⟨s₁, hread, hone, hblocks⟩
      · refine .inl ⟨Nat.lt_of_lt_of_le hshort (s.lacks_le_lacking dp (Nat.zero_le _) hbn), ?_⟩
        rw [dirScan, run_get_bind]
        show (if _ then _ else _ : M (Nat × Option Dirent)) s = _
        rw [if_pos hoff, run_bind_ok hread]
        rfl
      have hfilled := hone.widen (Nat.zero_le _) hbn
      have hrun := @dirScan_turn sb s s₁ dp k fuel msg stop hdp hfile hlt hread
      by_cases hstop : stop (s.dirent dp k) = true
      · refine .inr ⟨_, s₁, ?_, .found (Nat.le_refl k) hlt hstop, hfilled,
          fun x hlo hhi _ => hblocks x hlo hhi⟩
        rw [hrun, if_pos hstop]
        rfl
      · have hgrown := hfilled.toGrown
        obtain ⟨hdirent, hentries, -⟩ := hgrown.dir dp
        have hsame : (s₁.view dp).size = (s.view dp).size := hgrown.size dp
        rcases @ih s₁ (k + 1) hgrown.sound (hgrown.live hdp) (hgrown.dirFile hfile) (by omega)
          (by omega) with ⟨hshort, herror⟩ | ⟨r, s', hrest, hscan, hlater, hvisited⟩
        · refine .inl ⟨?_, by rw [hrun, if_neg hstop]; exact herror⟩
          have hpaid := hfilled.paid 0 _ (Nat.le_refl 0) (Nat.le_refl _)
          unfold Vol.needs at hshort ⊢
          rw [hsame] at hshort
          omega
        · rw [hsame] at hlater hvisited
          refine .inr ⟨r, s', ?_, (hgrown.scanned hscan).pass (Bool.eq_false_iff.mpr hstop),
            hfilled.trans hlater, fun x hlo hhi hx => ?_⟩
          · rw [hrun, if_neg hstop]
            exact hrest
          · by_cases hx' : x < Dirent.size * k + Dirent.size
            · have hb := hblocks x hlo hx'
              rwa [hlater.blockOf_kept hb]
            · exact hvisited x (by rw [Nat.mul_succ]; omega) hhi hx
    · obtain rfl : k = s.entries dp := by omega
      refine .inr ⟨_, s, ?_, .none fun j hlo hhi => absurd hhi (by omega), .refl h,
        fun x hlo _ hhi => absurd hhi (by omega)⟩
      have hoff : ¬ Dirent.size * s.entries dp < (s.itable dp).size := by
        rw [← hdp.size, ← hsize]
        exact Nat.lt_irrefl _
      rw [dirScan, run_get_bind]
      show (if _ then _ else _ : M (Nat × Option Dirent)) s = _
      rw [if_neg hoff, ← hsize]
      rfl

/-- The scan from the first entry, or the panic for want of blocks. -/
theorem dirScan_start (h : s.Sound sb) (hdp : s.Live dp) (hfile : s.DirFile dp) (msg : String)
    (stop : Dirent → Bool) :
    (s.free sb < s.needs dp (s.view dp).size ∧
        dirScan sb dp msg stop (s.itable dp).size 0 s = .error (.panic msg)) ∨
      ∃ r s', dirScan sb dp msg stop (s.itable dp).size 0 s = .ok (r, s') ∧
        Scanned s dp stop 0 r ∧ Filled sb dp 0 (blocksEnd 0 (s.view dp).size) s s' ∧
        ∀ x, x < r.1 + Dirent.size → x < (s.view dp).size → s'.blockOf dp (x / BSIZE) ≠ 0 := by
  have hfuel : s.entries dp - 0 ≤ (s.itable dp).size := by
    rw [← hdp.size]
    exact Nat.le_trans (Nat.sub_le ..) (Nat.div_le_self ..)
  rcases @dirScan_spec sb s dp 0 (s.itable dp).size msg stop h hdp hfile hfuel (Nat.zero_le _) with
    herror | ⟨r, s', hscan, hr, hfilled, hblocks⟩
  · exact .inl herror
  · exact .inr ⟨r, s', hscan, hr, hfilled, fun x => hblocks x (Nat.zero_le x)⟩

end Scan

/-! ## Looking up and storing entries -/

section Entries

variable {sb : Superblock} {s s' : Vol} {dp k : Nat} {name : List UInt8}

/-- `dirlookup` stops at an entry in use with the same key. -/
theorem matches_iff {de : Dirent} :
    (decide (de.inum ≠ 0) && decide (namecmp name de.name = 0)) = true ↔
      de.slot = some (key name, de.inum) := by
  rw [Bool.and_eq_true, decide_eq_true_eq, decide_eq_true_eq, namecmp_eq_zero_iff,
    Dirent.slot_eq_some_iff]
  exact ⟨fun h => ⟨h.1, h.2.symm, rfl⟩, fun h => ⟨h.1, h.2.1.symm⟩⟩

/-- `dirlookup` finds an entry with the name and takes a reference to its inode, or there is none. -/
theorem dirlookup_spec (h : s.Sound sb) (hdp : s.Live dp) (hfile : s.DirFile dp)
    (name : List UInt8) :
    (s.free sb < s.needs dp (s.view dp).size ∧
        dirlookup sb dp name s = .error (.panic "dirlookup read")) ∨
      ∃ s', Filled sb dp 0 (blocksEnd 0 (s.view dp).size) s s' ∧
        ((∀ k < s.entries dp, ∀ i, (s.dirent dp k).slot ≠ some (key name, i)) ∧
            dirlookup sb dp name s = .ok (none, s') ∨
          ∃ k < s.entries dp, ∃ i, (s.dirent dp k).slot = some (key name, i) ∧
            s'.blockOf dp (Dirent.size * k / BSIZE) ≠ 0 ∧
            dirlookup sb dp name s = (do iget i; return some (i, Dirent.size * k) : M _) s') := by
  have htype : (s.itable dp).type = .dir := by
    rw [← hdp.view]
    exact hfile.type
  rcases dirScan_start h hdp hfile "dirlookup read"
    (fun de => decide (de.inum ≠ 0) && decide (namecmp name de.name = 0)) with
    ⟨hshort, herror⟩ | ⟨r, s', hscan, hr, hfilled, hblocks⟩
  · refine .inl ⟨hshort, ?_⟩
    unfold dirlookup
    rw [run_get_bind]
    show (if _ then _ else _ : M (Option (Nat × Nat))) s = _
    rw [if_neg (not_not.mpr htype), run_bind_error herror]
  refine .inr ⟨s', hfilled, ?_⟩
  cases hr with
  | @found k hk hj hstop =>
    right
    refine ⟨k, hj, _, matches_iff.mp hstop, hblocks _ (Nat.lt_add_of_pos_right (by decide)) ?_, ?_⟩
    · rw [← hfile.size_eq]
      exact Nat.mul_lt_mul_of_pos_left hj (by decide)
    · unfold dirlookup
      rw [run_get_bind]
      show (if _ then _ else _ : M (Option (Nat × Nat))) s = _
      rw [if_neg (not_not.mpr htype), run_bind_ok hscan]
  | none hall =>
    left
    refine ⟨fun k hk i hi => ?_, ?_⟩
    · have hno := hall k (Nat.zero_le k) hk
      obtain ⟨-, -, rfl⟩ := Dirent.slot_eq_some_iff.mp hi
      rw [matches_iff.mpr hi] at hno
      cases hno
    · unfold dirlookup
      rw [run_get_bind]
      show (if _ then _ else _ : M (Option (Nat × Nat))) s = _
      rw [if_neg (not_not.mpr htype), run_bind_ok hscan]
      rfl

/-- If the name is there and no block is missing before it, `dirlookup` changes nothing else. -/
theorem dirlookup_found (h : s.Sound sb) (hdp : s.Live dp) (hfile : s.DirFile dp) {j i : Nat}
    (hj : j < s.entries dp) (hthere : ∀ l, l ≤ j → s.blockOf dp (Dirent.size * l / BSIZE) ≠ 0)
    (hpass : ∀ l, l < j → key (s.dirent dp l).name ≠ key name)
    (hslot : (s.dirent dp j).slot = some (key name, i)) :
    dirlookup sb dp name s = (do iget i; return some (i, Dirent.size * j) : M _) s := by
  have htype : (s.itable dp).type = .dir := by
    rw [← hdp.view]
    exact hfile.type
  obtain ⟨hpos, hkey, rfl⟩ := Dirent.slot_eq_some_iff.mp hslot
  have hfuel : j < 0 + (s.itable dp).size := by
    rw [← hdp.size, Nat.zero_add]
    exact Nat.lt_of_lt_of_le hj (Nat.div_le_self ..)
  have hscan := @dirScan_found sb s dp 0 (s.itable dp).size "dirlookup read"
    (fun de => decide (de.inum ≠ 0) && decide (namecmp name de.name = 0)) h hdp hfile j hj hthere
    (fun l hl => by
      rw [Bool.and_eq_false_iff, decide_eq_false_iff_not, decide_eq_false_iff_not,
        namecmp_eq_zero_iff]
      exact .inr fun he => hpass l hl he.symm)
    (matches_iff.mpr hslot) (Nat.zero_le j) hfuel
  rw [Nat.mul_zero] at hscan
  unfold dirlookup
  rw [run_get_bind]
  show (if _ then _ else _ : M (Option (Nat × Nat))) s = _
  rw [if_neg (not_not.mpr htype), run_bind_ok hscan]

/-- Writing one entry changes that entry of that directory, and nothing else. -/
theorem Written.dir {val : Nat → UInt8} {de : Dirent} {t : Vol}
    (h : Written sb dp val (Dirent.size * k) (Dirent.size * k + Dirent.size) s t)
    (hdp : s.Live dp) (hfile : s.DirFile dp) (hk : k ≤ s.entries dp)
    (hval : Dirent.ofBytes ((List.range Dirent.size).map fun i => val (Dirent.size * k + i)) = de) :
    (t.resize sb dp (Dirent.size * k + Dirent.size)).dir dp = (s.dir dp).put k de.slot ∧
      (∀ d, d ≠ dp → (t.resize sb dp (Dirent.size * k + Dirent.size)).dir d = s.dir d) := by
  have hdp' := h.live hdp
  have hsize := hfile.size_eq
  have hd : Dirent.size = 16 := rfl
  have hbytes : ∀ i x, (t.resize sb dp (Dirent.size * k + Dirent.size)).byteAt i x =
      if i = dp ∧ Dirent.size * k ≤ x ∧ x < Dirent.size * k + Dirent.size then val x
      else s.byteAt i x := by
    intro i x
    rw [Vol.byteAt_resize hdp', h.bytes]
  constructor
  · have hentries : (t.resize sb dp (Dirent.size * k + Dirent.size)).entries dp =
        max (s.entries dp) (k + 1) := by
      unfold Vol.entries
      rw [Vol.view_resize hdp', if_pos rfl]
      show max (t.view dp).size _ / _ = _
      rw [h.size, ← hsize, hd]
      omega
    have hdirent : ∀ j, (t.resize sb dp (Dirent.size * k + Dirent.size)).dirent dp j =
        if j = k then de else s.dirent dp j := by
      intro j
      unfold Vol.dirent
      by_cases hj : j = k
      · subst hj
        rw [if_pos rfl, ← hval]
        congr 1
        refine List.map_congr_left fun i hi => ?_
        have hlt := List.mem_range.mp hi
        rw [hbytes, if_pos ⟨rfl, by omega, by omega⟩]
      · rw [if_neg hj]
        congr 1
        refine List.map_congr_left fun i hi => ?_
        have hlt := List.mem_range.mp hi
        rw [hbytes, if_neg]
        rintro ⟨-, hlo, hhi⟩
        rw [hd] at hlo hhi hlt
        omega
    refine List.ext_getElem? fun j => ?_
    rw [SlotTable.getElem?_put (by rw [Vol.length_dir]; exact hk), Vol.getElem?_dir,
      Vol.getElem?_dir, hentries, hdirent]
    by_cases hj : j = k
    · rw [if_pos hj, if_pos hj, if_pos (by omega)]
    · rw [if_neg hj, if_neg hj]
      by_cases hlt : j < s.entries dp
      · rw [if_pos hlt, if_pos (by omega)]
      · rw [if_neg hlt, if_neg (by omega)]
  · intro d hne
    refine (Vol.dir_congr ?_ fun x => ?_).2.2
    · rw [Vol.view_resize hdp', if_neg hne]
      exact h.size d
    · rw [hbytes, if_neg fun hc => hne hc.1]

/-- Writing one entry: it does not fit in a file, or it is written, or there is no block for it. -/
theorem writei_entry (h : s.Sound sb) (hdp : s.Live dp) (hfile : s.DirFile dp)
    (hk : k ≤ s.entries dp) (bytes : List UInt8) :
    (MAXFILE * BSIZE < Dirent.size * k + Dirent.size ∧
        writei sb dp (.kernel bytes) (Dirent.size * k) Dirent.size s = .ok (-1, s)) ∨
      Dirent.size * k + Dirent.size ≤ MAXFILE * BSIZE ∧
      ((s.lacks dp (Dirent.size * k / BSIZE) ≤ s.free sb ∧
          ∃ t, Written sb dp (fun x => bytes.getD (x - Dirent.size * k) 0) (Dirent.size * k)
              (Dirent.size * k + Dirent.size) s t ∧
            writei sb dp (.kernel bytes) (Dirent.size * k) Dirent.size s =
              .ok ((Dirent.size : Nat), t.resize sb dp (Dirent.size * k + Dirent.size))) ∨
        (s.free sb < s.lacks dp (Dirent.size * k / BSIZE) ∧ ∃ t, Grown sb dp s t ∧
          writei sb dp (.kernel bytes) (Dirent.size * k) Dirent.size s =
            .ok (0, t.resize sb dp (Dirent.size * k)))) := by
  have hsize := hfile.size_eq
  have hsmall := hfile.small
  have hd : Dirent.size = 16 := rfl
  have hmaxval : MAXFILE * BSIZE = 274432 := rfl
  by_cases hmax : MAXFILE * BSIZE < Dirent.size * k + Dirent.size
  · left
    refine ⟨hmax, writei_outside hdp (.inr (.inr ?_))⟩
    have hwrap : Dirent.size * k + Dirent.size < 2 ^ 32 := by
      rw [hd] at hsize ⊢
      omega
    rwa [uint32_of_lt hwrap]
  · right
    refine ⟨Nat.le_of_not_lt hmax, ?_⟩
    have hgood : (Buffer.kernel bytes).Good Dirent.size := fun _ hu => by cases hu
    obtain ⟨m, t, hok, hwrote⟩ := writei_spec h hdp (.kernel bytes)
      (by rw [hd] at hsize ⊢; omega) (Nat.le_of_not_lt hmax)
    have hone : s.lacking dp (Dirent.size * k / BSIZE)
        (blocksEnd (Dirent.size * k) Dirent.size) = s.lacks dp (Dirent.size * k / BSIZE) := by
      rw [blocksEnd_entry, Vol.lacking_one]
    have hwritten := hwrote.exact hgood
    by_cases henough : s.lacks dp (Dirent.size * k / BSIZE) ≤ s.free sb
    · left
      obtain rfl := hwrote.all hgood (by rwa [hone])
      exact ⟨henough, t, hwritten, hok⟩
    · right
      -- an entry lies in one block, so nothing of it has been written
      obtain rfl : m = 0 := by
        by_contra hne
        have hle := hwrote.le
        have hlt : m < Dirent.size := by
          by_contra hge
          obtain rfl : m = Dirent.size := by omega
          have hall := hwrote.enough (by decide)
          rw [hone] at hall
          exact henough hall
        have hfirst := hwrote.blocks (Dirent.size * k) (Nat.le_refl _) (by omega)
        have hstop := (hwrote.stop hgood hlt).2
        have hblock : (Dirent.size * k + m) / BSIZE = Dirent.size * k / BSIZE := by
          have hb : BSIZE = 1024 := rfl
          rw [hd] at hlt
          rw [hb, hd]
          omega
        rw [hblock] at hstop
        exact hfirst hstop
      refine ⟨Nat.lt_of_not_le henough, t, ⟨hwritten.toExtended, fun i x => ?_⟩, hok⟩
      rw [hwritten.bytes, if_neg (by omega)]

/-- What a change to a directory keeps of everything else. -/
structure Tidy (sb : Superblock) (s s' : Vol) : Prop where
  sound : s'.Sound sb
  live : ∀ d, s.Live d → s'.Live d
  inuse : s'.inuse = s.inuse
  type : ∀ d, (s'.view d).type = (s.view d).type
  file : ∀ d, s.DirFile d → s'.DirFile d

/-- Tidy changes compose. -/
theorem Tidy.trans {s'' : Vol} (h : Tidy sb s s') (h' : Tidy sb s' s'') : Tidy sb s s'' where
  sound := h'.sound
  live d hd := h'.live d (h.live d hd)
  inuse := h'.inuse.trans h.inuse
  type d := (h'.type d).trans (h.type d)
  file d hd := h'.file d (h.file d hd)

theorem Extended.tidy {ip : Nat} (h : Extended sb ip s s') : Tidy sb s s' :=
  ⟨h.sound, fun _ => h.live, h.inuse, h.type, fun _ => h.dirFile⟩

/-- Resizing a directory to whole entries is tidy. -/
theorem Vol.resize_tidy (h : s.Sound sb) (hdp : s.Live dp) {size : Nat}
    (hwhole : size % Dirent.size = 0) (hsmall : size ≤ MAXFILE * BSIZE) :
    Tidy sb s (s.resize sb dp size) where
  sound := h.resize hdp size
  live _ hd := hd.resize sb dp size
  inuse := rfl
  type d := by
    rw [view_resize hdp]
    split
    · rename_i he
      rw [he]
    · rfl
  file d hd := by
    by_cases he : d = dp
    · subst he
      have hv : (s.resize sb d size).view d =
          { s.view d with size := max (s.view d).size size } := by
        rw [view_resize hdp, if_pos rfl]
      have hw := hd.whole
      have hs := hd.small
      refine ⟨by rw [hv]; exact hd.type, ?_, ?_⟩
      · rw [hv]
        show max (s.view d).size size % Dirent.size = 0
        rcases Nat.le_total (s.view d).size size with hle | hle
        · rwa [Nat.max_eq_right hle]
        · rwa [Nat.max_eq_left hle]
      · rw [hv]
        exact Nat.max_le.mpr ⟨hs, hsmall⟩
    · have hv : (s.resize sb dp size).view d = s.view d := by
        rw [view_resize hdp, if_neg he]
      exact ⟨by rw [hv]; exact hd.type, by rw [hv]; exact hd.whole, by rw [hv]; exact hd.small⟩

/-- The size of a directory does not shrink to what it is. -/
theorem Vol.resize_dir (hdp : s.Live dp) {size : Nat} (hle : size ≤ (s.view dp).size) (d : Nat) :
    (s.resize sb dp size).dir d = s.dir d := by
  refine (dir_congr ?_ fun x => byteAt_resize hdp ..).2.2
  rw [view_resize hdp]
  split
  · rename_i he
    subst he
    exact Nat.max_eq_left hle
  · rfl

/-- An entry that is there is overwritten in place. -/
theorem writei_inplace (h : s.Sound sb) (hdp : s.Live dp) (hfile : s.DirFile dp)
    (hk : k < s.entries dp) (hblock : s.blockOf dp (Dirent.size * k / BSIZE) ≠ 0)
    (bytes : List UInt8) :
    ∃ t, Written sb dp (fun x => bytes.getD (x - Dirent.size * k) 0) (Dirent.size * k)
        (Dirent.size * k + Dirent.size) s t ∧
      Dirent.size * k + Dirent.size ≤ MAXFILE * BSIZE ∧
      writei sb dp (.kernel bytes) (Dirent.size * k) Dirent.size s =
        .ok ((Dirent.size : Nat), t.resize sb dp (Dirent.size * k + Dirent.size)) := by
  have hsize := hfile.size_eq
  have hsmall := hfile.small
  have hd : Dirent.size = 16 := rfl
  have hlacks := Vol.lacks_eq_zero_iff.mpr hblock
  rcases writei_entry h hdp hfile (Nat.le_of_lt hk) bytes with
    ⟨hmax, -⟩ | ⟨hmax, ⟨-, t, hwritten, hok⟩ | ⟨hfull, -⟩⟩
  · rw [hd] at hsize hmax
    omega
  · exact ⟨t, hwritten, hmax, hok⟩
  · omega

theorem ofBytes_written (bytes : List UInt8) (hlen : bytes.length = Dirent.size) (k : Nat) :
    Dirent.ofBytes ((List.range Dirent.size).map fun i =>
        bytes.getD (Dirent.size * k + i - Dirent.size * k) 0) = .ofBytes bytes := by
  congr 1
  refine List.ext_getElem (by rw [List.length_map, List.length_range, hlen]) fun i hi hi' => ?_
  rw [List.getElem_map, List.getElem_range, Nat.add_sub_cancel_left, List.getD_eq_getElem _ _ hi']

theorem Dirent.length_bytes (de : Dirent) (h : de.name.length = DIRSIZ) :
    de.bytes.length = Dirent.size := by
  show (_ :: _ :: de.name).length = _
  rw [List.length_cons, List.length_cons, h]
  rfl

end Entries

/-! ## `dirlink` and the clearing of an entry -/

namespace Vol

/-- The entry with this name, as `dirlookup` answers it. -/
def lookup (s : Vol) (dp : Nat) (name : List UInt8) : Option Nat := (s.dir dp).find (key name)

/-- No entry is free. -/
def Packed (s : Vol) (dp : Nat) : Prop := ∀ k < s.entries dp, (s.dirent dp k).inum ≠ 0

/-- There is room in a file and on the disk for the directory with one entry more. -/
def CanExtend (sb : Superblock) (s : Vol) (dp : Nat) : Prop :=
  (s.view dp).size + Dirent.size ≤ MAXFILE * BSIZE ∧
    s.needs dp ((s.view dp).size + Dirent.size) ≤ s.free sb

/-- The entries in use have different names. -/
def NamesDiffer (s : Vol) (dp : Nat) : Prop :=
  ∀ j k, j < s.entries dp → k < s.entries dp → (s.dirent dp j).inum ≠ 0 →
    (s.dirent dp k).inum ≠ 0 → namecmp (s.dirent dp j).name (s.dirent dp k).name = 0 → j = k

/-- The name is in none of the entries. -/
def Absent (s : Vol) (dp : Nat) (name : List UInt8) : Prop :=
  ∀ k < s.entries dp, ∀ i, (s.dirent dp k).slot ≠ some (key name, i)

end Vol

section Dirlink

variable {sb : Superblock} {s s' : Vol} {dp k inum : Nat} {name : List UInt8}

/-- What stands at an index of the directory. -/
theorem Vol.entry_iff {e : List UInt8 × Nat} :
    (s.dir dp)[k]? = some (some e) ↔ k < s.entries dp ∧ (s.dirent dp k).slot = some e := by
  rw [getElem?_dir]
  by_cases hk : k < s.entries dp
  · rw [if_pos hk, Option.some.injEq]
    exact ⟨fun h => ⟨hk, h⟩, fun h => h.2⟩
  · rw [if_neg hk]
    exact ⟨fun h => (by cases h), fun h => absurd h.1 hk⟩

theorem Vol.namesDiffer_iff : s.NamesDiffer dp ↔ (s.dir dp).Distinct := by
  constructor
  · intro h i j k v w hi hj
    obtain ⟨hi, hslot⟩ := entry_iff.mp hi
    obtain ⟨hj, hslot'⟩ := entry_iff.mp hj
    obtain ⟨hnum, hkey, -⟩ := Dirent.slot_eq_some_iff.mp hslot
    obtain ⟨hnum', hkey', -⟩ := Dirent.slot_eq_some_iff.mp hslot'
    exact h i j hi hj hnum hnum' ((namecmp_eq_zero_iff ..).mpr (hkey.trans hkey'.symm))
  · intro h j k hj hk hnum hnum' hname
    have hkey := (namecmp_eq_zero_iff ..).mp hname
    refine h j k _ _ _ (entry_iff.mpr ⟨hj, Dirent.slot_eq_some_iff.mpr ⟨hnum, rfl, rfl⟩⟩)
      (entry_iff.mpr ⟨hk, Dirent.slot_eq_some_iff.mpr ⟨hnum', hkey.symm, rfl⟩⟩)

/-- A name is absent exactly when looking it up finds nothing. -/
theorem Vol.absent_iff (h : (s.dir dp).Distinct) : s.Absent dp name ↔ s.lookup dp name = none := by
  refine Iff.trans ?_ (SlotTable.find_eq_none_iff h).symm
  constructor
  · intro habsent k i hk
    obtain ⟨hk, hslot⟩ := entry_iff.mp hk
    exact habsent k hk i hslot
  · intro hnone k hk i hslot
    exact hnone k i (entry_iff.mpr ⟨hk, hslot⟩)

/-- After a scan of the whole directory, one more entry needs what its own block lacks. -/
theorem Filled.canExtend_iff (h : Filled sb dp 0 (blocksEnd 0 (s.view dp).size) s s')
    (hfile : s.DirFile dp)
    (hblocks : ∀ x, x < (s.view dp).size → s'.blockOf dp (x / BSIZE) ≠ 0) :
    s.needs dp ((s.view dp).size + Dirent.size) ≤ s.free sb ↔
      s'.lacks dp ((s.view dp).size / BSIZE) ≤ s'.free sb := by
  have hb : BSIZE = 1024 := rfl
  have hd : Dirent.size = 16 := rfl
  have hw := hfile.whole
  have hend : blocksEnd 0 ((s.view dp).size + Dirent.size) = (s.view dp).size / BSIZE + 1 := by
    unfold blocksEnd
    rw [hd] at hw ⊢
    rw [hb]
    omega
  have hpaid := h.paid 0 ((s.view dp).size / BSIZE + 1) (Nat.le_refl 0) (by
    unfold blocksEnd
    rw [hb]
    omega)
  have hone : s'.lacking dp 0 ((s.view dp).size / BSIZE + 1) =
      s'.lacks dp ((s.view dp).size / BSIZE) := by
    rw [s'.lacking_split dp (Nat.zero_le _) (Nat.lt_succ_self ((s.view dp).size / BSIZE)),
      Finset.sum_eq_zero, if_neg (by omega), Nat.add_zero, Nat.add_zero]
    intro x hx
    obtain ⟨hne, hx⟩ := Finset.mem_erase.mp hx
    have hlt : x < (s.view dp).size / BSIZE := by
      have hx' := (Finset.mem_Ico.mp hx).2
      omega
    have hbyte : x * BSIZE < (s.view dp).size := by
      rw [hb] at hlt ⊢
      omega
    have hmapped := hblocks (x * BSIZE) hbyte
    rw [Nat.mul_div_cancel x (by decide)] at hmapped
    exact if_neg hmapped
  unfold Vol.needs
  rw [hend, ← hone]
  omega

/-- The entry that `dirlink` writes. -/
theorem slot_new (hpos : inum ≠ 0) (hlt : inum < 2 ^ 16) (name : List UInt8) :
    (Dirent.ofBytes (⟨inum % 2 ^ 16, strncpy name DIRSIZ⟩ : Dirent).bytes).slot =
      some (key name, inum) := by
  have hmod : inum % 2 ^ 16 = inum := Nat.mod_eq_of_lt hlt
  rw [Dirent.ofBytes_bytes (Nat.mod_lt _ (by decide)), Dirent.slot_eq_some_iff]
  refine ⟨?_, key_strncpy name, hmod⟩
  rw [hmod]
  exact hpos

/-- The end of `dirlink`: the entry goes into a free slot, or there is none and no room for one
more. -/
theorem dirWrite_spec (h : s.Sound sb) (hdp : s.Live dp) (hfile : s.DirFile dp)
    (hpos : inum ≠ 0) (hlt : inum < 2 ^ 16) (name : List UInt8) :
    (s.free sb < s.needs dp (s.view dp).size ∧
        dirWrite sb dp name inum s = .error (.panic "dirlink read")) ∨
      ∃ s', Tidy sb s s' ∧
        (dirWrite sb dp name inum s = .ok (-1, s') ∧ s.Packed dp ∧ ¬ s.CanExtend sb dp ∧
            (∀ d, s'.dir d = s.dir d) ∨
          dirWrite sb dp name inum s = .ok (0, s') ∧ ¬ (s.Packed dp ∧ ¬ s.CanExtend sb dp) ∧
            ∃ k, (s.dir dp).Free k ∧
              s'.dir dp = (s.dir dp).put k (some (key name, inum)) ∧
              ∀ d, d ≠ dp → s'.dir d = s.dir d) := by
  let de : Dirent := ⟨inum % 2 ^ 16, strncpy name DIRSIZ⟩
  have hlen : de.bytes.length = Dirent.size := de.length_bytes (length_strncpy ..)
  have hsize := hfile.size_eq
  have hd : Dirent.size = 16 := rfl
  rcases dirScan_start h hdp hfile "dirlink read" (fun de => decide (de.inum = 0)) with
    ⟨hshort, herror⟩ | ⟨r, s₁, hscan, hr, hfilled, hblocks⟩
  · refine .inl ⟨hshort, ?_⟩
    unfold dirWrite
    rw [run_get_bind]
    exact run_bind_error herror
  right
  have hgrown := hfilled.toGrown
  have hdp₁ := hgrown.live hdp
  have hfile₁ := hgrown.dirFile hfile
  obtain ⟨-, hentries, -⟩ := hgrown.dir dp
  have hrun : dirWrite sb dp name inum s = (do
      if (← writei sb dp (.kernel de.bytes) r.1 Dirent.size) ≠ Dirent.size then return -1
      else return 0 : M Int) s₁ := by
    unfold dirWrite
    rw [run_get_bind]
    exact run_bind_ok hscan
  -- a written entry, wherever it goes
  have hstored : ∀ k t, k ≤ s.entries dp → Dirent.size * k + Dirent.size ≤ MAXFILE * BSIZE →
      Written sb dp (fun x => de.bytes.getD (x - Dirent.size * k) 0) (Dirent.size * k)
        (Dirent.size * k + Dirent.size) s₁ t →
      Tidy sb s (t.resize sb dp (Dirent.size * k + Dirent.size)) ∧
        (t.resize sb dp (Dirent.size * k + Dirent.size)).dir dp =
          (s.dir dp).put k (some (key name, inum)) ∧
        ∀ d, d ≠ dp → (t.resize sb dp (Dirent.size * k + Dirent.size)).dir d = s.dir d := by
    intro k t hk hmax hwritten
    obtain ⟨hself, hothers⟩ := hwritten.dir hdp₁ hfile₁ (hentries ▸ hk)
      (ofBytes_written de.bytes hlen k)
    rw [slot_new hpos hlt, (hgrown.dir dp).2.2] at hself
    refine ⟨?_, hself, fun d hne => (hothers d hne).trans (hgrown.dir d).2.2⟩
    refine (hgrown.tidy.trans hwritten.tidy).trans
      (Vol.resize_tidy hwritten.sound (hwritten.live hdp₁) ?_ hmax)
    rw [← Nat.mul_succ]
    exact Nat.mul_mod_right ..
  cases hr with
  | @found k _ hk hstop =>
    have hfree : (s.dirent dp k).inum = 0 := of_decide_eq_true hstop
    have hblock : s₁.blockOf dp (Dirent.size * k / BSIZE) ≠ 0 := by
      refine hblocks _ (Nat.lt_add_of_pos_right (by decide)) ?_
      rw [← hsize]
      exact Nat.mul_lt_mul_of_pos_left hk (by decide)
    obtain ⟨t, hwritten, hmax, hok⟩ := writei_inplace hgrown.sound hdp₁ hfile₁ (hentries ▸ hk)
      hblock de.bytes
    obtain ⟨htidy, hself, hothers⟩ := hstored k t (Nat.le_of_lt hk) hmax hwritten
    refine ⟨_, htidy, .inr ⟨?_, fun hfull => hfull.1 k hk hfree, k, .inl ?_, hself, hothers⟩⟩
    · rw [hrun, run_bind_ok hok]
      rfl
    · rw [Vol.getElem?_dir, if_pos hk, Dirent.slot_eq_none_iff.mpr hfree]
  | none hall =>
    have hpacked : s.Packed dp := fun k hk => of_decide_eq_false (hall k (Nat.zero_le k) hk)
    have hextend : s.needs dp ((s.view dp).size + Dirent.size) ≤ s.free sb ↔
        s₁.lacks dp ((s.view dp).size / BSIZE) ≤ s₁.free sb :=
      hfilled.canExtend_iff hfile fun x hx => hblocks x (Nat.lt_add_right _ hx) hx
    have hend : (s.dir dp).Free (s.entries dp) := .inr (s.length_dir dp).symm
    rw [← hsize] at hrun hextend
    rcases writei_entry hgrown.sound hdp₁ hfile₁ (Nat.le_of_eq hentries.symm) de.bytes with
      ⟨hmax, hok⟩ | ⟨hmax, ⟨hfits, t, hwritten, hok⟩ | ⟨hfull, t, hmore, hok⟩⟩
    · refine ⟨s₁, hgrown.tidy, .inl ⟨?_, hpacked, fun hc => ?_, fun d => (hgrown.dir d).2.2⟩⟩
      · rw [hrun, run_bind_ok hok]
        rfl
      · have hle := hc.1
        rw [← hsize] at hle
        omega
    · obtain ⟨htidy, hself, hothers⟩ := hstored _ t (Nat.le_refl _) hmax hwritten
      refine ⟨_, htidy, .inr ⟨?_, fun hc => hc.2 ⟨hsize ▸ hmax, ?_⟩, _, hend, hself, hothers⟩⟩
      · rw [hrun, run_bind_ok hok]
        rfl
      · rw [← hsize]
        exact hextend.mpr hfits
    · have hdp₂ := hmore.live hdp₁
      refine ⟨_, (hgrown.tidy.trans hmore.tidy).trans (Vol.resize_tidy hmore.sound hdp₂
        (Nat.mul_mod_right ..) (Nat.le_trans (Nat.le_add_right ..) hmax)),
        .inl ⟨?_, hpacked, fun hc => ?_, fun d => ?_⟩⟩
      · rw [hrun, run_bind_ok hok]
        rfl
      · have hfits := hc.2
        rw [← hsize] at hfits
        exact absurd (hextend.mp hfits) (Nat.not_le.mpr hfull)
      · rw [Vol.resize_dir hdp₂ (by rw [hmore.size, hgrown.size, ← hsize]),
          (hmore.dir d).2.2, (hgrown.dir d).2.2]

end Dirlink

/-! ## References around a change -/

/-- The references and copies in the inode table are the same. -/
def SameRefs (s s' : Vol) : Prop :=
  ∀ d, (s'.itable d).ref = (s.itable d).ref ∧ (s'.itable d).valid = (s.itable d).valid

section Around

variable {sb : Superblock} {s s' : Vol} {dp i : Nat}

theorem Extended.refs {ip : Nat} (h : Extended sb ip s s') : SameRefs s s' := by
  intro d
  obtain ⟨a, ha⟩ := h.inode d
  rw [ha]
  exact ⟨rfl, rfl⟩

theorem Vol.resize_refs (s : Vol) (dp size : Nat) : SameRefs s (s.resize sb dp size) := by
  intro d
  by_cases he : d = dp
  · subst he
    unfold resize
    simp only [Function.update_self]
    exact ⟨trivial, trivial⟩
  · unfold resize
    simp only [Function.update_of_ne he]
    exact ⟨trivial, trivial⟩

/-- Volumes with the same files have the same directories. -/
theorem SameFiles.dir (h : SameFiles s s') (d : Nat) :
    (∀ k, s'.dirent d k = s.dirent d k) ∧ s'.entries d = s.entries d ∧ s'.dir d = s.dir d :=
  Vol.dir_congr (by rw [h.view]) (h.byteAt d)

theorem SameFiles.dirFile (h : SameFiles s s') {d : Nat} (hd : s.DirFile d) : s'.DirFile d :=
  ⟨by rw [h.view]; exact hd.type, by rw [h.view]; exact hd.whole, by rw [h.view]; exact hd.small⟩

/-- A reference taken, a change to a directory, and the reference dropped again. -/
theorem Tidy.around (h : Tidy sb (s.gets i) s') (hrefs : SameRefs (s.gets i) s') :
    iput sb i s' = .ok ((), s'.puts i) ∧ Tidy sb s (s'.puts i) ∧ SameFiles s' (s'.puts i) := by
  have hgets := s.gets_same i
  have hspare : s'.Spare i := by
    rcases s.gets_spare i with hr | hv
    · exact .inl ((hrefs i).1 ▸ hr)
    · exact .inr ((hrefs i).2 ▸ hv)
  have hputs := hspare.puts
  refine ⟨iput_ok hspare.not_last, ⟨hputs.sound h.sound, fun d hd => ?_, ?_, fun d => ?_,
    fun d hd => hputs.dirFile (h.file d (hgets.dirFile hd))⟩, hputs⟩
  · refine (h.live d (hd.gets i)).puts ?_
    rintro rfl
    have hr := hd.ref
    rw [(hrefs d).1, Vol.gets_of_ref hd.ref]
    simp only [Function.update_self]
    omega
  · show (if (s'.itable i).ref = 1 then s'.inuse.erase i else s'.inuse) = s.inuse
    rw [(hrefs i).1, h.inuse]
    by_cases hr : 0 < (s.itable i).ref
    · rw [Vol.gets_of_ref hr]
      simp only [Function.update_self]
      exact if_neg (by omega)
    · rw [Vol.gets_of_free hr]
      simp only [Function.update_self, if_true]
      exact List.erase_cons_head ..
  · rw [hputs.view, h.type, hgets.view]

end Around

section Calls

variable {sb : Superblock} {s s' : Vol} {dp k inum : Nat} {name : List UInt8}

/-- The name is cleared from the directory: the part of `sys_unlink` between looking it up and
counting links. -/
def unlinkName (sb : Superblock) (dp : Nat) (name : List UInt8) : M Unit := do
  match ← dirlookup sb dp name with
  | none => return ()
  | some (ip, off) =>
    clearEntry sb dp off
    iput sb ip

/-- A call on the directory may find a hole that it cannot fill, or a full inode table. -/
def Vol.Short (sb : Superblock) (s : Vol) (dp : Nat) : Prop :=
  s.free sb < s.needs dp (s.view dp).size ∨ NINODE ≤ s.inuse.length

theorem Filled.needs_le_iff (h : Filled sb dp 0 (blocksEnd 0 (s.view dp).size) s s') {size : Nat}
    (hle : (s.view dp).size ≤ size) :
    s'.needs dp size ≤ s'.free sb ↔ s.needs dp size ≤ s.free sb := by
  have hpaid := h.paid 0 (blocksEnd 0 size) (Nat.le_refl 0) (Nat.div_le_div_right (by omega))
  unfold Vol.needs
  omega

/-- Filling holes does not change whether the directory can grow. -/
theorem Filled.canExtend (h : Filled sb dp 0 (blocksEnd 0 (s.view dp).size) s s') :
    s'.CanExtend sb dp ↔ s.CanExtend sb dp := by
  unfold Vol.CanExtend
  rw [h.size, h.needs_le_iff (Nat.le_add_right ..)]

theorem Filled.packed (h : Filled sb dp 0 (blocksEnd 0 (s.view dp).size) s s') :
    s'.Packed dp ↔ s.Packed dp := by
  obtain ⟨hdirent, hentries, -⟩ := h.dir dp
  unfold Vol.Packed
  rw [hentries]
  simp only [hdirent]

/-- `iget` fails only when the table is full. -/
theorem iget_cases (s : Vol) (i : Nat) :
    NINODE ≤ s.inuse.length ∧ (∃ e, iget i s = .error e) ∨ iget i s = .ok ((), s.gets i) := by
  by_cases h : 0 < (s.itable i).ref ∨ s.inuse.length < NINODE
  · exact .inr (iget_ok h)
  · obtain ⟨hr, hfull⟩ := not_or.mp h
    refine .inl ⟨Nat.le_of_not_lt hfull, .panic "iget: no inodes", ?_⟩
    unfold iget
    rw [run_get_bind, run_ite, if_neg hr, run_ite, if_pos (Nat.le_of_not_lt hfull)]
    rfl

/-- `dirlink` fails and changes no entry exactly if the name is there, or every entry is in use
and there is no room for one more. Otherwise it puts the name in a free slot. -/
theorem dirlink_spec (h : s.Sound sb) (hdp : s.Live dp) (hfile : s.DirFile dp)
    (hpos : inum ≠ 0) (hlt : inum < 2 ^ 16) (name : List UInt8) :
    (s.Short sb dp ∧ ∃ e, dirlink sb dp name inum s = .error e) ∨
      ∃ s', Tidy sb s s' ∧
        (dirlink sb dp name inum s = .ok (-1, s') ∧
            (¬ s.Absent dp name ∨ s.Packed dp ∧ ¬ s.CanExtend sb dp) ∧
            (∀ d, s'.dir d = s.dir d) ∨
          dirlink sb dp name inum s = .ok (0, s') ∧ s.Absent dp name ∧
            ¬ (s.Packed dp ∧ ¬ s.CanExtend sb dp) ∧
            ∃ k, (s.dir dp).Free k ∧
              s'.dir dp = (s.dir dp).put k (some (key name, inum)) ∧
              ∀ d, d ≠ dp → s'.dir d = s.dir d) := by
  rcases dirlookup_spec h hdp hfile name with
    ⟨hshort, herror⟩ | ⟨s₁, hfilled, ⟨habsent, hlook⟩ | ⟨k, hk, i, hslot, -, hlook⟩⟩
  · exact .inl ⟨.inl hshort, _, run_bind_error herror⟩
  · have hgrown := hfilled.toGrown
    have hrun : dirlink sb dp name inum s = dirWrite sb dp name inum s₁ := run_bind_ok hlook
    have hdirs : ∀ d, s₁.dir d = s.dir d := fun d => (hgrown.dir d).2.2
    rw [hrun]
    rcases dirWrite_spec hgrown.sound (hgrown.live hdp) (hgrown.dirFile hfile) hpos hlt name with
      ⟨hshort, herror⟩ | ⟨s', htidy, ⟨hok, hpacked, hfull, hsame⟩ | ⟨hok, hroom, k, hfree, hself,
        hothers⟩⟩
    · refine .inl ⟨.inl ?_, _, herror⟩
      rw [hgrown.size, ← Nat.not_le, hfilled.needs_le_iff (Nat.le_refl _), Nat.not_le] at hshort
      exact hshort
    · rw [hfilled.packed] at hpacked
      rw [hfilled.canExtend] at hfull
      exact .inr ⟨s', hgrown.tidy.trans htidy, .inl ⟨hok, .inr ⟨hpacked, hfull⟩,
        fun d => (hsame d).trans (hdirs d)⟩⟩
    · rw [hfilled.packed, hfilled.canExtend] at hroom
      rw [hdirs] at hfree hself
      exact .inr ⟨s', hgrown.tidy.trans htidy, .inr ⟨hok, habsent, hroom, k, hfree, hself,
        fun d hne => (hothers d hne).trans (hdirs d)⟩⟩
  · have hgrown := hfilled.toGrown
    have hgets := s₁.gets_same i
    rcases iget_cases s₁ i with ⟨hfull, e, herror⟩ | higet
    · refine .inl ⟨.inr (hgrown.inuse ▸ hfull), e, ?_⟩
      rw [run_bind_error herror] at hlook
      exact run_bind_error hlook
    · rw [run_bind_ok higet] at hlook
      have htidy₂ : Tidy sb (s₁.gets i) (s₁.gets i) :=
        ⟨hgets.sound hgrown.sound, fun _ hd => hd, rfl, fun _ => rfl, fun _ hd => hd⟩
      obtain ⟨hiput, htidy, hputs⟩ := htidy₂.around fun _ => ⟨rfl, rfl⟩
      refine .inr ⟨_, hgrown.tidy.trans htidy,
        .inl ⟨?_, .inl fun habsent => habsent k hk i hslot, fun d => ?_⟩⟩
      · have hrun : dirlink sb dp name inum s = (do iput sb i; return -1 : M Int) (s₁.gets i) :=
          run_bind_ok hlook
        rw [hrun, run_bind_ok hiput]
        rfl
      · rw [(hputs.dir d).2.2, (hgets.dir d).2.2, (hgrown.dir d).2.2]

/-- `unlink` of a name clears its entry and no other. -/
theorem unlinkName_spec (h : s.Sound sb) (hdp : s.Live dp) (hfile : s.DirFile dp)
    (name : List UInt8) :
    (s.Short sb dp ∧ ∃ e, unlinkName sb dp name s = .error e) ∨
      ∃ s', unlinkName sb dp name s = .ok ((), s') ∧ Tidy sb s s' ∧
        (∀ d, d ≠ dp → s'.dir d = s.dir d) ∧
        (s.Absent dp name ∧ s'.dir dp = s.dir dp ∨
          ∃ k i, (s.dir dp)[k]? = some (some (key name, i)) ∧
            s'.dir dp = (s.dir dp).put k none) := by
  rcases dirlookup_spec h hdp hfile name with
    ⟨hshort, herror⟩ | ⟨s₁, hfilled, ⟨habsent, hlook⟩ | ⟨k, hk, i, hslot, hblock, hlook⟩⟩
  · exact .inl ⟨.inl hshort, _, run_bind_error herror⟩
  · have hgrown := hfilled.toGrown
    refine .inr ⟨s₁, ?_, hgrown.tidy, fun d _ => (hgrown.dir d).2.2,
      .inl ⟨habsent, (hgrown.dir dp).2.2⟩⟩
    exact run_bind_ok hlook
  · have hgrown := hfilled.toGrown
    have hgets := s₁.gets_same i
    rcases iget_cases s₁ i with ⟨hfull, e, herror⟩ | higet
    · refine .inl ⟨.inr (hgrown.inuse ▸ hfull), e, ?_⟩
      rw [run_bind_error herror] at hlook
      exact run_bind_error hlook
    rw [run_bind_ok higet] at hlook
    have hdp₂ := (hgrown.live hdp).gets i
    have hfile₂ := hgets.dirFile (hgrown.dirFile hfile)
    have hk₂ : k < (s₁.gets i).entries dp := by
      rw [(hgets.dir dp).2.1, (hgrown.dir dp).2.1]
      exact hk
    have hblock₂ : (s₁.gets i).blockOf dp (Dirent.size * k / BSIZE) ≠ 0 := by
      rwa [Vol.blockOf_congr hgets.slot]
    obtain ⟨t, hwritten, hmax, hok⟩ := writei_inplace (hgets.sound hgrown.sound) hdp₂ hfile₂ hk₂
      hblock₂ (List.replicate Dirent.size 0)
    have htidy₂ : Tidy sb (s₁.gets i) (t.resize sb dp (Dirent.size * k + Dirent.size)) := by
      refine hwritten.tidy.trans (Vol.resize_tidy hwritten.sound (hwritten.live hdp₂) ?_ hmax)
      rw [← Nat.mul_succ]
      exact Nat.mul_mod_right ..
    have hrefs : SameRefs (s₁.gets i) (t.resize sb dp (Dirent.size * k + Dirent.size)) := by
      intro d
      have hfirst := hwritten.refs d
      have hresize : SameRefs t (t.resize sb dp (Dirent.size * k + Dirent.size)) :=
        Vol.resize_refs t dp _
      have hsecond := hresize d
      exact ⟨hsecond.1.trans hfirst.1, hsecond.2.trans hfirst.2⟩
    obtain ⟨hiput, htidy, hputs⟩ := htidy₂.around hrefs
    obtain ⟨hself, hothers⟩ := hwritten.dir hdp₂ hfile₂ (Nat.le_of_lt hk₂)
      (ofBytes_written _ List.length_replicate k)
    have hdirs : ∀ d, (s₁.gets i).dir d = s.dir d := fun d =>
      ((hgets.dir d).2.2).trans (hgrown.dir d).2.2
    refine .inr ⟨_, ?_, hgrown.tidy.trans htidy, fun d hne => ?_, .inr ⟨k, i, ?_, ?_⟩⟩
    · have hclear : clearEntry sb dp (Dirent.size * k) (s₁.gets i) =
          .ok ((), t.resize sb dp (Dirent.size * k + Dirent.size)) := by
        unfold clearEntry
        exact run_bind_ok hok
      have hrun : unlinkName sb dp name s =
          (do clearEntry sb dp (Dirent.size * k); iput sb i : M Unit) (s₁.gets i) :=
        run_bind_ok hlook
      rw [hrun, run_bind_ok hclear]
      exact hiput
    · rw [(hputs.dir d).2.2, hothers d hne, hdirs]
    · exact Vol.entry_iff.mpr ⟨hk, hslot⟩
    · rw [(hputs.dir dp).2.2, hself, hdirs]
      rfl

end Calls

end Xv6.Fs
