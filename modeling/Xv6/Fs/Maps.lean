import Xv6.Base.Machine
import Xv6.Fs.Directory

/-!
# Directories are finite maps

Calls of `dirlink` and clearings of entries come in any order, on any locked directories. Each puts
a key into a free slot of one table or frees a slot, so the keys of every table stay distinct, and
then a table is a map.
-/

namespace Xv6.Fs

open Base

/-- A call on a directory. -/
inductive DirEvent
  | dirlink (dp : Nat) (name : List UInt8) (inum : Nat)
  | unlink (dp : Nat) (name : List UInt8)

/-- The directory is locked, so the table has a valid copy of it. -/
def Vol.isLocked (s : Vol) (dp : Nat) : Bool :=
  decide (0 < (s.itable dp).ref) && (s.itable dp).valid && decide ((s.itable dp).type = .dir)

/-- Directories that calls are made on, one after the other, from a volume on. -/
def directories (sb : Superblock) (s₀ : Vol) : Machine Vol DirEvent Fault where
  init := s₀
  enabled
    | .dirlink dp _ inum, s => s.isLocked dp && decide (0 < inum) && decide (inum < 2 ^ 16)
    | .unlink dp _, s => s.isLocked dp
  exec
    | .dirlink dp name inum, s => (dirlink sb dp name inum s).map Prod.snd
    | .unlink dp name, s => (unlinkName sb dp name s).map Prod.snd

/-- What the calls keep. -/
structure Vol.Dirs (sb : Superblock) (s : Vol) : Prop where
  sound : s.Sound sb
  file : ∀ d, (s.view d).type = .dir → s.DirFile d
  names : ∀ d, (s.view d).type = .dir → (s.dir d).Distinct

section Sequences

variable {sb : Superblock} {s s' : Vol} {dp : Nat} {name : List UInt8}

theorem Vol.isLocked_iff : s.isLocked dp = true ↔ s.Live dp ∧ (s.view dp).type = .dir := by
  unfold isLocked
  rw [Bool.and_eq_true, Bool.and_eq_true, decide_eq_true_eq, decide_eq_true_eq]
  constructor
  · rintro ⟨⟨hr, hv⟩, ht⟩
    have hlive : s.Live dp := ⟨hr, hv, by rw [ht]; decide⟩
    exact ⟨hlive, by rw [hlive.view]; exact ht⟩
  · rintro ⟨hlive, ht⟩
    rw [hlive.view] at ht
    exact ⟨⟨hlive.ref, hlive.valid⟩, ht⟩

/-- A call that puts one entry into one directory, or takes one out. -/
theorem Vol.Dirs.step (h : s.Dirs sb) (htidy : Tidy sb s s')
    (hself : (s'.dir dp).Distinct) (hothers : ∀ d, d ≠ dp → s'.dir d = s.dir d) :
    s'.Dirs sb where
  sound := htidy.sound
  file d hd := htidy.file d (h.file d (htidy.type d ▸ hd))
  names d hd := by
    by_cases he : d = dp
    · rw [he]
      exact hself
    · rw [hothers d he]
      exact h.names d (htidy.type d ▸ hd)

theorem Vol.Dirs.free_put (h : s.Dirs sb) (hdir : (s.view dp).type = .dir)
    (habsent : s.Absent dp name) {k inum : Nat} (hfree : (s.dir dp).Free k)
    (hself : s'.dir dp = (s.dir dp).put k (some (key name, inum))) :
    (s'.dir dp).Distinct ∧ ∀ name', s'.lookup dp name' =
      if namecmp name' name = 0 then some inum else s.lookup dp name' := by
  have hd := h.names dp hdir
  have hnew := (Vol.absent_iff hd).mp habsent
  rw [hself]
  refine ⟨hd.add hfree hnew inum, fun name' => ?_⟩
  unfold lookup
  rw [hself, SlotTable.find_put hd hfree hnew]
  simp only [namecmp_eq_zero_iff]

theorem Vol.Dirs.cleared (h : s.Dirs sb) (hdir : (s.view dp).type = .dir)
    (hself : s.Absent dp name ∧ s'.dir dp = s.dir dp ∨
      ∃ (k i : Nat), (s.dir dp)[k]? = some (some (key name, i)) ∧
        s'.dir dp = (s.dir dp).put k none) :
    (s'.dir dp).Distinct ∧ ∀ name', s'.lookup dp name' =
      if namecmp name' name = 0 then none else s.lookup dp name' := by
  have hd := h.names dp hdir
  rcases hself with ⟨habsent, hsame⟩ | ⟨k, i, hk, hput⟩
  · have hnone := (Vol.absent_iff hd).mp habsent
    refine ⟨hsame ▸ hd, fun name' => ?_⟩
    unfold lookup at hnone ⊢
    rw [hsame]
    by_cases he : namecmp name' name = 0
    · rw [if_pos he, (namecmp_eq_zero_iff ..).mp he, hnone]
    · rw [if_neg he]
  · have hle : k ≤ (s.dir dp).length := Nat.le_of_lt (List.getElem?_eq_some_iff.mp hk).1
    rw [hput]
    refine ⟨hd.clear hle, fun name' => ?_⟩
    unfold lookup
    rw [hput, SlotTable.find_clear hd hk]
    simp only [namecmp_eq_zero_iff]

theorem directories_step {s₀ : Vol} {e : DirEvent} (h : s.Dirs sb)
    (hstep : (directories sb s₀).Step s e s') : s'.Dirs sb := by
  obtain ⟨henabled, hexec⟩ := hstep
  cases e with
  | dirlink dp name inum =>
    obtain ⟨henabled, hlt⟩ := Bool.and_eq_true_iff.mp henabled
    obtain ⟨hlocked, hpos⟩ := Bool.and_eq_true_iff.mp henabled
    obtain ⟨hlive, hdir⟩ := Vol.isLocked_iff.mp hlocked
    have hexec : (dirlink sb dp name inum s).map Prod.snd = .ok s' := hexec
    rcases dirlink_spec h.sound hlive (h.file dp hdir)
      (Nat.ne_of_gt (of_decide_eq_true hpos)) (of_decide_eq_true hlt) name with
      ⟨-, e, herror⟩ | ⟨t, htidy, ⟨hok, -, hsame⟩ | ⟨hok, habsent, -, k, hfree, hself, hothers⟩⟩
    · rw [herror] at hexec
      cases hexec
    · rw [hok] at hexec
      cases hexec
      have hdp : (t.dir dp).Distinct := hsame dp ▸ h.names dp hdir
      exact h.step htidy hdp fun d _ => hsame d
    · rw [hok] at hexec
      cases hexec
      exact h.step htidy (h.free_put hdir habsent hfree hself).1 hothers
  | unlink dp name =>
    obtain ⟨hlive, hdir⟩ := Vol.isLocked_iff.mp henabled
    have hexec : (unlinkName sb dp name s).map Prod.snd = .ok s' := hexec
    rcases unlinkName_spec h.sound hlive (h.file dp hdir) name with
      ⟨-, e, herror⟩ | ⟨t, hok, htidy, hothers, hself⟩
    · rw [herror] at hexec
      cases hexec
    · rw [hok] at hexec
      cases hexec
      exact h.step htidy (h.cleared hdir hself).1 hothers

/-- What `dirlookup` answers, if neither a hole nor a full inode table stops it. -/
theorem Vol.Dirs.dirlookup (h : s.Dirs sb) (hlive : s.Live dp) (hdir : (s.view dp).type = .dir)
    (hroom : ¬ s.Short sb dp) (name : List UInt8) :
    ∃ r s', dirlookup sb dp name s = .ok (r, s') ∧ r.map Prod.fst = s.lookup dp name := by
  have hd := h.names dp hdir
  rcases dirlookup_spec h.sound hlive (h.file dp hdir) name with
    ⟨hshort, -⟩ | ⟨s₁, hfilled, ⟨habsent, hlook⟩ | ⟨k, hk, i, hslot, -, hlook⟩⟩
  · exact absurd (.inl hshort) hroom
  · exact ⟨none, s₁, hlook, ((Vol.absent_iff hd).mp habsent).symm⟩
  · rcases iget_cases s₁ i with ⟨hfull, -⟩ | higet
    · exact absurd (.inr (hfilled.inuse ▸ hfull)) hroom
    · refine ⟨some (i, Dirent.size * k), _, hlook.trans (run_bind_ok higet), ?_⟩
      exact ((SlotTable.find_eq_some_iff hd).mpr ⟨k, Vol.entry_iff.mpr ⟨hk, hslot⟩⟩).symm

end Sequences

/-- **Directories are finite maps.** From a volume with block ownership whose directories have
different names, calls of `dirlink` and clearings of entries keep the names different. In every
state reached, on a locked directory that does not lack more blocks than are free, and with a free
entry in the inode table: `dirlookup` answers the map; `dirlink` fails and changes no directory if
the name is there, or every entry is in use and one more has no room, and otherwise adds the name to
the map; and clearing a name removes that name. Other directories stay as they are. -/
theorem directories_are_maps {sb : Superblock} {s₀ s : Vol} (hsound : s₀.Sound sb)
    (hdirs : ∀ d, (s₀.view d).type = .dir → s₀.DirFile d ∧ s₀.NamesDiffer d)
    (hs : (directories sb s₀).Reachable s) :
    (∀ d, (s.view d).type = .dir → s.NamesDiffer d) ∧
      ∀ dp, s.Live dp → (s.view dp).type = .dir → ¬ s.Short sb dp → ∀ name,
        (∃ r s', dirlookup sb dp name s = .ok (r, s') ∧ r.map Prod.fst = s.lookup dp name) ∧
        (∀ inum, 0 < inum → inum < 2 ^ 16 → ∃ r s', dirlink sb dp name inum s = .ok (r, s') ∧
          (r = -1 ∧ ((s.lookup dp name).isSome ∨ s.Packed dp ∧ ¬ s.CanExtend sb dp) ∧
              (∀ d, s'.dir d = s.dir d) ∨
            r = 0 ∧ s.lookup dp name = none ∧ ¬ (s.Packed dp ∧ ¬ s.CanExtend sb dp) ∧
              (∀ name', s'.lookup dp name' =
                if namecmp name' name = 0 then some inum else s.lookup dp name') ∧
              ∀ d, d ≠ dp → s'.dir d = s.dir d)) ∧
        ∃ s', unlinkName sb dp name s = .ok ((), s') ∧
          (∀ name', s'.lookup dp name' =
            if namecmp name' name = 0 then none else s.lookup dp name') ∧
          ∀ d, d ≠ dp → s'.dir d = s.dir d := by
  have h₀ : s₀.Dirs sb := ⟨hsound, fun d hd => (hdirs d hd).1,
    fun d hd => Vol.namesDiffer_iff.mp (hdirs d hd).2⟩
  have h : s.Dirs sb := hs.invariant h₀ fun _ _ _ ht hstep => directories_step ht hstep
  refine ⟨fun d hd => Vol.namesDiffer_iff.mpr (h.names d hd),
    fun dp hlive hdir hroom name => ⟨h.dirlookup hlive hdir hroom name,
      fun inum hpos hlt => ?_, ?_⟩⟩
  · have hfound : ¬ s.Absent dp name → (s.lookup dp name).isSome := by
      intro habsent
      rw [Vol.absent_iff (h.names dp hdir)] at habsent
      exact Option.isSome_iff_ne_none.mpr habsent
    rcases dirlink_spec h.sound hlive (h.file dp hdir) (Nat.ne_of_gt hpos) hlt name with
      ⟨hshort, -⟩ | ⟨t, -, ⟨hok, hwhy, hsame⟩ | ⟨hok, habsent, hspace, k, hfree, hself, hothers⟩⟩
    · exact absurd hshort hroom
    · exact ⟨-1, t, hok, .inl ⟨rfl, hwhy.imp_left hfound, hsame⟩⟩
    · exact ⟨0, t, hok, .inr ⟨rfl, (Vol.absent_iff (h.names dp hdir)).mp habsent, hspace,
        (h.free_put hdir habsent hfree hself).2, hothers⟩⟩
  · rcases unlinkName_spec h.sound hlive (h.file dp hdir) name with
      ⟨hshort, -⟩ | ⟨t, hok, -, hothers, hself⟩
    · exact absurd hshort hroom
    · exact ⟨t, hok, (h.cleared hdir hself).2, hothers⟩

/-! ## A directory with free entries, and one with a hole -/

/-- A directory of one block, without entries. -/
def oneBlock : Vol := tinyVol .dir 1024

/-- Both volumes have only zeroes in their data blocks, and no other directory. -/
theorem tinyVol_empty (type : Itype) (size d k : Nat) :
    ((tinyVol type size).dirent d k).inum = 0 := by
  have hbyte : ∀ x, (tinyVol type size).byteAt d x = 0 := by
    intro x
    unfold Vol.byteAt
    split
    · rfl
    · unfold tinyVol zeroBlock Bytes.byte
      simp only
      split <;> rfl
  unfold Vol.dirent
  simp only [hbyte]
  rfl

theorem tinyVol_dirs {size : Nat} (hfile : (tinyVol .dir size).DirFile 1) (d : Nat)
    (hd : ((tinyVol .dir size).view d).type = .dir) :
    (tinyVol .dir size).DirFile d ∧ (tinyVol .dir size).NamesDiffer d := by
  by_cases he : d = 1
  · subst he
    exact ⟨hfile, fun j _ _ _ hj => absurd (tinyVol_empty .dir size 1 j) hj⟩
  · unfold Vol.view tinyVol at hd
    simp only [if_neg he, ite_self] at hd
    cases hd

/-- A second name in the next free entry: the first one is still found. -/
theorem directories_are_maps_second :
    ∃ s s', (directories tinySuperblock oneBlock).Reachable s ∧ s.lookup 1 [98] = some 1 ∧
      dirlink tinySuperblock 1 [97] 1 s = .ok (0, s') ∧ s'.lookup 1 [97] = some 1 ∧
      s'.lookup 1 [98] = some 1 := by
  obtain ⟨steps, s, hrun, htest⟩ := Machine.exists_run (M := directories tinySuperblock oneBlock)
    [.dirlink 1 [98] 1]
    (fun _ s => s.isLocked 1 && decide (s.needs 1 (s.view 1).size ≤ s.free tinySuperblock) &&
      decide (s.inuse.length < NINODE) && s.lookup 1 [98] == some 1 &&
      ((dirlink tinySuperblock 1 [97] 1 s).map Prod.fst).toOption == some 0)
    (by decide +kernel)
  simp only [Bool.and_eq_true, beq_iff_eq, decide_eq_true_eq, Vol.isLocked] at htest
  obtain ⟨⟨⟨⟨⟨⟨href, hvalid⟩, htype⟩, hblocks⟩, htable⟩, hold⟩, hzero⟩ := htest
  have hroom : ¬ s.Short tinySuperblock 1 := not_or.mpr ⟨Nat.not_lt.mpr hblocks, Nat.not_le.mpr htable⟩
  have hlive : s.Live 1 := ⟨href, hvalid, by rw [htype]; decide⟩
  have hdir : (s.view 1).type = .dir := by
    unfold Vol.view
    rw [if_pos ⟨href, hvalid⟩]
    exact htype
  obtain ⟨-, hcalls⟩ := directories_are_maps (tinyVol_sound (by decide) 1024)
    (tinyVol_dirs ⟨rfl, rfl, by decide⟩) ⟨steps, hrun⟩
  obtain ⟨-, hlink, -⟩ := hcalls 1 hlive hdir hroom [97]
  obtain ⟨r, s', hok, ⟨rfl, -⟩ | ⟨rfl, -, -, hlook, -⟩⟩ := hlink 1 (by decide) (by decide)
  · rw [hok] at hzero
    cases hzero
  · refine ⟨s, s', ⟨steps, hrun⟩, hold, hok, (hlook [97]).trans (if_pos (by decide)), ?_⟩
    rw [hlook, if_neg (by decide), hold]

/-- In the directory with a hole, on a full disk, `dirlink` panics although the name is new and the
first entry is free. -/
theorem dirlink_panics_on_hole :
    holed.Sound tinySuperblock ∧ holed.Live 1 ∧
      (∀ d, (holed.view d).type = .dir → holed.DirFile d ∧ holed.NamesDiffer d) ∧
      holed.lookup 1 [97] = none ∧ ¬ holed.Packed 1 ∧
      (dirlink tinySuperblock 1 [97] 1 holed).map Prod.fst = .error (.panic "dirlookup read") :=
  ⟨holed_sound, holed_live, tinyVol_dirs ⟨rfl, rfl, by decide⟩, by decide +kernel,
    fun hpacked => hpacked 0 (by decide) (tinyVol_empty .dir 2048 1 0), by decide +kernel⟩

end Xv6.Fs
