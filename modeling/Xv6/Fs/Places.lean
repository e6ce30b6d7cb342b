import Xv6.Base.Ownership
import Xv6.Base.Stateful
import Xv6.Fs.Inode

/-!
# Where block numbers are, and what `bmap` does to them

A block number of a file is in a slot of its inode's `addrs` or in a slot of its indirect block.
`Vol.slot` reads the number at such a `Place`, through the copy in the inode table where there is
a valid one. `Vol.Sound` is block ownership: the numbers in the places and the bitmap agree, and
the metadata blocks are marked used.

`bmap` puts at most two fresh blocks in empty places of its inode. `Grown` collects what that
leaves alone: every number that was there, every other inode, and every byte of every file, since
a fresh block is zeroed and a missing block reads as zeroes.
-/

namespace Xv6.Fs

open Base Function

/-! ## Places -/

/-- A place for a block number: a slot of an inode's `addrs`, or of its indirect block. -/
inductive Place
  | addr (i : Nat) (k : Slot13)
  | entry (i : Nat) (j : Fin NINDIRECT)
deriving DecidableEq

/-- The inode a place belongs to. -/
def Place.inode : Place → Nat
  | .addr i _ => i
  | .entry i _ => i

namespace Vol

/-- The inode as the kernel has it: the copy in the table if that is in use, else the disk's. -/
def view (s : Vol) (i : Nat) : Dinode :=
  if 0 < (s.itable i).ref ∧ (s.itable i).valid = true then (s.itable i).toDinode else s.dinode i

/-- The block number in a slot of `addrs`. A free inode has none. -/
def addr (s : Vol) (i : Nat) (k : Slot13) : Nat :=
  if (s.view i).type = .free then 0 else (s.view i).addrs k

/-- The block number at a place. -/
def slot (s : Vol) : Place → Nat
  | .addr i k => s.addr i k
  | .entry i j => if s.addr i single = 0 then 0 else (s.data (s.addr i single)).word j

/-- The number of the `bn`th block of a file, 0 if it has none. -/
def blockOf (s : Vol) (i bn : Nat) : Nat :=
  if h : bn < NDIRECT then s.slot (.addr i ⟨bn, Nat.lt_succ_of_lt h⟩)
  else if h : bn - NDIRECT < NINDIRECT then s.slot (.entry i ⟨bn - NDIRECT, h⟩)
  else 0

/-- The byte at an offset of a file. A block that is missing reads as zeroes. -/
def byteAt (s : Vol) (i x : Nat) : UInt8 :=
  if s.blockOf i (x / BSIZE) = 0 then 0 else (s.data (s.blockOf i (x / BSIZE))).byte (x % BSIZE)

/-- Block ownership. -/
structure Sound (sb : Superblock) (s : Vol) : Prop where
  owned : Owned sb.isData s.slot s.used
  metadata : ∀ b, b < sb.datastart → s.used b = true

/-- The table has a valid copy of the inode, and it is allocated. -/
structure Live (s : Vol) (ip : Nat) : Prop where
  ref : 0 < (s.itable ip).ref
  valid : (s.itable ip).valid = true
  type : (s.itable ip).type ≠ .free

/-- The number of free blocks. -/
def free (sb : Superblock) (s : Vol) : Nat :=
  ((Finset.range sb.size).filter fun b => s.used b = false).card

end Vol

section Basics

variable {sb : Superblock} {s s' : Vol} {ip b : Nat} {k : Slot13}

theorem Superblock.isData_iff : sb.isData b = true ↔ sb.datastart ≤ b ∧ b < sb.size := by
  unfold isData
  rw [Bool.and_eq_true, decide_eq_true_eq, decide_eq_true_eq]

theorem Superblock.datastart_pos (sb : Superblock) : 0 < sb.datastart := by
  have hlayout := sb.layout
  unfold datastart
  omega

theorem Superblock.ne_zero (h : sb.isData b = true) : b ≠ 0 := by
  have hpos := sb.datastart_pos
  have hle := (isData_iff.mp h).1
  omega

theorem Vol.Live.view (h : s.Live ip) : s.view ip = (s.itable ip).toDinode :=
  if_pos ⟨h.ref, h.valid⟩

theorem Vol.Live.addr (h : s.Live ip) (k : Slot13) : s.addr ip k = (s.itable ip).addrs k := by
  unfold Vol.addr
  rw [h.view]
  exact if_neg h.type

/-- Slots only look at the block numbers in the inodes and at the indirect blocks. -/
theorem Vol.slot_congr (haddr : ∀ i k, s'.addr i k = s.addr i k)
    (hdata : ∀ i, s.addr i single ≠ 0 → s'.data (s.addr i single) = s.data (s.addr i single)) :
    s'.slot = s.slot := by
  funext p
  cases p with
  | addr i k => exact haddr i k
  | entry i j =>
    show (if s'.addr i single = 0 then 0 else _) = if s.addr i single = 0 then 0 else _
    rw [haddr]
    by_cases hz : s.addr i single = 0
    · rw [if_pos hz, if_pos hz]
    · rw [if_neg hz, if_neg hz, hdata i hz]

theorem Vol.Sound.isData (h : s.Sound sb) {p : Place} (hp : s.slot p ≠ 0) :
    sb.isData (s.slot p) = true :=
  (h.owned.held p hp).1

/-- A block of one inode is no block of another, nor the indirect block of any. -/
theorem Vol.blockOf_place (s : Vol) {i bn : Nat} (h : s.blockOf i bn ≠ 0) :
    ∃ p : Place, s.blockOf i bn = s.slot p ∧ p.inode = i ∧ (∀ i', p ≠ .addr i' single) ∧
      (if h : bn < NDIRECT then p = .addr i ⟨bn, Nat.lt_succ_of_lt h⟩
        else ∃ h' : bn - NDIRECT < NINDIRECT, p = .entry i ⟨bn - NDIRECT, h'⟩) := by
  unfold blockOf at h ⊢
  by_cases hd : bn < NDIRECT
  · simp only [dif_pos hd] at h ⊢
    refine ⟨_, rfl, rfl, fun i' he => ?_, rfl⟩
    have hk : (⟨bn, Nat.lt_succ_of_lt hd⟩ : Slot13) = single := (Place.addr.inj he).2
    have hval : bn = NDIRECT := congrArg Fin.val hk
    omega
  · by_cases hn : bn - NDIRECT < NINDIRECT
    · simp only [dif_neg hd, dif_pos hn] at h ⊢
      exact ⟨_, rfl, rfl, fun i' he => (by cases he), hn, rfl⟩
    · simp only [dif_neg hd, dif_neg hn] at h
      exact absurd rfl h

theorem Vol.blockOf_congr (h : s'.slot = s.slot) (i bn : Nat) :
    s'.blockOf i bn = s.blockOf i bn := by
  unfold blockOf
  rw [h]

theorem Vol.blockOf_inj (h : s.Sound sb) {i i' bn bn' : Nat} (hb : s.blockOf i bn ≠ 0)
    (he : s.blockOf i bn = s.blockOf i' bn') : i = i' ∧ bn = bn' := by
  obtain ⟨p, hp, hi, -, hplace⟩ := s.blockOf_place hb
  obtain ⟨q, hq, hi', -, hplace'⟩ := s.blockOf_place (he ▸ hb)
  have hpq : p = q := h.owned.inj p q (hp ▸ hb) (hp.symm.trans (he.trans hq))
  subst hpq
  refine ⟨hi.symm.trans hi', ?_⟩
  by_cases hd : bn < NDIRECT
  · rw [dif_pos hd] at hplace
    by_cases hd' : bn' < NDIRECT
    · rw [dif_pos hd', hplace] at hplace'
      exact congrArg Fin.val (Place.addr.inj hplace').2
    · rw [dif_neg hd', hplace] at hplace'
      obtain ⟨_, he⟩ := hplace'
      cases he
  · rw [dif_neg hd] at hplace
    obtain ⟨_, rfl⟩ := hplace
    by_cases hd' : bn' < NDIRECT
    · rw [dif_pos hd'] at hplace'
      cases hplace'
    · rw [dif_neg hd'] at hplace'
      obtain ⟨_, he⟩ := hplace'
      have hval : bn - NDIRECT = bn' - NDIRECT := congrArg Fin.val (Place.entry.inj he).2
      omega

theorem Vol.blockOf_ne_single (h : s.Sound sb) {i i' bn : Nat} (hb : s.blockOf i bn ≠ 0) :
    s.addr i' single ≠ s.blockOf i bn := by
  intro he
  obtain ⟨p, hp, -, hne, -⟩ := s.blockOf_place hb
  exact hne i' (h.owned.inj p (.addr i' single) (hp ▸ hb) (hp.symm.trans he.symm))

end Basics

/-! ## The allocator -/

section Balloc

variable {sb : Superblock} {s : Vol} {b : Nat}

/-- The volume after `balloc` has taken a block. -/
def Vol.claim (sb : Superblock) (s : Vol) (b : Nat) : Vol :=
  { s with
    used := update s.used b true
    data := update s.data b zeroBlock
    logged := s.logged ++ [sb.bblock b] ++ [b] }

/-- `balloc` answers a free data block, zeroed and marked, or 0 on a full disk. -/
theorem balloc_spec (h : ∀ b, b < sb.datastart → s.used b = true) :
    (balloc sb s = .ok (0, s) ∧ s.free sb = 0) ∨
      ∃ b, sb.isData b = true ∧ s.used b = false ∧ balloc sb s = .ok (b, s.claim sb b) := by
  unfold balloc
  rw [run_get_bind]
  cases hfind : firstFree sb s with
  | none =>
    left
    refine ⟨rfl, ?_⟩
    unfold Vol.free
    rw [Finset.card_eq_zero, Finset.filter_eq_empty_iff]
    intro b hb
    have hall := List.find?_eq_none.mp hfind b (List.mem_range.mpr (Finset.mem_range.mp hb))
    rw [Bool.not_eq_true', Bool.not_eq_false] at hall
    rw [hall]
    exact Bool.noConfusion
  | some b =>
    right
    have hfree : s.used b = false := by
      have hb := List.find?_some hfind
      rwa [Bool.not_eq_true'] at hb
    have hlt : b < sb.size := List.mem_range.mp (List.mem_of_find?_eq_some hfind)
    have hdata : sb.isData b = true := by
      refine Superblock.isData_iff.mpr ⟨?_, hlt⟩
      by_contra hmeta
      rw [h b (by omega)] at hfree
      cases hfree
    refine ⟨b, hdata, hfree, ?_⟩
    simp only [hdata, if_true]
    rfl

theorem Vol.free_claim (hdata : sb.isData b = true) (hfree : s.used b = false) :
    s.free sb = (s.claim sb b).free sb + 1 := by
  have hmem : b ∈ (Finset.range sb.size).filter fun b => s.used b = false :=
    Finset.mem_filter.mpr ⟨Finset.mem_range.mpr (Superblock.isData_iff.mp hdata).2, hfree⟩
  have herase : ((Finset.range sb.size).filter fun x => (s.claim sb b).used x = false) =
      ((Finset.range sb.size).filter fun x => s.used x = false).erase b := by
    ext x
    rw [Finset.mem_erase, Finset.mem_filter, Finset.mem_filter]
    show x ∈ Finset.range sb.size ∧ update s.used b true x = false ↔ _
    by_cases he : x = b
    · subst he
      rw [update_self]
      exact ⟨fun hx => (by cases hx.2), fun hx => absurd rfl hx.1⟩
    · rw [update_of_ne he]
      exact ⟨fun hx => ⟨he, hx⟩, fun hx => hx.2⟩
  unfold free
  rw [herase, Finset.card_erase_of_mem hmem]
  have hpos : 0 < ((Finset.range sb.size).filter fun b => s.used b = false).card :=
    Finset.card_pos.mpr ⟨b, hmem⟩
  omega

theorem Vol.slot_claim (h : s.Sound sb) (hdata : sb.isData b = true) (hfree : s.used b = false) :
    (s.claim sb b).slot = s.slot := by
  refine slot_congr (fun _ _ => rfl) fun i hi => ?_
  have hne : s.addr i single ≠ b :=
    h.owned.ne_of_free hfree (Superblock.ne_zero hdata) (.addr i single)
  exact update_of_ne hne ..

end Balloc

/-! ## Growing a file -/

/-- Fresh blocks may have been put in empty places of `ip`. No other number has moved, and no other
inode has changed. -/
structure Extended (sb : Superblock) (ip : Nat) (s s' : Vol) : Prop where
  sound : s'.Sound sb
  itable : ∃ a, s'.itable = update s.itable ip { s.itable ip with addrs := a }
  dinode : s'.dinode = s.dinode
  inuse : s'.inuse = s.inuse
  kept : ∀ p, s.slot p ≠ 0 → s'.slot p = s.slot p
  own : ∀ p, s'.slot p ≠ s.slot p → p.inode = ip

/-- And no byte of any file has changed either. -/
structure Grown (sb : Superblock) (ip : Nat) (s s' : Vol) : Prop extends Extended sb ip s s' where
  bytes : ∀ i x, s'.byteAt i x = s.byteAt i x

section Grown

variable {sb : Superblock} {s s' s'' : Vol} {ip b : Nat} {p : Place}

theorem Extended.refl (h : s.Sound sb) (ip : Nat) : Extended sb ip s s where
  sound := h
  itable := ⟨(s.itable ip).addrs, (update_eq_self ip s.itable).symm⟩
  dinode := rfl
  inuse := rfl
  kept _ _ := rfl
  own _ hp := absurd rfl hp

theorem Extended.trans (h : Extended sb ip s s') (h' : Extended sb ip s' s'') :
    Extended sb ip s s'' where
  sound := h'.sound
  itable := by
    obtain ⟨a, ha⟩ := h.itable
    obtain ⟨a', ha'⟩ := h'.itable
    refine ⟨a', ?_⟩
    rw [ha', ha, update_idem, update_self]
  dinode := h'.dinode.trans h.dinode
  inuse := h'.inuse.trans h.inuse
  kept p hp := by
    have hs' := h.kept p hp
    rw [h'.kept p (by rwa [hs']), hs']
  own p hp := by
    by_cases hs' : s'.slot p = s.slot p
    · exact h'.own p (by rwa [hs'])
    · exact h.own p hs'

/-- The inodes in the table keep everything but `addrs`. -/
theorem Extended.inode (h : Extended sb ip s s') (i : Nat) :
    ∃ a, s'.itable i = { s.itable i with addrs := a } := by
  obtain ⟨a, ha⟩ := h.itable
  by_cases he : i = ip
  · subst he
    exact ⟨a, by rw [ha, update_self]⟩
  · exact ⟨(s.itable i).addrs, by rw [ha, update_of_ne he]⟩

theorem Extended.live (h : Extended sb ip s s') {i : Nat} (hi : s.Live i) : s'.Live i := by
  obtain ⟨a, ha⟩ := h.inode i
  exact ⟨by rw [ha]; exact hi.ref, by rw [ha]; exact hi.valid, by rw [ha]; exact hi.type⟩

theorem Extended.view (h : Extended sb ip s s') (i : Nat) :
    ∃ a, s'.view i = { s.view i with addrs := a } := by
  obtain ⟨a, ha⟩ := h.inode i
  unfold Vol.view
  rw [ha, h.dinode]
  split
  · exact ⟨a, rfl⟩
  · exact ⟨(s.dinode i).addrs, rfl⟩

theorem Grown.refl (h : s.Sound sb) (ip : Nat) : Grown sb ip s s :=
  ⟨.refl h ip, fun _ _ => rfl⟩

theorem Grown.trans (h : Grown sb ip s s') (h' : Grown sb ip s' s'') : Grown sb ip s s'' :=
  ⟨h.toExtended.trans h'.toExtended, fun i x => (h'.bytes i x).trans (h.bytes i x)⟩

/-- Putting a number in one place gives at most one missing block a number. -/
theorem Vol.blockOf_of_update (hslot : s'.slot = update s.slot p b)
    (hempty : s.slot p = 0) (i bn : Nat) :
    s'.blockOf i bn = s.blockOf i bn ∨ s.blockOf i bn = 0 ∧ s'.blockOf i bn = b := by
  have hone : ∀ q, s'.slot q = s.slot q ∨ s.slot q = 0 ∧ s'.slot q = b := by
    intro q
    rw [hslot]
    by_cases he : q = p
    · subst he
      exact .inr ⟨hempty, update_self ..⟩
    · exact .inl (update_of_ne he ..)
  unfold blockOf
  split
  · exact hone _
  · split
    · exact hone _
    · exact .inl rfl

/-- A fresh block that `balloc` has zeroed goes into an empty place. -/
theorem grown_of_fill (h : s.Sound sb) (hb : sb.isData b = true) (hfree : s.used b = false)
    (hempty : s.slot p = 0) (hown : p.inode = ip)
    (hslot : s'.slot = update s.slot p b)
    (hused : s'.used = update s.used b true) (hzero : s'.data b = zeroBlock)
    (hdata : ∀ x, x ≠ b → (∀ i, s.addr i single ≠ x) → s'.data x = s.data x)
    (hitable : ∃ a, s'.itable = update s.itable ip { s.itable ip with addrs := a })
    (hdinode : s'.dinode = s.dinode) (hinuse : s'.inuse = s.inuse) : Grown sb ip s s' := by
  have hpos : b ≠ 0 := Superblock.ne_zero hb
  refine ⟨⟨⟨?_, ?_⟩, hitable, hdinode, hinuse, ?_, ?_⟩, ?_⟩
  · rw [hslot, hused]
    exact h.owned.claim hempty hb hpos hfree
  · intro x hx
    have hne : x ≠ b := by
      have hle := (Superblock.isData_iff.mp hb).1
      omega
    rw [hused, update_of_ne hne]
    exact h.metadata x hx
  · intro q hq
    have hne : q ≠ p := by
      rintro rfl
      exact hq hempty
    rw [hslot, update_of_ne hne]
  · intro q hq
    have hqp : q = p := by
      by_contra hne
      exact hq (by rw [hslot, update_of_ne hne])
    rw [hqp, hown]
  · intro i x
    unfold Vol.byteAt
    by_cases hz : s.blockOf i (x / BSIZE) = 0
    · rw [if_pos hz]
      rcases Vol.blockOf_of_update hslot hempty i (x / BSIZE) with he | ⟨-, he⟩
      · rw [he, if_pos hz]
      · rw [he, if_neg hpos, hzero]
        unfold zeroBlock Bytes.byte
        split <;> rfl
    · have he : s'.blockOf i (x / BSIZE) = s.blockOf i (x / BSIZE) :=
        (Vol.blockOf_of_update hslot hempty i (x / BSIZE)).resolve_right fun hr => hz hr.1
      have hne : s.blockOf i (x / BSIZE) ≠ b := by
        obtain ⟨q, hq, -⟩ := s.blockOf_place hz
        rw [hq]
        exact h.owned.ne_of_free hfree hpos q
      rw [he, if_neg hz, if_neg hz,
        hdata _ hne fun i' => Vol.blockOf_ne_single h hz]

end Grown

/-! ## The stores of `bmap` -/

section Stores

variable {sb : Superblock} {s : Vol} {ip b : Nat} {k : Slot13} {j : Fin NINDIRECT}

/-- The volume with a number stored in `addrs`. -/
def Vol.putAddr (s : Vol) (ip : Nat) (k : Slot13) (b : Nat) : Vol :=
  let x := s.itable ip
  { s with itable := update s.itable ip { x with addrs := update x.addrs k b } }

/-- The volume with a number stored in the indirect block `addr`. -/
def Vol.putEntry (s : Vol) (addr : Nat) (j b : Nat) : Vol :=
  { s with
    data := update s.data addr ((s.data addr).setWord j b)
    logged := s.logged ++ [addr] }

theorem Vol.view_putAddr (hip : s.Live ip) (i : Nat) :
    (s.putAddr ip k b).view i =
      if i = ip then { s.view ip with addrs := update (s.view ip).addrs k b }
      else s.view i := by
  by_cases he : i = ip
  · subst he
    rw [if_pos rfl, hip.view]
    unfold view putAddr
    simp only [update_self]
    exact if_pos ⟨hip.ref, hip.valid⟩
  · rw [if_neg he]
    unfold view putAddr
    simp only [update_of_ne he]

theorem Vol.addr_putAddr (hip : s.Live ip) (i : Nat) (k' : Slot13) :
    (s.putAddr ip k b).addr i k' = if i = ip ∧ k' = k then b else s.addr i k' := by
  unfold addr
  rw [view_putAddr hip]
  by_cases he : i = ip
  · subst he
    have htype : (s.view i).type ≠ .free := by
      rw [hip.view]
      exact hip.type
    rw [if_pos rfl]
    simp only [htype, if_false]
    by_cases hk : k' = k
    · subst hk
      rw [update_self, if_pos (⟨trivial, rfl⟩ : True ∧ k' = k')]
    · rw [update_of_ne hk, if_neg (fun h => hk h.2 : ¬ (True ∧ k' = k))]
  · rw [if_neg he, if_neg (fun h => he h.1 : ¬ (i = ip ∧ k' = k))]

/-- Storing a number in an empty slot of `addrs` fills that place only. A fresh indirect block has
no numbers in it. -/
theorem Vol.slot_putAddr (hip : s.Live ip) (hempty : s.addr ip k = 0) (hb : b ≠ 0)
    (hzero : s.data b = zeroBlock) :
    (s.putAddr ip k b).slot = update s.slot (.addr ip k) b := by
  funext q
  cases q with
  | addr i k' =>
    show (s.putAddr ip k b).addr i k' = _
    rw [addr_putAddr hip]
    by_cases he : i = ip ∧ k' = k
    · obtain ⟨rfl, rfl⟩ := he
      rw [if_pos ⟨rfl, rfl⟩, update_self]
    · rw [if_neg he, update_of_ne fun h => he (Place.addr.inj h)]
      rfl
  | entry i j =>
    rw [update_of_ne fun h => by cases h]
    show (if (s.putAddr ip k b).addr i single = 0 then 0 else
      (s.data ((s.putAddr ip k b).addr i single)).word j) = _
    rw [addr_putAddr hip]
    by_cases he : i = ip ∧ single = k
    · obtain ⟨rfl, rfl⟩ := he
      rw [if_pos (⟨rfl, rfl⟩ : i = i ∧ single = single), if_neg hb, hzero]
      show _ = if s.addr i single = 0 then 0 else _
      rw [if_pos hempty]
      unfold Bytes.word Bytes.byte zeroBlock
      simp
    · rw [if_neg he]
      rfl

/-- Storing a number in an empty slot of an indirect block fills that place only. -/
theorem Vol.slot_putEntry (h : s.Sound sb) (hptr : s.addr ip single ≠ 0) (hb : b < 2 ^ 32) :
    (s.putEntry (s.addr ip single) j b).slot = update s.slot (.entry ip j) b := by
  have haddr : ∀ i k, (s.putEntry (s.addr ip single) j b).addr i k = s.addr i k := fun _ _ => rfl
  funext q
  cases q with
  | addr i k =>
    rw [update_of_ne fun h => by cases h]
    rfl
  | entry i j' =>
    show (if s.addr i single = 0 then 0 else
      (update s.data (s.addr ip single) _ (s.addr i single)).word j') = _
    by_cases hi : i = ip
    · subst hi
      rw [if_neg hptr, update_self]
      by_cases hj : j' = j
      · subst hj
        rw [update_self]
        have hin : 4 * (j' : Nat) + 4 ≤ BSIZE := by
          have := j'.isLt
          show 4 * (j' : Nat) + 4 ≤ 1024
          have hlt : (j' : Nat) < 256 := this
          omega
        rw [Bytes.word_setWord hin]
        exact Nat.mod_eq_of_lt hb
      · rw [update_of_ne fun h => hj (Place.entry.inj h).2,
          Bytes.word_setWord_ne fun h => hj (Fin.ext h)]
        exact (if_neg hptr).symm
    · rw [update_of_ne fun h => hi (Place.entry.inj h).1]
      show _ = if s.addr i single = 0 then 0 else _
      by_cases hz : s.addr i single = 0
      · rw [if_pos hz, if_pos hz]
      · have hne : s.addr i single ≠ s.addr ip single := fun he =>
          hi (Place.addr.inj (h.owned.inj (.addr i single) (.addr ip single) hz he)).1
        rw [if_neg hz, if_neg hz, update_of_ne hne]

end Stores

/-! ## `bmap` -/

/-- The number of fresh blocks that block `bn` of the file still needs. -/
def Vol.lacks (s : Vol) (ip bn : Nat) : Nat :=
  if s.blockOf ip bn ≠ 0 then 0
  else if NDIRECT ≤ bn ∧ s.addr ip single = 0 then 2
  else 1

/-- What `bmap` answers for block `bn` of a file, from a volume `s`. -/
structure Mapped (sb : Superblock) (ip bn : Nat) (s : Vol) (addr : Nat) (s' : Vol) : Prop where
  grown : Grown sb ip s s'
  /-- the answer is the block's number, 0 if it has none -/
  found : s'.blockOf ip bn = addr
  /-- and then only because there is no free block left -/
  full : addr = 0 → s'.free sb = 0
  /-- the bitmap has paid for what the block no longer lacks -/
  paid : s.free sb + s'.lacks ip bn = s'.free sb + s.lacks ip bn
  others : ∀ bn', bn' ≠ bn → s'.blockOf ip bn' = s.blockOf ip bn'
  pointer : bn < NDIRECT → s'.addr ip single = s.addr ip single
  same : s.lacks ip bn = 0 → s' = s

section Bmap

variable {sb : Superblock} {s : Vol} {ip b bn : Nat} {k : Slot13} {j : Fin NINDIRECT}

theorem grown_putAddr (h : s.Sound sb) (hip : s.Live ip) (hempty : s.addr ip k = 0)
    (hb : sb.isData b = true) (hfree : s.used b = false) :
    Grown sb ip s ((s.claim sb b).putAddr ip k b) ∧
      ((s.claim sb b).putAddr ip k b).slot = update s.slot (.addr ip k) b := by
  have hpos : b ≠ 0 := Superblock.ne_zero hb
  have hlive : (s.claim sb b).Live ip := ⟨hip.ref, hip.valid, hip.type⟩
  have hslot : ((s.claim sb b).putAddr ip k b).slot = update s.slot (.addr ip k) b := by
    have hzero : (s.claim sb b).data b = zeroBlock := update_self ..
    rw [Vol.slot_putAddr hlive hempty hpos hzero, Vol.slot_claim h hb hfree]
  refine ⟨grown_of_fill (p := .addr ip k) h hb hfree hempty rfl hslot rfl
    (update_self ..) ?_ ⟨_, rfl⟩ rfl rfl, hslot⟩
  exact fun x hx _ => update_of_ne hx ..

theorem grown_putEntry (h : s.Sound sb) (hptr : s.addr ip single ≠ 0)
    (hempty : s.slot (.entry ip j) = 0) (hb : sb.isData b = true) (hfree : s.used b = false) :
    Grown sb ip s ((s.claim sb b).putEntry (s.addr ip single) j b) ∧
      ((s.claim sb b).putEntry (s.addr ip single) j b).slot =
        update s.slot (.entry ip j) b := by
  have hpos : b ≠ 0 := Superblock.ne_zero hb
  have hlt : b < 2 ^ 32 := by
    have hsize := (Superblock.isData_iff.mp hb).2
    have hint := sb.int
    omega
  have hne : s.addr ip single ≠ b := h.owned.ne_of_free hfree hpos (.addr ip single)
  -- the indirect block is not the fresh one, so storing into it is the same before `balloc`
  have hslot : ((s.claim sb b).putEntry (s.addr ip single) j b).slot =
      update s.slot (.entry ip j) b := by
    rw [← Vol.slot_putEntry h hptr hlt]
    refine Vol.slot_congr (fun _ _ => rfl) fun i hi => ?_
    show update (update s.data b zeroBlock) (s.addr ip single)
      ((update s.data b zeroBlock (s.addr ip single)).setWord j b) (s.addr i single) =
      update s.data (s.addr ip single) _ (s.addr i single)
    rw [update_of_ne hne]
    by_cases he : s.addr i single = s.addr ip single
    · rw [he, update_self, update_self]
    · have hne' : s.addr i single ≠ b :=
        h.owned.ne_of_free hfree hpos (.addr i single)
      rw [update_of_ne he, update_of_ne he, update_of_ne hne']
  refine ⟨grown_of_fill h hb hfree hempty rfl hslot rfl ?_ ?_ ?_ rfl rfl, hslot⟩
  · show update (update s.data b zeroBlock) (s.addr ip single) _ b = zeroBlock
    rw [update_of_ne hne.symm, update_self]
  · intro x hx hall
    show update (update s.data b zeroBlock) (s.addr ip single) _ x = s.data x
    rw [update_of_ne (hall ip).symm, update_of_ne hx]
  · exact ⟨(s.itable ip).addrs, (update_eq_self ip s.itable).symm⟩

theorem fill_empty (h : s.Sound sb) (store : Nat → M Unit) (put : Vol → Nat → Vol)
    (hstore : ∀ b t, store b t = .ok ((), put t b)) :
    (fill sb 0 store s = .ok (0, s) ∧ s.free sb = 0) ∨
      ∃ b, sb.isData b = true ∧ s.used b = false ∧
        fill sb 0 store s = .ok (b, put (s.claim sb b) b) := by
  have hrun : fill sb 0 store s = (balloc sb >>= fun b => if b = 0 then pure 0 else do
      store b
      return b : M Nat) s := rfl
  rcases balloc_spec h.metadata with ⟨hfull, hfree⟩ | ⟨b, hb, hfree, hok⟩
  · left
    rw [hrun, run_bind_ok hfull]
    exact ⟨rfl, hfree⟩
  · right
    refine ⟨b, hb, hfree, ?_⟩
    rw [hrun, run_bind_ok hok, if_neg (Superblock.ne_zero hb), run_bind_ok (hstore b _)]
    rfl

theorem fill_filled {addr : Nat} (haddr : addr ≠ 0) (store : Nat → M Unit) :
    fill sb addr store s = .ok (addr, s) := by
  unfold fill
  rw [run_ite, if_pos haddr]
  rfl

theorem Vol.blockOf_direct (s : Vol) (ip : Nat) (h : bn < NDIRECT) :
    s.blockOf ip bn = s.addr ip ⟨bn, Nat.lt_succ_of_lt h⟩ :=
  dif_pos h

theorem Vol.blockOf_indirect (s : Vol) (ip : Nat) (j : Fin NINDIRECT) :
    s.blockOf ip (NDIRECT + j) = s.slot (.entry ip j) := by
  have hj : NDIRECT + (j : Nat) - NDIRECT = j := Nat.add_sub_cancel_left ..
  unfold blockOf
  rw [dif_neg (by omega), dif_pos (by rw [hj]; exact j.isLt)]
  congr 2
  exact Fin.ext hj

/-- The blocks of a file that is given a fresh block in one place. -/
theorem Vol.others_of_fill {s' : Vol} {p : Place} (h' : s'.Sound sb) (hb : b ≠ 0)
    (hslot : s'.slot = update s.slot p b) (hempty : s.slot p = 0)
    (hbn : s'.blockOf ip bn = b ∨ ∃ i, p = .addr i single) {bn' : Nat} (hne : bn' ≠ bn) :
    s'.blockOf ip bn' = s.blockOf ip bn' := by
  rcases blockOf_of_update hslot hempty ip bn' with he | ⟨-, he⟩
  · exact he
  · exfalso
    rcases hbn with hbn | ⟨i, rfl⟩
    · exact hne (blockOf_inj h' (by rwa [he]) (he.trans hbn.symm)).2
    · have hpos : s'.blockOf ip bn' ≠ 0 := by rwa [he]
      have hbad : s'.addr i single ≠ s'.blockOf ip bn' := blockOf_ne_single h' hpos
      refine hbad ?_
      rw [he]
      show s'.slot (.addr i single) = b
      rw [hslot, update_self]

theorem Vol.lacks_eq_zero_iff : s.lacks ip bn = 0 ↔ s.blockOf ip bn ≠ 0 := by
  unfold lacks
  by_cases hz : s.blockOf ip bn = 0
  · rw [if_neg (not_not.mpr hz)]
    split
    · exact ⟨fun h => (by omega), fun h => absurd hz h⟩
    · exact ⟨fun h => (by omega), fun h => absurd hz h⟩
  · rw [if_pos hz]
    exact ⟨fun _ => hz, fun _ => rfl⟩

theorem Mapped.of_mapped (h : s.Sound sb) (hmapped : s.blockOf ip bn ≠ 0) :
    Mapped sb ip bn s (s.blockOf ip bn) s where
  grown := .refl h ip
  found := rfl
  full hz := absurd hz hmapped
  paid := rfl
  others _ _ := rfl
  pointer _ := rfl
  same _ := rfl

theorem Mapped.of_full (h : s.Sound sb) (hfull : s.free sb = 0) (hempty : s.blockOf ip bn = 0) :
    Mapped sb ip bn s 0 s where
  grown := .refl h ip
  found := hempty
  full _ := hfull
  paid := rfl
  others _ _ := rfl
  pointer _ := rfl
  same _ := rfl

/-- `bmap` with one fresh block, in the place of block `bn` itself. -/
theorem Mapped.of_fill {s' : Vol} {p : Place} (hgrown : Grown sb ip s s') (hb : sb.isData b = true)
    (hslot : s'.slot = update s.slot p b) (hempty : s.slot p = 0)
    (hbn : s'.blockOf ip bn = b) (hfree : s.free sb = s'.free sb + 1)
    (hptr : NDIRECT ≤ bn → s.addr ip single ≠ 0) (hp : p ≠ .addr ip single)
    (hwas : s.blockOf ip bn = 0) : Mapped sb ip bn s b s' := by
  have hpos : b ≠ 0 := Superblock.ne_zero hb
  have hsame : s'.addr ip single = s.addr ip single := by
    show s'.slot (.addr ip single) = s.slot (.addr ip single)
    rw [hslot, update_of_ne hp.symm]
  have hlacks : s.lacks ip bn = 1 := by
    unfold Vol.lacks
    rw [if_neg (not_not.mpr hwas), if_neg fun hc => hptr hc.1 hc.2]
  have hlacks' : s'.lacks ip bn = 0 := Vol.lacks_eq_zero_iff.mpr (hbn ▸ hpos)
  refine ⟨hgrown, hbn, fun hz => absurd hz hpos, ?_, fun bn' hne => ?_, fun _ => hsame,
    fun hz => ?_⟩
  · rw [hfree, hlacks, hlacks', Nat.add_zero]
  · exact Vol.others_of_fill hgrown.sound hpos hslot hempty (.inl hbn) hne
  · rw [hlacks] at hz
    cases hz

theorem bmapEntry_spec (h : s.Sound sb) (hptr : s.addr ip single ≠ 0) (j : Fin NINDIRECT) :
    ∃ addr s', bmapEntry sb (s.addr ip single) j s = .ok (addr, s') ∧
      Mapped sb ip (NDIRECT + j) s addr s' := by
  have hdata : sb.isData (s.addr ip single) = true := h.isData (p := .addr ip single) hptr
  have hblock := s.blockOf_indirect ip j
  have hword : s.slot (.entry ip j) = (s.data (s.addr ip single)).word j := if_neg hptr
  have hrun : bmapEntry sb (s.addr ip single) j s =
      fill sb (s.slot (.entry ip j)) (fun b => do
        setData (s.addr ip single) fun blk => blk.setWord j b
        logged (s.addr ip single)) s := by
    have hbread : bread sb (s.addr ip single) s = .ok (s.data (s.addr ip single), s) := by
      unfold bread
      rw [run_ite, if_pos hdata]
      rfl
    unfold bmapEntry
    rw [run_bind_ok hbread, hword]
  by_cases hz : s.slot (.entry ip j) = 0
  · have hstore : ∀ b t, (do
        setData (s.addr ip single) fun blk => blk.setWord j b
        logged (s.addr ip single) : M Unit) t =
          .ok ((), t.putEntry (s.addr ip single) j b) := fun _ _ => rfl
    rw [hrun, hz]
    rcases fill_empty h _ _ hstore with ⟨hok, hfull⟩ | ⟨b, hb, hfree, hok⟩
    · exact ⟨0, s, hok, .of_full h hfull (hblock.trans hz)⟩
    · obtain ⟨hgrown, hslot⟩ := grown_putEntry h hptr hz hb hfree
      refine ⟨b, _, hok, .of_fill hgrown hb hslot hz ?_ (Vol.free_claim hb hfree) (fun _ => hptr)
        (fun he => by cases he) (hblock.trans hz)⟩
      rw [Vol.blockOf_indirect, hslot, update_self]
  · rw [hrun, fill_filled hz, ← hblock]
    rw [← hblock] at hz
    exact ⟨_, s, rfl, .of_mapped h hz⟩

theorem bmap_spec (h : s.Sound sb) (hip : s.Live ip) (hbn : bn < MAXFILE) :
    ∃ addr s', bmap sb ip bn s = .ok (addr, s') ∧ Mapped sb ip bn s addr s' := by
  have hstore : ∀ k b t, setAddr ip k b t = .ok ((), t.putAddr ip k b) := fun _ _ _ => rfl
  by_cases hd : bn < NDIRECT
  · have hblock := s.blockOf_direct ip hd
    have hrun : bmap sb ip bn s =
        fill sb (s.addr ip ⟨bn, Nat.lt_succ_of_lt hd⟩)
          (setAddr ip ⟨bn, Nat.lt_succ_of_lt hd⟩) s := by
      unfold bmap
      rw [dif_pos hd, hip.addr]
      rfl
    by_cases hz : s.addr ip ⟨bn, Nat.lt_succ_of_lt hd⟩ = 0
    · rw [hrun, hz]
      rcases fill_empty h _ _ (hstore _) with ⟨hok, hfull⟩ | ⟨b, hb, hfree, hok⟩
      · exact ⟨0, s, hok, .of_full h hfull (hblock.trans hz)⟩
      · obtain ⟨hgrown, hslot⟩ := grown_putAddr h hip hz hb hfree
        refine ⟨b, _, hok, .of_fill hgrown hb hslot hz ?_ (Vol.free_claim hb hfree)
          (fun hle => absurd hd (Nat.not_lt.mpr hle)) ?_ (hblock.trans hz)⟩
        · rw [Vol.blockOf_direct _ _ hd]
          show Vol.slot _ (.addr ip _) = b
          rw [hslot, update_self]
        · intro he
          have hval : bn = NDIRECT := congrArg Fin.val (Place.addr.inj he).2
          omega
    · rw [hrun, fill_filled hz, ← hblock]
      rw [← hblock] at hz
      exact ⟨_, s, rfl, .of_mapped h hz⟩
  · obtain ⟨j, rfl⟩ : ∃ j : Fin NINDIRECT, bn = NDIRECT + j := by
      have hlt : bn < NDIRECT + NINDIRECT := hbn
      exact ⟨⟨bn - NDIRECT, by omega⟩, by show bn = NDIRECT + (bn - NDIRECT); omega⟩
    have hj : NDIRECT + (j : Nat) - NDIRECT = j := Nat.add_sub_cancel_left ..
    have hrun : bmap sb ip (NDIRECT + j) s =
        (fill sb (s.addr ip single) (setAddr ip single) >>= fun addr =>
          if addr = 0 then pure 0 else bmapEntry sb addr j : M Nat) s := by
      unfold bmap
      rw [dif_neg hd, hj, if_pos j.isLt, hip.addr]
      rfl
    by_cases hz : s.addr ip single = 0
    · have hentry : ∀ j, s.slot (.entry ip j) = 0 := fun j => if_pos hz
      have hblock := (s.blockOf_indirect ip j).trans (hentry j)
      have htwo : s.lacks ip (NDIRECT + j) = 2 := by
        unfold Vol.lacks
        rw [if_neg (not_not.mpr hblock), if_pos ⟨Nat.le_add_right .., hz⟩]
      rw [hrun, hz]
      rcases fill_empty h _ _ (hstore single) with ⟨hok, hfull⟩ | ⟨b, hb, hfree, hok⟩
      · rw [run_bind_ok hok]
        exact ⟨0, s, rfl, .of_full h hfull hblock⟩
      · -- the indirect block is fresh; the data block comes from a second allocation
        obtain ⟨hgrown, hslot⟩ := grown_putAddr h hip hz hb hfree
        have hpos : b ≠ 0 := Superblock.ne_zero hb
        have hpointed : ((s.claim sb b).putAddr ip single b).addr ip single = b := by
          show Vol.slot _ (.addr ip single) = b
          rw [hslot, update_self]
        have hblocks : ∀ bn', ((s.claim sb b).putAddr ip single b).blockOf ip bn' =
            s.blockOf ip bn' := fun bn' =>
          Vol.others_of_fill hgrown.sound hpos hslot hz (.inr ⟨ip, rfl⟩) (Nat.ne_add_one bn')
        have hpaid : s.free sb = ((s.claim sb b).putAddr ip single b).free sb + 1 :=
          Vol.free_claim hb hfree
        have hone : ((s.claim sb b).putAddr ip single b).lacks ip (NDIRECT + j) = 1 := by
          unfold Vol.lacks
          rw [hblocks, if_neg (not_not.mpr hblock), if_neg]
          rintro ⟨-, he⟩
          exact hpos (hpointed.symm.trans he)
        have hptr : ((s.claim sb b).putAddr ip single b).addr ip single ≠ 0 := by rwa [hpointed]
        obtain ⟨addr, s', hrest, hmapped⟩ := bmapEntry_spec hgrown.sound hptr j
        rw [hpointed] at hrest
        refine ⟨addr, s', ?_, hgrown.trans hmapped.grown, hmapped.found, hmapped.full, ?_,
          fun bn' hne => (hmapped.others bn' hne).trans (hblocks bn'),
          fun hlt => absurd hlt (by omega), fun hlacks => ?_⟩
        · rw [run_bind_ok hok, if_neg hpos]
          exact hrest
        · have hsecond := hmapped.paid
          rw [hone] at hsecond
          rw [htwo, hpaid]
          omega
        · rw [htwo] at hlacks
          cases hlacks
    · obtain ⟨addr, s', hrest, hmapped⟩ := bmapEntry_spec h hz j
      refine ⟨addr, s', ?_, hmapped⟩
      rw [hrun, run_bind_ok (fill_filled hz _), if_neg hz]
      exact hrest

end Bmap

end Xv6.Fs
