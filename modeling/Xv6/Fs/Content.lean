import Xv6.Fs.Places

/-!
# Files are byte arrays

The content of an inode is its first `size` bytes through its blocks (`Vol.content`). `readi`
answers a slice of it, and `writei` replaces one. The loops of both go through the blocks of the
range in order. Their invariant is about the blocks still to come: those that are missing
(`Vol.lacking`) are no more than the free ones. Block ownership keeps a write to one block away
from every other block and every other file.
-/

namespace Xv6.Fs

open Base Function

/-- The bytes of a file. -/
def Vol.content (s : Vol) (i : Nat) : List UInt8 := (List.range (s.view i).size).map (s.byteAt i)

/-- The bytes of a file from `off` on, at most `n` of them. -/
def Vol.read (s : Vol) (i off n : Nat) : List UInt8 := ((s.content i).drop off).take n

/-- The fresh blocks that blocks `lo` to `hi` of a file still need: one for each that is missing,
and one for the indirect block. -/
def Vol.lacking (s : Vol) (ip lo hi : Nat) : Nat :=
  ∑ bn ∈ Finset.Ico lo hi, (if s.blockOf ip bn = 0 then 1 else 0) +
    if lo < hi ∧ NDIRECT < hi ∧ s.addr ip single = 0 then 1 else 0

/-- The end of the blocks that `n` bytes from `off` on lie in. -/
def blocksEnd (off n : Nat) : Nat := (off + n + (BSIZE - 1)) / BSIZE

section Lacking

variable {sb : Superblock} {s s' s'' : Vol} {ip lo hi bn addr : Nat}

/-- What a range lacks is what one of its blocks lacks, and the rest. -/
theorem Vol.lacking_split (s : Vol) (ip : Nat) (hlo : lo ≤ bn) (hhi : bn < hi) :
    s.lacking ip lo hi = s.lacks ip bn +
      ∑ x ∈ (Finset.Ico lo hi).erase bn, (if s.blockOf ip x = 0 then 1 else 0) +
      if bn < NDIRECT ∧ NDIRECT < hi ∧ s.addr ip single = 0 then 1 else 0 := by
  unfold lacking lacks
  rw [← Finset.add_sum_erase _ _ (Finset.mem_Ico.mpr ⟨hlo, hhi⟩)]
  by_cases hd : bn < NDIRECT
  · have hno : ¬ (NDIRECT ≤ bn ∧ s.addr ip single = 0) := fun hc => absurd hc.1 (by omega)
    rw [if_neg hno]
    have hlt : lo < hi := by omega
    simp only [hd, hlt, true_and]
    by_cases hb : s.blockOf ip bn = 0
    · rw [if_pos hb, if_neg (not_not.mpr hb)]
    · rw [if_neg hb, if_pos hb]
  · have hno : ¬ (bn < NDIRECT ∧ NDIRECT < hi ∧ s.addr ip single = 0) := fun hc => hd hc.1
    rw [if_neg hno]
    by_cases hz : s.addr ip single = 0
    · -- without the indirect block the block itself is missing
      have hb : s.blockOf ip bn = 0 := by
        unfold blockOf
        rw [dif_neg hd]
        split
        · exact if_pos hz
        · rfl
      rw [if_pos hb, if_neg (not_not.mpr hb), if_pos ⟨by omega, by omega, hz⟩,
        if_pos ⟨by omega, hz⟩]
      omega
    · have hno' : ¬ (NDIRECT ≤ bn ∧ s.addr ip single = 0) := fun hc => hz hc.2
      have hno'' : ¬ (lo < hi ∧ NDIRECT < hi ∧ s.addr ip single = 0) := fun hc => hz hc.2.2
      rw [if_neg hno', if_neg hno'']
      by_cases hb : s.blockOf ip bn = 0
      · rw [if_pos hb, if_neg (not_not.mpr hb)]
      · rw [if_neg hb, if_pos hb]

theorem Vol.lacks_le_lacking (s : Vol) (ip : Nat) (hlo : lo ≤ bn) (hhi : bn < hi) :
    s.lacks ip bn ≤ s.lacking ip lo hi := by
  rw [s.lacking_split ip hlo hhi]
  omega

/-- Some missing blocks of a range may have been filled, and the bitmap has paid for them. -/
structure Filled (sb : Superblock) (ip lo hi : Nat) (s s' : Vol) : Prop
    extends Grown sb ip s s' where
  paid : ∀ lo' hi', lo' ≤ lo → hi ≤ hi' →
    s.free sb + s'.lacking ip lo' hi' = s'.free sb + s.lacking ip lo' hi'
  same : s.lacking ip lo hi = 0 → s' = s

theorem Filled.refl (h : s.Sound sb) : Filled sb ip lo hi s s :=
  ⟨.refl h ip, fun _ _ _ _ => rfl, fun _ => rfl⟩

/-- Filling is transitive. -/
theorem Filled.trans (h : Filled sb ip lo hi s s') (h' : Filled sb ip lo hi s' s'') :
    Filled sb ip lo hi s s'' := by
  refine ⟨h.toGrown.trans h'.toGrown, fun lo' hi' hlo hhi => ?_, fun hz => ?_⟩
  · have hp := h.paid lo' hi' hlo hhi
    have hp' := h'.paid lo' hi' hlo hhi
    omega
  · obtain rfl := h.same hz
    exact h'.same hz

/-- Filling some blocks leaves enough for the rest. -/
theorem Filled.enough (h : Filled sb ip lo hi s s') (he : s.lacking ip lo hi ≤ s.free sb) :
    s'.lacking ip lo hi ≤ s'.free sb := by
  have hp := h.paid lo hi (Nat.le_refl lo) (Nat.le_refl hi)
  omega

/-- `bmap` fills one block of a range. -/
theorem Mapped.filled (hm : Mapped sb ip bn s addr s') (hlo : lo ≤ bn) (hhi : bn < hi) :
    Filled sb ip lo hi s s' := by
  refine ⟨hm.grown, fun lo' hi' hlo' hhi' => ?_, fun hz => hm.same ?_⟩
  · have hrest : ∑ x ∈ (Finset.Ico lo' hi').erase bn, (if s'.blockOf ip x = 0 then 1 else 0) =
        ∑ x ∈ (Finset.Ico lo' hi').erase bn, (if s.blockOf ip x = 0 then 1 else 0) := by
      refine Finset.sum_congr rfl fun x hx => ?_
      rw [hm.others x (Finset.ne_of_mem_erase hx)]
    have hptr : (if bn < NDIRECT ∧ NDIRECT < hi' ∧ s'.addr ip single = 0 then 1 else 0) =
        if bn < NDIRECT ∧ NDIRECT < hi' ∧ s.addr ip single = 0 then 1 else 0 := by
      by_cases hd : bn < NDIRECT
      · rw [hm.pointer hd]
      · rw [if_neg fun hc => hd hc.1, if_neg fun hc => hd hc.1]
    have hpaid := hm.paid
    rw [s.lacking_split ip (Nat.le_trans hlo' hlo) (Nat.lt_of_lt_of_le hhi hhi'),
      s'.lacking_split ip (Nat.le_trans hlo' hlo) (Nat.lt_of_lt_of_le hhi hhi'), hrest, hptr]
    omega
  · have hle := s.lacks_le_lacking ip hlo hhi
    omega

/-- With enough free blocks for a range `bmap` finds each of its blocks. -/
theorem Mapped.ne_zero (hm : Mapped sb ip bn s addr s') (hlo : lo ≤ bn) (hhi : bn < hi)
    (henough : s.lacking ip lo hi ≤ s.free sb) : addr ≠ 0 := by
  intro hz
  have hfull := hm.full hz
  have hpaid := hm.paid
  have hle := s.lacks_le_lacking ip hlo hhi
  have hlacks : s'.lacks ip bn ≠ 0 := fun h0 =>
    Vol.lacks_eq_zero_iff.mp h0 (hm.found.trans hz)
  omega

/-- A block once allocated stays where it is. -/
theorem Extended.blockOf_kept (h : Extended sb ip s s') {i bn : Nat} (hb : s.blockOf i bn ≠ 0) :
    s'.blockOf i bn = s.blockOf i bn := by
  unfold Vol.blockOf at hb ⊢
  split
  · rename_i hd
    rw [dif_pos hd] at hb
    exact h.kept _ hb
  · rename_i hd
    rw [dif_neg hd] at hb
    split
    · rename_i hj
      rw [dif_pos hj] at hb
      exact h.kept _ hb
    · rfl

end Lacking

/-! ## Pieces of a block -/

section Pieces

variable {n tot off : Nat}

/-- Each turn moves at least one byte. -/
theorem piece_pos (h : tot < n) : 0 < piece n tot off := by
  have hmod : off % BSIZE < BSIZE := Nat.mod_lt _ (by decide)
  unfold piece
  omega

theorem piece_le : piece n tot off ≤ n - tot := Nat.min_le_left ..

/-- A piece stays in the block of its first byte. -/
theorem piece_block {i : Nat} (hi : i < piece n tot off) :
    (off + i) / BSIZE = off / BSIZE ∧ (off + i) % BSIZE = off % BSIZE + i := by
  unfold piece at hi
  have hb : BSIZE = 1024 := rfl
  rw [hb] at hi ⊢
  omega

/-- All turns but the last end on a block boundary. -/
theorem piece_aligned (h : tot + piece n tot off < n) :
    (off + piece n tot off) % BSIZE = 0 := by
  unfold piece at h ⊢
  have hb : BSIZE = 1024 := rfl
  rw [hb] at h ⊢
  omega

/-- A block of a range has a byte of the range. -/
theorem exists_byte {bn : Nat} (hn : 0 < n) (hlo : off / BSIZE ≤ bn) (hhi : bn < blocksEnd off n) :
    ∃ x, off ≤ x ∧ x < off + n ∧ x / BSIZE = bn := by
  have hb : BSIZE = 1024 := rfl
  unfold blocksEnd at hhi
  rw [hb] at hlo hhi ⊢
  by_cases hfirst : bn * 1024 < off
  · exact ⟨off, by omega, by omega, by omega⟩
  · exact ⟨bn * 1024, by omega, by omega, by omega⟩

theorem block_lt_end (h : tot < n) : off / BSIZE < blocksEnd off (n - tot) := by
  unfold blocksEnd
  have hb : BSIZE = 1024 := rfl
  rw [hb]
  omega

theorem block_lt_maxfile (h : tot < n) (hmax : off + (n - tot) ≤ MAXFILE * BSIZE) :
    off / BSIZE < MAXFILE := by
  have hm : MAXFILE = 268 := rfl
  have hb : BSIZE = 1024 := rfl
  rw [hm, hb] at hmax
  rw [hm, hb]
  omega

/-- The range of blocks ends where it did. -/
theorem blocksEnd_piece (h : tot < n) :
    blocksEnd (off + piece n tot off) (n - (tot + piece n tot off)) = blocksEnd off (n - tot) := by
  have hle := @piece_le n tot off
  unfold blocksEnd
  congr 2
  omega

theorem range_map_append {α : Type} (f : Nat → α) {m k : Nat} (h : m ≤ k) :
    (List.range m).map f ++ (List.range (k - m)).map (fun i => f (m + i)) =
      (List.range k).map f := by
  obtain ⟨r, rfl⟩ := Nat.exists_eq_add_of_le h
  rw [Nat.add_sub_cancel_left, List.range_add, List.map_append, List.map_map]
  rfl

end Pieces

/-- The first `n` bytes of the buffer are mapped. -/
def Buffer.Good (buf : Buffer) (n : Nat) : Prop := ∀ k, buf.unmapped = some k → n ≤ k

theorem Buffer.copies_le (buf : Buffer) (tot m : Nat) : buf.copies tot m ≤ m := by
  unfold Buffer.copies
  cases buf.unmapped with
  | none => exact Nat.le_refl m
  | some k => exact Nat.min_le_left ..

/-- Below a good buffer's end every byte is copied. -/
theorem Buffer.Good.copies {buf : Buffer} {n tot m : Nat} (h : buf.Good n) (hle : tot + m ≤ n) :
    buf.copies tot m = m := by
  unfold Buffer.copies
  cases hk : buf.unmapped with
  | none => rfl
  | some k =>
    have hn := h k hk
    show min m (k - tot) = m
    omega

/-- A copy that fails stops at the first byte that is not mapped. -/
theorem Buffer.copies_lt (buf : Buffer) {tot m : Nat} (h : buf.copies tot m < m) :
    ∃ k, buf.unmapped = some k ∧ buf.copies tot m = k - tot := by
  unfold Buffer.copies at h ⊢
  cases hk : buf.unmapped with
  | none =>
    rw [hk] at h
    exact absurd h (Nat.lt_irrefl m)
  | some k =>
    rw [hk] at h
    have h : min m (k - tot) < m := h
    refine ⟨k, rfl, ?_⟩
    show min m (k - tot) = k - tot
    omega

theorem Buffer.le_of_copies (buf : Buffer) {tot m k : Nat} (h : buf.copies tot m = m)
    (hk : buf.unmapped = some k) : m ≤ k - tot := by
  unfold Buffer.copies at h
  rw [hk] at h
  have h : min m (k - tot) = m := h
  omega

/-! ## `readi` -/

section Read

variable {sb : Superblock} {s s' : Vol} {ip n tot off fuel lo hi : Nat} {dst : Buffer}
  {out : List UInt8}

/-- Reading a data block returns its contents. -/
theorem bread_of_isData {b : Nat} (h : sb.isData b = true) : bread sb b s = .ok (s.data b, s) := by
  unfold bread
  rw [run_ite, if_pos h]
  rfl

/-- A byte of a file is a byte of its block. -/
theorem Vol.byteAt_of_block {x b : Nat} (hb : s.blockOf ip (x / BSIZE) = b) (hpos : b ≠ 0) :
    s.byteAt ip x = (s.data b).byte (x % BSIZE) := by
  unfold byteAt
  rw [hb, if_neg hpos]

/-- The block `bmap` finds is a data block, and holds the file's bytes. -/
theorem Mapped.slice {addr : Nat} (hm : Mapped sb ip (off / BSIZE) s addr s') (haddr : addr ≠ 0)
    (n tot : Nat) :
    sb.isData addr = true ∧
      slice (s'.data addr) (off % BSIZE) (piece n tot off) =
        (List.range (piece n tot off)).map fun i => s.byteAt ip (off + i) := by
  have hfound := hm.found
  obtain ⟨p, hp, -⟩ := s'.blockOf_place (hfound ▸ haddr)
  refine ⟨?_, ?_⟩
  · rw [← hfound, hp]
    exact hm.grown.sound.isData (by rw [← hp, hfound]; exact haddr)
  · unfold Fs.slice
    refine List.map_congr_left fun i hi => ?_
    obtain ⟨hdiv, hmod⟩ := piece_block (List.mem_range.mp hi)
    rw [← hm.grown.bytes ip (off + i),
      Vol.byteAt_of_block (b := addr) (by rw [hdiv, hfound]) haddr, hmod]

/-- The read loop ends when nothing is left. -/
theorem readLoop_done (h : ¬ tot < n) : readLoop sb ip dst n fuel tot off out s =
    .ok ((tot, out), s) := by
  cases fuel with
  | zero => rfl
  | succ fuel =>
    unfold readLoop
    rw [run_ite, if_neg h]
    rfl

/-- With enough blocks for the range, the loop reads all of it. -/
theorem readLoop_spec (out : List UInt8) (h : s.Sound sb) (hip : s.Live ip) (hdst : dst.Good n)
    (hfuel : n - tot ≤ fuel) (htot : tot ≤ n) (hmax : off + (n - tot) ≤ MAXFILE * BSIZE)
    (hlo : lo ≤ off / BSIZE) (hhi : blocksEnd off (n - tot) ≤ hi)
    (henough : s.lacking ip lo hi ≤ s.free sb) :
    ∃ s', readLoop sb ip dst n fuel tot off out s =
        .ok ((n, out ++ (List.range (n - tot)).map fun i => s.byteAt ip (off + i)), s') ∧
      Filled sb ip lo hi s s' ∧
      ∀ x, off ≤ x → x < off + (n - tot) → s'.blockOf ip (x / BSIZE) ≠ 0 := by
  -- induction on the turns; the bytes read so far are in `out`
  induction fuel generalizing s tot off out with
  | zero =>
    obtain rfl : tot = n := by omega
    refine ⟨s, ?_, .refl h, fun x hlo hhi => absurd hhi (by omega)⟩
    rw [Nat.sub_self, List.range_zero, List.map_nil, List.append_nil]
    rfl
  | succ fuel ih =>
    by_cases hlt : tot < n
    · obtain ⟨addr, s₁, hbmap, hm⟩ := bmap_spec h hip (block_lt_maxfile hlt hmax)
      have hend : off / BSIZE < hi := Nat.lt_of_lt_of_le (block_lt_end hlt) hhi
      have haddr := hm.ne_zero hlo hend henough
      have hfilled := hm.filled hlo hend
      obtain ⟨hdata, hslice⟩ := hm.slice haddr n tot
      have hpos := @piece_pos n tot off hlt
      have hple := @piece_le n tot off
      have hcopies : ¬ dst.copies tot (piece n tot off) < piece n tot off := by
        rw [hdst.copies (by omega)]
        exact Nat.lt_irrefl _
      have hrun : readLoop sb ip dst n (fuel + 1) tot off out s =
          readLoop sb ip dst n fuel (tot + piece n tot off) (off + piece n tot off)
            (out ++ (List.range (piece n tot off)).map fun i => s.byteAt ip (off + i)) s₁ := by
        rw [readLoop, run_ite, if_pos hlt, run_bind_ok hbmap, if_neg haddr,
          run_bind_ok (bread_of_isData hdata)]
        show (if _ then _ else _ : M (Int × List UInt8)) s₁ = _
        rw [if_neg hcopies, hslice]
      have hjoin := range_map_append (fun i => s.byteAt ip (off + i)) hple
      have hlo' : lo ≤ (off + piece n tot off) / BSIZE :=
        Nat.le_trans hlo (Nat.div_le_div_right (Nat.le_add_right ..))
      obtain ⟨s', hrest, hlater, hblocks⟩ := @ih s₁ (tot + piece n tot off) (off + piece n tot off)
        (out ++ (List.range (piece n tot off)).map fun i => s.byteAt ip (off + i))
        hm.grown.sound (hm.grown.live hip) (by omega) (by omega) (by omega) hlo'
        (by rwa [blocksEnd_piece hlt]) (hfilled.enough henough)
      refine ⟨s', ?_, hfilled.trans hlater, fun x hxlo hxhi => ?_⟩
      · have hbytes : (fun i => s₁.byteAt ip (off + piece n tot off + i)) =
            fun i => s.byteAt ip (off + (piece n tot off + i)) := by
          funext i
          rw [hm.grown.bytes, Nat.add_assoc]
        rw [hrun, hrest, List.append_assoc, ← hjoin, Nat.sub_add_eq, hbytes]
      · by_cases hx : x < off + piece n tot off
        · obtain ⟨i, rfl⟩ := Nat.exists_eq_add_of_le hxlo
          have hfound : s₁.blockOf ip (off / BSIZE) ≠ 0 := by rwa [hm.found]
          rw [(piece_block (by omega : i < piece n tot off)).1]
          rwa [hlater.blockOf_kept hfound]
        · exact hblocks x (by omega) (by omega)
    · obtain rfl : tot = n := by omega
      refine ⟨s, ?_, .refl h, fun x hlo hhi => absurd hhi (by omega)⟩
      rw [readLoop_done hlt, Nat.sub_self, List.range_zero, List.map_nil, List.append_nil]

theorem Vol.Live.size (hip : s.Live ip) : (s.view ip).size = (s.itable ip).size := by rw [hip.view]

/-- Growing a file's map changes no contents. -/
theorem Grown.content (h : Grown sb ip s s') (i : Nat) : s'.content i = s.content i := by
  obtain ⟨a, ha⟩ := h.view i
  unfold Vol.content
  rw [ha]
  exact List.map_congr_left fun x _ => h.bytes i x

/-- A read ends at the size of the file. -/
theorem Vol.read_eq (s : Vol) (ip off n : Nat) : s.read ip off n =
    (List.range (min n ((s.view ip).size - off))).map fun i => s.byteAt ip (off + i) := by
  unfold read content
  refine List.ext_getElem ?_ fun i _ _ => ?_
  · rw [List.length_take, List.length_drop, List.length_map, List.length_range,
      List.length_map, List.length_range]
  · rw [List.getElem_take, List.getElem_drop, List.getElem_map, List.getElem_map,
      List.getElem_range, List.getElem_range]

theorem uint32_of_lt {x : Nat} (h : x < 2 ^ 32) : uint32 x = x := Nat.mod_eq_of_lt h

/-- `readi` of a range that starts inside the file answers that slice of its content. -/
theorem readi_inside (h : s.Sound sb) (hip : s.Live ip) (hdst : dst.Good n)
    (hoff : off ≤ (s.view ip).size) (hwrap : off + n < 2 ^ 32)
    (hmax : (s.view ip).size ≤ MAXFILE * BSIZE) (hlo : lo ≤ off / BSIZE)
    (hhi : blocksEnd off (min n ((s.view ip).size - off)) ≤ hi)
    (henough : s.lacking ip lo hi ≤ s.free sb) :
    ∃ s', readi sb ip dst off n s =
        .ok (((s.read ip off n).length, s.read ip off n), s') ∧ Filled sb ip lo hi s s' ∧
      ∀ x, off ≤ x → x < off + min n ((s.view ip).size - off) →
        s'.blockOf ip (x / BSIZE) ≠ 0 := by
  have hsize := hip.size
  have hcount : (if (s.itable ip).size < off + n then (s.itable ip).size - off else n) =
      min n ((s.view ip).size - off) := by
    rw [hsize]
    split <;> omega
  have hrun : readi sb ip dst off n s = readLoop sb ip dst (min n ((s.view ip).size - off))
      (min n ((s.view ip).size - off)) 0 off [] s := by
    unfold readi
    rw [run_get_bind]
    show (if _ then _ else _ : M (Int × List UInt8)) s = _
    rw [uint32_of_lt hwrap, if_neg (by rw [hsize] at hoff; omega), hcount]
  have hdst' : dst.Good (min n ((s.view ip).size - off)) := fun k hk => by
    have hn := hdst k hk
    omega
  obtain ⟨s', hok, hfilled, hblocks⟩ := readLoop_spec [] h hip hdst'
    (Nat.sub_le (min n ((s.view ip).size - off)) 0) (Nat.zero_le _) (by omega) hlo hhi henough
  refine ⟨s', ?_, hfilled, hblocks⟩
  rw [hrun, hok, Vol.read_eq, List.length_map, List.length_range]
  rfl

/-- `readi` of a range that starts behind the end, or wraps, answers nothing. -/
theorem readi_outside (hip : s.Live ip)
    (h : (s.view ip).size < off ∨ uint32 (off + n) < off) :
    readi sb ip dst off n s = .ok ((0, []), s) := by
  unfold readi
  rw [run_get_bind]
  show (if _ then _ else _ : M (Int × List UInt8)) s = _
  rw [if_pos (by rwa [← hip.size])]
  rfl

end Read

/-! ## `writei` -/

/-- Bytes `lo` to `hi` of the file have been written with those of `val`, and nothing else has
changed but for fresh blocks. -/
structure Written (sb : Superblock) (ip : Nat) (val : Nat → UInt8) (lo hi : Nat) (s s' : Vol) :
    Prop extends Extended sb ip s s' where
  bytes : ∀ i x, s'.byteAt i x = if i = ip ∧ lo ≤ x ∧ x < hi then val x else s.byteAt i x

section Write

variable {sb : Superblock} {s s' s'' : Vol} {ip n tot off fuel lo mid hi : Nat} {src : Buffer}
  {val f : Nat → UInt8} {m : Nat} {bad : Option Nat}

theorem Grown.written (h : Grown sb ip s s') (hlo : hi ≤ lo) : Written sb ip val lo hi s s' :=
  ⟨h.toExtended, fun i x => by rw [h.bytes, if_neg (by omega)]⟩

/-- Writing one range after another writes both. -/
theorem Written.trans (h : Written sb ip val lo mid s s') (h' : Written sb ip val mid hi s' s'')
    (hlo : lo ≤ mid) (hhi : mid ≤ hi) : Written sb ip val lo hi s s'' := by
  refine ⟨h.toExtended.trans h'.toExtended, fun i x => ?_⟩
  rw [h'.bytes, h.bytes]
  by_cases hi : i = ip ∧ mid ≤ x ∧ x < hi
  · rw [if_pos hi, if_pos (by omega)]
  · rw [if_neg hi]
    by_cases hlo : i = ip ∧ lo ≤ x ∧ x < mid
    · rw [if_pos hlo, if_pos (by omega)]
    · rw [if_neg hlo, if_neg (by omega)]

/-- The volume with bytes of one data block replaced. -/
def Vol.patch (s : Vol) (b o m : Nat) (f : Nat → UInt8) : Vol :=
  { s with data := update s.data b ((s.data b).patch o m f) }

/-- A write into a data block of a file moves no block number, and changes those bytes only. -/
theorem Vol.patch_spec (h : s.Sound sb) {bn o : Nat} (hb : s.blockOf ip bn ≠ 0) (f : Nat → UInt8) :
    (s.patch (s.blockOf ip bn) o m f).slot = s.slot ∧
      ∀ i x, (s.patch (s.blockOf ip bn) o m f).byteAt i x =
        if i = ip ∧ x / BSIZE = bn ∧ o ≤ x % BSIZE ∧ x % BSIZE < o + m then f (x % BSIZE - o)
        else s.byteAt i x := by
  have hslot : (s.patch (s.blockOf ip bn) o m f).slot = s.slot := by
    refine slot_congr (fun _ _ => rfl) fun i hi => ?_
    exact update_of_ne (blockOf_ne_single h hb) ..
  refine ⟨hslot, fun i x => ?_⟩
  unfold byteAt
  rw [blockOf_congr hslot]
  by_cases hz : s.blockOf i (x / BSIZE) = 0
  · rw [if_pos hz, if_pos hz, if_neg]
    rintro ⟨rfl, rfl, -⟩
    exact hb hz
  · rw [if_neg hz, if_neg hz]
    show ((update s.data (s.blockOf ip bn) _) (s.blockOf i (x / BSIZE))).byte _ = _
    by_cases he : s.blockOf i (x / BSIZE) = s.blockOf ip bn
    · obtain ⟨rfl, rfl⟩ := blockOf_inj h hz he
      rw [update_self, Bytes.byte_patch]
      have hmod : x % BSIZE < BSIZE := Nat.mod_lt _ (by decide)
      by_cases hin : o ≤ x % BSIZE ∧ x % BSIZE < o + m
      · rw [if_pos ⟨hmod, hin⟩, if_pos ⟨rfl, rfl, hin⟩]
      · rw [if_neg fun hc => hin hc.2, if_neg fun hc => hin hc.2.2]
    · rw [update_of_ne he, if_neg]
      rintro ⟨rfl, rfl, -⟩
      exact he rfl

/-- The write loop ends when nothing is left. -/
theorem writeLoop_done (h : ¬ tot < n) : writeLoop sb ip src n fuel tot off s =
    .ok ((tot, off), s) := by
  cases fuel with
  | zero => rfl
  | succ fuel =>
    unfold writeLoop
    rw [run_ite, if_neg h]
    rfl

/-- One turn of the loop: the block is found and its bytes of the range are replaced. -/
theorem Mapped.patch {addr : Nat} (hm : Mapped sb ip (off / BSIZE) s addr s') (haddr : addr ≠ 0)
    (hroom : off % BSIZE + m ≤ BSIZE) (hval : ∀ i, i < m → val (off + i) = f i) :
    Written sb ip val off (off + m) s (s'.patch addr (off % BSIZE) m f) ∧
      (s'.patch addr (off % BSIZE) m f).slot = s'.slot := by
  have hfound := hm.found
  have hb : s'.blockOf ip (off / BSIZE) ≠ 0 := hfound ▸ haddr
  have hspec := Vol.patch_spec (o := off % BSIZE) (m := m) hm.grown.sound hb f
  rw [hfound] at hspec
  obtain ⟨hslot, hbytes⟩ := hspec
  have hext : Extended sb ip s' (s'.patch addr (off % BSIZE) m f) := by
    refine ⟨⟨?_, hm.grown.sound.metadata⟩,
      ⟨_, (update_eq_self ip s'.itable).symm⟩, rfl, rfl, fun p _ => by rw [hslot],
      fun p hp => absurd (by rw [hslot]) hp⟩
    rw [hslot]
    exact hm.grown.sound.owned
  refine ⟨⟨hm.grown.toExtended.trans hext, fun i x => ?_⟩, hslot⟩
  rw [hbytes, hm.grown.bytes]
  have hbs : BSIZE = 1024 := rfl
  by_cases hin : i = ip ∧ off ≤ x ∧ x < off + m
  · have hblock : x / BSIZE = off / BSIZE ∧ off % BSIZE ≤ x % BSIZE ∧
        x % BSIZE < off % BSIZE + m ∧ x % BSIZE - off % BSIZE = x - off := by
      rw [hbs] at hroom ⊢
      omega
    rw [if_pos hin, if_pos ⟨hin.1, hblock.1, hblock.2.1, hblock.2.2.1⟩, hblock.2.2.2,
      ← hval (x - off) (by omega), Nat.add_sub_cancel' hin.2.1]
  · rw [if_neg hin, if_neg]
    rintro ⟨he, hdiv, hlo, hhi⟩
    refine hin ⟨he, ?_⟩
    rw [hbs] at hdiv hlo hhi hroom
    omega

theorem Vol.lacking_congr (h : s'.slot = s.slot) (ip lo hi : Nat) :
    s'.lacking ip lo hi = s.lacking ip lo hi := by
  have haddr : s'.addr ip single = s.addr ip single := congrFun h (.addr ip single)
  unfold lacking
  rw [haddr]
  simp only [blockOf_congr h]

/-- A range with all its blocks lacks none. -/
theorem Vol.lacking_eq_zero (h : ∀ bn, lo ≤ bn → bn < hi → s.blockOf ip bn ≠ 0) :
    s.lacking ip lo hi = 0 := by
  unfold lacking
  have hsum : ∑ bn ∈ Finset.Ico lo hi, (if s.blockOf ip bn = 0 then 1 else 0) = 0 := by
    refine Finset.sum_eq_zero fun bn hbn => ?_
    obtain ⟨hlo, hhi⟩ := Finset.mem_Ico.mp hbn
    exact if_neg (h bn hlo hhi)
  rw [hsum, if_neg]
  rintro ⟨hlt, hind, hz⟩
  -- the last block of the range is behind the indirect block
  refine h (hi - 1) (by omega) (by omega) ?_
  unfold blockOf
  rw [dif_neg (by omega)]
  split
  · exact if_pos hz
  · rfl

/-- Why `writei` stops after `m` of `n` bytes from `off` on, with the buffers written up to `e`. The
source cannot be read at byte `bad`. Only a copy that fails leaves bytes behind those counted. -/
inductive Stopped (sb : Superblock) (ip off n : Nat) (bad : Option Nat) (s : Vol) (m e : Nat) : Prop
  | done (hgood : ∀ k, bad = some k → n ≤ k) (hm : m = n) (he : e = off + m)
  | full (hread : ∀ k, bad = some k → m ≤ k) (hm : m < n) (he : e = off + m) (hfree : s.free sb = 0)
      (hblock : s.blockOf ip ((off + m) / BSIZE) = 0)
  | unread (k : Nat) (hbad : bad = some k) (hle : m ≤ k) (hk : k < n) (he : e = off + k)
      (hturn : m = 0 ∨ (off + m) % BSIZE = 0) (hsame : (off + k) / BSIZE = (off + m) / BSIZE)
      (hblock : s.blockOf ip ((off + m) / BSIZE) ≠ 0)

/-- What `writei` has done of `n` bytes from `off` on when it stops after `m`. -/
structure Wrote (sb : Superblock) (ip : Nat) (val : Nat → UInt8) (off n : Nat) (bad : Option Nat)
    (s : Vol) (m : Nat) (s' : Vol) : Prop where
  le : m ≤ n
  written : ∃ e, Written sb ip val off e s s' ∧ Stopped sb ip off n bad s' m e
  blocks : ∀ x, off ≤ x → x < off + m → s'.blockOf ip (x / BSIZE) ≠ 0
  paid : ∀ lo hi, lo ≤ off / BSIZE → blocksEnd off m ≤ hi → (m < n → (off + m) / BSIZE < hi) →
    s.free sb + s'.lacking ip lo hi = s'.free sb + s.lacking ip lo hi
  others : ∀ bn, bn < off / BSIZE ∨ blocksEnd off n ≤ bn → s'.blockOf ip bn = s.blockOf ip bn
  pointer : blocksEnd off n ≤ NDIRECT → s'.addr ip single = s.addr ip single

theorem Stopped.le_end {e : Nat} (h : Stopped sb ip off n bad s m e) :
    off + m ≤ e := by
  cases h with
  | done | full | unread => omega

section Wrote

variable {bad : Option Nat} {m : Nat}

theorem Wrote.nothing (h : s.Sound sb) (bad : Option Nat) (hgood : ∀ k, bad = some k → 0 ≤ k) :
    Wrote sb ip val off 0 bad s 0 s where
  le := Nat.le_refl 0
  written := ⟨off, (Grown.refl h ip).written (Nat.le_refl off), .done hgood rfl rfl⟩
  blocks x hlo hhi := absurd hhi (by omega)
  paid _ _ _ _ _ := rfl
  others _ _ := rfl
  pointer _ := rfl

/-- A good source is written as far as it is counted. -/
theorem Wrote.exact (h : Wrote sb ip val off n bad s m s') (hgood : ∀ k, bad = some k → n ≤ k) :
    Written sb ip val off (off + m) s s' := by
  obtain ⟨e, hwritten, hstop⟩ := h.written
  cases hstop with
  | done _ _ he | full _ _ he _ _ =>
    rw [← he]
    exact hwritten
  | unread k hbad _ hk => exact absurd (hgood k hbad) (Nat.not_le.mpr hk)

/-- And only a full disk keeps it from being written in full. -/
theorem Wrote.stop (h : Wrote sb ip val off n bad s m s') (hgood : ∀ k, bad = some k → n ≤ k)
    (hlt : m < n) : s'.free sb = 0 ∧ s'.blockOf ip ((off + m) / BSIZE) = 0 := by
  obtain ⟨e, -, hstop⟩ := h.written
  cases hstop with
  | done _ hm _ => exact absurd hm (Nat.ne_of_lt hlt)
  | full _ _ _ hfree hblock => exact ⟨hfree, hblock⟩
  | unread k hbad _ hk => exact absurd (hgood k hbad) (Nat.not_le.mpr hk)

/-- The blocks of the bytes counted, and the next one that it has tried to get. -/
theorem Wrote.paid_all (h : Wrote sb ip val off n bad s m s') {lo hi : Nat} (hlo : lo ≤ off / BSIZE)
    (hhi : blocksEnd off n ≤ hi) :
    s.free sb + s'.lacking ip lo hi = s'.free sb + s.lacking ip lo hi := by
  have hle := h.le
  have hb : BSIZE = 1024 := rfl
  refine h.paid lo hi hlo ?_ fun hlt => ?_
  · unfold blocksEnd at hhi ⊢
    rw [hb] at hhi ⊢
    omega
  · unfold blocksEnd at hhi
    rw [hb] at hhi ⊢
    omega

end Wrote

/-- The first turn of the loop writes its piece, and the rest of the loop what is left. -/
theorem Stopped.later {p e : Nat} {s : Vol}
    (h : Stopped sb ip (off + p) (n - p) (bad.map fun k => k - p) s m e) (hp : p ≤ n)
    (hread : ∀ k, bad = some k → p ≤ k) (hnext : p < n → (off + p) % BSIZE = 0) :
    Stopped sb ip off n bad s (p + m) e := by
  have hassoc : off + (p + m) = off + p + m := (Nat.add_assoc ..).symm
  cases h with
  | done hgood hm he =>
    refine .done (fun k hk => ?_) (by omega) (by omega)
    have hkept := hgood (k - p) (by rw [hk]; rfl)
    have hpk := hread k hk
    omega
  | full hcame hm he hfree hblock =>
    refine .full (fun k hk => ?_) (by omega) (by omega) hfree ?_
    · have hkept := hcame (k - p) (by rw [hk]; rfl)
      have hpk := hread k hk
      omega
    · rw [hassoc]
      exact hblock
  | unread k hbad hle hk he hturn hsame hblock =>
    obtain ⟨k', hk', rfl⟩ := Option.map_eq_some_iff.mp hbad
    have hpk := hread k' hk'
    refine .unread k' hk' (by omega) (by omega) (by omega) (.inr ?_) ?_ ?_
    · rw [hassoc]
      rcases hturn with rfl | hturn
      · exact hnext (by omega)
      · exact hturn
    · rw [hassoc, ← hsame]
      congr 1
      omega
    · rw [hassoc]
      exact hblock

/-- The loop stops at a block it cannot have, or at a byte it cannot read, and otherwise writes
everything. -/
theorem writeLoop_spec (val : Nat → UInt8) (h : s.Sound sb) (hip : s.Live ip)
    (hfuel : n - tot ≤ fuel) (htot : tot ≤ n) (hmax : off + (n - tot) ≤ MAXFILE * BSIZE)
    (hval : ∀ i, val (off + i) = src.byte (tot + i)) :
    ∃ m s', writeLoop sb ip src n fuel tot off s = .ok ((tot + m, off + m), s') ∧
      Wrote sb ip val off (n - tot) (src.unmapped.map fun k => k - tot) s m s' := by
  induction fuel generalizing s tot off with
  | zero =>
    obtain rfl : tot = n := by omega
    exact ⟨0, s, rfl, by rw [Nat.sub_self]; exact .nothing h _ fun _ _ => Nat.zero_le _⟩
  | succ fuel ih =>
    by_cases hlt : tot < n
    · obtain ⟨addr, s₁, hbmap, hm⟩ := bmap_spec h hip (block_lt_maxfile hlt hmax)
      have hple := @piece_le n tot off
      have hpos := @piece_pos n tot off hlt
      have hpaid₁ : ∀ lo hi, lo ≤ off / BSIZE → off / BSIZE < hi →
          s.free sb + s₁.lacking ip lo hi = s₁.free sb + s.lacking ip lo hi := fun lo hi hlo hhi =>
        (hm.filled hlo hhi).paid lo hi (Nat.le_refl lo) (Nat.le_refl hi)
      have hend : off / BSIZE < blocksEnd off (n - tot) := block_lt_end hlt
      have hothers₁ : ∀ bn, bn < off / BSIZE ∨ blocksEnd off (n - tot) ≤ bn →
          s₁.blockOf ip bn = s.blockOf ip bn := fun bn hbn => hm.others bn (by omega)
      have hpointer₁ : blocksEnd off (n - tot) ≤ NDIRECT → s₁.addr ip single = s.addr ip single :=
        fun hle => hm.pointer (Nat.lt_of_lt_of_le hend hle)
      by_cases haddr : addr = 0
      · refine ⟨0, s₁, ?_, Nat.zero_le _, ?_, fun x hlo hhi => absurd hhi (by omega),
          fun lo hi hlo _ hhi => hpaid₁ lo hi hlo (hhi (by omega)), hothers₁, hpointer₁⟩
        · rw [writeLoop, run_ite, if_pos hlt, run_bind_ok hbmap, if_pos haddr]
          rfl
        · exact ⟨off, hm.grown.written (Nat.le_refl off),
            .full (fun _ _ => Nat.zero_le _) (by omega) rfl (hm.full haddr) (hm.found.trans haddr)⟩
      have hdata := (hm.slice haddr n tot).1
      have hroom : off % BSIZE + piece n tot off ≤ BSIZE := by
        have hmod : off % BSIZE < BSIZE := Nat.mod_lt _ (by decide)
        unfold piece
        omega
      have hcle : src.copies tot (piece n tot off) ≤ piece n tot off := src.copies_le ..
      have hrun : writeLoop sb ip src n (fuel + 1) tot off s = (do
          setData addr fun blk => blk.patch (off % BSIZE) (src.copies tot (piece n tot off))
            fun i => src.byte (tot + i)
          if src.copies tot (piece n tot off) < piece n tot off then return (tot, off)
          else
            logged addr
            writeLoop sb ip src n fuel (tot + piece n tot off) (off + piece n tot off) :
          M (Nat × Nat)) s₁ := by
        rw [writeLoop, run_ite, if_pos hlt, run_bind_ok hbmap, if_neg haddr,
          run_bind_ok (bread_of_isData hdata)]
      obtain ⟨hwritten, hslot⟩ := hm.patch haddr
        (Nat.le_trans (Nat.add_le_add_left hcle _) hroom)
        (f := fun i => src.byte (tot + i)) fun i _ => hval i
      by_cases hcopies : src.copies tot (piece n tot off) < piece n tot off
      · -- the source is not mapped throughout: what was copied stays in the buffer
        obtain ⟨k, hk, hcopied⟩ := src.copies_lt hcopies
        refine ⟨0, _, ?_, Nat.zero_le _, ⟨_, hwritten, ?_⟩,
          fun x hlo hhi => absurd hhi (by omega), fun lo hi hlo _ hhi => ?_,
          fun bn hbn => (Vol.blockOf_congr hslot ip bn).trans (hothers₁ bn hbn),
          fun hle => (congrFun hslot (.addr ip single)).trans (hpointer₁ hle)⟩
        · rw [hrun, if_pos hcopies]
          rfl
        · rw [hcopied] at hcopies hslot ⊢
          refine .unread (k - tot) (by rw [hk]; rfl) (Nat.zero_le _) (by omega) rfl (.inl rfl)
            (piece_block hcopies).1 ?_
          rw [Vol.blockOf_congr hslot]
          exact fun hz => haddr (hm.found.symm.trans hz)
        · rw [Vol.lacking_congr hslot]
          exact hpaid₁ lo hi hlo (hhi (by omega))
      · have hcopied : src.copies tot (piece n tot off) = piece n tot off := by omega
        rw [hcopied] at hwritten hslot hrun
        let s₂ : Vol := { s₁.patch addr (off % BSIZE) (piece n tot off) fun i => src.byte (tot + i)
          with logged := s₁.logged ++ [addr] }
        have hslot₂ : s₂.slot = s₁.slot := hslot
        have hwritten₂ : Written sb ip val off (off + piece n tot off) s s₂ :=
          ⟨⟨⟨hwritten.sound.owned, hwritten.sound.metadata⟩, hwritten.itable, hwritten.dinode,
            hwritten.inuse, hwritten.kept, hwritten.own⟩, hwritten.bytes⟩
        have hblock₂ : s₂.blockOf ip (off / BSIZE) ≠ 0 := by
          rw [Vol.blockOf_congr hslot₂, hm.found]
          exact haddr
        obtain ⟨m, s', hrest, hlater⟩ := @ih s₂ (tot + piece n tot off) (off + piece n tot off)
          hwritten₂.sound (hwritten₂.live hip) (by omega) (by omega) (by omega)
          fun i => by rw [Nat.add_assoc, hval, Nat.add_assoc]
        have hread : ∀ k, (src.unmapped.map fun k => k - tot) = some k → piece n tot off ≤ k := by
          intro k hk
          obtain ⟨k', hk', rfl⟩ := Option.map_eq_some_iff.mp hk
          exact src.le_of_copies hcopied hk'
        have hbad : (src.unmapped.map fun k => k - (tot + piece n tot off)) =
            (src.unmapped.map fun k => k - tot).map fun k => k - piece n tot off := by
          rw [Option.map_map]
          congr 1
          funext k
          exact Nat.sub_add_eq ..
        rw [hbad, Nat.sub_add_eq] at hlater
        refine ⟨piece n tot off + m, s', ?_, ?_⟩
        · rw [hrun, if_neg (Nat.lt_irrefl _), ← Nat.add_assoc, ← Nat.add_assoc]
          exact hrest
        · obtain ⟨e, hmore, hstop⟩ := hlater.written
          have hleft := hlater.le
          have hwhole := hstop.later (by omega) hread fun hp => piece_aligned (by omega)
          have hend : off + (piece n tot off + m) ≤ e := hwhole.le_end
          have hrange : blocksEnd (off + piece n tot off) (n - tot - piece n tot off) =
              blocksEnd off (n - tot) := by
            rw [← Nat.sub_add_eq, blocksEnd_piece hlt]
          refine ⟨by omega, ⟨e, hwritten₂.trans hmore (by omega) (by omega), hwhole⟩,
            fun x hlo hhi => ?_, fun lo hi hlo hhi hnext => ?_, fun bn hbn => ?_, fun hle => ?_⟩
          · by_cases hx : x < off + piece n tot off
            · obtain ⟨i, rfl⟩ := Nat.exists_eq_add_of_le hlo
              rw [(piece_block (by omega : i < piece n tot off)).1]
              rwa [hmore.blockOf_kept hblock₂]
            · exact hlater.blocks x (by omega) (by omega)
          · have hsecond := hlater.paid lo hi
              (Nat.le_trans hlo (Nat.div_le_div_right (Nat.le_add_right ..)))
              (by unfold blocksEnd at hhi ⊢; rwa [Nat.add_assoc off])
              (fun hlt => by rw [Nat.add_assoc]; exact hnext (by omega))
            have hfirst := hpaid₁ lo hi hlo (by
              unfold blocksEnd at hhi
              have hb : BSIZE = 1024 := rfl
              rw [hb] at hhi ⊢
              omega)
            rw [Vol.lacking_congr hslot₂] at hsecond
            have hfree : s₂.free sb = s₁.free sb := rfl
            omega
          · have hbefore : off / BSIZE ≤ (off + piece n tot off) / BSIZE :=
              Nat.div_le_div_right (Nat.le_add_right ..)
            rw [hlater.others bn (by omega), Vol.blockOf_congr hslot₂]
            exact hothers₁ bn hbn
          · rw [hlater.pointer (by omega)]
            exact (congrFun hslot₂ (.addr ip single)).trans (hpointer₁ hle)
    · obtain rfl : tot = n := by omega
      refine ⟨0, s, ?_, by rw [Nat.sub_self]; exact .nothing h _ fun _ _ => Nat.zero_le _⟩
      rw [writeLoop_done hlt]
      rfl

/-- A good source is written in full if there are enough blocks for the range. -/
theorem Wrote.all (h : Wrote sb ip val off n bad s m s') (hgood : ∀ k, bad = some k → n ≤ k)
    (henough : s.lacking ip (off / BSIZE) (blocksEnd off n) ≤ s.free sb) : m = n := by
  have hpaid := h.paid_all (Nat.le_refl _) (Nat.le_refl _)
  have hle := h.le
  by_contra hne
  obtain ⟨hfree, hblock⟩ := h.stop hgood (by omega)
  have hin : off / BSIZE ≤ (off + m) / BSIZE ∧ (off + m) / BSIZE < blocksEnd off n := by
    have hb : BSIZE = 1024 := rfl
    unfold blocksEnd
    rw [hb]
    omega
  have hlacks := s'.lacks_le_lacking ip hin.1 hin.2
  have hpos : s'.lacks ip ((off + m) / BSIZE) ≠ 0 := fun hz =>
    Vol.lacks_eq_zero_iff.mp hz hblock
  omega

/-- A write that was not cut short had enough blocks. -/
theorem Wrote.enough (h : Wrote sb ip val off n bad s n s') (hn : 0 < n) :
    s.lacking ip (off / BSIZE) (blocksEnd off n) ≤ s.free sb := by
  have hpaid := h.paid_all (Nat.le_refl _) (Nat.le_refl _)
  have hnone : s'.lacking ip (off / BSIZE) (blocksEnd off n) = 0 := by
    refine Vol.lacking_eq_zero fun bn hlo hhi => ?_
    obtain ⟨x, hxlo, hxhi, rfl⟩ := exists_byte hn hlo hhi
    exact h.blocks x hxlo hxhi
  omega

/-- The volume when `writei` returns: the size is raised if need be, and the inode is on disk. -/
def Vol.resize (sb : Superblock) (s : Vol) (ip size : Nat) : Vol :=
  let x := s.itable ip
  let x := { x with size := if x.size < size then size else x.size }
  { s with
    itable := update s.itable ip x
    dinode := update s.dinode ip x.toDinode
    logged := s.logged ++ [sb.iblock ip] }

/-- Resizing changes the size of one inode. -/
theorem Vol.view_resize (hip : s.Live ip) (size i : Nat) : (s.resize sb ip size).view i =
    if i = ip then { s.view ip with size := max (s.view ip).size size } else s.view i := by
  by_cases he : i = ip
  · subst he
    have hmax : (if (s.itable i).size < size then size else (s.itable i).size) =
        max (s.itable i).size size := by
      split <;> omega
    rw [if_pos rfl, hip.view]
    unfold view resize
    simp only [update_self, hmax]
    exact if_pos ⟨hip.ref, hip.valid⟩
  · rw [if_neg he]
    unfold view resize
    simp only [update_of_ne he]

theorem Vol.slot_resize (hip : s.Live ip) (size : Nat) : (s.resize sb ip size).slot = s.slot := by
  refine slot_congr (fun i k => ?_) fun _ _ => rfl
  unfold addr
  rw [view_resize hip]
  by_cases he : i = ip
  · subst he
    rw [if_pos rfl]
  · rw [if_neg he]

/-- Resizing keeps a volume sound. -/
theorem Vol.Sound.resize (h : s.Sound sb) (hip : s.Live ip) (size : Nat) :
    (s.resize sb ip size).Sound sb :=
  ⟨by rw [slot_resize hip]; exact h.owned, h.metadata⟩

theorem Vol.Live.resize {i : Nat} (h : s.Live i) (sb : Superblock) (ip size : Nat) :
    (s.resize sb ip size).Live i := by
  have hx : (s.resize sb ip size).itable i =
      { s.itable i with size := ((s.resize sb ip size).itable i).size } := by
    by_cases he : i = ip
    · subst he
      unfold Vol.resize
      simp only [update_self]
    · unfold Vol.resize
      simp only [update_of_ne he]
  exact ⟨by rw [hx]; exact h.ref, by rw [hx]; exact h.valid, by rw [hx]; exact h.type⟩

/-- Resizing changes no byte. -/
theorem Vol.byteAt_resize (hip : s.Live ip) (size i x : Nat) :
    (s.resize sb ip size).byteAt i x = s.byteAt i x := by
  unfold byteAt
  rw [blockOf_congr (slot_resize hip size)]
  rfl

/-- A write inside the limits is the loop, and then the inode. -/
theorem writei_of_loop (hip : s.Live ip) (hoff : off ≤ (s.view ip).size)
    (hmax : off + n ≤ MAXFILE * BSIZE) {tot off' : Nat}
    (hloop : writeLoop sb ip src n n 0 off s = .ok ((tot, off'), s')) :
    writei sb ip src off n s = .ok ((tot : Nat), s'.resize sb ip off') := by
  have hwrap : off + n < 2 ^ 32 := by
    have hm : MAXFILE * BSIZE = 274432 := rfl
    omega
  have hrun : writei sb ip src off n s = (writeLoop sb ip src n n 0 off >>= fun r => do
      setInode ip fun x => { x with size := if x.size < r.2 then r.2 else x.size }
      iupdate sb ip
      return (r.1 : Int) : M Int) s := by
    unfold writei
    rw [run_get_bind]
    show (if _ then _ else _ : M Int) s = _
    rw [uint32_of_lt hwrap, if_neg (by rw [hip.size] at hoff; omega), if_neg (by omega)]
  rw [hrun, run_bind_ok hloop]
  show Except.ok ((tot : Int), _) = Except.ok ((tot : Int), _)
  simp only [update_self, Vol.resize]

/-- `writei` writes a prefix of the bytes and grows the file to it. -/
theorem writei_spec (h : s.Sound sb) (hip : s.Live ip) (src : Buffer)
    (hoff : off ≤ (s.view ip).size) (hmax : off + n ≤ MAXFILE * BSIZE) :
    ∃ m s', writei sb ip src off n s = .ok ((m : Nat), s'.resize sb ip (off + m)) ∧
      Wrote sb ip (fun x => src.byte (x - off)) off n src.unmapped s m s' := by
  have hval : ∀ i, src.byte (off + i - off) = src.byte (0 + i) := by
    intro i
    rw [Nat.add_sub_cancel_left, Nat.zero_add]
  obtain ⟨m, s', hok, hwrote⟩ := writeLoop_spec (fun x => src.byte (x - off)) h hip
    (Nat.sub_le n 0) (Nat.zero_le n) hmax hval
  have hbad : (src.unmapped.map fun k => k - 0) = src.unmapped := Option.map_id'
  rw [hbad] at hwrote
  rw [Nat.zero_add] at hok
  exact ⟨m, s', writei_of_loop hip hoff hmax hok, hwrote⟩

/-- A write of good bytes inside the limits, with enough free blocks, does all of it. -/
theorem writei_inside (h : s.Sound sb) (hip : s.Live ip) (hsrc : src.Good n)
    (hoff : off ≤ (s.view ip).size) (hmax : off + n ≤ MAXFILE * BSIZE)
    (henough : s.lacking ip (off / BSIZE) (blocksEnd off n) ≤ s.free sb) :
    ∃ s', writei sb ip src off n s = .ok (n, s'.resize sb ip (off + n)) ∧
      Written sb ip (fun x => src.byte (x - off)) off (off + n) s s' := by
  obtain ⟨m, s', hok, hwrote⟩ := writei_spec h hip src hoff hmax
  obtain rfl := hwrote.all hsrc henough
  exact ⟨s', hok, hwrote.exact hsrc⟩

/-- A range of bytes replaced in a list of them. -/
def splice (bytes : List UInt8) (off : Nat) (new : List UInt8) : List UInt8 :=
  bytes.take off ++ new ++ bytes.drop (off + new.length)

/-- Writing a range splices its bytes into the contents. -/
theorem map_splice (g val : Nat → UInt8) {size : Nat} (hoff : off ≤ size) :
    (List.range (max size (off + n))).map
        (fun x => if off ≤ x ∧ x < off + n then val (x - off) else g x) =
      splice ((List.range size).map g) off ((List.range n).map val) := by
  unfold splice
  refine List.ext_getElem ?_ fun x hx hx' => ?_
  · simp only [List.length_map, List.length_range, List.length_append, List.length_take,
      List.length_drop]
    omega
  · rw [List.length_map, List.length_range] at hx
    rw [List.getElem_map, List.getElem_range]
    by_cases hlo : x < off
    · rw [if_neg (by omega), List.getElem_append_left (by simp; omega),
        List.getElem_append_left (by simp; omega), List.getElem_take, List.getElem_map,
        List.getElem_range]
    · by_cases hhi : x < off + n
      · rw [if_pos (by omega), List.getElem_append_left (by simp; omega),
          List.getElem_append_right (by simp; omega), List.getElem_map, List.getElem_range]
        congr 1
        simp only [List.length_take, List.length_map, List.length_range]
        omega
      · rw [if_neg (by omega), List.getElem_append_right (by simp; omega), List.getElem_drop,
          List.getElem_map, List.getElem_range]
        congr 1
        simp only [List.length_append, List.length_take, List.length_map, List.length_range]
        omega

/-- What `writei` makes of the contents. -/
theorem Written.content (h : Written sb ip (fun x => src.byte (x - off)) off (off + n) s s')
    (hip : s.Live ip) (hoff : off ≤ (s.view ip).size) :
    (s'.resize sb ip (off + n)).content ip =
        splice (s.content ip) off ((List.range n).map src.byte) ∧
      ∀ i, i ≠ ip → (s'.resize sb ip (off + n)).content i = s.content i := by
  have hip' := h.live hip
  have hbytes : ∀ i x, (s'.resize sb ip (off + n)).byteAt i x =
      if i = ip ∧ off ≤ x ∧ x < off + n then src.byte (x - off) else s.byteAt i x := by
    intro i x
    rw [Vol.byteAt_resize hip', h.bytes]
  constructor
  · obtain ⟨a, ha⟩ := h.view ip
    have hsize : ((s'.resize sb ip (off + n)).view ip).size =
        max (s.view ip).size (off + n) := by
      rw [Vol.view_resize hip', if_pos rfl, ha]
    unfold Vol.content
    rw [hsize, ← map_splice (s.byteAt ip) src.byte hoff]
    refine List.map_congr_left fun x _ => ?_
    rw [hbytes]
    simp only [true_and]
  · intro i hi
    obtain ⟨a, ha⟩ := h.view i
    have hsize : ((s'.resize sb ip (off + n)).view i).size = (s.view i).size := by
      rw [Vol.view_resize hip', if_neg hi, ha]
    unfold Vol.content
    rw [hsize]
    refine List.map_congr_left fun x _ => ?_
    rw [hbytes, if_neg fun hc => hi hc.1]

/-- `writei` refuses what is out of range after wrapping. -/
theorem writei_outside (hip : s.Live ip)
    (h : (s.view ip).size < off ∨ uint32 (off + n) < off ∨ MAXFILE * BSIZE < uint32 (off + n)) :
    writei sb ip src off n s = .ok (-1, s) := by
  unfold writei
  rw [run_get_bind]
  show (if _ then _ else _ : M Int) s = _
  rw [← hip.size]
  by_cases hc : (s.view ip).size < off ∨ uint32 (off + n) < off
  · rw [if_pos hc]
    rfl
  · rw [if_neg hc, if_pos (by tauto)]
    rfl

/-- `writei` refuses what is out of range. -/
theorem writei_refused (hip : s.Live ip) (src : Buffer) (off n : Fin (2 ^ 32))
    (hout : (s.view ip).size < off ∨ 2 ^ 32 ≤ (off : Nat) + n ∨ MAXFILE * BSIZE < (off : Nat) + n) :
    writei sb ip src off n s = .ok (-1, s) := by
  refine writei_outside hip ?_
  by_cases hw : 2 ^ 32 ≤ (off : Nat) + n
  · right
    left
    unfold uint32
    omega
  · rcases hout with ho | ho | ho
    · exact .inl ho
    · exact absurd ho hw
    · right
      right
      rwa [uint32_of_lt (Nat.lt_of_not_le hw)]

end Write

/-- **Files are byte arrays.** On a volume with block ownership, for an inode in the table whose
size is within the limit: `readi` with a good destination answers the bytes of the content from
`off` on, none if `off` is behind the end or the range wraps, and changes no content. The range
must not lack more blocks than are free, and a file without holes lacks none. `writei` with a
good source inside the limits and with enough free blocks replaces the range and changes no other
file, and outside the limits it changes nothing. -/
theorem file_is_byte_array {sb : Superblock} {s : Vol} {ip : Nat} (h : s.Sound sb)
    (hip : s.Live ip) (off n : Fin (2 ^ 32)) {buf : Buffer} (hbuf : buf.Good n) :
    ((s.view ip).size < off ∨ 2 ^ 32 ≤ (off : Nat) + n →
      readi sb ip buf off n s = .ok ((0, []), s)) ∧
    ((off : Nat) ≤ (s.view ip).size → (off : Nat) + n < 2 ^ 32 →
      (s.view ip).size ≤ MAXFILE * BSIZE →
      s.lacking ip (off / BSIZE) (blocksEnd off (min n ((s.view ip).size - off))) ≤ s.free sb →
      ∃ s', readi sb ip buf off n s =
          .ok (((s.read ip off n).length, s.read ip off n), s') ∧
        s'.Sound sb ∧ ∀ i, s'.content i = s.content i) ∧
    ((off : Nat) ≤ (s.view ip).size → (off : Nat) + n ≤ MAXFILE * BSIZE →
      s.lacking ip (off / BSIZE) (blocksEnd off n) ≤ s.free sb →
      ∃ s', writei sb ip buf off n s = .ok ((n : Nat), s') ∧ s'.Sound sb ∧
        s'.content ip = splice (s.content ip) off ((List.range n).map buf.byte) ∧
        ∀ i, i ≠ ip → s'.content i = s.content i) ∧
    ((s.view ip).size < off ∨ 2 ^ 32 ≤ (off : Nat) + n ∨ MAXFILE * BSIZE < (off : Nat) + n →
      writei sb ip buf off n s = .ok (-1, s)) := by
  refine ⟨fun hout => ?_, fun hoff hwrap hsize henough => ?_, fun hoff hmax henough => ?_,
    fun hout => ?_⟩
  · refine readi_outside hip (hout.imp_right fun hw => ?_)
    unfold uint32
    omega
  · obtain ⟨s', hok, hfilled, -⟩ := readi_inside h hip hbuf hoff hwrap hsize (Nat.le_refl _)
      (Nat.le_refl _) henough
    exact ⟨s', hok, hfilled.sound, hfilled.content⟩
  · obtain ⟨s', hok, hwritten⟩ := writei_inside h hip hbuf hoff hmax henough
    obtain ⟨hcontent, hothers⟩ := hwritten.content hip hoff
    refine ⟨_, hok, ⟨?_, hwritten.sound.metadata⟩, hcontent, hothers⟩
    rw [Vol.slot_resize (hwritten.live hip)]
    exact hwritten.sound.owned
  · exact writei_refused hip buf off n hout

/-! ## A file with a hole -/

/-- A disk with the boot block, the superblock, a log of 30 blocks, one block of inodes, the bitmap and
one data block, block 34. -/
def tinySuperblock : Superblock where
  size := 35
  nblocks := 1
  ninodes := 2
  inodestart := 32
  bmapstart := 33
  layout := by decide
  int := by decide
  ushort := by decide

/-- The disk is full: inode 1, which is in use, has the data block as its first one. -/
def tinyVol (type : Itype) (size : Nat) : Vol :=
  let x : Dinode := ⟨type, 0, 0, 1, size, fun k => if k = 0 then 34 else 0⟩
  { dinode := fun i => if i = 1 then x else ⟨.free, 0, 0, 0, 0, fun _ => 0⟩
    used := fun b => decide (b < 35)
    data := fun _ => zeroBlock
    itable := fun i =>
      if i = 1 then { x with ref := 1, valid := true }
      else ⟨⟨.free, 0, 0, 0, 0, fun _ => 0⟩, 0, false⟩
    inuse := [1]
    logged := [] }

section Tiny

variable {type : Itype} (htype : type ≠ .free) (size : Nat)

include htype

theorem tinyVol_slot (p : Place) :
    (tinyVol type size).slot p = 0 ∨ p = .addr 1 0 ∧ (tinyVol type size).slot p = 34 := by
  have haddr : ∀ i k, (tinyVol type size).addr i k = 0 ∨
      i = 1 ∧ k = 0 ∧ (tinyVol type size).addr i k = 34 := by
    intro i k
    by_cases hi : i = 1
    · subst hi
      show (if type = .free then 0 else if k = 0 then 34 else 0) = 0 ∨ _ ∧ _ ∧
        (if type = .free then 0 else if k = 0 then 34 else 0) = 34
      rw [if_neg htype]
      by_cases hk : k = 0
      · exact .inr ⟨rfl, hk, if_pos hk⟩
      · exact .inl (if_neg hk)
    · left
      unfold Vol.addr Vol.view tinyVol
      simp only [if_neg hi]
      rfl
  cases p with
  | addr i k =>
    rcases haddr i k with h | ⟨rfl, rfl, h⟩
    · exact .inl h
    · exact .inr ⟨rfl, h⟩
  | entry i j =>
    left
    rcases haddr i single with h | ⟨-, hk, -⟩
    · exact if_pos h
    · cases hk

theorem tinyVol_sound : (tinyVol type size).Sound tinySuperblock := by
  refine ⟨⟨rfl, fun p hp => ?_, fun p q hp hpq => ?_, fun b hb _ => ?_⟩, fun b hb => ?_⟩
  · obtain ⟨-, h⟩ := (tinyVol_slot htype size p).resolve_left hp
    rw [h]
    exact ⟨rfl, rfl⟩
  · obtain ⟨rfl, -⟩ := (tinyVol_slot htype size p).resolve_left hp
    obtain ⟨rfl, -⟩ := (tinyVol_slot htype size q).resolve_left (hpq ▸ hp)
    rfl
  · obtain ⟨hlo, hhi⟩ := Superblock.isData_iff.mp hb
    have hlast : b = 34 := by
      have h1 : 34 ≤ b := hlo
      have h2 : b < 35 := hhi
      omega
    exact ⟨.addr 1 0, hlast ▸ if_neg htype⟩
  · have hmeta : b < 34 := hb
    show decide (b < 35) = true
    exact decide_eq_true (by omega)

end Tiny

/-- A directory of two blocks of which only the first is allocated. -/
def holed : Vol := tinyVol .dir 2048

theorem holed_sound : holed.Sound tinySuperblock := tinyVol_sound (by decide) 2048

theorem holed_live : holed.Live 1 := ⟨by decide, rfl, by decide⟩

/-- The first block reads as it should. -/
theorem file_is_byte_array_first :
    ∃ s', readi tinySuperblock 1 (.kernel []) 0 16 holed =
        .ok ((16, List.replicate 16 0), s') ∧ ∀ i, s'.content i = holed.content i := by
  have hbuf : (Buffer.kernel []).Good 16 := fun k hk => by cases hk
  obtain ⟨-, hread, -, -⟩ := file_is_byte_array holed_sound holed_live
    ⟨0, by norm_num⟩ ⟨16, by norm_num⟩ hbuf
  obtain ⟨s', hok, -, hcontent⟩ := hread (by decide) (by norm_num) (by decide) (by decide +kernel)
  refine ⟨s', ?_, hcontent⟩
  have hbytes : holed.read 1 0 16 = List.replicate 16 0 := by decide +kernel
  rw [hbytes] at hok
  exact hok

/-- The second one cannot be read: `readi` answers 0 bytes where the content has 16. -/
theorem readi_short_on_hole :
    holed.Sound tinySuperblock ∧ holed.Live 1 ∧ (holed.view 1).size ≤ MAXFILE * BSIZE ∧
      (holed.read 1 1024 16).length = 16 ∧
      readi tinySuperblock 1 (.kernel []) 1024 16 holed = .ok ((0, []), holed) := by
  exact ⟨holed_sound, holed_live, by decide, by decide +kernel, rfl⟩

/-- A file of one block. -/
def oneFile : Vol := tinyVol .file 1024

theorem oneFile_sound : oneFile.Sound tinySuperblock := tinyVol_sound (by decide) 1024

theorem oneFile_live : oneFile.Live 1 := ⟨by decide, rfl, by decide⟩

end Xv6.Fs
