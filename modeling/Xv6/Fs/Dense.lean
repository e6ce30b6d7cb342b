import Xv6.Fs.Content

/-!
# Files without holes

A file is dense if it has exactly the blocks its size asks for. Writing at the end keeps it so, and then
the number of blocks a file takes is a function of its size.
-/

namespace Xv6.Fs

open Base

/-- The blocks that a file of `n` bytes takes: its data blocks, and the indirect block. -/
def blocksFor (n : Nat) : Nat := blocksEnd 0 n + if NDIRECT * BSIZE < n then 1 else 0

/-- The file has the blocks below its size, and no other. -/
structure Vol.Dense (s : Vol) (ip : Nat) : Prop where
  blocks : ∀ bn, s.blockOf ip bn ≠ 0 ↔ bn * BSIZE < (s.view ip).size
  indirect : s.addr ip single ≠ 0 ↔ NDIRECT * BSIZE < (s.view ip).size

section Dense

variable {sb : Superblock} {s s' : Vol} {ip n : Nat} {val : Nat → UInt8} {bad : Option Nat}

theorem blocksEnd_le_iff {n bn : Nat} : blocksEnd 0 n ≤ bn ↔ n ≤ bn * BSIZE := by
  have hb : BSIZE = 1024 := rfl
  unfold blocksEnd
  rw [hb]
  omega

theorem Vol.blockOf_maxfile (s : Vol) (ip : Nat) : s.blockOf ip MAXFILE = 0 := by
  unfold blockOf
  rw [dif_neg (by decide), dif_neg (by decide)]

theorem Vol.Dense.small (h : s.Dense ip) : (s.view ip).size ≤ MAXFILE * BSIZE := by
  by_contra hlarge
  exact (h.blocks MAXFILE).mpr (Nat.lt_of_not_le hlarge) (s.blockOf_maxfile ip)

theorem Vol.Dense.congr (h : s.Dense ip) (hslot : s'.slot = s.slot)
    (hsize : (s'.view ip).size = (s.view ip).size) : s'.Dense ip := by
  constructor
  · intro bn
    rw [Vol.blockOf_congr hslot, hsize]
    exact h.blocks bn
  · have hsingle : s'.addr ip single = s.addr ip single := congrFun hslot (.addr ip single)
    rw [hsingle, hsize]
    exact h.indirect

/-- What the blocks for more bytes at the end will take. -/
theorem Vol.Dense.lacking (h : s.Dense ip) (n : Nat) :
    s.lacking ip ((s.view ip).size / BSIZE) (blocksEnd (s.view ip).size n) +
      blocksFor (s.view ip).size = blocksFor ((s.view ip).size + n) := by
  have hb : BSIZE = 1024 := rfl
  have hd : NDIRECT = 12 := rfl
  have hind := h.indirect
  have hblocks := h.blocks
  generalize (s.view ip).size = size at hind hblocks ⊢
  have hcount : ∑ bn ∈ Finset.Ico (size / BSIZE) (blocksEnd size n),
      (if s.blockOf ip bn = 0 then 1 else 0) = blocksEnd size n - blocksEnd 0 size := by
    have hfilter : (Finset.Ico (size / BSIZE) (blocksEnd size n)).filter
        (fun bn => s.blockOf ip bn = 0) = Finset.Ico (blocksEnd 0 size) (blocksEnd size n) := by
      ext bn
      rw [Finset.mem_filter, Finset.mem_Ico, Finset.mem_Ico, blocksEnd_le_iff,
        ← Nat.not_lt (a := bn * BSIZE), ← hblocks, not_not]
      constructor
      · rintro ⟨⟨-, hhi⟩, hz⟩
        exact ⟨hz, hhi⟩
      · rintro ⟨hz, hhi⟩
        refine ⟨⟨?_, hhi⟩, hz⟩
        have hle := (not_congr (hblocks bn)).mp (not_not.mpr hz)
        rw [hb] at hle ⊢
        omega
    rw [← Finset.card_filter, hfilter, Nat.card_Ico]
  unfold Vol.lacking
  rw [hcount]
  unfold blocksFor blocksEnd
  rw [hb, hd] at hind ⊢
  by_cases hz : s.addr ip single = 0
  · have hsmall : ¬ 12 * 1024 < size := fun hlt => hind.mpr hlt hz
    simp only [hz, and_true, if_neg hsmall]
    split <;> split <;> omega
  · have hlarge : 12 * 1024 < size := hind.mp hz
    have hmore : 12 * 1024 < size + n := Nat.lt_of_lt_of_le hlarge (Nat.le_add_right ..)
    simp only [hz, and_false, if_pos hlarge, if_pos hmore, if_false]
    omega

theorem Wrote.dense (h : Wrote sb ip val (s.view ip).size n bad s n s') (hip : s.Live ip)
    (hd : s.Dense ip) : (s'.resize sb ip ((s.view ip).size + n)).Dense ip ∧
      s'.free sb + blocksFor ((s.view ip).size + n) = s.free sb + blocksFor (s.view ip).size := by
  have hb : BSIZE = 1024 := rfl
  obtain ⟨e, hwritten, -⟩ := h.written
  have hlive := hwritten.live hip
  have hblocks : ∀ bn, s'.blockOf ip bn ≠ 0 ↔ bn * BSIZE < (s.view ip).size + n := by
    intro bn
    by_cases hold : bn * BSIZE < (s.view ip).size
    · have hthere := (hd.blocks bn).mpr hold
      rw [hwritten.blockOf_kept hthere]
      exact ⟨fun _ => Nat.lt_of_lt_of_le hold (Nat.le_add_right ..), fun _ => hthere⟩
    · by_cases hnew : bn * BSIZE < (s.view ip).size + n
      · have hblock := h.blocks (bn * BSIZE) (by omega) hnew
        rw [Nat.mul_div_cancel bn (by decide)] at hblock
        exact ⟨fun _ => hnew, fun _ => hblock⟩
      · have hbehind : blocksEnd (s.view ip).size n ≤ bn := by
          unfold blocksEnd
          rw [hb] at hnew ⊢
          omega
        rw [h.others bn (.inr hbehind), hd.blocks]
        exact ⟨fun hlt => absurd hlt hold, fun hlt => absurd hlt hnew⟩
  have hsingle : s'.addr ip single ≠ 0 ↔ NDIRECT * BSIZE < (s.view ip).size + n := by
    by_cases hsmall : blocksEnd (s.view ip).size n ≤ NDIRECT
    · have hle : (s.view ip).size + n ≤ NDIRECT * BSIZE := by
        unfold blocksEnd at hsmall
        rw [hb] at hsmall ⊢
        omega
      rw [h.pointer hsmall, hd.indirect]
      exact ⟨fun hlt => absurd hlt (by omega), fun hlt => absurd hlt (by omega)⟩
    · have hlt : NDIRECT * BSIZE < (s.view ip).size + n := by
        unfold blocksEnd at hsmall
        rw [hb] at hsmall ⊢
        omega
      refine ⟨fun _ => hlt, fun _ hz => ?_⟩
      refine (hblocks NDIRECT).mpr hlt ?_
      exact (s'.blockOf_indirect ip ⟨0, by decide⟩).trans (if_pos hz)
  constructor
  · obtain ⟨a, ha⟩ := hwritten.view ip
    have hsize : ((s'.resize sb ip ((s.view ip).size + n)).view ip).size =
        (s.view ip).size + n := by
      rw [Vol.view_resize hlive, if_pos rfl, ha]
      exact Nat.max_eq_right (Nat.le_add_right ..)
    have hslot : (s'.resize sb ip ((s.view ip).size + n)).slot = s'.slot :=
      Vol.slot_resize hlive _
    constructor
    · intro bn
      rw [Vol.blockOf_congr hslot, hsize]
      exact hblocks bn
    · have hsame : (s'.resize sb ip ((s.view ip).size + n)).addr ip single = s'.addr ip single :=
        congrFun hslot (.addr ip single)
      rw [hsame, hsize]
      exact hsingle
  · have hpaid := h.paid ((s.view ip).size / BSIZE) (blocksEnd (s.view ip).size n) (Nat.le_refl _)
      (Nat.le_refl _) fun hlt => absurd hlt (Nat.lt_irrefl n)
    have hnone : s'.lacking ip ((s.view ip).size / BSIZE) (blocksEnd (s.view ip).size n) = 0 := by
      refine Vol.lacking_eq_zero fun bn _ hhi => (hblocks bn).mpr ?_
      unfold blocksEnd at hhi
      rw [hb] at hhi ⊢
      omega
    have hlacking := hd.lacking n
    omega

theorem Extended.view_ne (h : Extended sb ip s s') {i : Nat} (hi : i ≠ ip) :
    s'.view i = s.view i := by
  obtain ⟨a, ha⟩ := h.itable
  unfold Vol.view
  rw [ha, Function.update_of_ne hi, h.dinode]

theorem Extended.slot_ne (h : Extended sb ip s s') {p : Place} (hp : p.inode ≠ ip) :
    s'.slot p = s.slot p := by
  by_contra hne
  exact hp (h.own p hne)

theorem Extended.dense_ne (h : Extended sb ip s s') {i : Nat} (hi : i ≠ ip) (hd : s.Dense i) :
    s'.Dense i := by
  have hslot : ∀ p : Place, p.inode = i → s'.slot p = s.slot p := fun p hp =>
    h.slot_ne (by rwa [hp])
  constructor
  · intro bn
    rw [h.view_ne hi, ← hd.blocks bn, not_iff_not]
    unfold Vol.blockOf
    split
    · rw [hslot _ rfl]
    · split
      · rw [hslot _ rfl]
      · exact Iff.rfl
  · have hsingle : s'.addr i single = s.addr i single := hslot (.addr i single) rfl
    rw [h.view_ne hi, hsingle]
    exact hd.indirect

end Dense

end Xv6.Fs
