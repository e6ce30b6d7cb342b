import Xv6.Fs.Content
import Xv6.Vm.Copyin
import Xv6.Vm.UserStores

/-!
# Writes that stop early

`writei` copies each piece from the source straight into the block's buffer, and counts it only when
the whole piece has been copied. A source that cannot be read in the middle of a piece leaves the
bytes before that point in the buffer, behind the end of what is reported. A full disk does no such
harm: the write then stops between two pieces.
-/

namespace Xv6.Fs

open Base

variable {sb : Superblock} {s s' : Vol} {ip off n : Nat} {val : Nat → UInt8} {bad : Option Nat}
  {m e : Nat}

/-- The answer `r` of `writei` accounts for the change from `s` to `s'`: a refused write changes nothing,
and a write of `r` bytes changes these bytes of the file, raises its size to their end if that is
behind it, and changes no other byte of any file. -/
def Accounted (ip : Nat) (src : Buffer) (off n : Nat) (s : Vol) (r : Int) (s' : Vol) : Prop :=
  (r = -1 ∧ s' = s) ∨ ∃ m : Nat, r = m ∧ m ≤ n ∧
    (s'.view ip).size = max (s.view ip).size (off + m) ∧
    ∀ i x, s'.byteAt i x =
      if i = ip ∧ off ≤ x ∧ x < off + m then src.byte (x - off) else s.byteAt i x

/-- A write of `n` bytes from `off` on, whose source cannot be read at byte `bad`, does not stop in the
middle of a piece: the bad byte is the first of the write or of a block, or the disk is full before
its block. -/
def Unbroken (sb : Superblock) (s : Vol) (ip off n : Nat) (bad : Option Nat) : Prop :=
  ∀ k, bad = some k → k < n → k = 0 ∨ (off + k) % BSIZE = 0 ∨
    s.free sb < s.lacking ip (off / BSIZE) ((off + k) / BSIZE + 1)

/-- A write that has come to the bad byte has had blocks enough for the bytes before it. -/
theorem Wrote.paid_unread (h : Wrote sb ip val off n bad s m s') {k : Nat} (hle : m ≤ k)
    (hsame : (off + k) / BSIZE = (off + m) / BSIZE)
    (hblock : s'.blockOf ip ((off + m) / BSIZE) ≠ 0) :
    s.lacking ip (off / BSIZE) ((off + k) / BSIZE + 1) ≤ s.free sb := by
  have hb : BSIZE = 1024 := rfl
  have hpaid := h.paid (off / BSIZE) ((off + k) / BSIZE + 1) (Nat.le_refl _)
    (by unfold blocksEnd; rw [hb]; omega) (fun _ => by rw [hsame]; exact Nat.lt_succ_self _)
  have hnone : s'.lacking ip (off / BSIZE) ((off + k) / BSIZE + 1) = 0 := by
    refine Vol.lacking_eq_zero fun bn hlo hhi => ?_
    by_cases hlast : bn = (off + m) / BSIZE
    · rw [hlast]
      exact hblock
    · have hbefore : bn < (off + m) / BSIZE := by omega
      obtain ⟨x, hxlo, hxhi, rfl⟩ := @exists_byte m off bn
        (by rw [hb] at hlo hbefore; omega) hlo (by unfold blocksEnd; rw [hb] at hbefore ⊢; omega)
      exact h.blocks x hxlo hxhi
  omega

/-- With an unbroken write, what has been written is what is counted. -/
theorem Wrote.end_eq (h : Wrote sb ip val off n bad s m s') (hbroken : Unbroken sb s ip off n bad)
    (hstop : Stopped sb ip off n bad s' m e) : e = off + m := by
  cases hstop with
  | done _ _ he => exact he
  | full _ _ he _ _ => exact he
  | unread k hbad hle hk he _ hsame hblock =>
    have hb : BSIZE = 1024 := rfl
    rcases hbroken k hbad hk with rfl | haligned | hfull
    · omega
    · rw [hb] at haligned hsame
      omega
    · exact absurd (h.paid_unread hle hsame hblock) (Nat.not_le.mpr hfull)

theorem Wrote.lt_end {k : Nat} (h : Wrote sb ip val off n bad s m s') (hbad : bad = some k)
    (hk : k < n) (hpos : k ≠ 0) (hinside : (off + k) % BSIZE ≠ 0)
    (henough : s.lacking ip (off / BSIZE) ((off + k) / BSIZE + 1) ≤ s.free sb)
    (hstop : Stopped sb ip off n bad s' m e) : off + m < e := by
  have hb : BSIZE = 1024 := rfl
  cases hstop with
  | done hgood _ _ => exact absurd (hgood k hbad) (Nat.not_le.mpr hk)
  | full hread _ _ hfree hblock =>
    -- the write has stopped for want of a block, and there were enough
    have hle := hread k hbad
    have hlow : off / BSIZE ≤ (off + m) / BSIZE := Nat.div_le_div_right (Nat.le_add_right ..)
    have hhigh : (off + m) / BSIZE < (off + k) / BSIZE + 1 := by
      rw [hb]
      omega
    have hpaid := h.paid (off / BSIZE) ((off + k) / BSIZE + 1) (Nat.le_refl _)
      (by unfold blocksEnd; rw [hb]; omega) (fun _ => hhigh)
    have hlacks := s'.lacks_le_lacking ip hlow hhigh
    have hpos : s'.lacks ip ((off + m) / BSIZE) ≠ 0 := fun hz =>
      Vol.lacks_eq_zero_iff.mp hz hblock
    omega
  | unread k' hbad' hle _ he hturn _ _ =>
    obtain rfl : k = k' := Option.some.inj (hbad.symm.trans hbad')
    have hne : m ≠ k := by
      rintro rfl
      rcases hturn with hzero | haligned
      · exact hpos hzero
      · exact hinside haligned
    omega

/-- For every volume with block ownership, every inode in the table, every offset and length and every
source, whatever it holds: the answer of `writei` accounts for all that it has changed exactly if
the write is refused or not broken in the middle of a piece. -/
theorem partial_write_iff (h : s.Sound sb) (hip : s.Live ip) (off n : Fin (2 ^ 32))
    (bad : Option Nat) :
    (∀ src : Buffer, src.unmapped = bad → ∃ r s', writei sb ip src off n s = .ok (r, s') ∧
      Accounted ip src off n s r s') ↔
    ((off : Nat) ≤ (s.view ip).size → (off : Nat) + n ≤ MAXFILE * BSIZE →
      Unbroken sb s ip off n bad) := by
  constructor
  · intro hall hoff hmax k hbad hk
    by_contra hbroken
    rw [not_or, not_or, Nat.not_lt] at hbroken
    obtain ⟨hpos, hinside, henough⟩ := hbroken
    -- a source that differs from the file in every byte
    let src : Buffer := ⟨fun i => s.byteAt ip (off + i) + 1, bad⟩
    obtain ⟨m, t, hok, hwrote⟩ := writei_spec h hip src hoff hmax
    obtain ⟨e, hwritten, hstop⟩ := hwrote.written
    have hlt := hwrote.lt_end hbad hk hpos hinside henough hstop
    obtain ⟨r, s', hrun, haccount⟩ := hall src rfl
    rw [hok] at hrun
    cases hrun
    have hlive := hwritten.live hip
    rcases haccount with ⟨hneg, -⟩ | ⟨m', hm', -, -, hbytes⟩
    · omega
    · have hafter := hbytes ip (off + m)
      rw [Vol.byteAt_resize hlive, hwritten.bytes, if_pos ⟨rfl, Nat.le_add_right .., hlt⟩,
        if_neg (by omega), Nat.add_sub_cancel_left] at hafter
      simp [src] at hafter
  · intro hunbroken src hsrc
    by_cases hin : (off : Nat) ≤ (s.view ip).size ∧ (off : Nat) + n ≤ MAXFILE * BSIZE
    · obtain ⟨hoff, hmax⟩ := hin
      obtain ⟨m, t, hok, hwrote⟩ := writei_spec h hip src hoff hmax
      obtain ⟨e, hwritten, hstop⟩ := hwrote.written
      rw [hsrc] at hwrote hstop
      rw [hwrote.end_eq (hunbroken hoff hmax) hstop] at hwritten
      have hlive := hwritten.live hip
      refine ⟨m, _, hok, .inr ⟨m, rfl, hwrote.le, ?_, fun i x => ?_⟩⟩
      · obtain ⟨a, ha⟩ := hwritten.view ip
        rw [Vol.view_resize hlive, if_pos rfl, ha]
      · rw [Vol.byteAt_resize hlive, hwritten.bytes]
    · refine ⟨-1, s, writei_refused hip src off n ?_, .inl ⟨rfl, rfl⟩⟩
      rw [not_and_or, Nat.not_le, Nat.not_le] at hin
      exact hin.imp_right .inr

/-- A source that cannot be read behind the file's only block. -/
theorem partial_write_boundary : ∃ r s',
    writei tinySuperblock 1 ⟨fun _ => 7, some 1024⟩ 0 2000 oneFile = .ok (r, s') ∧
      Accounted 1 ⟨fun _ => 7, some 1024⟩ 0 2000 oneFile r s' := by
  refine (partial_write_iff oneFile_sound oneFile_live ⟨0, by norm_num⟩ ⟨2000, by norm_num⟩
    (some 1024)).mpr (fun _ _ k hk _ => ?_) ⟨fun _ => 7, some 1024⟩ rfl
  cases hk
  exact .inr (.inl rfl)

/-- A program with one page of memory writes 8 bytes from the last 4 of its page on, and the first of
them is a 7. `writei` answers 0, and the file has changed: its first byte is a 7. -/
theorem partial_write_past_count : ∃ (ram : Vm.Ram) (s' : Vol), Vm.Separate ram Vm.KERNBASE ∧
    writei tinySuperblock 1 (ram.buffer Vm.KERNBASE 4092 8) 0 8 oneFile = .ok (0, s') ∧
      oneFile.byteAt 1 0 = 0 ∧ s'.byteAt 1 0 = 7 := by
  obtain ⟨ram₀, hsep, pa, hlow, hhigh⟩ := Vm.exists_data
  let x : Nat × Fin Vm.PGSIZE := (pa, ⟨4092, by norm_num⟩)
  let ram := ram₀.deposit [(x, 7)]
  have hsame : Vm.SameTable ram₀ Vm.KERNBASE ram := by
    refine ⟨fun p hp => Vm.Ram.deposit_page_of_not_mem fun v hv he => ?_, rfl⟩
    rw [List.mem_singleton.mp hv] at he
    rw [← he] at hp
    exact hsep 0 pa (hlow 0 (by norm_num)) hp
  have hunmapped : (ram.buffer Vm.KERNBASE 4092 8).unmapped = some 4 := by
    refine List.find?_range_eq_some.mpr ⟨?_, List.mem_range.mpr (by norm_num), fun i hi => ?_⟩
    · rw [hsame.user, hhigh _ (by norm_num)]
      rfl
    · rw [hsame.user, hlow _ (by omega)]
      rfl
  have hbyte : (ram.buffer Vm.KERNBASE 4092 8).byte 0 = 7 := by
    show ram.userByte Vm.KERNBASE 4092 = 7
    unfold Vm.Ram.userByte
    rw [hsame.user, hlow 4092 (by norm_num)]
    refine (dif_pos (by decide)).trans ?_
    exact overlay_eq ⟨(x, 7), List.mem_singleton_self _, rfl⟩ (by simp)
  obtain ⟨m, t, hok, hwrote⟩ := writei_spec oneFile_sound oneFile_live
    (ram.buffer Vm.KERNBASE 4092 8) (Nat.zero_le _) (show 0 + 8 ≤ MAXFILE * BSIZE by decide)
  obtain ⟨e, hwritten, hstop⟩ := hwrote.written
  rw [hunmapped] at hwrote hstop
  have hlt := hwrote.lt_end rfl (by norm_num) (by norm_num) (by decide) (by decide +kernel) hstop
  have hm : m = 0 := by
    cases hstop with
    | done hgood _ _ => exact absurd (hgood 4 rfl) (by norm_num)
    | full => omega
    | unread k hbad hle hk _ hturn _ _ =>
      have hb : BSIZE = 1024 := rfl
      rw [hb] at hturn
      omega
  subst hm
  refine ⟨ram, _, hsame.separate hsep, hok, rfl, ?_⟩
  rw [Vol.byteAt_resize (hwritten.live oneFile_live), hwritten.bytes, if_pos ⟨rfl, Nat.le_refl 0, hlt⟩]
  exact hbyte

end Xv6.Fs
