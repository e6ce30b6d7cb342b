import Xv6.Fs.Places

/-!
# References in the inode table

`iget` and an `iput` that does not free the inode change references only. What a file is does not
depend on them: an entry whose copy is dropped agrees with the disk, and a new entry has no copy
yet. `SameFiles` says that two volumes differ in no file.
-/

namespace Xv6.Fs

open Base Function

/-- The two volumes have the same inodes and the same blocks. -/
structure SameFiles (s s' : Vol) : Prop where
  view : ∀ i, s'.view i = s.view i
  used : s'.used = s.used
  data : s'.data = s.data

namespace SameFiles

variable {sb : Superblock} {s s' s'' : Vol}

theorem refl (s : Vol) : SameFiles s s := ⟨fun _ => rfl, rfl, rfl⟩

theorem trans (h : SameFiles s s') (h' : SameFiles s' s'') : SameFiles s s'' :=
  ⟨fun i => (h'.view i).trans (h.view i), h'.used.trans h.used, h'.data.trans h.data⟩

theorem slot (h : SameFiles s s') : s'.slot = s.slot := by
  refine Vol.slot_congr (fun i k => ?_) fun i _ => by rw [h.data]
  unfold Vol.addr
  rw [h.view]

theorem byteAt (h : SameFiles s s') (i x : Nat) : s'.byteAt i x = s.byteAt i x := by
  unfold Vol.byteAt
  rw [Vol.blockOf_congr h.slot, h.data]

theorem sound (h : SameFiles s s') (hs : s.Sound sb) : s'.Sound sb :=
  ⟨by rw [h.slot, h.used]; exact hs.owned, by rw [h.used]; exact hs.metadata⟩

end SameFiles

namespace Vol

/-- The volume with one reference more to an inode. -/
def gets (s : Vol) (i : Nat) : Vol :=
  let x := s.itable i
  if 0 < x.ref then { s with itable := update s.itable i { x with ref := x.ref + 1 } }
  else
    { s with
      inuse := i :: s.inuse
      itable := update s.itable i { x with ref := 1, valid := false } }

/-- The volume with one reference less. -/
def puts (s : Vol) (i : Nat) : Vol :=
  let x := s.itable i
  { s with
    inuse := if x.ref = 1 then s.inuse.erase i else s.inuse
    itable := update s.itable i { x with ref := x.ref - 1 } }

/-- `iput` frees the inode now. -/
def Last (s : Vol) (i : Nat) : Prop :=
  (s.itable i).ref = 1 ∧ (s.itable i).valid = true ∧ (s.itable i).nlink = 0

/-- Another reference is left, or there is no copy to lose. -/
def Spare (s : Vol) (i : Nat) : Prop := 1 < (s.itable i).ref ∨ (s.itable i).valid = false

end Vol

section References

variable {sb : Superblock} {s : Vol} {i j : Nat}

theorem iget_ok (h : 0 < (s.itable i).ref ∨ s.inuse.length < NINODE) :
    iget i s = .ok ((), s.gets i) := by
  unfold iget Vol.gets
  rw [run_get_bind, run_ite]
  by_cases hr : 0 < (s.itable i).ref
  · rw [if_pos hr, if_pos hr]
    rfl
  · rw [if_neg hr, if_neg hr, run_ite, if_neg (Nat.not_le.mpr (h.resolve_left hr))]
    rfl

theorem iput_ok (h : ¬ s.Last i) : iput sb i s = .ok ((), s.puts i) := by
  unfold iput
  rw [run_get_bind]
  exact if_neg h ▸ rfl

theorem Vol.Spare.not_last (h : s.Spare i) : ¬ s.Last i := by
  rintro ⟨hr, hv, -⟩
  rcases h with h | h
  · omega
  · rw [h] at hv
    cases hv

theorem Vol.gets_of_ref (h : 0 < (s.itable i).ref) : s.gets i =
    let x := s.itable i
    { s with itable := update s.itable i { x with ref := x.ref + 1 } } :=
  if_pos h

theorem Vol.gets_of_free (h : ¬ 0 < (s.itable i).ref) : s.gets i =
    { s with
      inuse := i :: s.inuse
      itable := update s.itable i { s.itable i with ref := 1, valid := false } } :=
  if_neg h

theorem Vol.gets_of_ne (h : j ≠ i) : (s.gets i).itable j = s.itable j := by
  by_cases hr : 0 < (s.itable i).ref
  · rw [gets_of_ref hr]
    exact update_of_ne h ..
  · rw [gets_of_free hr]
    exact update_of_ne h ..

theorem Vol.gets_same (s : Vol) (i : Nat) : SameFiles s (s.gets i) := by
  by_cases hr : 0 < (s.itable i).ref
  · rw [gets_of_ref hr]
    refine ⟨fun j => ?_, rfl, rfl⟩
    by_cases he : j = i
    · subst he
      have hr' : 0 < (s.itable j).ref + 1 := by omega
      unfold view
      simp only [update_self, hr, hr', true_and]
    · unfold view
      simp only [update_of_ne he]
  · rw [gets_of_free hr]
    refine ⟨fun j => ?_, rfl, rfl⟩
    by_cases he : j = i
    · subst he
      unfold view
      simp only [update_self, hr, Bool.false_eq_true, and_false, false_and, if_false]
    · unfold view
      simp only [update_of_ne he]

theorem Vol.Live.gets (h : s.Live j) (i : Nat) : (s.gets i).Live j := by
  by_cases he : j = i
  · subst he
    have hr := h.ref
    have hx : (s.gets j).itable j = { s.itable j with ref := (s.itable j).ref + 1 } := by
      rw [gets_of_ref h.ref]
      exact update_self ..
    refine ⟨?_, ?_, ?_⟩
    · rw [hx]
      show 0 < (s.itable j).ref + 1
      omega
    · rw [hx]
      exact h.valid
    · rw [hx]
      exact h.type
  · have hx := gets_of_ne (s := s) he
    exact ⟨hx ▸ h.ref, hx ▸ h.valid, hx ▸ h.type⟩

/-- What has just been looked up is not the last reference to a copy. -/
theorem Vol.gets_spare (s : Vol) (i : Nat) : (s.gets i).Spare i := by
  by_cases hr : 0 < (s.itable i).ref
  · left
    rw [gets_of_ref hr]
    simp only [update_self]
    omega
  · right
    rw [gets_of_free hr]
    simp only [update_self]

theorem Vol.puts_of_ne (h : j ≠ i) : (s.puts i).itable j = s.itable j :=
  update_of_ne h ..

theorem Vol.puts_self (s : Vol) (i : Nat) :
    (s.puts i).itable i = { s.itable i with ref := (s.itable i).ref - 1 } :=
  update_self ..

/-- Dropping a reference that is not the last one to a copy changes no file. -/
theorem Vol.Spare.puts (h : s.Spare i) : SameFiles s (s.puts i) := by
  refine ⟨fun j => ?_, rfl, rfl⟩
  by_cases he : j = i
  · subst he
    unfold view
    rw [puts_self]
    rcases h with h | h
    · have h0 : 0 < (s.itable j).ref := by omega
      have h1 : 0 < (s.itable j).ref - 1 := by omega
      simp only [h0, h1, true_and]
      rfl
    · simp only [h, Bool.false_eq_true, and_false, if_false]
      rfl
  · unfold view
    rw [puts_of_ne he]
    rfl

theorem Vol.Live.puts (h : s.Live j) (hr : j = i → 1 < (s.itable i).ref) :
    (s.puts i).Live j := by
  by_cases he : j = i
  · subst he
    have hgt := hr rfl
    refine ⟨?_, ?_, ?_⟩
    · rw [puts_self]
      show 0 < (s.itable j).ref - 1
      omega
    · rw [puts_self]
      exact h.valid
    · rw [puts_self]
      exact h.type
  · have hx := puts_of_ne (s := s) he
    exact ⟨hx ▸ h.ref, hx ▸ h.valid, hx ▸ h.type⟩

end References

end Xv6.Fs
