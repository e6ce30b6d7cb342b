import Xv6.Fs.Dir

/-!
# Paths as lists of names

`namex` cuts its path as it goes, but what it does depends on the names only: it is `follow` on the
`components` of the path.
-/

namespace Xv6.Fs

variable {path s t : List UInt8}

theorem components_dropWhile (path : List UInt8) :
    components (path.dropWhile (· = slash)) = components path ∧
      (path.dropWhile (· = slash)).headD 0 ≠ slash := by
  induction path with
  | nil => decide
  | cons c path ih =>
    by_cases hc : c = slash
    · subst hc
      rw [List.dropWhile_cons_of_pos (by decide), ih.1, components, components,
        List.takeWhile_cons_of_pos (by decide), List.splitOnP_cons_eq_if_modifyHead]
      exact ⟨rfl, ih.2⟩
    · rw [List.dropWhile_cons_of_neg (by simpa using hc)]
      exact ⟨rfl, hc⟩

/-- A name in front of the end or of a slash. -/
theorem components_append (hs : ∀ c ∈ s, c ≠ slash ∧ c ≠ 0) (hne : s ≠ [])
    (ht : t.headD 0 = 0 ∨ t.headD 0 = slash) :
    components (s ++ t) = s.take DIRSIZ :: components t := by
  have hname : s.splitOnP (· = slash) = [s] := List.splitOnP_eq_singleton (by grind)
  rw [components, List.takeWhile_append_of_pos (by grind)]
  cases t with
  | nil => simp [components, hname, hne]
  | cons c t =>
    rcases ht with rfl | rfl
    · simp [components, hname, hne]
    · rw [components, List.takeWhile_cons_of_pos (by decide),
        List.splitOnP_append_cons _ _ (by decide), hname, List.splitOnP_cons_eq_if_modifyHead]
      simp [hne]

/-- A path that does not start with a slash is at its end or at a name. -/
theorem components_cases (h : path.headD 0 ≠ slash) :
    (path.headD 0 = 0 ∧ components path = []) ∨
      ∃ s t, path.takeWhile (fun c => decide (c ≠ slash) && decide (c ≠ 0)) = s ∧ path = s ++ t ∧
        path.headD 0 ≠ 0 ∧ s ≠ [] ∧ components path = s.take DIRSIZ :: components t := by
  obtain ⟨p, hp⟩ : ∃ p : UInt8 → Bool, p = fun c => decide (c ≠ slash) && decide (c ≠ 0) := ⟨_, rfl⟩
  rw [← hp]
  by_cases hend : path.headD 0 = 0
  · refine .inl ⟨hend, ?_⟩
    cases path <;> simp_all [components]
  · have hsplit := List.takeWhile_append_dropWhile (p := p) (l := path)
    have hstop := List.head?_dropWhile_not p path
    have hne : path.takeWhile p ≠ [] := by
      cases path <;> simp_all
    refine .inr ⟨_, _, rfl, hsplit.symm, hend, hne, ?_⟩
    rw [← components_append _ hne, hsplit]
    · cases hd : path.dropWhile p with
      | nil => exact .inl rfl
      | cons c rest =>
        rw [hd] at hstop
        simp_all
        grind
    · intro c hc
      have := List.mem_takeWhile_imp hc
      simp_all

/-- `skipelem` takes the first name off. -/
theorem skipelem_spec (path : List UInt8) :
    (skipelem path = none ∧ components path = []) ∨
      ∃ name rest, skipelem path = some (name, rest) ∧ components path = name :: components rest ∧
        rest.length < path.length ∧ (rest.headD 0 = 0 ↔ components rest = []) := by
  obtain ⟨hsame, hhead⟩ := components_dropWhile path
  have hle := List.length_dropWhile_le (· = slash) path
  rw [← hsame, skipelem]
  obtain ⟨hend, hnil⟩ | ⟨s, t, hs, hq, hend, hne, hcons⟩ := components_cases hhead
  · exact .inl ⟨if_pos hend, hnil⟩
  · obtain ⟨hrest, hstop⟩ := components_dropWhile t
    have hlt := List.length_dropWhile_le (· = slash) t
    have hpos := List.length_pos_iff.mpr hne
    refine .inr ⟨s.take DIRSIZ, t.dropWhile (· = slash), ?_, hrest ▸ hcons, ?_, ?_⟩
    · simp only [if_neg hend, hs]
      rw [hq, List.drop_left]
    · rw [hq, List.length_append] at hle
      omega
    · obtain ⟨hend, hnil⟩ | ⟨_, _, -, -, hend, -, hcons⟩ := components_cases hstop
      · exact iff_of_true hend hnil
      · exact iff_of_false hend (hcons ▸ List.cons_ne_nil _ _)

theorem namexLoop_eq_follow (sb : Superblock) (nameiparent : Bool) {fuel : Nat} (ip : Nat)
    (h : path.length < fuel) :
    namexLoop sb nameiparent fuel ip path = follow sb nameiparent ip (components path) := by
  induction fuel generalizing ip path with
  | zero => exact absurd h (Nat.not_lt_zero _)
  | succ fuel ih =>
    obtain ⟨hskip, hnil⟩ | ⟨name, rest, hskip, hcons, hlt, hend⟩ := skipelem_spec path
    · rw [namexLoop, hskip, hnil, follow]
    · have hrec : ∀ next, namexLoop sb nameiparent fuel next rest =
          follow sb nameiparent next (components rest) := fun next => ih next (by omega)
      simp only [namexLoop, hskip, hcons, follow, hend, hrec]

/-- A path is resolved by its names, from the root after a leading slash and from the current
directory otherwise. -/
theorem namex_eq_follow (sb : Superblock) (cwd : Nat) (path : List UInt8) (nameiparent : Bool) :
    namex sb cwd path nameiparent =
      if path.headD 0 = slash then
        iget ROOTINO >>= fun _ => follow sb nameiparent ROOTINO (components path)
      else idup cwd >>= fun _ => follow sb nameiparent cwd (components path) := by
  simp only [namex, namexLoop_eq_follow sb nameiparent _ (Nat.lt_succ_self path.length)]

end Xv6.Fs
