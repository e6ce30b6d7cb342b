import Mathlib

/-!
# Drawing by running sums

A lottery gives every entry of a list a weight and draws the first entry at which the running sum
of the weights reaches a value. The sums are kept in a bounded arithmetic: `wrap` is what the
machine makes of an exact sum, and `Bounded wrap hi` says that it is exact below `hi` and turns
negative just above. With positive weights whose sum stays below `hi` every value up to the sum
draws an entry, and every entry is drawn by some value; nothing less is enough for the latter.
-/

namespace Base

variable {α : Type} {wrap : Int → Int} {hi : Int} {w : α → Int} {l : List α} {s v : Int} {a : α}

/-- An arithmetic that is exact from `-hi` to `hi`, and negative for the sums just above. -/
structure Bounded (wrap : Int → Int) (hi : Int) : Prop where
  exact : ∀ x, -hi ≤ x → x < hi → wrap x = x
  beyond : ∀ x, hi ≤ x → x < 2 * hi → wrap x < 0

/-- The sum of the weights as the machine adds them up from `s`. -/
def tally (wrap : Int → Int) (w : α → Int) (l : List α) (s : Int) : Int :=
  l.foldl (fun s a => wrap (s + w a)) s

/-- The first entry at which the running sum from `s` reaches `v`. -/
def draw (wrap : Int → Int) (w : α → Int) (v : Int) : List α → Int → Option α
  | [], _ => none
  | a :: l, s => if v ≤ wrap (s + w a) then some a else draw wrap w v l (wrap (s + w a))

theorem mem_of_draw (h : draw wrap w v l s = some a) : a ∈ l := by
  induction l generalizing s with
  | nil => cases h
  | cons b l ih =>
    rw [draw] at h
    split at h
    · cases h
      exact List.mem_cons_self ..
    · exact List.mem_cons_of_mem _ (ih h)

/-- The weights are positive, and their sum from `s` stays in range. -/
structure Fits (hi : Int) (w : α → Int) (l : List α) (s : Int) : Prop where
  nonneg : 0 ≤ s
  pos : ∀ a ∈ l, 0 < w a
  sum : s + (l.map w).sum < hi

theorem Fits.sum_nonneg (h : Fits hi w l s) : 0 ≤ (l.map w).sum := by
  refine List.sum_nonneg fun x hx => ?_
  obtain ⟨a, ha, rfl⟩ := List.mem_map.mp hx
  exact (h.pos a ha).le

/-- The next running sum is exact, and the rest fits from there. -/
theorem Fits.step (hw : Bounded wrap hi) (h : Fits hi w (a :: l) s) :
    wrap (s + w a) = s + w a ∧ Fits hi w l (s + w a) := by
  have hs := h.nonneg
  have ha : 0 < w a := h.pos a (List.mem_cons_self ..)
  have hsum : s + (w a + (l.map w).sum) < hi := h.sum
  have hrest : Fits hi w l (s + w a) :=
    ⟨by omega, fun b hb => h.pos b (List.mem_cons_of_mem _ hb), by omega⟩
  have hnonneg := hrest.sum_nonneg
  exact ⟨hw.exact _ (by omega) (by omega), hrest⟩

theorem Fits.tally (hw : Bounded wrap hi) (h : Fits hi w l s) :
    tally wrap w l s = s + (l.map w).sum := by
  induction l generalizing s with
  | nil => exact (add_zero s).symm
  | cons a l ih =>
    obtain ⟨hexact, hrest⟩ := h.step hw
    rw [Base.tally, List.foldl_cons, hexact]
    refine (ih hrest).trans ?_
    rw [List.map_cons, List.sum_cons, add_assoc]

/-- A value above `s` draws nothing exactly when it is above the sum. -/
theorem Fits.draw_eq_none (hw : Bounded wrap hi) (h : Fits hi w l s) (hv : s < v) :
    draw wrap w v l s = none ↔ s + (l.map w).sum < v := by
  induction l generalizing s with
  | nil => simpa [draw] using hv
  | cons a l ih =>
    obtain ⟨hexact, hrest⟩ := h.step hw
    have hnonneg := hrest.sum_nonneg
    rw [draw, hexact, List.map_cons, List.sum_cons, ← add_assoc]
    split
    · next hle => exact iff_of_false (by simp) (by omega)
    · next hlt => exact ih hrest (not_le.mp hlt)

/-- Every entry is drawn by some value up to the sum. -/
theorem Fits.exists_draw (hw : Bounded wrap hi) (h : Fits hi w l s) (ha : a ∈ l) :
    ∃ v, s < v ∧ v ≤ s + (l.map w).sum ∧ draw wrap w v l s = some a := by
  induction l generalizing s with
  | nil => cases ha
  | cons b l ih =>
    obtain ⟨hexact, hrest⟩ := h.step hw
    have hnonneg := hrest.sum_nonneg
    have hb : 0 < w b := h.pos b (List.mem_cons_self ..)
    simp only [draw, hexact, List.map_cons, List.sum_cons]
    by_cases hab : a = b
    · refine ⟨s + 1, by omega, by omega, ?_⟩
      rw [if_pos (by omega), hab]
    · obtain ⟨v, hlow, hhigh, hv⟩ := ih hrest ((List.mem_cons.mp ha).resolve_left hab)
      refine ⟨v, by omega, by omega, ?_⟩
      rw [if_neg (by omega)]
      exact hv

/-- The values that draw an entry are as many consecutive ones as its weight. -/
theorem Fits.draw_eq_some_iff (hw : Bounded wrap hi) (h : Fits hi w l s) (hnodup : l.Nodup)
    (ha : a ∈ l) : ∃ lo, s ≤ lo ∧ lo + w a ≤ s + (l.map w).sum ∧
      ∀ v, s < v → (draw wrap w v l s = some a ↔ lo < v ∧ v ≤ lo + w a) := by
  induction l generalizing s with
  | nil => cases ha
  | cons b l ih =>
    obtain ⟨hexact, hrest⟩ := h.step hw
    obtain ⟨hnot, hnodup⟩ := List.nodup_cons.mp hnodup
    have hnonneg := hrest.sum_nonneg
    have hb : 0 < w b := h.pos b (List.mem_cons_self ..)
    simp only [draw, hexact, List.map_cons, List.sum_cons]
    by_cases hab : a = b
    · subst hab
      refine ⟨s, le_refl s, by omega, fun v hv => ?_⟩
      split
      · next hle => simp [hv, hle]
      · next hlt =>
        refine iff_of_false (fun hdrawn => hnot (mem_of_draw hdrawn)) ?_
        rintro ⟨-, hle⟩
        exact hlt hle
    · obtain ⟨lo, hlow, hhigh, hiff⟩ := ih hrest hnodup ((List.mem_cons.mp ha).resolve_left hab)
      refine ⟨lo, by omega, by omega, fun v hv => ?_⟩
      split
      · next hle =>
        refine iff_of_false (fun hdrawn => hab (Option.some.inj hdrawn).symm) ?_
        rintro ⟨hlt, -⟩
        omega
      · next hlt => exact hiff v (not_le.mp hlt)

/-- If every entry is drawn by some value above `s`, the running sums grow strictly, so the weights
are positive and nothing wraps. -/
theorem fits_of_draw (hw : Bounded wrap hi) (hs : 0 ≤ s) (hshi : s < hi)
    (hrange : ∀ a ∈ l, -hi ≤ w a ∧ w a < hi) (hnodup : l.Nodup)
    (hdraw : ∀ a ∈ l, ∃ v, s < v ∧ draw wrap w v l s = some a) : Fits hi w l s := by
  induction l generalizing s with
  | nil => exact ⟨hs, fun a ha => (nomatch ha), by simpa using hshi⟩
  | cons a l ih =>
    obtain ⟨hlow, hhigh⟩ := hrange a (List.mem_cons_self ..)
    obtain ⟨hnot, hnodup⟩ := List.nodup_cons.mp hnodup
    have hgrow : s < wrap (s + w a) := by
      obtain ⟨v, hv, hdrawn⟩ := hdraw a (List.mem_cons_self ..)
      rw [draw] at hdrawn
      split at hdrawn
      · next hle => omega
      · exact absurd (mem_of_draw hdrawn) hnot
    have hin : s + w a < hi := by
      by_contra hout
      have := hw.beyond (s + w a) (by omega) (by omega)
      omega
    have hexact : wrap (s + w a) = s + w a := hw.exact _ (by omega) hin
    rw [hexact] at hgrow
    have hrest : Fits hi w l (s + w a) := by
      refine ih (by omega) hin (fun b hb => hrange b (List.mem_cons_of_mem _ hb)) hnodup ?_
      intro b hb
      obtain ⟨v, -, hdrawn⟩ := hdraw b (List.mem_cons_of_mem _ hb)
      rw [draw, hexact] at hdrawn
      split at hdrawn
      · cases hdrawn
        exact absurd hb hnot
      · next hlt => exact ⟨v, not_le.mp hlt, hdrawn⟩
    refine ⟨hs, fun b hb => ?_, ?_⟩
    · rcases List.mem_cons.mp hb with rfl | hb
      · omega
      · exact hrest.pos b hb
    · rw [List.map_cons, List.sum_cons, ← add_assoc]
      exact hrest.sum

end Base
