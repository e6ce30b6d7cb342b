import Mathlib

/-!
# Who owns what

Places of any kind hold resource numbers, with 0 for none. A table says which numbers are in use.
`Owned` says that the two agree: a number in a place is one of the managed ones and in use, no two
places hold the same number, and a managed number in use is in some place. A fresh number put in
an empty place keeps it (`Owned.claim`).
-/

namespace Base

open Function

/-- Each managed number in use is in exactly one place, and a place holds nothing else. -/
structure Owned {π : Type} (managed : Nat → Bool) (slot : π → Nat) (used : Nat → Bool) : Prop where
  none : managed 0 = false
  held : ∀ p, slot p ≠ 0 → managed (slot p) = true ∧ used (slot p) = true
  inj : ∀ p q, slot p ≠ 0 → slot p = slot q → p = q
  cover : ∀ b, managed b = true → used b = true → ∃ p, slot p = b

namespace Owned

variable {π : Type} {managed : Nat → Bool} {slot slot' : π → Nat} {used used' : Nat → Bool}

/-- A number that is not in use is in no place. -/
theorem ne_of_free (h : Owned managed slot used) {b : Nat} (hb : used b = false) (hpos : b ≠ 0)
    (p : π) : slot p ≠ b := by
  rintro rfl
  rw [(h.held p hpos).2] at hb
  cases hb

theorem claim [DecidableEq π] (h : Owned managed slot used) {p : π} (hp : slot p = 0) {b : Nat}
    (hb : managed b = true) (hpos : b ≠ 0) (hfree : used b = false) :
    Owned managed (update slot p b) (update used b true) := by
  have hfresh := h.ne_of_free hfree hpos
  refine ⟨h.none, fun q hq => ?_, fun q r hq hqr => ?_, fun x hx hux => ?_⟩
  · by_cases he : q = p
    · subst he
      rw [update_self, update_self]
      exact ⟨hb, rfl⟩
    · rw [update_of_ne he] at hq ⊢
      rw [update_of_ne (hfresh q)]
      exact h.held q hq
  · by_cases he : q = p
    · by_cases hr : r = p
      · exact he.trans hr.symm
      · subst he
        rw [update_self, update_of_ne hr] at hqr
        exact absurd hqr.symm (hfresh r)
    · by_cases hr : r = p
      · subst hr
        rw [update_self, update_of_ne he] at hqr
        exact absurd hqr (hfresh q)
      · rw [update_of_ne he] at hq hqr
        rw [update_of_ne hr] at hqr
        exact h.inj q r hq hqr
  · by_cases he : x = b
    · subst he
      exact ⟨p, update_self ..⟩
    · rw [update_of_ne he] at hux
      obtain ⟨q, rfl⟩ := h.cover x hx hux
      by_cases hq : q = p
      · -- the place was empty, and 0 is not a managed number
        subst hq
        rw [hp, h.none] at hx
        cases hx
      · exact ⟨q, update_of_ne hq ..⟩

end Owned

end Base
