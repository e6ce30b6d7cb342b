import Xv6.Base.Machine

/-!
# Refinement of a relation by a machine

A machine refines a step relation through a view of its states when each of its steps is a step of
the relation or leaves the view alone. An invariant of the relation then holds of the view of every
reachable state. The step lemma may use the invariant, so the machine need only follow the relation
where the invariant holds.
-/

namespace Base.Machine

variable {σ ε φ τ : Type} {M : Machine σ ε φ}

/-- The machine follows `next` as seen through `view`, where `I` holds. -/
structure Refines (M : Machine σ ε φ) (view : σ → τ) (I : τ → Prop) (next : τ → τ → Prop) :
    Prop where
  init : I (view M.init)
  step : ∀ s e t, I (view s) → M.Step s e t → view t = view s ∨ next (view s) (view t)
  keeps : ∀ a b, I a → next a b → I b

/-- An invariant of the relation holds of every reachable state's view. -/
theorem Refines.invariant {view : σ → τ} {I : τ → Prop} {next : τ → τ → Prop}
    (h : M.Refines view I next) {s : σ} (hs : M.Reachable s) : I (view s) := by
  refine hs.invariant (I := fun s => I (view s)) h.init fun s e t hI hstep => ?_
  rcases h.step s e t hI hstep with heq | hnext
  · rw [heq]
    exact hI
  · exact h.keeps _ _ hI hnext

end Base.Machine
