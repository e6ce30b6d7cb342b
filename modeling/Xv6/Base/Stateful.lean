import Xv6.Base.Fault

/-!
# Code with a state that may fault

A C function that reads and writes a state is a `StateT σ (Except ε) α`. Applied to a state it
answers the value and the next state, or the fault. The equations below run such code one
statement at a time. A specification is then an equation for what a function answers, or a
postcondition `Post` of it, and callers use that and not the body.
-/

namespace Base

section Run

variable {σ ε α β : Type} {x : StateT σ (Except ε) α} {f : α → StateT σ (Except ε) β} {s : σ}

@[simp] theorem run_pure (a : α) (s : σ) :
    (pure a : StateT σ (Except ε) α) s = .ok (a, s) := rfl

@[simp] theorem run_modify (f : σ → σ) (s : σ) :
    (modify f : StateT σ (Except ε) PUnit) s = .ok (⟨⟩, f s) := rfl

theorem run_bind (x : StateT σ (Except ε) α) (f : α → StateT σ (Except ε) β) (s : σ) :
    (x >>= f) s = x s >>= fun r => f r.1 r.2 := rfl

theorem run_ite (c : Prop) [Decidable c] (x y : StateT σ (Except ε) α) (s : σ) :
    (if c then x else y) s = if c then x s else y s := by
  split <;> rfl

/-- The next statement, after one that answered. -/
theorem run_bind_ok {s' : σ} {a : α} (h : x s = .ok (a, s')) : (x >>= f) s = f a s' := by
  rw [run_bind, h]
  rfl

theorem run_bind_error {e : ε} (h : x s = .error e) : (x >>= f) s = .error e := by
  rw [run_bind, h]
  rfl

theorem run_get_bind (f : σ → StateT σ (Except ε) β) (s : σ) : (get >>= f) s = f s s := rfl

theorem run_modify_bind (g : σ → σ) (f : PUnit → StateT σ (Except ε) β) (s : σ) :
    (modify g >>= f) s = f ⟨⟩ (g s) := rfl

variable {bad : ε → Prop}

/-- A sequence of two pieces of code. -/
theorem Post.seq {Q : α × σ → Prop} {Q' : β × σ → Prop} (h : Post bad (x s) Q)
    (hf : ∀ a s', Q (a, s') → Post bad (f a s') Q') : Post bad ((x >>= f) s) Q' :=
  Post.bind h fun r hr => hf r.1 r.2 hr

/-- A sequence whose first part may answer anything. -/
theorem Answers.after (x : StateT σ (Except ε) α) {Q : β × σ → Prop}
    (h : ∀ a s', Answers (f a s') Q) : Answers ((x >>= f) s) Q :=
  Answers.skip (x s) fun r => h r.1 r.2

/-- A loop over a list keeps what every turn keeps. -/
theorem Post.forM {ι : Type} {f : ι → StateT σ (Except ε) PUnit} {I : σ → Prop} (is : List ι)
    (h0 : I s) (hstep : ∀ i ∈ is, ∀ s, I s → Post bad (f i s) fun r => I r.2) :
    Post bad (is.forM f s) fun r => I r.2 := by
  induction is generalizing s with
  | nil => exact h0
  | cons i is ih =>
    refine Post.seq (hstep i (List.mem_cons_self ..) s h0) fun _ s' hs' => ?_
    exact ih hs' fun j hj => hstep j (List.mem_cons_of_mem _ hj)

end Run

end Base
