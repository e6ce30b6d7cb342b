import Mathlib

/-!
# Faults of C code, and postconditions of code that may fault

A modelled C function answers `Except Fault α`: the value it computes, or the way the run ends
without one. `Post bad r Q` is the postcondition of such an answer. A value meets `Q`, and an
error is not one of the `bad` ones, so a proof can rule some faults out and leave the deliberate
ones (a `panic` the source writes itself) alone.

The rules below follow the shapes of the code: a sequence (`Post.bind`), a loop over a list
(`Post.foldlM`), and a weaker postcondition (`Post.mono`).
-/

namespace Base

/-- How a run of C code can end without a result. -/
inductive Fault
  /-- an array access outside the array -/
  | bounds
  /-- a null pointer followed; the text names the pointer -/
  | null (what : String)
  /-- the code's own `panic`, with its message -/
  | panic (msg : String)
  /-- a signed counter stepped past its type's range -/
  | overflow
deriving DecidableEq, Repr

/-- A value meets `Q`; an error is not a bad one. -/
def Post {ε α : Type} (bad : ε → Prop) (r : Except ε α) (Q : α → Prop) : Prop :=
  match r with
  | .ok a => Q a
  | .error e => ¬ bad e

section Rules

variable {ε α β : Type} {bad : ε → Prop} {a : α} {Q : α → Prop} {r : Except ε α}

@[simp] theorem post_ok : Post bad (.ok a) Q ↔ Q a := Iff.rfl

@[simp] theorem post_pure : Post bad (pure a) Q ↔ Q a := Iff.rfl

@[simp] theorem post_error {e : ε} :
    Post bad (.error e : Except ε α) Q ↔ ¬ bad e := Iff.rfl

theorem ok_bind (a : α) (f : α → Except ε β) : ((Except.ok a : Except ε α) >>= f) = f a := rfl

theorem error_bind (e : ε) (f : α → Except ε β) :
    ((Except.error e : Except ε α) >>= f) = .error e := rfl

theorem ok_of_toOption (h : r.toOption = some a) : r = .ok a := by
  cases r with
  | ok b => exact congrArg Except.ok (Option.some.inj h)
  | error e => cases h

theorem Post.mono {Q' : α → Prop} (h : Post bad r Q) (hQ : ∀ a, Q a → Q' a) : Post bad r Q' := by
  cases r with
  | ok a => exact hQ a h
  | error e => exact h

theorem Post.and {Q' : α → Prop} (h : Post bad r Q) (h' : Post bad r Q') :
    Post bad r fun a => Q a ∧ Q' a := by
  cases r with
  | ok a => exact ⟨h, h'⟩
  | error e => exact h

/-- A sequence: the second part runs from a value the first part answered. -/
theorem Post.bind {f : α → Except ε β} {Q' : β → Prop} (h : Post bad r Q)
    (hf : ∀ a, Q a → Post bad (f a) Q') : Post bad (r >>= f) Q' := by
  cases r with
  | ok a => exact hf a h
  | error e => exact h

/-- What a postcondition says of an answer that is a value. -/
theorem Post.of_ok (h : Post bad r Q) (hr : r = .ok a) : Q a := by
  rw [hr] at h
  exact h

/-- And of an answer that is an error. -/
theorem Post.of_error (h : Post bad r Q) {e : ε} (hr : r = .error e) : ¬ bad e := by
  rw [hr] at h
  exact h

/-- A loop over a list keeps what every iteration keeps. -/
theorem Post.foldlM {ι : Type} {f : α → ι → Except ε α} {I : α → Prop} (is : List ι) (h0 : I a)
    (hstep : ∀ a, I a → ∀ i ∈ is, Post bad (f a i) I) :
    Post bad (is.foldlM f a) I := by
  induction is generalizing a with
  | nil => exact h0
  | cons i is ih =>
    rw [List.foldlM_cons]
    refine (hstep a h0 i (List.mem_cons_self ..)).bind fun b hb => ?_
    exact ih hb fun a ha j hj => hstep a ha j (List.mem_cons_of_mem _ hj)

/-- If the code answers at all, the answer meets `Q`. -/
abbrev Answers (r : Except ε α) (Q : α → Prop) : Prop := Post (fun _ => False) r Q

theorem answers_error (e : ε) (Q : α → Prop) : Answers (.error e) Q := not_false

/-- A sequence whose first part may answer anything. -/
theorem Answers.skip (r : Except ε α) {f : α → Except ε β} {Q : β → Prop}
    (h : ∀ a, Answers (f a) Q) : Answers (r >>= f) Q := by
  cases r with
  | ok a => exact h a
  | error e => exact not_false

end Rules

end Base
