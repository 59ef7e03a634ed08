/-
# While loops

A loop `while (c) body` on any type of states.  `Ends c body s s'` is a run of the loop that
ends: it starts in `s`, and `s'` is the state after it.  A loop that does not end has no
such run; an invariant that implies the condition shows it.
-/
import Mathlib

namespace WhileLoop

variable {σ : Type*} {c : σ → Prop} {body : σ → σ}

/-- The loop ends in `s'` when it starts in `s`. -/
inductive Ends (c : σ → Prop) (body : σ → σ) : σ → σ → Prop
  | exit {s : σ} : ¬ c s → Ends c body s s
  | body {s s' : σ} : c s → Ends c body (body s) s' → Ends c body s s'

/-- The loop is left when the condition fails. -/
theorem ends_of_not {s s' : σ} (h : ¬ c s) : Ends c body s s' ↔ s' = s := by
  constructor
  · intro hends
    cases hends with
    | exit _ => rfl
    | body hc _ => exact absurd hc h
  · rintro rfl
    exact .exit h

/-- One round of the loop. -/
theorem ends_of_cond {s s' : σ} (h : c s) : Ends c body s s' ↔ Ends c body (body s) s' := by
  constructor
  · intro hends
    cases hends with
    | exit hnot => exact absurd h hnot
    | body _ hrest => exact hrest
  · exact .body h

/-- **A loop that does not end**: the invariant implies the condition. -/
theorem not_ends {Inv : σ → Prop} (hinv : ∀ s, Inv s → c s ∧ Inv (body s)) {s : σ}
    (hs : Inv s) (s' : σ) : ¬ Ends c body s s' := by
  intro h
  induction h with
  | exit hnot => exact hnot (hinv _ hs).1
  | body _ _ ih => exact ih (hinv _ hs).2

end WhileLoop
