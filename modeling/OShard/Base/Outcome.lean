import Mathlib

/-! What a fallible computation guarantees: its result when it returns one, and why when it does not. -/

def Outcome {ε α : Type} (result : Except ε α) (fails : Prop) (post : α → Prop) : Prop :=
  match result with
  | .ok a => post a
  | .error _ => fails

namespace Outcome

variable {ε α β : Type} {result : Except ε α} {fails fails' : Prop} {post post' : α → Prop}

theorem weaken (outcome : Outcome result fails post) (failure : fails → fails') (success : ∀ a, post a → post' a) :
    Outcome result fails' post' := by
  cases result with
  | ok a => exact success a outcome
  | error e => exact failure outcome

theorem bind {next : α → Except ε β} {post : β → Prop} {between : α → Prop} (first : Outcome result fails between)
    (rest : ∀ a, between a → Outcome (next a) fails post) : Outcome (result >>= next) fails post := by
  cases result with
  | ok a => exact rest a first
  | error e => exact first

theorem returned {a : α} (outcome : Outcome result fails post) (ran : result = .ok a) : post a := by
  rw [ran] at outcome
  exact outcome

theorem succeeds (outcome : Outcome result fails post) (fine : ¬fails) : ∃ a, result = .ok a ∧ post a := by
  cases result with
  | ok a => exact ⟨a, rfl, outcome⟩
  | error e => exact absurd outcome fine

end Outcome
