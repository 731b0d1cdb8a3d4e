import Mathlib

namespace Parsing

/-- How a recursive descent parser ends at `s` for a nonterminal with the derivations `τ`. It returns the value of
    a derivation whose tokens it has consumed, the only one with tokens from which the input can go on as `follow`
    admits; or it refuses with an error that `good` admits, and there is no such derivation. -/
inductive Parses {χ σ ε α τ : Type} (tokens : List χ → List σ) (good : ε → Prop) (yield : τ → List σ)
    (follow : List σ → Prop) (means : τ → α → Prop) (s : List χ) : Except ε (α × List χ) → Prop
  | ok (t : τ) {a : α} {s' : List χ} (whole : tokens s = yield t ++ tokens s') (suffix : s' <:+ s) (value : means t a)
      (only : ∀ t' rest, follow rest → tokens s = yield t' ++ rest → t' = t ∧ rest = tokens s') :
      Parses tokens good yield follow means s (.ok (a, s'))
  | error {e : ε} (admitted : good e) (none : ∀ t rest, follow rest → tokens s ≠ yield t ++ rest) :
      Parses tokens good yield follow means s (.error e)

section Rules

variable {χ σ ε α β τ τ₁ τ₂ τ' : Type} {tokens : List χ → List σ} {good : ε → Prop} {s s₁ : List χ}
  {yield : τ → List σ} {yield₁ : τ₁ → List σ} {yield' : τ' → List σ}
  {follow follow₁ follow₂ follow' : List σ → Prop} {x : Except ε (α × List χ)} {means : τ → α → Prop}

theorem Parses.done {a : α} (t : τ) (empty : yield t = []) (value : means t a)
    (same : tokens s₁ = tokens s) (suffix : s₁ <:+ s)
    (only : ∀ t' rest, follow rest → tokens s = yield t' ++ rest → t' = t) :
    Parses tokens good yield follow means s (.ok (a, s₁)) := by
  refine .ok t ?_ suffix value fun t' rest fits whole => ?_
  · rw [empty, same]
    rfl
  · have equal := only t' rest fits whole
    rw [equal, empty] at whole
    exact ⟨equal, whole.symm.trans same.symm⟩

theorem Parses.seq {means₁ : τ₁ → α → Prop} (first : Parses tokens good yield₁ follow₁ means₁ s x)
    (yield₂ : τ₂ → List σ) (means₂ : τ₁ → τ₂ → β → Prop) (f : α × List χ → Except ε (β × List χ))
    (next : ∀ t a s₁, means₁ t a → s₁ <:+ s → Parses tokens good yield₂ follow₂ (means₂ t) s₁ (f (a, s₁)))
    (fits : ∀ t rest, follow₂ rest → follow₁ (yield₂ t ++ rest)) :
    Parses tokens good (fun t : τ₁ × τ₂ => yield₁ t.1 ++ yield₂ t.2) follow₂ (fun t => means₂ t.1 t.2) s (x >>= f) := by
  cases first with
  | error admitted none =>
    refine .error admitted fun t rest fit whole => ?_
    rw [List.append_assoc] at whole
    exact none t.1 _ (fits t.2 rest fit) whole
  | ok t₁ whole suffix value only =>
    rename_i a s₁
    have outcome := next t₁ a s₁ value suffix
    change Parses tokens good _ follow₂ _ s (f (a, s₁))
    generalize f (a, s₁) = y at outcome
    cases outcome with
    | error admitted none =>
      refine .error admitted fun t rest fit whole' => ?_
      rw [List.append_assoc] at whole'
      obtain ⟨-, behind⟩ := only t.1 _ (fits t.2 rest fit) whole'
      exact none t.2 rest fit behind.symm
    | ok t₂ whole₂ suffix₂ value₂ only₂ =>
      refine .ok (t₁, t₂) ?_ (suffix₂.trans suffix) value₂ fun t rest fit whole' => ?_
      · rw [whole, whole₂, List.append_assoc]
      · rw [List.append_assoc] at whole'
        obtain ⟨same, behind⟩ := only t.1 _ (fits t.2 rest fit) whole'
        obtain ⟨same₂, behind₂⟩ := only₂ t.2 rest fit behind.symm
        exact ⟨Prod.ext same same₂, behind₂⟩

theorem Parses.map {means' : τ' → α → Prop} (parses : Parses tokens good yield follow means s x)
    (g : τ → τ') (yields : ∀ t, yield' (g t) = yield t) (values : ∀ t a, means t a → means' (g t) a)
    (follows : ∀ rest, follow' rest → follow rest)
    (all : ∀ t' rest, follow' rest → tokens s = yield' t' ++ rest → ∃ t, g t = t') :
    Parses tokens good yield' follow' means' s x := by
  cases parses with
  | error admitted none =>
    refine .error admitted fun t' rest fit whole => ?_
    obtain ⟨t, rfl⟩ := all t' rest fit whole
    rw [yields] at whole
    exact none t rest (follows rest fit) whole
  | ok t whole suffix value only =>
    refine .ok (g t) (by rw [yields, whole]) suffix (values t _ value) fun t' rest fit whole' => ?_
    obtain ⟨t₀, rfl⟩ := all t' rest fit whole'
    rw [yields] at whole'
    obtain ⟨same, behind⟩ := only t₀ rest (follows rest fit) whole'
    exact ⟨by rw [same], behind⟩

theorem Parses.shift {c : σ} (parses : Parses tokens good yield follow means s₁ x)
    (here : tokens s = c :: tokens s₁) (suffix : s₁ <:+ s) :
    Parses tokens good (fun t => c :: yield t) follow means s x := by
  cases parses with
  | error admitted none =>
    refine .error admitted fun t rest fit whole => ?_
    rw [here] at whole
    exact none t rest fit (List.cons.inj whole).2
  | ok t whole suffix₁ value only =>
    refine .ok t (by rw [here, whole]; rfl) (suffix₁.trans suffix) value fun t' rest fit whole' => ?_
    rw [here] at whole'
    exact only t' rest fit (List.cons.inj whole').2

theorem Parses.skip (parses : Parses tokens good yield follow means s₁ x)
    (same : tokens s₁ = tokens s) (suffix : s₁ <:+ s) : Parses tokens good yield follow means s x := by
  cases parses with
  | error admitted none => exact .error admitted (same ▸ none)
  | ok t whole suffix₁ value only => exact .ok t (same ▸ whole) (suffix₁.trans suffix) value (same ▸ only)

theorem Parses.value {means' : τ → β → Prop} {g : α → β}
    (parses : Parses tokens good yield follow means s x) (values : ∀ t a, means t a → means' t (g a)) :
    Parses tokens good yield follow means' s (x >>= fun r => .ok (g r.1, r.2)) := by
  cases parses with
  | error admitted none => exact .error admitted none
  | ok t whole suffix value only => exact .ok t whole suffix (values t _ value) only

end Rules

end Parsing
