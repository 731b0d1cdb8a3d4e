import Mathlib

namespace Transition

variable {σ : Type*}

/-- The states that a system reaches from its initial ones, over all finite runs. -/
inductive Reachable (init : σ → Prop) (step : σ → σ → Prop) : σ → Prop where
  | start {s : σ} : init s → Reachable init step s
  | next {s t : σ} : Reachable init step s → step s t → Reachable init step t

variable {init : σ → Prop} {step : σ → σ → Prop} {s : σ}

theorem Reachable.invariant {property : σ → Prop} (reached : Reachable init step s)
    (base : ∀ s, init s → property s) (keeps : ∀ s t, property s → step s t → property t) : property s := by
  induction reached with
  | start first => exact base _ first
  | next _ moved ih => exact keeps _ _ ih moved

end Transition

namespace Update

variable {κ α : Type*} [DecidableEq κ]

def apply (writes : List (κ × α)) (map : κ → α) : κ → α :=
  writes.foldl (fun map write => Function.update map write.1 write.2) map

theorem apply_append (first second : List (κ × α)) (map : κ → α) :
    apply (first ++ second) map = apply second (apply first map) :=
  List.foldl_append

theorem apply_snoc (writes : List (κ × α)) (key : κ) (value : α) (map : κ → α) :
    apply (writes ++ [(key, value)]) map = Function.update (apply writes map) key value :=
  List.foldl_append

theorem apply_of_notMem {writes : List (κ × α)} {key : κ} (other : ∀ write ∈ writes, write.1 ≠ key) (map : κ → α) :
    apply writes map key = map key := by
  induction writes generalizing map with
  | nil => rfl
  | cons write writes ih =>
    have first : key ≠ write.1 := (other write List.mem_cons_self).symm
    have rest := ih (fun write' member => other write' (List.mem_cons_of_mem _ member))
      (Function.update map write.1 write.2)
    rw [Function.update_of_ne first] at rest
    exact rest

end Update
