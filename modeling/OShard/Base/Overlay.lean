import Mathlib

/-! Lists laid over a sequence without end, and pieces cut out of one. -/

namespace Overlay

variable {β : Type} {f g : Nat → β} {o a i m n : Nat} {xs ys : List β}

def paste (f : Nat → β) (o : Nat) (xs : List β) : Nat → β := fun a =>
  if o ≤ a then xs.getD (a - o) (f a) else f a

def segment (f : Nat → β) (o n : Nat) : List β := (List.range n).map fun k => f (o + k)

theorem paste_inside (less : i < xs.length) : paste f o xs (o + i) = xs[i] := by
  rw [paste, if_pos (Nat.le_add_right o i), Nat.add_sub_cancel_left, List.getD_eq_getElem _ _ less]

theorem paste_outside (outside : a < o ∨ o + xs.length ≤ a) : paste f o xs a = f a := by
  rw [paste]
  split
  · rw [List.getD_eq_default]
    omega
  · rfl

@[simp] theorem paste_nil : paste f o [] = f := by
  funext a
  apply paste_outside
  rw [List.length_nil]
  omega

theorem paste_append : paste f o (xs ++ ys) = paste (paste f o xs) (o + xs.length) ys := by
  funext a
  by_cases first : a < o + xs.length
  · rw [paste_outside (Or.inl first)]
    by_cases before : a < o
    · rw [paste_outside (Or.inl before), paste_outside (Or.inl before)]
    · have start : o ≤ a := Nat.not_lt.mp before
      rw [paste, paste, if_pos start, if_pos start, List.getD_append _ _ _ _ (by omega)]
  · have start : o ≤ a := by omega
    have later : o + xs.length ≤ a := Nat.not_lt.mp first
    have outside : xs.length ≤ a - o := by omega
    have offset : a - o - xs.length = a - (o + xs.length) := by omega
    rw [paste, if_pos start, List.getD_append_right _ _ _ _ outside, offset, paste, if_pos later, paste_outside (Or.inr later)]

@[simp] theorem segment_length : (segment f o n).length = n := by
  rw [segment, List.length_map, List.length_range]

@[simp] theorem segment_zero : segment f o 0 = [] := rfl

theorem segment_getElem (less : i < (segment f o n).length) : (segment f o n)[i] = f (o + i) := by
  simp [segment]

theorem segment_add : segment f o (n + m) = segment f o n ++ segment f (o + n) m := by
  rw [segment, List.range_add, List.map_append, List.map_map]
  congr 1
  apply List.map_congr_left
  intro k _
  change f (o + (n + k)) = f (o + n + k)
  rw [Nat.add_assoc]

theorem segment_congr (same : ∀ k, k < n → f (o + k) = g (a + k)) : segment f o n = segment g a n := by
  apply List.map_congr_left
  intro k member
  exact same k (List.mem_range.mp member)

theorem take_segment (less : m ≤ n) : (segment f o n).take m = segment f o m := by
  rw [segment, ← List.map_take, List.take_range, Nat.min_eq_left less]
  rfl

end Overlay
