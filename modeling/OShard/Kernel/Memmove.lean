import Mathlib

namespace OShard

open Function

variable {β : Type}

/-- `while (n-- > 0) *d++ = *s++;`, with addresses that do not wrap around. -/
def copyUp : Nat → Nat → Nat → (Nat → β) → Nat → β
  | 0, _, _, m => m
  | n + 1, d, s, m => copyUp n (d + 1) (s + 1) (update m d (m s))

/-- `while (n-- > 0) *--d = *--s;` -/
def copyDown : Nat → Nat → Nat → (Nat → β) → Nat → β
  | 0, _, _, m => m
  | n + 1, d, s, m => copyDown n (d - 1) (s - 1) (update m (d - 1) (m (s - 1)))

/-- The kernel's; its `n` is unsigned. -/
def memmove (m : Nat → β) (dst src n : Nat) : Nat → β :=
  if n = 0 then m
  else if src < dst ∧ src + n > dst then copyDown n (dst + n) (src + n) m
  else copyUp n dst src m

/-- That of the user library; its `n` is an `int`. -/
def ulibMemmove (m : Nat → β) (dst src : Nat) (n : Int) : Nat → β :=
  if src > dst then copyUp n.toNat dst src m else copyDown n.toNat (dst + n).toNat (src + n).toNat m

def moved (m : Nat → β) (dst src n : Nat) : Nat → β := fun a => if dst ≤ a ∧ a < dst + n then m (src + (a - dst)) else m a

variable {m : Nat → β} {dst src n : Nat}

theorem copyUp_eq (safe : ¬(src < dst ∧ dst < src + n)) : copyUp n dst src m = moved m dst src n := by
  funext a
  induction n generalizing dst src m with
  | zero => exact (if_neg (by omega)).symm
  | succ n ih =>
    rw [copyUp, ih (by omega), moved, moved]
    by_cases later : dst + 1 ≤ a ∧ a < dst + 1 + n
    · have place : src + 1 + (a - (dst + 1)) = src + (a - dst) := by omega
      rw [if_pos later, if_pos (by omega), place, update_of_ne (by omega)]
    · by_cases first : a = dst
      · rw [if_neg later, if_pos (by omega), first, update_self, Nat.sub_self, Nat.add_zero]
      · rw [if_neg later, if_neg (by omega), update_of_ne first]

theorem copyDown_eq (safe : src ≤ dst) : copyDown n (dst + n) (src + n) m = moved m dst src n := by
  funext a
  induction n generalizing m with
  | zero => exact (if_neg (by omega)).symm
  | succ n ih =>
    change copyDown n (dst + n) (src + n) (update m (dst + n) (m (src + n))) a = _
    rw [ih, moved, moved]
    by_cases earlier : dst ≤ a ∧ a < dst + n
    · rw [if_pos earlier, if_pos (by omega), update_of_ne (by omega)]
    · by_cases last : a = dst + n
      · rw [if_neg earlier, if_pos (by omega), last, update_self, Nat.add_sub_cancel_left]
      · rw [if_neg earlier, if_neg (by omega), update_of_ne last]

theorem memmove_eq : memmove m dst src n = moved m dst src n := by
  rw [memmove]
  by_cases none : n = 0
  · rw [if_pos none, none]
    funext a
    exact (if_neg (by omega)).symm
  · rw [if_neg none]
    by_cases overlap : src < dst ∧ src + n > dst
    · rw [if_pos overlap, copyDown_eq (by omega)]
    · rw [if_neg overlap, copyUp_eq overlap]

theorem ulibMemmove_eq : ulibMemmove m dst src n = moved m dst src n := by
  rw [ulibMemmove]
  by_cases above : src > dst
  · rw [if_pos above]
    exact copyUp_eq (by omega)
  · rw [if_neg above]
    exact copyDown_eq (Nat.not_lt.mp above)

/-- Both copy as if all bytes were read before the first is written. A negative count copies nothing. -/
theorem memmove_simultaneous (m : Nat → β) (dst src n : Nat) :
    (∀ i < n, memmove m dst src n (dst + i) = m (src + i)) ∧ (∀ a, a < dst ∨ dst + n ≤ a → memmove m dst src n a = m a) ∧
    ulibMemmove m dst src n = memmove m dst src n ∧ ∀ k < 0, ulibMemmove m dst src k = m := by
  rw [ulibMemmove_eq, memmove_eq]
  refine ⟨fun i less => ?_, fun a outside => if_neg (by omega), rfl, fun k negative => ?_⟩
  · rw [moved, if_pos (by omega), Nat.add_sub_cancel_left]
  · rw [ulibMemmove, Int.toNat_of_nonpos (by omega)]
    exact ite_self _

end OShard
