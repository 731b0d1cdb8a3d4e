import Mathlib

namespace BitArray

open Function

abbrev Bytes := Nat → BitVec 8

/-- Bit `index` of the packed array that starts at byte address `array`. -/
def bit (m : Bytes) (array index : Nat) : Bool := (m (array + index / 8)).getLsbD (index % 8)

def mask (index : Nat) : BitVec 8 := 1#8 <<< (index % 8)

def SameBit (array index array' index' : Nat) : Prop :=
  array + index / 8 = array' + index' / 8 ∧ index % 8 = index' % 8

instance (a i b j : Nat) : Decidable (SameBit a i b j) := inferInstanceAs (Decidable (_ ∧ _))

theorem mask_eq (index : Nat) : mask index = BitVec.twoPow 8 (index % 8) := by
  unfold mask
  rw [BitVec.twoPow_eq]

theorem mask_bit (index j : Nat) : (mask index).getLsbD j = decide (j = index % 8) := by
  have lower : index % 8 < 8 := Nat.mod_lt _ (by decide)
  rw [mask_eq, BitVec.getLsbD_twoPow]
  simp only [lower, decide_true, Bool.true_and, decide_eq_decide]
  exact eq_comm

theorem isset_eq_bit (m : Bytes) (array index : Nat) :
    ((m (array + index / 8) &&& mask index) == mask index) = bit m array index := by
  have lower : index % 8 < 8 := Nat.mod_lt _ (by decide)
  have positive : BitVec.twoPow 8 (index % 8) ≠ 0#8 := by
    intro zero
    have selected := congrArg (fun b => b.getLsbD (index % 8)) zero
    simp [lower] at selected
  unfold bit
  rw [mask_eq, BitVec.and_twoPow]
  by_cases set : (m (array + index / 8)).getLsbD (index % 8) = true
  · simp [set]
  · simp only [set, Bool.false_eq_true, if_false]
    simpa using positive.symm

theorem clear_iff_bit (m : Bytes) (array index : Nat) : m (array + index / 8) &&& mask index = 0 ↔ bit m array index = false := by
  have lower : index % 8 < 8 := Nat.mod_lt _ (by decide)
  unfold bit
  rw [mask_eq, BitVec.and_twoPow]
  by_cases set : (m (array + index / 8)).getLsbD (index % 8) = true
  · simp only [set, if_true, Bool.true_eq_false, iff_false]
    intro zero
    have selected := congrArg (fun b => b.getLsbD (index % 8)) zero
    simp [lower] at selected
  · simp [set]

variable (m : Bytes) (array index array' index' : Nat)

theorem bit_update (value : BitVec 8) :
    bit (update m (array + index / 8) value) array' index' =
      if array' + index' / 8 = array + index / 8 then value.getLsbD (index' % 8)
      else bit m array' index' := by
  unfold bit
  rw [update_apply]
  split <;> rfl

theorem bit_set :
    bit (update m (array + index / 8) (m (array + index / 8) ||| mask index)) array' index' =
      (bit m array' index' || decide (SameBit array index array' index')) := by
  rw [bit_update]
  split
  · rename_i same
    simp only [BitVec.getLsbD_or, mask_bit, bit, same, SameBit, true_and]
    simp [eq_comm]
  · rename_i different
    have other : ¬ SameBit array index array' index' := fun h => different h.1.symm
    simp [other]

theorem bit_clear :
    bit (update m (array + index / 8) (m (array + index / 8) &&& ~~~ mask index)) array' index' =
      (bit m array' index' && !decide (SameBit array index array' index')) := by
  have lower : index' % 8 < 8 := Nat.mod_lt _ (by decide)
  rw [bit_update]
  split
  · rename_i same
    simp only [BitVec.getLsbD_and, BitVec.getLsbD_not, mask_bit, bit, same, SameBit, true_and,
      lower, decide_true, Bool.true_and]
    simp [eq_comm]
  · rename_i different
    have other : ¬ SameBit array index array' index' := fun h => different h.1.symm
    simp [other]

theorem bit_invert :
    bit (update m (array + index / 8) (m (array + index / 8) ^^^ mask index)) array' index' =
      (bit m array' index' ^^ decide (SameBit array index array' index')) := by
  rw [bit_update]
  split
  · rename_i same
    simp only [BitVec.getLsbD_xor, mask_bit, bit, same, SameBit, true_and]
    simp [eq_comm]
  · rename_i different
    have other : ¬ SameBit array index array' index' := fun h => different h.1.symm
    simp [other]

end BitArray
