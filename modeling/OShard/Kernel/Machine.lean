import Mathlib

namespace OShard

/-- Why a kernel function does not return: it panicked, its C behaviour is undefined, it left the
    array it addresses (only where accesses are checked), or it loops forever. -/
inductive Fault where
  | panic (message : String)
  | undefined
  | outOfBounds
  | diverges
  deriving DecidableEq, Repr

def returns {α : Type} (result : Except Fault α) (test : α → Bool) : Bool :=
  match result with
  | .ok a => test a
  | .error _ => false

theorem returns_ok {α : Type} {result : Except Fault α} {test : α → Bool} (holds : returns result test = true) :
    ∃ a, result = .ok a ∧ test a = true := by
  cases result with
  | ok a => exact ⟨a, rfl, holds⟩
  | error fault => cases holds

def faultOf {α : Type} : Except Fault α → Option Fault
  | .ok _ => none
  | .error fault => some fault

/-- The value of a wider integer stored into a C `int`. -/
def toInt (x : Int) : Int := x.bmod (2 ^ 32)

theorem toInt_of_range {x : Int} (lower : -2 ^ 31 ≤ x) (upper : x < 2 ^ 31) : toInt x = x := by
  unfold toInt
  rw [Int.bmod_eq_of_le] <;> norm_num <;> omega

theorem toInt_nat {n : Nat} (upper : n < 2 ^ 31) : toInt n = n :=
  toInt_of_range (by omega) (by omega)

theorem toInt_lower (x : Int) : -2 ^ 31 ≤ toInt x := by
  have bound := Int.le_bmod (x := x) (m := 2 ^ 32) (by norm_num)
  unfold toInt
  norm_num at bound ⊢
  omega

theorem toInt_upper (x : Int) : toInt x < 2 ^ 31 := by
  have bound := Int.bmod_lt (x := x) (m := 2 ^ 32) (by norm_num)
  unfold toInt
  norm_num at bound ⊢
  omega

theorem toInt_high {n : Nat} (lower : 2 ^ 31 ≤ n) (upper : n < 2 ^ 32) : toInt n = n - 2 ^ 32 := by
  have shift : toInt n = toInt (n - 2 ^ 32) := by
    unfold toInt
    exact (Int.sub_bmod_right (n : Int) (2 ^ 32)).symm
  rw [shift, toInt_of_range (by omega) (by omega)]

theorem toInt_nat_nonneg {n : Nat} (upper : n < 2 ^ 32) (nonneg : 0 ≤ toInt n) : toInt n = n := by
  by_cases small : n < 2 ^ 31
  · exact toInt_nat small
  · rw [toInt_high (by omega) upper] at nonneg
    omega

theorem toInt_add_left (x y : Int) : toInt (toInt x + y) = toInt (x + y) := Int.bmod_add_bmod

theorem toInt_add_right (x y : Int) : toInt (x + toInt y) = toInt (x + y) := Int.add_bmod_bmod

theorem toInt_idem (x : Int) : toInt (toInt x) = toInt x := toInt_of_range (toInt_lower x) (toInt_upper x)

end OShard
