import Mathlib

/-! Little-endian words in a byte-addressed area. -/

namespace Bytes

abbrev Byte := BitVec 8

abbrev Area := Nat → Byte

def digit (v j : Nat) : Byte := BitVec.ofNat 8 (v / 256 ^ j)

def load : Nat → Area → Nat → Nat
  | 0, _, _ => 0
  | w + 1, area, o => (area o).toNat + 256 * load w area (o + 1)

def blit (area : Area) (o : Nat) (bytes : List Byte) : Area := fun k =>
  if o ≤ k ∧ k < o + bytes.length then bytes.getD (k - o) 0 else area k

variable {w o k : Nat} {area : Area} {bytes : List Byte}

theorem digit_zero (v : Nat) : digit v 0 = BitVec.ofNat 8 v := by
  rw [digit, Nat.pow_zero, Nat.div_one]

theorem digit_succ (v j : Nat) : digit v (j + 1) = digit (v / 256) j := by
  rw [digit, digit, Nat.pow_succ', Nat.div_div_eq_div_mul]

theorem load_congr {area' : Area} {o' : Nat} (same : ∀ j < w, area (o + j) = area' (o' + j)) :
    load w area o = load w area' o' := by
  induction w generalizing o o' with
  | zero => rfl
  | succ w ih =>
    have first : area o = area' o' := same 0 (by omega)
    have rest : load w area (o + 1) = load w area' (o' + 1) := by
      apply ih
      intro j below
      rw [Nat.add_right_comm, Nat.add_assoc, Nat.add_right_comm o', Nat.add_assoc o']
      exact same (j + 1) (by omega)
    rw [load, load, first, rest]

theorem load_digits {v : Nat} (holds : ∀ j < w, area (o + j) = digit v j) : load w area o = v % 256 ^ w := by
  induction w generalizing o v with
  | zero => rw [load, Nat.pow_zero, Nat.mod_one]
  | succ w ih =>
    have first : area o = BitVec.ofNat 8 v := by
      rw [← digit_zero]
      exact holds 0 (by omega)
    have rest : load w area (o + 1) = v / 256 % 256 ^ w := by
      apply ih
      intro j below
      rw [← digit_succ, Nat.add_right_comm, Nat.add_assoc]
      exact holds (j + 1) (by omega)
    have whole : v % 256 ^ (w + 1) = v % 256 + 256 * (v / 256 % 256 ^ w) := by
      rw [Nat.pow_succ']
      exact Nat.mod_mul
    rw [load, first, rest, BitVec.toNat_ofNat, whole]

theorem load_zero (zero : ∀ j < w, area (o + j) = 0) : load w area o = 0 := by
  have digits : load w area o = 0 % 256 ^ w := by
    apply load_digits
    intro j below
    rw [zero j below, digit, Nat.zero_div]
    rfl
  rw [digits, Nat.zero_mod]

theorem blit_inside (low : o ≤ k) (high : k < o + bytes.length) : blit area o bytes k = bytes.getD (k - o) 0 := by
  rw [blit, if_pos ⟨low, high⟩]

theorem blit_outside (outside : k < o ∨ o + bytes.length ≤ k) : blit area o bytes k = area k := by
  rw [blit, if_neg (by omega)]

end Bytes
