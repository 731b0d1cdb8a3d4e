import Mathlib

namespace RingBuffer

open Function

variable {α : Type*} {w size : Nat} [NeZero size]

/-- The cell that a free-running counter of `w` bits points to. -/
def cell (counter : BitVec w) : Fin size := Fin.ofNat size counter.toNat

/-- The elements of the ring from `head` up to `tail`, both counters running freely. -/
def contents (data : Fin size → α) (head tail : BitVec w) : List α :=
  (List.range (tail - head).toNat).map fun i => data (cell (head + BitVec.ofNat w i))

variable {head tail place : BitVec w} {data : Fin size → α}

theorem count_push (room : (tail - head).toNat < size) (wide : size < 2 ^ w) :
    (tail + 1 - head).toNat = (tail - head).toNat + 1 := by
  have positive : 0 < w := by
    by_contra narrow
    have width : w = 0 := by omega
    subst width
    omega
  have one : (1 : BitVec w).toNat = 1 := BitVec.toNat_one positive
  have shift : tail + 1 - head = (tail - head) + 1 := by
    rw [BitVec.sub_eq_add_neg, BitVec.sub_eq_add_neg, BitVec.add_assoc, BitVec.add_comm 1, ← BitVec.add_assoc]
  rw [shift, BitVec.toNat_add, one, Nat.mod_eq_of_lt (by omega)]

theorem count_pop (nonempty : head ≠ tail) : (tail - (head + 1)).toNat + 1 = (tail - head).toNat := by
  have different : (tail - head).toNat ≠ 0 := by
    intro zero
    apply nonempty
    have none : tail - head = 0 := BitVec.eq_of_toNat_eq (by simpa using zero)
    rw [← BitVec.sub_add_cancel tail head, none]
    exact (BitVec.zero_add head).symm
  have positive : 0 < w := by
    by_contra narrow
    have width : w = 0 := by omega
    subst width
    omega
  have shift : tail - (head + 1) = (tail - head) - 1 := by
    rw [BitVec.sub_eq_add_neg, BitVec.sub_eq_add_neg, BitVec.sub_eq_add_neg, BitVec.neg_add, BitVec.sub_eq_add_neg,
      BitVec.add_assoc]
  have one : (1 : BitVec w).toNat = 1 := BitVec.toNat_one positive
  have order : (1 : BitVec w) ≤ tail - head := by
    rw [BitVec.le_def, one]
    omega
  rw [shift, BitVec.toNat_sub_of_le order, one]
  omega

theorem count_zero : (tail - head).toNat = 0 ↔ head = tail := by
  constructor
  · intro zero
    by_contra nonempty
    have count := count_pop nonempty
    omega
  · rintro rfl
    simp

theorem cell_ne (divides : size ∣ 2 ^ w) (head : BitVec w) {i j : Nat} (order : i < j) (bound : j - i < size) :
    (cell (head + BitVec.ofNat w i) : Fin size) ≠ cell (head + BitVec.ofNat w j) := by
  intro same
  have values := congrArg Fin.val same
  have reduce : ∀ n : Nat, (head + BitVec.ofNat w n).toNat % size = (head.toNat + n) % size := by
    intro n
    rw [BitVec.toNat_add, BitVec.toNat_ofNat, Nat.add_mod_mod, Nat.mod_mod_of_dvd _ divides]
  change (head + BitVec.ofNat w i).toNat % size = (head + BitVec.ofNat w j).toNat % size at values
  rw [reduce, reduce] at values
  have split : head.toNat + j = head.toNat + i + (j - i) := by omega
  rw [split] at values
  have remainder := Nat.sub_mod_eq_zero_of_mod_eq values.symm
  rw [Nat.add_sub_cancel_left] at remainder
  have multiple : size ∣ j - i := Nat.dvd_of_mod_eq_zero remainder
  have large := Nat.le_of_dvd (by omega) multiple
  omega

theorem counter_eq (head counter : BitVec w) : head + BitVec.ofNat w (counter - head).toNat = counter := by
  rw [BitVec.ofNat_toNat, BitVec.setWidth_eq, BitVec.add_comm]
  exact BitVec.sub_add_cancel counter head

theorem cell_ne_of_lt (divides : size ∣ 2 ^ w) {counter : BitVec w}
    (order : (counter - head).toNat < (place - head).toNat) (room : (place - head).toNat < size) :
    (cell counter : Fin size) ≠ cell place := by
  have apart := cell_ne divides head order (show (place - head).toNat - (counter - head).toNat < size by omega)
  rw [counter_eq, counter_eq] at apart
  exact apart

theorem contents_push (divides : size ∣ 2 ^ w) (wide : size < 2 ^ w) (room : (tail - head).toNat < size) (x : α) :
    contents (update data (cell tail) x) head (tail + 1) = contents data head tail ++ [x] := by
  have last := counter_eq head tail
  unfold contents
  rw [count_push room wide, List.range_succ, List.map_append, List.map_singleton, last, update_self]
  congr 1
  apply List.map_congr_left
  intro i member
  have bound := List.mem_range.mp member
  have other : (cell (head + BitVec.ofNat w i) : Fin size) ≠ cell tail := by
    have apart := cell_ne divides head bound (show (tail - head).toNat - i < size by omega)
    rw [last] at apart
    exact apart
  rw [update_of_ne other]

theorem contents_snoc (divides : size ∣ 2 ^ w) (wide : size < 2 ^ w)
    (room : (tail - head).toNat < size) : contents data head (tail + 1) = contents data head tail ++ [data (cell tail)] := by
  rw [← contents_push divides wide room (data (cell tail)), update_eq_self]

theorem contents_pop (nonempty : head ≠ tail) :
    contents data head tail = data (cell head) :: contents data (head + 1) tail := by
  unfold contents
  rw [← count_pop nonempty, List.range_succ_eq_map, List.map_cons, List.map_map, BitVec.ofNat_eq_ofNat, BitVec.add_zero]
  congr 1
  apply List.map_congr_left
  intro i _
  have shift : head + BitVec.ofNat w (i + 1) = head + 1 + BitVec.ofNat w i := by
    rw [BitVec.ofNat_add, BitVec.add_comm (BitVec.ofNat w i), ← BitVec.add_assoc]
    rfl
  exact congrArg (fun counter => data (cell counter)) shift

theorem contents_self (data : Fin size → α) (head : BitVec w) : contents data head head = [] := by
  unfold contents
  rw [BitVec.sub_self]
  rfl

theorem length_contents (data : Fin size → α) (head tail : BitVec w) :
    (contents data head tail).length = (tail - head).toNat := by
  unfold contents
  rw [List.length_map, List.length_range]

theorem count_unpush (nonempty : head ≠ tail) : (tail - 1 - head).toNat + 1 = (tail - head).toNat := by
  have count := count_pop nonempty
  have shift : tail - (head + 1) = tail - 1 - head := by
    rw [BitVec.sub_eq_add_neg, BitVec.neg_add, BitVec.sub_eq_add_neg, BitVec.sub_eq_add_neg, BitVec.sub_eq_add_neg,
      BitVec.add_assoc, BitVec.add_comm (-1)]
  rw [shift] at count
  exact count

theorem contents_append {mid : BitVec w} (sum : (mid - head).toNat + (tail - mid).toNat = (tail - head).toNat) :
    contents data head tail = contents data head mid ++ contents data mid tail := by
  have middle := counter_eq head mid
  unfold contents
  rw [← sum, List.range_add, List.map_append, List.map_map]
  congr 1
  apply List.map_congr_left
  intro i _
  have shift : head + BitVec.ofNat w ((mid - head).toNat + i) = mid + BitVec.ofNat w i := by
    rw [BitVec.ofNat_add, ← BitVec.add_assoc, middle]
  exact congrArg (fun counter => data (cell counter)) shift

theorem contents_unpush (nonempty : head ≠ tail) :
    contents data head tail = contents data head (tail - 1) ++ [data (cell (tail - 1))] := by
  have positive : 0 < w := by
    by_contra narrow
    have width : w = 0 := by omega
    subst width
    exact nonempty (Subsingleton.elim _ _)
  have count := count_unpush nonempty
  have back : tail - 1 + 1 = tail := BitVec.sub_add_cancel tail 1
  have step : tail - (tail - 1) = 1 := by
    calc tail - (tail - 1) = 1 + (tail - 1) - (tail - 1) := by rw [BitVec.add_comm 1, back]
      _ = 1 := BitVec.add_sub_cancel 1 (tail - 1)
  have one : (tail - (tail - 1)).toNat = 1 := by
    rw [step]
    exact BitVec.toNat_one positive
  have last : tail - 1 ≠ tail := by
    intro same
    rw [same, BitVec.sub_self] at one
    exact absurd one (by simp)
  have sum : (tail - 1 - head).toNat + (tail - (tail - 1)).toNat = (tail - head).toNat := by omega
  rw [contents_append sum, contents_pop last, back, contents_self]

theorem contents_update (divides : size ∣ 2 ^ w)
    (beyond : (tail - head).toNat ≤ (place - head).toNat) (room : (place - head).toNat < size) (x : α) :
    contents (update data (cell place) x) head tail = contents data head tail := by
  have last := counter_eq head place
  unfold contents
  apply List.map_congr_left
  intro i member
  have bound := List.mem_range.mp member
  have other : (cell (head + BitVec.ofNat w i) : Fin size) ≠ cell place := by
    have apart := cell_ne divides head (show i < (place - head).toNat by omega) (show (place - head).toNat - i < size by omega)
    rw [last] at apart
    exact apart
  rw [update_of_ne other]

end RingBuffer
