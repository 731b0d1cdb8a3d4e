import Mathlib

namespace Tally

open Function

variable {ι α : Type*} [Fintype ι]

theorem le_sum (weight : ι → Nat) (i : ι) : weight i ≤ ∑ j, weight j :=
  Finset.single_le_sum (fun _ _ => Nat.zero_le _) (Finset.mem_univ i)

variable [DecidableEq ι]

theorem sum_update (weight : ι → α → Nat) (table : ι → α) (i : ι) (value : α) :
    ∑ j, weight j (update table i value j) + weight i (table i) = ∑ j, weight j (table j) + weight i value := by
  have split : ∀ t : ι → α, ∑ j, weight j (t j) = weight i (t i) + ∑ j ∈ Finset.univ.erase i, weight j (t j) := by
    intro t
    exact (Finset.add_sum_erase Finset.univ (fun j => weight j (t j)) (Finset.mem_univ i)).symm
  have rest : ∑ j ∈ Finset.univ.erase i, weight j (update table i value j) =
      ∑ j ∈ Finset.univ.erase i, weight j (table j) := by
    apply Finset.sum_congr rfl
    intro j member
    rw [update_of_ne (Finset.ne_of_mem_erase member)]
  rw [split (update table i value), split table, rest, update_self]
  omega

theorem add_le_sum (weight : ι → Nat) {i j : ι} (different : i ≠ j) : weight i + weight j ≤ ∑ k, weight k := by
  rw [← Finset.sum_pair different]
  exact Finset.sum_le_univ_sum_of_nonneg fun _ => Nat.zero_le _

end Tally
