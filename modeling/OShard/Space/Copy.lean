import OShard.Space.User

namespace OShard.Space

open Separation Assertion Prog

variable {ram : Ram} {fails : Prop} {root i n : Nat} {entry : Nat → Nat} {top : Nat → Nat} {ok : Nat → Prop} {h : Heap Page}

def anyPte : Nat → Prop := fun _ => True

theorem Memory.weaken {ok' : Nat → Prop} (weaker : ∀ pte, ok pte → ok' pte) (memory : Memory ram root n top ok h) :
    Memory ram root n top ok' h := by
  obtain ⟨entry, shape, holds⟩ := memory
  refine ⟨entry, ⟨shape.bound, shape.empty, fun i below => ?_, shape.top⟩, holds⟩
  obtain ⟨leaf, small, fine⟩ := shape.leaf i below
  exact ⟨leaf, small, weaker _ fine⟩

def Hidden (top : Nat → Nat) : Prop := ∀ i, top i &&& pteU = 0

theorem Shape.user (shape : Shape n top ok entry) (hidden : Hidden top) (user : entry i &&& pteU ≠ 0) : i < n := by
  by_contra above
  by_cases below : i < userPages
  · rw [shape.empty i below (Nat.not_lt.mp above)] at user
    exact user rfl
  · rw [shape.top i (Nat.not_lt.mp below)] at user
    exact user (hidden i)

theorem Data.page (shape : Shape n top ok entry) (below : i < n) : Data ram entry = page ram (pte2pa (entry i)) *
    ∏ x ∈ (Finset.range userPages).erase i, backed ram (entry x) := by
  rw [Data.split (Nat.lt_of_lt_of_le below shape.bound), backed, if_neg (shape.leaf i below).1.nonzero]

theorem Shape.replace (shape : Shape n top anyPte entry) (below : i < n) {pte : Nat} (leaf : Leaf pte) (small : pte < 2 ^ 64) :
    Shape n top anyPte (Function.update entry i pte) := by
  have bound := shape.bound
  constructor
  · exact bound
  · intro x below' above
    rw [Function.update_of_ne (by omega)]
    exact shape.empty x below' above
  · intro x below'
    by_cases equal : x = i
    · rw [equal, Function.update_self]
      exact ⟨leaf, small, trivial⟩
    · rw [Function.update_of_ne equal]
      exact shape.leaf x below'
  · intro x above
    rw [Function.update_of_ne (by omega)]
    exact shape.top x above

section Clear

theorem clear_user {pte : Nat} (leaf : Leaf pte) (small : pte < 2 ^ 64) :
    Leaf (pte &&& (2 ^ 64 - 1 - pteU)) ∧ pte &&& (2 ^ 64 - 1 - pteU) < 2 ^ 64 ∧
      pte2pa (pte &&& (2 ^ 64 - 1 - pteU)) = pte2pa pte := by
  have flags : ∀ c, (2 ^ 64 - 1 - pteU) &&& c = c → pteFlags (pte &&& (2 ^ 64 - 1 - pteU)) &&& c = pteFlags pte &&& c := by
    intro c keeps
    rw [pteFlags, pteFlags, Nat.and_assoc, Nat.and_assoc, Nat.and_assoc, Nat.and_comm 0x3FF c, ← Nat.and_assoc _ c, keeps]
  refine ⟨⟨?_, ?_⟩, ?_, ?_⟩
  · rw [flags _ (by decide)]
    exact leaf.1
  · rw [flags _ (by decide)]
    exact leaf.2
  · exact Nat.lt_of_le_of_lt Nat.and_le_left small
  · have high : (pte &&& (2 ^ 64 - 1 - pteU)) >>> 10 = pte >>> 10 := by
      rw [Nat.shiftRight_and_distrib]
      change pte >>> 10 &&& (2 ^ 54 - 1) = _
      rw [Nat.and_two_pow_sub_one_eq_mod, Nat.shiftRight_eq_div_pow]
      apply Nat.mod_eq_of_lt
      omega
    rw [pte2pa, pte2pa, high]

end Clear

section Transfer

def userAddr (entry : Nat → Nat) (va : Nat) : Nat :=
  if maxVa ≤ va then 0
  else if entry (va / 4096) &&& pteV = 0 then 0
  else if entry (va / 4096) &&& pteU = 0 then 0
  else pte2pa (entry (va / 4096))

theorem walkaddr_spec {va : Nat} : Triple (ram.supply fails) (Table ram 2 root entry) (walkaddr root va) fun r =>
    given (r = userAddr entry va) (Table ram 2 root entry) := by
  rw [walkaddr, userAddr]
  by_cases above : maxVa ≤ va
  · rw [if_pos above, if_pos above]
    exact Triple.done fun h holds => ⟨rfl, holds⟩
  rw [if_neg above, if_neg above]
  apply Triple.bind (walk_at (Nat.not_le.mp above))
  intro r
  cases r with
  | none =>
    apply Triple.given
    intro missing
    rw [missing.1 rfl, if_pos (by decide)]
    exact Triple.done fun h holds => ⟨rfl, holds⟩
  | some found =>
    obtain ⟨t, k⟩ := found
    apply Triple.bind (Cell.load _)
    intro pte
    apply Triple.given
    rintro rfl
    by_cases valid : entry (va / 4096) &&& pteV = 0
    · rw [if_pos valid, if_pos valid]
      exact Triple.done fun h holds => ⟨rfl, holds.table⟩
    rw [if_neg valid, if_neg valid]
    by_cases user : entry (va / 4096) &&& pteU = 0
    · rw [if_pos user, if_pos user]
      exact Triple.done fun h holds => ⟨rfl, holds.table⟩
    · rw [if_neg user, if_neg user]
      exact Triple.done fun h holds => ⟨rfl, holds.table⟩

section Shape

variable (shape : Shape n top ok entry)

include shape

theorem page_bind {σ : Type} {p : Prog Page σ} {R : σ → Assertion Page} (below : i < n)
    (rest : pte2pa (entry i) ∈ ram.pool → ∀ junk, Triple (ram.supply fails) (points (pte2pa (entry i)) junk *
        (Table ram 2 root entry * ∏ x ∈ (Finset.range userPages).erase i, backed ram (entry x))) p R) :
    Triple (ram.supply fails) (Table ram 2 root entry * Data ram entry) p R := by
  rw [Data.page shape below, mul_left_comm, page, given_mul, any_mul]
  apply Triple.given
  intro inside
  apply Triple.any
  exact rest inside

theorem page_return (below : i < n) {junk : Page} (inside : pte2pa (entry i) ∈ ram.pool)
    (holds : (points (pte2pa (entry i)) junk *
        (Table ram 2 root entry * ∏ x ∈ (Finset.range userPages).erase i, backed ram (entry x))) h) :
    (Table ram 2 root entry * Data ram entry) h := by
  rw [Data.page shape below, mul_left_comm]
  exact mul_mono (fun _ here => ⟨inside, junk, here⟩) (fun _ rest => rest) holds

end Shape

end Transfer

end OShard.Space
