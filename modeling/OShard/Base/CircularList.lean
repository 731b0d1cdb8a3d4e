import Mathlib

namespace CircularList

open Function

variable {α : Type} {next next' : α → α} {xs ys zs : List α} {a b p q : α}

/-- A circular list with one link per node: the nodes `xs` in the order of their links. -/
structure Ring (next : α → α) (xs : List α) : Prop where
  linked : Cycle.Chain (fun a b => next a = b) (xs : Cycle α)
  nodup : xs.Nodup

theorem Ring.rotate (ring : Ring next (xs ++ ys)) : Ring next (ys ++ xs) := by
  have same : ((xs ++ ys : List α) : Cycle α) = (ys ++ xs : List α) := Cycle.coe_eq_coe.mpr List.isRotated_append
  exact ⟨same ▸ ring.linked, List.nodup_append_comm.mp ring.nodup⟩

theorem isChain_congr (same : ∀ a ∈ xs, next' a = next a) (linked : (xs ++ [b]).IsChain fun a b => next a = b) :
    (xs ++ [b]).IsChain fun a b => next' a = b := by
  induction xs with
  | nil => exact List.isChain_singleton b
  | cons x xs ih =>
    have tail := ih (fun a member => same a (List.mem_cons_of_mem _ member)) linked.tail
    cases xs with
    | nil | cons =>
      exact List.isChain_cons_cons.mpr ⟨(same x List.mem_cons_self).trans (List.isChain_cons_cons.mp linked).1, tail⟩

theorem Ring.congr (ring : Ring next xs) (same : ∀ a ∈ xs, next' a = next a) : Ring next' xs := by
  cases xs with
  | nil => exact ⟨trivial, ring.nodup⟩
  | cons x xs =>
    refine ⟨?_, ring.nodup⟩
    rw [Cycle.chain_coe_cons, ← List.cons_append]
    exact isChain_congr same ((Cycle.chain_coe_cons _ x xs).mp ring.linked)

theorem ring_singleton (self : next a = a) : Ring next [a] :=
  ⟨(Cycle.chain_singleton _ a).mpr self, List.nodup_singleton a⟩

theorem ring_cons_cons : Ring next (p :: q :: zs) ↔
    next p = q ∧ ((q :: zs) ++ [p]).IsChain (fun a b => next a = b) ∧ (p :: q :: zs).Nodup := by
  constructor
  · intro ring
    obtain ⟨first, rest⟩ := List.isChain_cons_cons.mp ((Cycle.chain_coe_cons _ p (q :: zs)).mp ring.linked)
    exact ⟨first, rest, ring.nodup⟩
  · intro parts
    exact ⟨(Cycle.chain_coe_cons _ p (q :: zs)).mpr (List.isChain_cons_cons.mpr ⟨parts.1, parts.2.1⟩), parts.2.2⟩

section Links

variable [DecidableEq α]

theorem Ring.insert (ring : Ring next (p :: zs)) (fresh : b ∉ p :: zs) :
    Ring (update (update next b (next p)) p b) (p :: b :: zs) := by
  have other : b ≠ p := fun same => fresh (same ▸ List.mem_cons_self)
  have kept : ∀ a ∈ zs, update (update next b (next p)) p b a = next a := by
    intro a member
    have notP : a ≠ p := fun same => (List.nodup_cons.mp ring.nodup).1 (same ▸ member)
    have notB : a ≠ b := fun same => fresh (List.mem_cons_of_mem _ (same ▸ member))
    rw [update_of_ne notP, update_of_ne notB]
  rw [ring_cons_cons, update_self]
  refine ⟨rfl, ?_, ?_⟩
  · have linked := (Cycle.chain_coe_cons _ p zs).mp ring.linked
    have value : update (update next b (next p)) p b b = next p := by
      rw [update_of_ne other, update_self]
    cases zs with
    | nil =>
      refine List.isChain_cons_cons.mpr ⟨value.trans ?_, List.isChain_singleton p⟩
      exact (List.isChain_cons_cons.mp linked).1
    | cons z zs =>
      obtain ⟨first, rest⟩ := List.isChain_cons_cons.mp linked
      exact List.isChain_cons_cons.mpr ⟨value.trans first, isChain_congr kept rest⟩
  · have nodup := List.nodup_cons.mp ring.nodup
    rw [List.mem_cons, not_or] at fresh
    refine List.nodup_cons.mpr ⟨?_, List.nodup_cons.mpr ⟨fresh.2, nodup.2⟩⟩
    rw [List.mem_cons, not_or]
    exact ⟨fun same => other same.symm, nodup.1⟩

theorem Ring.remove (ring : Ring next (p :: q :: zs)) : Ring (update next p (next q)) (p :: zs) := by
  obtain ⟨-, linked, nodup⟩ := ring_cons_cons.mp ring
  have outside := (List.nodup_cons.mp nodup).1
  have kept : ∀ a ∈ zs, update next p (next q) a = next a := by
    intro a member
    have notP : a ≠ p := fun same => outside (List.mem_cons_of_mem _ (same ▸ member))
    exact update_of_ne notP _ _
  refine ⟨?_, ?_⟩
  · rw [Cycle.chain_coe_cons]
    cases zs with
    | nil =>
      refine List.isChain_cons_cons.mpr ⟨?_, List.isChain_singleton p⟩
      rw [update_self]
      exact (List.isChain_cons_cons.mp linked).1
    | cons z zs =>
      obtain ⟨first, rest⟩ := List.isChain_cons_cons.mp linked
      refine List.isChain_cons_cons.mpr ⟨?_, isChain_congr kept rest⟩
      rw [update_self]
      exact first
  · exact List.nodup_cons.mpr ⟨fun member => outside (List.mem_cons_of_mem _ member),
      (List.nodup_cons.mp (List.nodup_cons.mp nodup).2).2⟩

theorem Ring.insertAfter (ring : Ring next (xs ++ p :: zs)) (fresh : b ∉ xs ++ p :: zs) :
    Ring (update (update next b (next p)) p b) (xs ++ p :: b :: zs) := by
  have turned : Ring next (p :: (zs ++ xs)) := ring.rotate
  have outside : b ∉ p :: (zs ++ xs) := by
    simp only [List.mem_append, List.mem_cons] at fresh ⊢
    tauto
  have back : Ring _ ((p :: b :: zs) ++ xs) := turned.insert outside
  exact back.rotate

theorem Ring.removeAfter (ring : Ring next (xs ++ p :: q :: zs)) : Ring (update next p (next q)) (xs ++ p :: zs) := by
  have turned : Ring next (p :: q :: (zs ++ xs)) := ring.rotate
  have back : Ring _ ((p :: zs) ++ xs) := turned.remove
  exact back.rotate

end Links

theorem isChain_iterate (linked : (a :: xs).IsChain fun a b => next a = b) {k : Nat} (bound : k < (a :: xs).length) :
    (a :: xs)[k] = next^[k] a := by
  induction k generalizing a xs with
  | zero => rfl
  | succ k ih =>
    cases xs with
    | nil => exact absurd bound (by simp)
    | cons x xs =>
      obtain ⟨first, rest⟩ := List.isChain_cons_cons.mp linked
      rw [iterate_succ_apply, first]
      exact ih rest (Nat.lt_of_succ_lt_succ bound)

theorem Ring.reach (ring : Ring next xs) (from' : a ∈ xs) (to' : b ∈ xs) : ∃ k < xs.length, next^[k] a = b := by
  obtain ⟨front, back, rfl⟩ := List.append_of_mem from'
  have turned : Ring next (a :: (back ++ front)) := ring.rotate
  have member : b ∈ a :: (back ++ front) := by
    simp only [List.mem_append, List.mem_cons] at to' ⊢
    tauto
  obtain ⟨k, bound, value⟩ := List.getElem_of_mem member
  have linked := (Cycle.chain_coe_cons _ a (back ++ front)).mp turned.linked
  refine ⟨k, ?_, ?_⟩
  · simp only [List.length_append, List.length_cons] at bound ⊢
    omega
  · rw [← List.cons_append] at linked
    rw [← isChain_iterate (List.IsChain.left_of_append linked) bound, value]

theorem Ring.next_inner (ring : Ring next (xs ++ p :: q :: zs)) : next p = q := by
  have turned : Ring next (p :: q :: (zs ++ xs)) := ring.rotate
  exact (ring_cons_cons.mp turned).1

theorem Ring.next_last (ring : Ring next (xs ++ [p])) (first : (xs ++ [p]).head? = some b) : next p = b := by
  have turned : Ring next (p :: xs) := ring.rotate
  have linked := (Cycle.chain_coe_cons _ p xs).mp turned.linked
  cases xs with
  | nil | cons =>
    cases first
    exact (List.isChain_cons_cons.mp linked).1

theorem Ring.next_mem (ring : Ring next xs) (member : a ∈ xs) : next a ∈ xs := by
  obtain ⟨front, back, rfl⟩ := List.append_of_mem member
  cases back with
  | nil =>
    cases whole : front ++ [a] with
    | nil =>
      rw [whole] at member
      cases member
    | cons b rest =>
      rw [ring.next_last (by rw [whole]; rfl)]
      exact List.mem_cons_self
  | cons z back =>
    rw [ring.next_inner]
    exact List.mem_append_right _ (List.mem_cons_of_mem _ List.mem_cons_self)

theorem Ring.iterate_mem (ring : Ring next xs) (member : a ∈ xs) (k : Nat) : next^[k] a ∈ xs := by
  induction k with
  | zero => exact member
  | succ k ih =>
    rw [iterate_succ_apply']
    exact ring.next_mem ih

theorem Ring.last_of_next (ring : Ring next (b :: zs)) (member : a ∈ b :: zs) (link : next a = b) :
    ∃ ws, b :: zs = ws ++ [a] := by
  obtain ⟨front, back, whole⟩ := List.append_of_mem member
  cases back with
  | nil => exact ⟨front, whole⟩
  | cons z back =>
    have nodup := ring.nodup
    rw [whole] at ring
    rw [ring.next_inner] at link
    subst link
    rw [whole] at nodup
    cases front with
    | nil | cons => simp [(List.cons.inj whole).1] at nodup

theorem Ring.next_injective (ring : Ring next xs) (first : a ∈ xs) (second : b ∈ xs) (same : next a = next b) : a = b := by
  obtain ⟨front, back, rfl⟩ := List.append_of_mem (ring.next_mem second)
  have turned : Ring next (next b :: (back ++ front)) := ring.rotate
  have inside : ∀ {x}, x ∈ front ++ next b :: back → x ∈ next b :: (back ++ front) := by
    intro x member
    simp only [List.mem_append, List.mem_cons] at member ⊢
    tauto
  obtain ⟨ws, left⟩ := turned.last_of_next (inside first) same
  obtain ⟨ws', right⟩ := turned.last_of_next (inside second) rfl
  have equal := List.append_inj' (left.symm.trans right) rfl
  exact (List.cons.inj equal.2).1

theorem Ring.next_of_sorted [LinearOrder α] (ring : Ring next (b :: xs)) (sorted : (b :: xs).Pairwise (· < ·))
    (member : a ∈ b :: xs) :
    (next a = b ∧ ∀ y ∈ b :: xs, y ≤ a) ∨ (a < next a ∧ ∀ y ∈ b :: xs, y ≤ a ∨ next a ≤ y) := by
  obtain ⟨front, back, whole⟩ := List.append_of_mem member
  have first : (front ++ a :: back).head? = some b := by
    rw [← whole]
    rfl
  rw [whole] at ring sorted ⊢
  obtain ⟨-, later, before⟩ := List.pairwise_append.mp sorted
  obtain ⟨above, rest⟩ := List.pairwise_cons.mp later
  have lower : ∀ y ∈ front, y ≤ a := fun y inside => (before y inside a List.mem_cons_self).le
  cases back with
  | nil =>
    refine Or.inl ⟨ring.next_last first, fun y inside => ?_⟩
    rcases List.mem_append.mp inside with old | last
    · exact lower y old
    · rw [List.mem_singleton.mp last]
  | cons z back =>
    rw [ring.next_inner]
    refine Or.inr ⟨above z List.mem_cons_self, fun y inside => ?_⟩
    rcases List.mem_append.mp inside with old | new
    · exact Or.inl (lower y old)
    rcases List.mem_cons.mp new with rfl | behind
    · exact Or.inl le_rfl
    · rcases List.mem_cons.mp behind with rfl | further
      · exact Or.inr le_rfl
      · exact Or.inr ((List.pairwise_cons.mp rest).1 y further).le

theorem Ring.search (ring : Ring next xs) (from' : a ∈ xs) (stop : α → Prop) [DecidablePred stop] (to' : b ∈ xs)
    (stops : stop b) : ∃ k < xs.length, stop (next^[k] a) ∧ ∀ j < k, ¬ stop (next^[j] a) := by
  obtain ⟨k, bound, value⟩ := ring.reach from' to'
  have found : ∃ k, stop (next^[k] a) := ⟨k, by rw [value]; exact stops⟩
  exact ⟨Nat.find found, Nat.lt_of_le_of_lt (Nat.find_min' found (by rw [value]; exact stops)) bound, Nat.find_spec found,
    fun j lower => Nat.find_min found lower⟩

theorem Ring.round (ring : Ring next xs) (from' : a ∈ xs) (stop : α → Prop) [DecidablePred stop] (to' : b ∈ xs)
    (stops : stop b) : ∃ k < xs.length, stop (next^[k] (next a)) ∧
      ∀ j < k, ¬ stop (next^[j] (next a)) ∧ next^[j] (next a) ≠ a := by
  obtain ⟨k, bound, found, first⟩ := ring.search (ring.next_mem from') stop to' stops
  refine ⟨k, bound, found, fun j lower => ⟨first j lower, fun back => ?_⟩⟩
  have period : next^[j + 1] (next a) = next a := by
    rw [iterate_succ_apply', back]
  have shifted : next^[k - (j + 1)] (next a) = next^[k] (next a) := by
    nth_rewrite 1 [← period]
    rw [← iterate_add_apply, Nat.sub_add_cancel lower]
  rw [← shifted] at found
  exact first (k - (j + 1)) (by omega) found

end CircularList
