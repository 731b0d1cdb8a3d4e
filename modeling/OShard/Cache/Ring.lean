import OShard.Cache.Model

namespace OShard.Cache

open LinkedList

variable {n : Nat}

/-- The ring from `bcache.head` visits the buffers `xs`, which are all of them. -/
structure Wheel (links : Links (Option (Fin n))) (xs : List (Fin n)) : Prop where
  ring : Ring links none (xs.map some)
  all : ∀ b, b ∈ xs

variable {links : Links (Option (Fin n))} {xs : List (Fin n)}

theorem Wheel.nodup (wheel : Wheel links xs) : xs.Nodup :=
  List.Nodup.of_map _ (List.nodup_cons.mp wheel.ring.nodup).2

theorem Wheel.length (wheel : Wheel links xs) : xs.length ≤ n := by
  have bound := wheel.nodup.length_le_card
  rw [Fintype.card_fin] at bound
  exact bound

section Scan

variable {found : Fin n → Bool} {fuel : Nat}

theorem scan_next {a : Option (Fin n)} (segment : Segment links a (xs.map some) none) (enough : xs.length < fuel) :
    scan links.next found fuel (links.next a) = xs.find? found := by
  induction xs generalizing a fuel with
  | nil =>
    obtain ⟨fuel, rfl⟩ : ∃ less, fuel = less + 1 := ⟨fuel - 1, by omega⟩
    rw [segment.1]
    rfl
  | cons x xs ih =>
    obtain ⟨less, rfl⟩ : ∃ less, fuel = less + 1 := ⟨fuel - 1, by omega⟩
    have rest := ih segment.2.2 (Nat.lt_of_succ_lt_succ enough)
    rw [segment.1]
    cases here : found x with
    | true => simp [scan, here]
    | false => simp [scan, here, rest]

theorem scan_prev {a : Option (Fin n)} (segment : Segment links none (xs.map some) a) (enough : xs.length < fuel) :
    scan links.prev found fuel (links.prev a) = xs.reverse.find? found := by
  induction xs using List.reverseRecOn generalizing a fuel with
  | nil =>
    obtain ⟨fuel, rfl⟩ : ∃ less, fuel = less + 1 := ⟨fuel - 1, by omega⟩
    rw [segment.2]
    rfl
  | append_singleton xs x ih =>
    rw [List.length_append] at enough
    obtain ⟨less, rfl⟩ : ∃ less, fuel = less + 1 := ⟨fuel - 1, by omega⟩
    rw [List.map_append, List.map_singleton] at segment
    obtain ⟨before, last⟩ := segment_append.mp segment
    have rest := ih before (Nat.lt_of_succ_lt_succ enough)
    rw [last.2, List.reverse_append]
    cases here : found x with
    | true => simp [scan, here]
    | false => simp [scan, here, rest]

theorem Wheel.scan_next_spec (wheel : Wheel links xs) (found : Fin n → Bool) :
    match scan links.next found (n + 1) (links.next none) with
    | some b => found b = true
    | none => ∀ b, found b = false := by
  rw [scan_next wheel.ring.linked (Nat.lt_succ_of_le wheel.length)]
  cases result : xs.find? found with
  | some b => exact List.find?_some result
  | none =>
    intro b
    have other := List.find?_eq_none.mp result b (wheel.all b)
    exact Bool.not_eq_true _ ▸ other

theorem Wheel.scan_prev_spec (wheel : Wheel links xs) (found : Fin n → Bool) :
    match scan links.prev found (n + 1) (links.prev none) with
    | some b => found b = true
    | none => ∀ b, found b = false := by
  rw [scan_prev wheel.ring.linked (Nat.lt_succ_of_le wheel.length)]
  cases result : xs.reverse.find? found with
  | some b => exact List.find?_some result
  | none =>
    intro b
    have other := List.find?_eq_none.mp result b (List.mem_reverse.mpr (wheel.all b))
    exact Bool.not_eq_true _ ▸ other

end Scan

theorem pushFront_ring {b : Fin n} (ring : Ring links none (xs.map some)) (fresh : b ∉ xs) :
    Ring (pushFront links b) none ((b :: xs).map some) := by
  have outside : some b ∉ none :: xs.map some := by simp [fresh]
  rw [List.map_cons]
  apply ring.insert outside
  · intro c
    simp [pushFront]
  · intro c
    simp [pushFront]

theorem moveFront_ring {b : Fin n} {ys : List (Fin n)} (ring : Ring links none ((xs ++ b :: ys).map some)) :
    Ring (moveFront links b) none ((b :: (xs ++ ys)).map some) := by
  have nodup : (xs ++ b :: ys).Nodup := List.Nodup.of_map _ (List.nodup_cons.mp ring.nodup).2
  have fresh : b ∉ xs ++ ys := (List.nodup_cons.mp (List.nodup_middle.mp nodup)).1
  apply pushFront_ring _ fresh
  rw [List.map_append, List.map_cons] at ring
  rw [List.map_append]
  obtain ⟨before, after⟩ := segment_append.mp ring.linked
  have self : links.next (some b) ≠ some b := by
    intro same
    have member := after.next_mem
    rw [same] at member
    have distinct : (some b :: (ys.map some ++ [none])).Nodup := by
      have inner : (b :: ys).Nodup := (List.nodup_append.mp nodup).2.1
      have tail := (inner.map (Option.some_injective _))
      rw [List.map_cons] at tail
      simpa [List.nodup_append] using tail
    exact (List.nodup_cons.mp distinct).1 member
  apply ring.erase
  · intro c
    by_cases first : c = links.prev (some b)
    · simp [first, self.symm]
    · simp [first, self.symm]
  · intro c
    simp

theorem binit_ring : Wheel (binit n) (List.finRange n).reverse := by
  have general : ∀ (bs xs : List (Fin n)) (links : Links (Option (Fin n))), Ring links none (xs.map some) →
      (bs ++ xs).Nodup → Ring (bs.foldl pushFront links) none ((bs.reverse ++ xs).map some) := by
    intro bs
    induction bs with
    | nil =>
      intro xs links ring _
      exact ring
    | cons b bs ih =>
      intro xs links ring nodup
      have moved : (bs ++ b :: xs).Nodup := List.nodup_middle.mpr nodup
      have fresh : b ∉ xs := fun member => (List.nodup_cons.mp nodup).1 (List.mem_append_right _ member)
      rw [List.foldl_cons, List.reverse_cons, List.append_assoc]
      exact ih (b :: xs) _ (pushFront_ring ring fresh) moved
  constructor
  · have start : Ring (⟨fun _ => none, fun _ => none⟩ : Links (Option (Fin n))) none ([].map some) := Ring.nil rfl rfl
    have built := general (List.finRange n) [] _ start (by rw [List.append_nil]; exact List.nodup_finRange n)
    rw [List.append_nil] at built
    exact built
  · intro b
    rw [List.mem_reverse]
    exact List.mem_finRange b

theorem Wheel.move (wheel : Wheel links xs) (b : Fin n) : ∃ ys, Wheel (moveFront links b) ys := by
  obtain ⟨before, after, rfl⟩ := List.append_of_mem (wheel.all b)
  refine ⟨b :: (before ++ after), moveFront_ring wheel.ring, fun c => ?_⟩
  have member := wheel.all c
  simp only [List.mem_cons, List.mem_append] at member ⊢
  tauto

end OShard.Cache
