import OShard.Buddy.Invariant
import OShard.Buddy.Marking

namespace OShard.Buddy

open LinkedList BitArray AlignedBlock Function

section Pushes

def initPushes (h : Heap) (bdLeft bdRight k : Nat) : List Nat :=
  let left := blkIndexNext h k bdLeft
  let right := blkIndex h k bdRight
  (if bit h.bytes (h.bdSizes k).alloc.start (left.tdiv 2).toNat = true then [addr h k left] else []) ++
    (if left < right ∧ bit h.bytes (h.bdSizes k).alloc.start (right.tdiv 2).toNat = true then
      [addr h k (buddyIndex right)] else [])

def pushAll (h : Heap) (k : Nat) (blocks : List Nat) : Heap := blocks.foldl (fun h p => h.push k p) h

def pushLevels (blocks : Nat → List Nat) : Nat → Nat → Heap → Heap
  | 0, _, h => h
  | n + 1, k, h => pushLevels blocks n (k + 1) (pushAll h k (blocks k))

def Heap.withLinks (h : Heap) (links : Links Nat) : Heap := { h with links := links }

theorem pushAll_eq (h : Heap) (k : Nat) (blocks : List Nat) : ∃ links, pushAll h k blocks = h.withLinks links := by
  induction blocks generalizing h with
  | nil => exact ⟨h.links, rfl⟩
  | cons p blocks ih =>
    obtain ⟨links, same⟩ := ih (h.push k p)
    exact ⟨links, same⟩

theorem pushLevels_eq (blocks : Nat → List Nat) (n k : Nat) (h : Heap) :
    ∃ links, pushLevels blocks n k h = h.withLinks links := by
  induction n generalizing k h with
  | zero => exact ⟨h.links, rfl⟩
  | succ n ih =>
    obtain ⟨first, same⟩ := pushAll_eq h k (blocks k)
    obtain ⟨links, rest⟩ := ih (k + 1) (h.withLinks first)
    refine ⟨links, ?_⟩
    rw [pushLevels, same, rest]
    rfl

theorem bitIsset_cases {h : Heap} {array : CharArray} {index : Int} {v : Bool}
    (result : bitIsset h array index = .ok v) : v = bit h.bytes array.start index.toNat := by
  unfold bitIsset bitIndex at result
  by_cases negative : index < 0
  · simp [negative, Bind.bind, Except.bind] at result
  by_cases beyond : h.checked = true ∧ array.bytes ≤ index.toNat / 8
  · simp [negative, beyond, Bind.bind, Except.bind] at result
  · simp only [negative, beyond, if_false, Bind.bind, Except.bind, Pure.pure, Except.pure,
      Except.ok.injEq] at result
    rw [← result, isset_eq_bit]

theorem bdInitfreePair_cases {h h' : Heap} {k : Nat} {bi size : Int} {isRight : Bool}
    (result : bdInitfreePair h k bi isRight = .ok (size, h')) :
    (bit h.bytes (h.bdSizes k).alloc.start (bi.tdiv 2).toNat = true ∧ size = toInt (blkSize k) ∧
      h' = h.push k (if isRight = true then addr h k (buddyIndex bi) else addr h k bi)) ∨
    (bit h.bytes (h.bdSizes k).alloc.start (bi.tdiv 2).toNat = false ∧ size = 0 ∧ h' = h) := by
  unfold bdInitfreePair at result
  cases read : bitIsset h (h.bdSizes k).alloc (bi.tdiv 2) with
  | error fault => simp [read, Bind.bind, Except.bind] at result
  | ok v =>
    have value := bitIsset_cases read
    rw [← value]
    cases v with
    | true =>
      simp [read, Bind.bind, Except.bind, Pure.pure, Except.pure] at result
      exact .inl ⟨rfl, result.1.symm, result.2.symm⟩
    | false =>
      simp [read, Bind.bind, Except.bind, Pure.pure, Except.pure] at result
      exact .inr ⟨rfl, result.1.symm, result.2.symm⟩

end Pushes

section Totals

def pushedBytes (blocks : Nat → List Nat) (k : Nat) : Nat := (blocks k).length * blkSize k

theorem initfreeLoop_spec (bdLeft bdRight n k : Nat) (free : Int) (h : Heap) {total : Int} {h' : Heap}
    (range : toInt free = free) (result : initfreeLoop bdLeft bdRight n k free h = .ok (total, h')) :
    h' = pushLevels (initPushes h bdLeft bdRight) n k h ∧
      total = toInt (free + span (pushedBytes (initPushes h bdLeft bdRight)) k n) := by
  induction n generalizing k free h with
  | zero =>
    rw [initfreeLoop] at result
    simp only [Except.ok.injEq, Prod.mk.injEq] at result
    refine ⟨result.2.symm, ?_⟩
    rw [span_zero, Nat.cast_zero, Int.add_zero, range]
    exact result.1.symm
  | succ n ih =>
    have finish : ∀ (blocks : List Nat) (sum : Int), initPushes h bdLeft bdRight k = blocks →
        toInt sum = toInt (free + blocks.length * blkSize k) →
        initfreeLoop bdLeft bdRight n (k + 1) (toInt sum) (pushAll h k blocks) = .ok (total, h') →
        h' = pushLevels (initPushes h bdLeft bdRight) (n + 1) k h ∧
          total = toInt (free + span (pushedBytes (initPushes h bdLeft bdRight)) k (n + 1)) := by
      intro blocks sum pushed wrapped rest
      obtain ⟨links, same⟩ := pushAll_eq h k blocks
      obtain ⟨heap, count⟩ := ih (k + 1) (toInt sum) (pushAll h k blocks) (toInt_idem sum) rest
      have still : initPushes (pushAll h k blocks) bdLeft bdRight = initPushes h bdLeft bdRight := by
        rw [same]
        rfl
      rw [still] at heap count
      refine ⟨by rw [pushLevels, pushed]; exact heap, ?_⟩
      rw [count, toInt_add_left, ← toInt_add_left, wrapped, toInt_add_left, span_succ]
      congr 1
      unfold pushedBytes
      rw [pushed]
      push_cast
      ring
    rw [initfreeLoop] at result
    cases first : bdInitfreePair h k (blkIndexNext h k bdLeft) false with
    | error fault => simp [first, Bind.bind, Except.bind] at result
    | ok pair =>
      obtain ⟨size, h₁⟩ := pair
      simp only [first, Bind.bind, Except.bind] at result
      have left := bdInitfreePair_cases first
      by_cases stop : blkIndex h k bdRight ≤ blkIndexNext h k bdLeft
      · rw [if_pos stop] at result
        rcases left with ⟨set, value, next⟩ | ⟨unset, value, next⟩
        · apply finish [addr h k (blkIndexNext h k bdLeft)] (free + size)
          · simp [initPushes, set, Int.not_lt.mpr stop]
          · rw [value, toInt_add_right]
            simp
          · rw [next] at result
            exact result
        · apply finish [] (free + size)
          · simp [initPushes, unset, Int.not_lt.mpr stop]
          · rw [value]
            simp
          · rw [next] at result
            exact result
      rw [if_neg stop] at result
      cases second : bdInitfreePair h₁ k (blkIndex h k bdRight) true with
      | error fault => simp [second] at result
      | ok pair' =>
        obtain ⟨size', h₂⟩ := pair'
        simp only [second] at result
        have right := bdInitfreePair_cases second
        have same : h₁.bytes = h.bytes ∧ h₁.bdSizes = h.bdSizes ∧ h₁.bdBase = h.bdBase := by
          rcases left with ⟨_, _, next⟩ | ⟨_, _, next⟩
          · rw [next]
            exact ⟨rfl, rfl, rfl⟩
          · rw [next]
            exact ⟨rfl, rfl, rfl⟩
        have place : ∀ bi, addr h₁ k bi = addr h k bi := by
          intro bi
          unfold addr
          rw [same.2.2]
        rw [same.1, same.2.1, place, place] at right
        have go := Int.not_le.mp stop
        rcases left with ⟨set, value, next⟩ | ⟨unset, value, next⟩
        · rcases right with ⟨set', value', next'⟩ | ⟨unset', value', next'⟩
          · apply finish [addr h k (blkIndexNext h k bdLeft), addr h k (buddyIndex (blkIndex h k bdRight))]
              (toInt (free + size) + size')
            · simp [initPushes, set, set', go]
            · rw [value, value', toInt_add_left, toInt_add_right, Int.add_right_comm, toInt_add_right]
              congr 1
              simp
              ring
            · rw [next', next] at result
              exact result
          · apply finish [addr h k (blkIndexNext h k bdLeft)] (toInt (free + size) + size')
            · simp [initPushes, set, unset']
            · rw [value, value', Int.add_zero, toInt_idem, toInt_add_right]
              simp
            · rw [next', next] at result
              exact result
        · rcases right with ⟨set', value', next'⟩ | ⟨unset', value', next'⟩
          · apply finish [addr h k (buddyIndex (blkIndex h k bdRight))] (toInt (free + size) + size')
            · simp [initPushes, unset, set', go]
            · rw [value, value', Int.add_zero, toInt_add_left, toInt_add_right]
              simp
            · rw [next', next] at result
              exact result
          · apply finish [] (toInt (free + size) + size')
            · simp [initPushes, unset, unset']
            · rw [value, value', Int.add_zero, Int.add_zero, toInt_idem]
              simp
            · rw [next', next] at result
              exact result

theorem initPushes_length (h : Heap) (bdLeft bdRight k : Nat) : (initPushes h bdLeft bdRight k).length ≤ 2 := by
  unfold initPushes
  dsimp only
  rw [List.length_append]
  split <;> split <;> simp

theorem pushedBytes_bound (h : Heap) (bdLeft bdRight m : Nat) :
    span (pushedBytes (initPushes h bdLeft bdRight)) 0 m < 2 * blkSize m := by
  induction m with
  | zero =>
    rw [span_zero]
    decide
  | succ m ih =>
    have length := initPushes_length h bdLeft bdRight m
    have here : pushedBytes (initPushes h bdLeft bdRight) m ≤ 2 * blkSize m := Nat.mul_le_mul_right _ length
    rw [span_last, Nat.zero_add, blkSize_succ]
    omega

end Totals

section Lists

variable {m : Nat}

theorem pushAll_rings (h : Heap) {k : Nat} (upper : k ≤ m) (blocks : List Nat) (lists : Nat → List Nat)
    (rings : Rings h.links h.free lists (· ≤ m)) (nodup : blocks.Nodup)
    (fresh : ∀ p ∈ blocks, ∀ j ≤ m, p ∉ h.free j :: lists j) :
    Rings (pushAll h k blocks).links h.free (update lists k (blocks.reverse ++ lists k)) (· ≤ m) := by
  induction blocks generalizing h lists with
  | nil =>
    rw [List.reverse_nil, List.nil_append, update_eq_self]
    exact rings
  | cons p blocks ih =>
    obtain ⟨single, rest⟩ := List.nodup_cons.mp nodup
    have pushed := lstPush_rings rings upper (fresh p List.mem_cons_self)
    have later : ∀ q ∈ blocks, ∀ j ≤ m, q ∉ h.free j :: update lists k (p :: lists k) j := by
      intro q member j bound listed
      have old := fresh q (List.mem_cons_of_mem p member) j bound
      by_cases here : j = k
      · subst here
        rw [update_self] at listed
        rcases List.mem_cons.mp listed with header | listed'
        · exact old (header ▸ List.mem_cons_self)
        · rcases List.mem_cons.mp listed' with same | listed''
          · exact single (same ▸ member)
          · exact old (List.mem_cons_of_mem _ listed'')
      · rw [update_of_ne here] at listed
        exact old listed
    have final := ih (h.push k p) (update lists k (p :: lists k)) pushed rest later
    rw [update_self, update_idem] at final
    rw [List.reverse_cons, List.append_assoc]
    exact final

theorem pushLevels_rings (blocks : Nat → List Nat) (n k : Nat) (h : Heap) (lists : Nat → List Nat) (upper : k + n ≤ m + 1)
    (rings : Rings h.links h.free lists (· ≤ m)) (nodup : ∀ i, k ≤ i → i < k + n → (blocks i).Nodup)
    (apart : ∀ i j, i ≠ j → k ≤ i → i < k + n → k ≤ j → j < k + n → ∀ p ∈ blocks i, p ∉ blocks j)
    (fresh : ∀ i, k ≤ i → i < k + n → ∀ p ∈ blocks i, ∀ j ≤ m, p ∉ h.free j :: lists j) :
    Rings (pushLevels blocks n k h).links h.free
      (fun j => if k ≤ j ∧ j < k + n then (blocks j).reverse ++ lists j else lists j) (· ≤ m) := by
  induction n generalizing k h lists with
  | zero =>
    have same : (fun j => if k ≤ j ∧ j < k + 0 then (blocks j).reverse ++ lists j else lists j) = lists := by
      funext j
      rw [if_neg (by omega)]
    rw [same]
    exact rings
  | succ n ih =>
    have first := pushAll_rings h (show k ≤ m by omega) (blocks k) lists rings (nodup k (by omega) (by omega))
      (fresh k (by omega) (by omega))
    obtain ⟨links, same⟩ := pushAll_eq h k (blocks k)
    have header : (pushAll h k (blocks k)).free = h.free := by rw [same]; rfl
    rw [← header] at first
    have later : ∀ i, k + 1 ≤ i → i < k + 1 + n → ∀ p ∈ blocks i, ∀ j ≤ m,
        p ∉ (pushAll h k (blocks k)).free j :: update lists k ((blocks k).reverse ++ lists k) j := by
      intro i low high p member j bound listed
      have old := fresh i (by omega) (by omega) p member j bound
      rw [header] at listed
      by_cases here : j = k
      · subst here
        rw [update_self] at listed
        rcases List.mem_cons.mp listed with equal | listed'
        · exact old (equal ▸ List.mem_cons_self)
        · rcases List.mem_append.mp listed' with new | listed''
          · exact apart i j (by omega) (by omega) (by omega) (by omega) (by omega) p member (List.mem_reverse.mp new)
          · exact old (List.mem_cons_of_mem _ listed'')
      · rw [update_of_ne here] at listed
        exact old listed
    have final := ih (k + 1) (pushAll h k (blocks k)) _ (by omega) first
      (fun i low high => nodup i (by omega) (by omega))
      (fun i j different low high low' high' => apart i j different (by omega) (by omega) (by omega) (by omega)) later
    have shape : (fun j => if k + 1 ≤ j ∧ j < k + 1 + n then
          (blocks j).reverse ++ update lists k ((blocks k).reverse ++ lists k) j
        else update lists k ((blocks k).reverse ++ lists k) j) =
        fun j => if k ≤ j ∧ j < k + (n + 1) then (blocks j).reverse ++ lists j else lists j := by
      funext j
      by_cases here : j = k
      · subst here
        rw [if_neg (by omega), if_pos (by omega), update_self]
      · rw [update_of_ne here]
        by_cases inside : k + 1 ≤ j ∧ j < k + 1 + n
        · rw [if_pos inside, if_pos (by omega)]
        · rw [if_neg inside, if_neg (by omega)]
    rw [shape, header] at final
    exact final

theorem nodup_of_subset {s : Finset Nat} {l : List Nat} (subset : ∀ a ∈ s, a ∈ l) (length : l.length ≤ s.card) :
    l.Nodup ∧ ∀ a, a ∈ l ↔ a ∈ s := by
  have contained : s ⊆ l.toFinset := fun a member => List.mem_toFinset.mpr (subset a member)
  have bound := List.toFinset_card_le l
  have equal : s = l.toFinset := Finset.eq_of_subset_of_card_le contained (by omega)
  have full : l.toFinset.card = l.length := by
    rw [← equal] at bound ⊢
    omega
  refine ⟨Multiset.coe_nodup.mp (Multiset.toFinset_card_eq_card_iff_nodup.mp full), ?_⟩
  intro a
  rw [equal, List.mem_toFinset]

end Lists

end OShard.Buddy
