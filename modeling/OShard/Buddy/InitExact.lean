import OShard.Buddy.Canonical

namespace OShard.Buddy

open LinkedList BitArray AlignedBlock

section Boundaries

def leftIndex (left k : Nat) : Nat := (left + (2 ^ k - 1)) / 2 ^ k

def rightIndex (right k : Nat) : Nat := right / 2 ^ k

/-- The two boundaries of the window lie in one pair of buddies, so that the bit of that pair was inverted
    for both of them, or is read for both of them. -/
def Conflict (left right k : Nat) : Prop :=
  (leftIndex left k % 2 = 0 ∧ rightIndex right k = leftIndex left k + 1) ∨
    (leftIndex left k % 2 = 1 ∧ rightIndex right k + 1 = leftIndex left k)

instance (left right k : Nat) : Decidable (Conflict left right k) := inferInstanceAs (Decidable (_ ∨ _))

variable {m k left right : Nat}

theorem blocks_even (lower : k < m) : 2 ^ (m - k) = 2 * 2 ^ (m - k - 1) := by
  rw [← Nat.pow_succ']
  congr 1
  omega

theorem lt_leftIndex (left k i : Nat) : i < leftIndex left k ↔ i * 2 ^ k < left :=
  lt_up_iff left i (Nat.two_pow_pos k)

theorem leftIndex_bytes (left k : Nat) : (16 * left + (blkSize k - 1)) / blkSize k = leftIndex left k := by
  refine eq_of_forall_lt_iff fun i => ?_
  rw [lt_up_iff _ _ (blkSize_pos k), lt_leftIndex]
  unfold blkSize leafSize
  rw [← Nat.mul_assoc]
  omega

theorem rightIndex_bytes (right k : Nat) : 16 * right / blkSize k = rightIndex right k := by
  unfold rightIndex blkSize leafSize
  rw [Nat.mul_comm 16, Nat.mul_div_mul_right _ _ (by decide)]

theorem blkIndexNext_units (h : Heap) (k : Nat) (bound : 16 * left ≤ 2 ^ 31) :
    blkIndexNext h k (h.bdBase + 16 * left) = leftIndex left k := by
  rw [blkIndexNext_offset h k bound, leftIndex_bytes]

theorem blkIndex_units (h : Heap) (k : Nat) (bound : 16 * right < 2 ^ 31) :
    blkIndex h k (h.bdBase + 16 * right) = rightIndex right k := by
  rw [blkIndex_offset h k bound, rightIndex_bytes]

theorem rightIndex_bounds (right k : Nat) :
    rightIndex right k * 2 ^ k ≤ right ∧ right < (rightIndex right k + 1) * 2 ^ k := by
  unfold rightIndex
  exact ⟨Nat.div_mul_le_self _ _, Nat.lt_mul_of_div_lt (Nat.lt_succ_self _) (Nat.two_pow_pos k)⟩

theorem leftIndex_lower (left k : Nat) : left ≤ leftIndex left k * 2 ^ k := by
  by_contra less
  exact Nat.lt_irrefl _ ((lt_leftIndex left k _).mpr (Nat.not_le.mp less))

theorem leftIndex_le (fits : left ≤ 2 ^ m) (lower : k ≤ m) : leftIndex left k ≤ 2 ^ (m - k) := by
  by_contra beyond
  have small := (lt_leftIndex left k (2 ^ (m - k))).mp (Nat.not_le.mp beyond)
  rw [← Nat.pow_add, Nat.sub_add_cancel lower] at small
  omega

theorem rightIndex_inside (inside : right < 2 ^ m) (lower : k ≤ m) : InHeap m ⟨k, rightIndex right k⟩ :=
  blockOver_inside inside lower

end Boundaries

section Reads

variable {h : Heap} {m left right : Nat} (prepared : Prepared h m left right) (order : left ≤ right)
  {k : Nat} (lower : k < m)

include prepared order lower

theorem Prepared.left_bit (edge : 2 ^ (m - k) ≤ leftIndex left k → m - k ≤ 3) (fits : left ≤ 2 ^ m) :
    bit h.bytes (h.bdSizes k).alloc.start (leftIndex left k / 2) = true ↔
      (InHeap m ⟨k, leftIndex left k⟩ ∧ Maximal (outside left right) ∅ ⟨k, leftIndex left k⟩) ∨
        (leftIndex left k % 2 = 1 ∧ rightIndex right k + 1 = leftIndex left k) := by
  have first := leftIndex_lower left k
  have bounds := rightIndex_bounds right k
  have positive := Nat.two_pow_pos k
  have even := blocks_even lower
  by_cases inside : leftIndex left k < 2 ^ (m - k)
  · have inHeap : InHeap m ⟨k, leftIndex left k⟩ := ⟨lower.le, inside⟩
    by_cases touched : right < (leftIndex left k + 1) * 2 ^ k
    · have notMaximal : ¬ Maximal (outside left right) ∅ ⟨k, leftIndex left k⟩ := by
        intro maximal
        exact maximal.1 (used_empty.mpr (touches_outside.mpr (.inr touched)))
      have formula := prepared.bits ⟨k, leftIndex left k⟩ inHeap lower
      have low : ¬ leftIndex left k * 2 ^ k < left := Nat.not_lt.mpr first
      dsimp only at formula
      simp only [low, touched, decide_false, decide_true, Bool.false_xor] at formula
      change h.pairBit ⟨k, leftIndex left k⟩ = true ↔ _
      rw [formula]
      rcases Block.buddy_adjacent ⟨k, leftIndex left k⟩ with ⟨parity, after, shift⟩ | ⟨parity, before, shift⟩
      · dsimp only at parity after shift
        have next : (Block.buddy ⟨k, leftIndex left k⟩).index * 2 ^ k = (leftIndex left k + 1) * 2 ^ k := by rw [after]
        have high : right < ((Block.buddy ⟨k, leftIndex left k⟩).index + 1) * 2 ^ k := by
          rw [Nat.succ_mul]
          omega
        have low' : ¬ (Block.buddy ⟨k, leftIndex left k⟩).index * 2 ^ k < left := by omega
        simp [low', high, notMaximal, parity]
      dsimp only at parity before shift
      have low' : (Block.buddy ⟨k, leftIndex left k⟩).index * 2 ^ k < left :=
        (lt_leftIndex left k _).mp (by omega)
      have same : (Block.buddy ⟨k, leftIndex left k⟩).index + 1 = leftIndex left k := before.symm
      have reach : leftIndex left k ≤ rightIndex right k + 1 := by
        by_contra beyond
        have step : (rightIndex right k + 1) * 2 ^ k ≤ (Block.buddy ⟨k, leftIndex left k⟩).index * 2 ^ k :=
          Nat.mul_le_mul_right _ (by omega)
        omega
      have high : right < leftIndex left k * 2 ^ k ↔ rightIndex right k + 1 = leftIndex left k := by
        constructor
        · intro small
          have upper : rightIndex right k < leftIndex left k := by
            unfold rightIndex
            exact (Nat.div_lt_iff_lt_mul (Nat.two_pow_pos k)).mpr small
          omega
        · intro equal
          rw [← equal]
          exact bounds.2
      simp [low', notMaximal, parity, same, high]
    · have untouched : ¬ Touches (outside left right) ⟨k, leftIndex left k⟩ := by
        rw [touches_outside]
        dsimp only
        omega
      have notSame : rightIndex right k + 1 ≠ leftIndex left k := by
        intro equal
        have next : (leftIndex left k + 1) * 2 ^ k = leftIndex left k * 2 ^ k + 2 ^ k := Nat.succ_mul _ _
        have last := bounds.2
        rw [equal] at last
        omega
      change h.pairBit ⟨k, leftIndex left k⟩ = true ↔ _
      rw [prepared.pair inHeap lower untouched, maximal_iff_buddy, used_empty, used_empty]
      simp [inHeap, untouched, notSame]
  · have upper := leftIndex_le fits lower.le
    have narrow : 2 ^ (m - k) ≤ 2 ^ 3 := Nat.pow_le_pow_right (by decide) (edge (by omega))
    have bytes : 0 / 2 / 8 < (h.bdSizes k).alloc.bytes :=
      prepared.geometry.alloc ⟨k, 0⟩ ⟨lower.le, Nat.two_pow_pos _⟩
    have zero := prepared.slack k lower.le (leftIndex left k / 2) (by omega) (by omega)
    have outside' : ¬ InHeap m ⟨k, leftIndex left k⟩ := fun inHeap => inside inHeap.2
    have parity : leftIndex left k % 2 = 0 := by omega
    rw [zero]
    simp [outside', parity]

theorem Prepared.right_bit (inside : right < 2 ^ m) (apart : leftIndex left k < rightIndex right k) :
    bit h.bytes (h.bdSizes k).alloc.start (rightIndex right k / 2) = true ↔ rightIndex right k % 2 = 1 := by
  have bounds := rightIndex_bounds right k
  have first := leftIndex_lower left k
  have inHeap := rightIndex_inside inside lower.le
  have step : (leftIndex left k + 1) * 2 ^ k ≤ rightIndex right k * 2 ^ k := Nat.mul_le_mul_right _ apart
  have next : (leftIndex left k + 1) * 2 ^ k = leftIndex left k * 2 ^ k + 2 ^ k := Nat.succ_mul _ _
  have last : (rightIndex right k + 1) * 2 ^ k = rightIndex right k * 2 ^ k + 2 ^ k := Nat.succ_mul _ _
  have formula := prepared.bits ⟨k, rightIndex right k⟩ inHeap lower
  have low : ¬ rightIndex right k * 2 ^ k < left := by omega
  dsimp only at formula
  simp only [low, bounds.2, decide_false, decide_true, Bool.false_xor] at formula
  change h.pairBit ⟨k, rightIndex right k⟩ = true ↔ _
  rw [formula]
  rcases Block.buddy_adjacent ⟨k, rightIndex right k⟩ with ⟨parity, after, shift⟩ | ⟨parity, before, shift⟩
  · dsimp only at parity after shift
    have high : right < ((Block.buddy ⟨k, rightIndex right k⟩).index + 1) * 2 ^ k := by
      rw [Nat.succ_mul]
      omega
    have low' : ¬ (Block.buddy ⟨k, rightIndex right k⟩).index * 2 ^ k < left := by omega
    simp [low', high, parity]
  · dsimp only at parity before shift
    have low' : ¬ (Block.buddy ⟨k, rightIndex right k⟩).index * 2 ^ k < left := by omega
    have high : ¬ right < ((Block.buddy ⟨k, rightIndex right k⟩).index + 1) * 2 ^ k := by
      rw [← before]
      omega
    simp [low', high, parity]

end Reads

section Pushes

variable {h : Heap} {m left right : Nat} (prepared : Prepared h m left right) (order : left ≤ right)
  (fits : right ≤ 2 ^ m) (range : 16 * right < 2 ^ 31) (edge : ∀ k < m, 2 ^ (m - k) ≤ leftIndex left k → m - k ≤ 3)
  {k : Nat}

theorem initPushes_units (h : Heap) {left right : Nat} (order : left ≤ right) (range : 16 * right < 2 ^ 31) (k : Nat) :
    initPushes h (h.bdBase + 16 * left) (h.bdBase + 16 * right) k =
      (if bit h.bytes (h.bdSizes k).alloc.start (leftIndex left k / 2) = true then
        [addr h k (leftIndex left k)] else []) ++
      (if leftIndex left k < rightIndex right k ∧
          bit h.bytes (h.bdSizes k).alloc.start (rightIndex right k / 2) = true then
        [addr h k (buddyIndex (rightIndex right k))] else []) := by
  unfold initPushes
  dsimp only
  rw [blkIndexNext_units h k (by omega), blkIndex_units h k range]
  have left' : ((leftIndex left k : Int).tdiv 2).toNat = leftIndex left k / 2 := rfl
  have right' : ((rightIndex right k : Int).tdiv 2).toNat = rightIndex right k / 2 := rfl
  rw [left', right']
  simp only [Nat.cast_lt]

include prepared

theorem Prepared.left_place (inHeap : InHeap m ⟨k, leftIndex left k⟩) :
    addr h k (leftIndex left k) = h.at ⟨k, leftIndex left k⟩ := by
  have place := addr_at (h := h) prepared.geometry.small inHeap
  dsimp only at place
  exact place

theorem Prepared.right_maximal (lower : k < m) (inside : right < 2 ^ m)
    (apart : leftIndex left k < rightIndex right k) (odd : rightIndex right k % 2 = 1) :
    ∃ b : Block, b.level = k ∧ b.index + 1 = rightIndex right k ∧ InHeap m b ∧ Maximal (outside left right) ∅ b ∧
      addr h k (buddyIndex (rightIndex right k)) = h.at b := by
  have bounds := rightIndex_bounds right k
  have first := leftIndex_lower left k
  have inHeap := rightIndex_inside inside lower.le
  have index : (Block.buddy ⟨k, rightIndex right k⟩).index + 1 = rightIndex right k := by
    rcases Block.buddy_adjacent ⟨k, rightIndex right k⟩ with ⟨even, -⟩ | ⟨-, before, -⟩
    · dsimp only at even
      omega
    · exact before.symm
  have buddyIn := buddy_inside inHeap lower
  refine ⟨Block.buddy ⟨k, rightIndex right k⟩, rfl, index, buddyIn, ?_, ?_⟩
  · have level : (Block.buddy ⟨k, rightIndex right k⟩).level = k := rfl
    have start : leftIndex left k * 2 ^ k ≤ (Block.buddy ⟨k, rightIndex right k⟩).index * 2 ^ k :=
      Nat.mul_le_mul_right _ (by omega)
    rw [maximal_iff_buddy, used_empty, used_empty, touches_outside, touches_outside, Block.buddy_buddy, level, index]
    exact ⟨by omega, .inr bounds.2⟩
  · have place := addr_at (h := h) prepared.geometry.small buddyIn
    have same := buddyIndex_eq ⟨k, rightIndex right k⟩
    dsimp only at same
    rw [same]
    exact place

include order fits range edge

theorem Prepared.pushes_exact (inside : right < 2 ^ m) (free : ∀ k < m, ¬ Conflict left right k) (lower : k < m) :
    (initPushes h (h.bdBase + 16 * left) (h.bdBase + 16 * right) k).Nodup ∧
      ∀ a, a ∈ initPushes h (h.bdBase + 16 * left) (h.bdBase + 16 * right) k ↔
        ∃ b : Block, b.level = k ∧ InHeap m b ∧ Maximal (outside left right) ∅ b ∧ a = h.at b := by
  have none := free k lower
  unfold Conflict at none
  have leftBit := prepared.left_bit order lower (edge k lower) (order.trans fits)
  have subset : ∀ a ∈ initPushes h (h.bdBase + 16 * left) (h.bdBase + 16 * right) k,
      ∃ b : Block, b.level = k ∧ InHeap m b ∧ Maximal (outside left right) ∅ b ∧ a = h.at b := by
    intro a member
    rw [initPushes_units h order range k, List.mem_append] at member
    rcases member with first | second
    · split at first
      · rename_i set
        rcases leftBit.mp set with ⟨inHeap, maximal⟩ | spoilt
        · rw [prepared.left_place inHeap, List.mem_singleton] at first
          exact ⟨_, rfl, inHeap, maximal, first⟩
        · exact absurd (.inr spoilt) none
      · cases first
    · split at second
      · rename_i both
        obtain ⟨b, level, -, inHeap, maximal, place⟩ := prepared.right_maximal lower inside both.1
          ((prepared.right_bit order lower inside both.1).mp both.2)
        rw [place, List.mem_singleton] at second
        exact ⟨b, level, inHeap, maximal, second⟩
      · cases second
  refine ⟨?_, fun a => ⟨subset a, ?_⟩⟩
  · rw [initPushes_units h order range k]
    split
    · rename_i set
      split
      · rename_i both
        rcases leftBit.mp set with ⟨inHeap, maximal⟩ | spoilt
        · have odd := (prepared.right_bit order lower inside both.1).mp both.2
          obtain ⟨b, level, index, -, -, place⟩ := prepared.right_maximal lower inside both.1 odd
          rw [prepared.left_place inHeap, place]
          have different : h.at ⟨k, leftIndex left k⟩ ≠ h.at b := by
            intro same
            have equal := congrArg Block.index (at_injective h level.symm same)
            exact none (.inl ⟨by dsimp only at equal; omega, by dsimp only at equal; omega⟩)
          simp [different]
        · exact absurd (.inr spoilt) none
      · simp
    · split
      · simp
      · simp
  · intro found
    obtain ⟨b, level, inHeap, maximal, same⟩ := found
    subst level
    rw [same]
    exact prepared.pushed range inHeap lower maximal

theorem Prepared.not_spoilt (lower : k < m)
    (subset : ∀ a ∈ initPushes h (h.bdBase + 16 * left) (h.bdBase + 16 * right) k,
      ∃ b : Block, b.level = k ∧ InHeap m b ∧ Maximal (outside left right) ∅ b ∧ a = h.at b) :
    ¬ (leftIndex left k % 2 = 1 ∧ rightIndex right k + 1 = leftIndex left k) := by
  intro spoilt
  obtain ⟨odd, back⟩ := spoilt
  have set := (prepared.left_bit order lower (edge k lower) (order.trans fits)).mpr (.inr ⟨odd, back⟩)
  rw [initPushes_units h order range k, if_pos set] at subset
  obtain ⟨b, level, inHeap, maximal, place⟩ := subset _ (List.mem_append_left _ List.mem_cons_self)
  have upper : leftIndex left k < 2 ^ (m - k) := by
    have even := blocks_even lower
    have last := leftIndex_le (order.trans fits) lower.le
    omega
  rw [prepared.left_place ⟨lower.le, upper⟩] at place
  have same : (⟨k, leftIndex left k⟩ : Block) = b := at_injective h level.symm place
  rw [← same] at maximal
  apply maximal.1
  rw [used_empty, touches_outside]
  right
  have positive := Nat.two_pow_pos k
  have last := (rightIndex_bounds right k).2
  rw [back] at last
  dsimp only
  rw [Nat.succ_mul]
  omega

theorem Prepared.no_conflict (inside : right < 2 ^ m)
    (exactly : ∀ k < m, (initPushes h (h.bdBase + 16 * left) (h.bdBase + 16 * right) k).Nodup ∧
      ∀ a ∈ initPushes h (h.bdBase + 16 * left) (h.bdBase + 16 * right) k,
        ∃ b : Block, b.level = k ∧ InHeap m b ∧ Maximal (outside left right) ∅ b ∧ a = h.at b) (lower : k < m) : ¬ Conflict left right k := by
  intro conflict
  obtain ⟨nodup, subset⟩ := exactly k lower
  have leftBit := prepared.left_bit order lower (edge k lower) (order.trans fits)
  rw [initPushes_units h order range k] at nodup
  rcases conflict with ⟨even, next⟩ | ⟨odd, back⟩
  · have apart : leftIndex left k < rightIndex right k := by omega
    have odd : rightIndex right k % 2 = 1 := by omega
    obtain ⟨b, level, index, inHeap, maximal, place⟩ := prepared.right_maximal lower inside apart odd
    have same : b = ⟨k, leftIndex left k⟩ := by
      ext
      · exact level
      · dsimp only
        omega
    rw [same] at inHeap maximal place
    have set := leftBit.mpr (.inl ⟨inHeap, maximal⟩)
    have set' := (prepared.right_bit order lower inside apart).mpr odd
    rw [if_pos set, if_pos ⟨apart, set'⟩, prepared.left_place inHeap, place] at nodup
    simp at nodup
  · exact prepared.not_spoilt order fits range edge lower (fun a member => subset a member) ⟨odd, back⟩

end Pushes

section Returns

theorem bdInitfreePair_ok (h : Heap) (k i : Nat) (isRight : Bool) (bound : i / 2 / 8 < (h.bdSizes k).alloc.bytes) :
    ∃ size h', bdInitfreePair h k i isRight = .ok (size, h') ∧ h.Same h' := by
  have read := bitIsset_ok h (h.bdSizes k).alloc bound
  unfold bdInitfreePair
  rw [half_eq, read]
  cases bit h.bytes (h.bdSizes k).alloc.start (i / 2) with
  | true => exact ⟨_, _, rfl, ⟨rfl, rfl, rfl⟩⟩
  | false => exact ⟨_, _, rfl, Heap.Same.refl h⟩

theorem initfreeLoop_ok {left right : Nat} (order : left ≤ right) (range : 16 * right < 2 ^ 31) (n k : Nat) (free : Int)
    (h : Heap) (reads : ∀ j, k ≤ j → j < k + n → leftIndex left j / 2 / 8 < (h.bdSizes j).alloc.bytes ∧
      (leftIndex left j < rightIndex right j → rightIndex right j / 2 / 8 < (h.bdSizes j).alloc.bytes)) :
    ∃ total h', initfreeLoop (h.bdBase + 16 * left) (h.bdBase + 16 * right) n k free h = .ok (total, h') := by
  induction n generalizing k free h with
  | zero => exact ⟨free, h, rfl⟩
  | succ n ih =>
    obtain ⟨leftRead, rightRead⟩ := reads k (by omega) (by omega)
    obtain ⟨size, h₁, first, same⟩ := bdInitfreePair_ok h k (leftIndex left k) false leftRead
    have later : ∀ g : Heap, h.Same g → ∀ sum, ∃ total h',
        initfreeLoop (h.bdBase + 16 * left) (h.bdBase + 16 * right) n (k + 1) sum g = .ok (total, h') := by
      intro g kept sum
      rw [← kept.bdBase]
      refine ih (k + 1) sum g fun j low high => ?_
      rw [kept.bdSizes]
      exact reads j (by omega) (by omega)
    rw [initfreeLoop]
    simp only [blkIndexNext_units h k (show 16 * left ≤ 2 ^ 31 by omega), blkIndex_units h k range, first, Bind.bind,
      Except.bind]
    by_cases stop : (rightIndex right k : Int) ≤ leftIndex left k
    · rw [if_pos stop]
      exact later h₁ same _
    rw [if_neg stop]
    obtain ⟨size', h₂, second, same'⟩ := bdInitfreePair_ok h₁ k (rightIndex right k) true
      (by rw [same.bdSizes]; exact rightRead (by omega))
    simp only [second]
    exact later h₂ (same.trans same') _

theorem bdInitfree_outside {h : Heap} {m left : Nat} (placed : Placed h m) (checked : h.checked = true) (least : 4 ≤ m)
    (range : 16 * 2 ^ m < 2 ^ 31) (inside : left < 2 ^ m) (result : Int × Heap) :
    bdInitfree h (h.bdBase + 16 * left) (h.bdBase + 16 * 2 ^ m) ≠ .ok result := by
  intro returned
  have top : h.maxSize = m := Heap.maxSize_of placed.sizes
  obtain ⟨n, rfl⟩ := Nat.exists_eq_succ_of_ne_zero (show m ≠ 0 by omega)
  have leftZero : leftIndex left 0 = left := by
    unfold leftIndex
    omega
  have rightZero : rightIndex (2 ^ (n + 1)) 0 = 2 ^ (n + 1) := by
    unfold rightIndex
    omega
  have bytes : (h.bdSizes 0).alloc.bytes = 2 ^ (n + 1 - 4) := by
    rw [placed.alloc 0 (Nat.zero_le _)]
    exact allocBytes_zero least
  have half : 2 ^ (n + 1) / 2 / 8 = 2 ^ (n + 1 - 4) := by
    rw [Nat.div_div_eq_div_mul]
    exact Nat.pow_div least (by decide)
  unfold bdInitfree at returned
  rw [top, Nat.succ_eq_add_one, initfreeLoop] at returned
  simp only [blkIndexNext_units h 0 (show 16 * left ≤ 2 ^ 31 by omega), blkIndex_units h 0 range, leftZero, rightZero,
    Bind.bind, Except.bind] at returned
  cases first : bdInitfreePair h 0 left false with
  | error fault => simp [first] at returned
  | ok pair =>
    obtain ⟨size, h₁⟩ := pair
    have go : ¬ ((2 ^ (n + 1) : Nat) : Int) ≤ left := by omega
    simp only [first, go, if_false] at returned
    have same : h₁.checked = true ∧ h₁.bdSizes = h.bdSizes := by
      rcases bdInitfreePair_cases first with ⟨-, -, next⟩ | ⟨-, -, next⟩
      · rw [next]
        exact ⟨checked, rfl⟩
      · rw [next]
        exact ⟨checked, rfl⟩
    have fault : bdInitfreePair h₁ 0 (2 ^ (n + 1) : Nat) true = .error .outOfBounds := by
      unfold bdInitfreePair bitIsset bitIndex
      rw [half_eq, if_neg (by omega), if_pos]
      · rfl
      · rw [same.2, bytes, Int.toNat_natCast]
        exact ⟨same.1, half.ge⟩
    rw [fault] at returned
    cases returned

end Returns

section Regions

variable {base endp m length k : Nat}

theorem bdInit_reduce (checked : Bool) (memory : Memory)
    (sizes : sizesFor ((endp : Int) - roundUp base leafSize) = m + 1)
    (region : (endp : Int) - roundUp base leafSize = length) (small : m ≤ 27) (half : blkSize m < 2 * length)
    (fits : length ≤ blkSize m) (room : metaLength m ≤ 16 * (length / 16)) (range : 16 * (length / 16) < 2 ^ 31) :
    ∃ h₂, Prepared h₂ m (metaLength m / 16) (length / 16) ∧ Placed h₂ m ∧ h₂.checked = checked ∧
      ∀ h, bdInit checked memory base endp = .ok h ↔
        bdInitfree h₂ (h₂.bdBase + 16 * (metaLength m / 16)) (h₂.bdBase + 16 * (length / 16)) =
          .ok ((16 * (length / 16) : Nat) - metaLength m, h) := by
  obtain ⟨h₀, start, origin, mode, laid⟩ := bdInitSizes_spec checked memory base endp m sizes
  rw [← origin] at region
  have aligned : h₀.bdBase % 16 = 0 := by
    rw [origin]
    exact roundUp_dvd base
  obtain ⟨h₁, h₂, first, second, mode', prepared⟩ := marks_of_bounds laid aligned region small half fits room range
  have same := (bdMark_same first).trans (bdMark_same second)
  have dvd := metaLength_dvd m
  have left : h₀.bdBase + metaLength m = h₂.bdBase + 16 * (metaLength m / 16) := by
    rw [same.bdBase]
    omega
  have right : bdEnd h₂ endp = h₂.bdBase + 16 * (length / 16) :=
    bdEnd_eq (same.nsizes.trans laid.sizes) (by omega) (by rw [same.bdBase]; exact region) half fits
  have rest : unavailableBytes h₂ endp = (blkSize m : Int) - (16 * (length / 16) : Nat) :=
    unavailableBytes_eq (same.nsizes.trans laid.sizes) (by omega) (by rw [same.bdBase]; exact region) half fits
  have metaBytes : toInt (metaLength m) = metaLength m := by
    exact toInt_nat (by omega)
  have heapSize : ∀ h : Heap, h₀.Same h → h.heapSize = blkSize m := fun h kept =>
    Heap.heapSize_of (kept.nsizes.trans laid.sizes)
  refine ⟨h₂, prepared, laid.toPlaced.transfer same, mode'.trans mode, fun h => ⟨fun result => ?_, fun result => ?_⟩⟩
  · obtain ⟨-, g₁, g₂, total, first', second', third, agree⟩ := bdInit_cases start laid.sizes result
    rw [first] at first'
    cases first'
    rw [second] at second'
    cases second'
    rw [left, right] at third
    have kept := (bdInitfree_spec (same.nsizes.trans laid.sizes) third).2.1
    rw [heapSize h (same.trans kept), rest, metaBytes] at agree
    have value : total = ((16 * (length / 16) : Nat) : Int) - metaLength m := by omega
    rw [third, value]
  · rw [← left, ← right] at result
    have kept := (bdInitfree_spec (same.nsizes.trans laid.sizes) result).2.1
    have top : h₀.maxSize = m := Heap.maxSize_of laid.sizes
    have difference : ((h₀.bdBase + metaLength m : Nat) : Int) - h₀.bdBase = metaLength m := by omega
    have check : ¬ ((16 * (length / 16) : Nat) : Int) - metaLength m ≠
        (h.heapSize : Int) - toInt (metaLength m) - unavailableBytes h₂ endp := by
      rw [heapSize h (same.trans kept), rest, metaBytes]
      omega
    unfold bdInit
    simp only [start, bdMarkDataStructures, bdMarkUnavailable, top, difference, show ¬ 31 ≤ m by omega, if_false,
      Bind.bind, Except.bind, Pure.pure, Except.pure, first, second, result]
    rw [if_neg check]

structure Pushed (h h₂ : Heap) (m left right : Nat) : Prop where
  prepared : Prepared h₂ m left right
  base : h₂.bdBase = h.bdBase
  least : 4 ≤ m
  metaEnd : 16 * left = metaLength m
  order : left ≤ right
  fits : right ≤ 2 ^ m
  range : 16 * right < 2 ^ 31
  exactly : ∀ k < m, (initPushes h₂ (h₂.bdBase + 16 * left) (h₂.bdBase + 16 * right) k).Nodup ∧
    ∀ a, a ∈ initPushes h₂ (h₂.bdBase + 16 * left) (h₂.bdBase + 16 * right) k ↔
      ∃ b : Block, b.level = k ∧ InHeap m b ∧ Maximal (outside left right) ∅ b ∧ a = h₂.at b
  state : Consistent h m (outside left right) ∅
    (fun j => if j < m then (initPushes h₂ (h₂.bdBase + 16 * left) (h₂.bdBase + 16 * right) j).reverse else [])

theorem bdInit_pushed {checked : Bool} {memory : Memory} {h : Heap} (baseRange : base < 2 ^ 64)
    (endRange : endp < 2 ^ 64) (result : bdInit checked memory base endp = .ok h) :
    ∃ m left right h₂, Window checked memory base endp h m left right ∧ Pushed h h₂ m left right := by
  obtain ⟨m, length, lists, region, metaEnd, -⟩ := bdInit_spec baseRange endRange result
  have dvd := metaLength_dvd m
  have raw := metaRaw_le m
  have order := region.room
  have fits := region.fits
  have range := region.range
  have upper : length / 16 ≤ 2 ^ m := by
    unfold blkSize leafSize at fits
    omega
  have high : bdEnd h endp = h.bdBase + 16 * (length / 16) :=
    bdEnd_eq region.placed.sizes (Nat.le_succ_of_le region.small) region.region region.half fits
  obtain ⟨h₂, prepared, placed, -, reduce⟩ := bdInit_reduce checked memory region.sizes
    (by rw [← region.origin]; exact region.region) region.small region.half fits order range
  have freed := (reduce h).mp result
  obtain ⟨final, same, count⟩ := bdInitfree_spec placed.sizes freed
  have bytes := pushedBytes_bound h₂ (h₂.bdBase + 16 * (metaLength m / 16)) (h₂.bdBase + 16 * (length / 16)) m
  have total := exact_of_total region.small count bytes order rfl
  have spread : span (pushedBytes (initPushes h₂ (h₂.bdBase + 16 * (metaLength m / 16))
      (h₂.bdBase + 16 * (length / 16)))) 0 m = 16 * (length / 16 - metaLength m / 16) := by
    rw [total]
    omega
  have state := prepared.consistent range upper spread
  rw [← final] at state
  exact ⟨m, metaLength m / 16, length / 16, h₂,
    ⟨region.placed, region.origin, by omega, by omega, upper, by rw [metaEnd]; omega, high⟩,
    ⟨prepared, same.bdBase.symm, region.least, by omega, by omega, upper, range, prepared.exact range upper spread, state⟩⟩

/-- The lengths of the region for which the boundaries never meet in one pair and end inside the heap. -/
def GoodLength (length : Nat) : Prop :=
  (192 ≤ length ∧ length < 224) ∨ (256 < length ∧ length < 320) ∨ (512 < length ∧ ∀ j, length ≠ 2 ^ j)

theorem no_conflict_large {left right : Nat} (lower : 6 ≤ m) (positive : 0 < left) (quarter : 4 * left ≤ 2 ^ m)
    (half : 2 ^ m ≤ 2 * right) (below : k < m) : ¬ Conflict left right k := by
  unfold Conflict
  by_cases top : k + 1 = m
  · subst top
    have first : leftIndex left k = 1 := by
      have some := (lt_leftIndex left k 0).mpr (by omega)
      have small : ¬ 1 < leftIndex left k := by
        rw [lt_leftIndex]
        rw [Nat.pow_succ] at quarter
        omega
      omega
    have second : 1 ≤ rightIndex right k := by
      unfold rightIndex
      rw [Nat.le_div_iff_mul_le (Nat.two_pow_pos k)]
      rw [Nat.pow_succ] at half
      omega
    omega
  · obtain ⟨d, rfl⟩ : ∃ d, m = k + 2 + d := ⟨m - (k + 2), by omega⟩
    have size : 2 ^ (k + 2 + d) = 4 * (2 ^ d * 2 ^ k) := by ring
    rw [size] at quarter half
    have first : leftIndex left k ≤ 2 ^ d := by
      by_contra greater
      have less := (lt_leftIndex left k (2 ^ d)).mp (Nat.not_le.mp greater)
      omega
    have second : 2 * 2 ^ d ≤ rightIndex right k := by
      unfold rightIndex
      rw [Nat.le_div_iff_mul_le (Nat.two_pow_pos k), Nat.mul_assoc]
      omega
    by_cases deep : d = 0
    · subst deep
      omega
    obtain ⟨d', rfl⟩ := Nat.exists_eq_succ_of_ne_zero deep
    have double : 2 ^ (d' + 1) = 2 * 2 ^ d' := Nat.pow_succ'
    have one' := Nat.two_pow_pos d'
    rw [Nat.succ_eq_add_one, double] at first second
    omega

theorem edge_of_least (least : 4 ≤ m) (below : k < m)
    (beyond : 2 ^ (m - k) ≤ leftIndex (metaLength m / 16) k) : m - k ≤ 3 := by
  have below' : (2 ^ (m - k) - 1) * 2 ^ k < metaLength m / 16 :=
    (lt_leftIndex _ k _).mp (by have := Nat.two_pow_pos (m - k); omega)
  have whole : 2 ^ (m - k) * 2 ^ k = 2 ^ m := by rw [← Nat.pow_add, Nat.sub_add_cancel below.le]
  rw [Nat.sub_mul, whole, Nat.one_mul] at below'
  have split : 2 ^ m = 2 ^ (m - 1 - k) * 2 ^ k * 2 := by
    rw [← Nat.pow_add, ← Nat.pow_succ]
    congr 1
    omega
  have one : 2 ^ k ≤ 2 ^ (m - 1 - k) * 2 ^ k := Nat.le_mul_of_pos_left _ (Nat.two_pow_pos _)
  by_cases large : 6 ≤ m
  · have quarter := metaLength_large large
    unfold blkSize leafSize at quarter
    omega
  by_cases four : m = 4
  · subst four
    rw [metaLength_four] at below'
    by_contra deep
    have zero : k = 0 := by omega
    subst zero
    omega
  · have five : m = 5 := by omega
    subst five
    rw [metaLength_five] at below'
    omega

theorem good_iff (least : 4 ≤ m) (half : blkSize m < 2 * length) (fits : length ≤ blkSize m)
    (room : metaLength m ≤ 16 * (length / 16)) :
    (length / 16 < 2 ^ m ∧ ∀ k < m, ¬ Conflict (metaLength m / 16) (length / 16) k) ↔ GoodLength length := by
  have size : blkSize m = 2 ^ m * 16 := rfl
  have power : blkSize m = 2 ^ (m + 4) := by
    rw [size, Nat.pow_add]
  by_cases large : 6 ≤ m
  · have quarter := metaLength_large large
    have headers := metaLength_headers m
    have even : 2 ^ m = 2 * 2 ^ (m - 0 - 1) := blocks_even (show 0 < m by omega)
    have none : ∀ k < m, ¬ Conflict (metaLength m / 16) (length / 16) k := fun k below =>
      no_conflict_large large (by omega) (by omega) (by omega) below
    have big : 2 ^ 6 ≤ 2 ^ m := Nat.pow_le_pow_right (by decide) large
    unfold GoodLength
    constructor
    · intro good
      refine .inr (.inr ⟨by omega, fun j same => ?_⟩)
      have upper : 2 ^ j < 2 ^ (m + 4) := by omega
      have lower : 2 ^ (m + 3) < 2 ^ j := by
        have double : 2 ^ (m + 4) = 2 * 2 ^ (m + 3) := Nat.pow_succ'
        omega
      have first := (Nat.pow_lt_pow_iff_right (by decide)).mp upper
      have second := (Nat.pow_lt_pow_iff_right (by decide)).mp lower
      omega
    · intro good
      refine ⟨?_, none⟩
      rcases good with small | small | ⟨-, other⟩
      · omega
      · omega
      · have different := other (m + 4)
        omega
  · by_cases four : m = 4
    · subst four
      rw [metaLength_four] at room ⊢
      have table : ∀ r < 17, 11 ≤ r → ((r < 2 ^ 4 ∧ ∀ k < 4, ¬ Conflict (176 / 16) r k) ↔ r = 12 ∨ r = 13) := by decide
      rw [table (length / 16) (by omega) (by omega)]
      unfold GoodLength
      constructor
      · intro cases
        left
        omega
      · intro good
        rcases good with small | small | ⟨small, -⟩ <;> omega
    · have five : m = 5 := by omega
      subst five
      rw [metaLength_five] at room ⊢
      have table : ∀ r < 33, 16 ≤ r → ((r < 2 ^ 5 ∧ ∀ k < 5, ¬ Conflict (208 / 16) r k) ↔ r < 20) := by decide
      rw [table (length / 16) (by omega) (by omega)]
      unfold GoodLength
      constructor
      · intro small
        right
        left
        omega
      · intro good
        rcases good with small | small | ⟨small, -⟩ <;> omega

end Regions

section Correctness

/-- A block of size `k` at `a` between `low` and `high` that lies in no larger one there. -/
def MaximalIn (h : Heap) (low high k a : Nat) : Prop :=
  ∃ i < h.nblk k, a = h.bdBase + i * blkSize k ∧ low ≤ a ∧ a + blkSize k ≤ high ∧
    ¬ (low ≤ h.bdBase + i / 2 * blkSize (k + 1) ∧
      h.bdBase + i / 2 * blkSize (k + 1) + blkSize (k + 1) ≤ high)

/-- `bd_init` returns, with every bit access checked, and has pushed each maximal block once and nothing else:
    it never takes a block from a list again. -/
def InitCorrect (memory : Memory) (base endp : Nat) : Prop :=
  ∃ (h : Heap) (lists : Nat → List Nat), bdInit true memory base endp = .ok h ∧ (∀ k ≤ h.maxSize, Ring h.links (h.free k) (lists k)) ∧
    lists h.maxSize = [] ∧ ∀ k < h.maxSize, (lists k).Nodup ∧
      ∀ a, a ∈ lists k ↔ MaximalIn h (bdInitSizes true memory base endp).1 (bdEnd h endp) k a

variable {h : Heap} {memory : Memory} {base endp : Nat}

theorem maximalIn_iff {m left right : Nat} (sizes : h.nsizes = m + 1) {k : Nat} (lower : k < m) (a : Nat) :
    MaximalIn h (h.bdBase + 16 * left) (h.bdBase + 16 * right) k a ↔
      ∃ b : Block, b.level = k ∧ InHeap m b ∧ Maximal (outside left right) ∅ b ∧ a = h.at b := by
  have count : h.nblk k = 2 ^ (m - k) := by
    unfold Heap.nblk Heap.maxSize
    rw [sizes]
    rfl
  have maximal : ∀ i, Maximal (outside left right) ∅ ⟨k, i⟩ ↔
      h.bdBase + 16 * left ≤ h.bdBase + i * blkSize k ∧ h.bdBase + i * blkSize k + blkSize k ≤ h.bdBase + 16 * right ∧
        ¬ (h.bdBase + 16 * left ≤ h.bdBase + i / 2 * blkSize (k + 1) ∧
          h.bdBase + i / 2 * blkSize (k + 1) + blkSize (k + 1) ≤ h.bdBase + 16 * right) := by
    intro i
    unfold AlignedBlock.Maximal
    rw [used_empty, used_empty, touches_outside, touches_outside]
    unfold Block.parent blkSize leafSize
    dsimp only
    rw [Nat.succ_mul, Nat.succ_mul, ← Nat.mul_assoc, ← Nat.mul_assoc]
    omega
  constructor
  · intro block
    obtain ⟨i, bound, place, low, high, larger⟩ := block
    rw [count] at bound
    subst place
    exact ⟨⟨k, i⟩, rfl, ⟨lower.le, bound⟩, (maximal i).mpr ⟨low, high, larger⟩, rfl⟩
  · intro block
    obtain ⟨b, level, inside, free, place⟩ := block
    subst level
    obtain ⟨low, high, larger⟩ := (maximal b.index).mp free
    have address : a = h.bdBase + b.index * blkSize b.level := place
    subst address
    exact ⟨b.index, by rw [count]; exact inside.2, rfl, low, high, larger⟩

theorem region_of_room (order : base < endp) (endRange : endp < 2 ^ 64)
    (heap : (bdInitSizes true memory base endp).2.heapSize < 2 ^ 31)
    (room : (bdInitSizes true memory base endp).1 ≤ bdEnd (bdInitSizes true memory base endp).2 endp) :
    ∃ m, sizesFor ((endp : Int) - roundUp base leafSize) = m + 1 ∧
      (endp : Int) - roundUp base leafSize = (endp - roundUp base leafSize : Nat) ∧ 4 ≤ m ∧ m ≤ 26 ∧
      blkSize m < 2 * (endp - roundUp base leafSize) ∧ endp - roundUp base leafSize ≤ blkSize m ∧
      metaLength m ≤ 16 * ((endp - roundUp base leafSize) / 16) := by
  have rounded := roundUp_bounds base
  have lower : -16 < (endp : Int) - roundUp base leafSize := by
    unfold leafSize at rounded ⊢
    omega
  have upper : (endp : Int) - roundUp base leafSize < 2 ^ 64 := by omega
  rcases sizesFor_spec lower upper with ⟨tiny, one⟩ | ⟨m, sizes, half, fits, positive⟩
  · obtain ⟨h₀, start, origin, -, laid⟩ := bdInitSizes_spec true memory base endp 0 one
    rw [start] at room
    dsimp only at room
    have heapSize : h₀.heapSize = 16 := Heap.heapSize_of laid.sizes
    have metaBytes : metaLength 0 = 48 := by decide
    have end0 : bdEnd h₀ endp ≤ h₀.bdBase + 16 := by
      unfold bdEnd unavailableBytes
      dsimp only
      rw [heapSize, origin, toInt_of_range (by omega) (by omega), if_pos (by omega)]
      omega
    omega
  · obtain ⟨h₀, start, origin, -, laid⟩ := bdInitSizes_spec true memory base endp m sizes
    have heapSize : h₀.heapSize = blkSize m := Heap.heapSize_of laid.sizes
    rw [start] at heap room
    dsimp only at heap room
    rw [heapSize] at heap
    have region : (endp : Int) - roundUp base leafSize = (endp - roundUp base leafSize : Nat) := by omega
    rw [region] at half fits
    have small : m ≤ 26 := by
      by_contra large
      have bound : 2 ^ 27 ≤ 2 ^ m := Nat.pow_le_pow_right (by decide) (by omega)
      unfold blkSize leafSize at heap
      omega
    have half' : blkSize m < 2 * (endp - roundUp base leafSize) := by omega
    have fits' : endp - roundUp base leafSize ≤ blkSize m := by omega
    rw [bdEnd_eq laid.sizes (by omega) (by rw [origin]; exact region) half' fits'] at room
    refine ⟨m, sizes, region, ?_, small, half', fits', by omega⟩
    by_contra tiny
    have larger := metaLength_tiny (show m ≤ 3 by omega)
    omega

theorem initCorrect_of_returns (baseRange : base < 2 ^ 64)
    (endRange : endp < 2 ^ 64) (result : bdInit true memory base endp = .ok h) : InitCorrect memory base endp := by
  obtain ⟨m, left, right, lists, window, state⟩ := bdInit_window baseRange endRange result
  have top : h.maxSize = m := Heap.maxSize_of window.placed.sizes
  unfold InitCorrect
  refine ⟨h, lists, result, ?_, ?_, ?_⟩
  · rw [top]
    exact state.rings.ring
  · rw [top]
    exact state.top_empty
  · rw [top, window.low, window.high]
    intro k lower
    refine ⟨(List.nodup_cons.mp (state.rings.ring k lower.le).nodup).2, fun a => ?_⟩
    rw [maximalIn_iff window.placed.sizes lower a]
    exact state.listed k lower.le a

section Window

variable {h : Heap} {m left right : Nat} (prepared : Prepared h m left right) (order : left ≤ right)
  (inside : right < 2 ^ m) (edge : ∀ k < m, 2 ^ (m - k) ≤ leftIndex left k → m - k ≤ 3)

include prepared order inside edge

theorem Prepared.reads {j : Nat} (below : j < m) : leftIndex left j / 2 / 8 < (h.bdSizes j).alloc.bytes ∧
    (leftIndex left j < rightIndex right j → rightIndex right j / 2 / 8 < (h.bdSizes j).alloc.bytes) := by
  have first : 0 / 2 / 8 < (h.bdSizes j).alloc.bytes :=
    prepared.geometry.alloc ⟨j, 0⟩ ⟨below.le, Nat.two_pow_pos _⟩
  refine ⟨?_, fun _ => ?_⟩
  · by_cases within : leftIndex left j < 2 ^ (m - j)
    · exact prepared.geometry.alloc ⟨j, leftIndex left j⟩ ⟨below.le, within⟩
    · have narrow : 2 ^ (m - j) ≤ 2 ^ 3 := Nat.pow_le_pow_right (by decide) (edge j below (by omega))
      have last := leftIndex_le (order.trans inside.le) below.le
      omega
  · exact prepared.geometry.alloc ⟨j, rightIndex right j⟩ (rightIndex_inside inside below.le)

theorem Prepared.returns (range : 16 * right < 2 ^ 31) (free : ∀ k < m, ¬ Conflict left right k) :
    ∃ h', bdInitfree h (h.bdBase + 16 * left) (h.bdBase + 16 * right) = .ok ((16 * (right - left) : Nat), h') := by
  have exactly := fun k lower => prepared.pushes_exact order inside.le range edge inside free (k := k) lower
  have used : Used (outside left right) ∅ ⟨m, 0⟩ := by
    rw [used_empty, touches_outside]
    left
    simpa using prepared.root
  have spread : span (pushedBytes (initPushes h (h.bdBase + 16 * left) (h.bdBase + 16 * right))) 0 m =
      16 * (right - left) := by
    have total := total_listed used _ (fun k lower => (exactly k lower).1) (fun k lower => (exactly k lower).2)
    rw [card_window inside.le] at total
    rw [← total]
    unfold span pushedBytes
    exact Finset.sum_congr rfl fun k _ => by rw [Nat.zero_add]
  obtain ⟨total, h', returned⟩ := initfreeLoop_ok order range m 0 0 h
    fun j _ lower => prepared.reads order inside edge (show j < m by omega)
  have top : h.maxSize = m := Heap.maxSize_of prepared.geometry.sizes
  have freed : bdInitfree h (h.bdBase + 16 * left) (h.bdBase + 16 * right) = .ok (total, h') := by
    unfold bdInitfree
    rw [top]
    exact returned
  obtain ⟨-, -, count⟩ := bdInitfree_spec prepared.geometry.sizes freed
  rw [spread, toInt_nat (by omega)] at count
  rw [count] at freed
  exact ⟨h', freed⟩

end Window

/-- `bd_init` is correct exactly for the good lengths. For the others it reads a bit behind its array, pushes one
    block twice, or pushes one that is not free, and panics. -/
theorem bdInit_correct_iff (memory : Memory) (base endp : Nat) (order : base < endp) (endRange : endp < 2 ^ 64)
    (heap : (bdInitSizes true memory base endp).2.heapSize < 2 ^ 31)
    (room : (bdInitSizes true memory base endp).1 ≤ bdEnd (bdInitSizes true memory base endp).2 endp) :
    InitCorrect memory base endp ↔ GoodLength (endp - roundUp base leafSize) := by
  obtain ⟨m, sizes, region, least, small, half, fits, room'⟩ := region_of_room order endRange heap room
  generalize endp - roundUp base leafSize = length at *
  have bound : 2 ^ m ≤ 2 ^ 26 := Nat.pow_le_pow_right (by decide) small
  have size : blkSize m = 2 ^ m * 16 := rfl
  have range : 16 * (length / 16) < 2 ^ 31 := by omega
  have upper : length / 16 ≤ 2 ^ m := by omega
  have dvd := metaLength_dvd m
  have window : metaLength m / 16 ≤ length / 16 := by omega
  have edge : ∀ k < m, 2 ^ (m - k) ≤ leftIndex (metaLength m / 16) k → m - k ≤ 3 := fun k below => edge_of_least least below
  obtain ⟨h₂, prepared, placed, mode, reduce⟩ :=
    bdInit_reduce true memory sizes region (by omega) half fits room' range
  rw [← good_iff least half fits room']
  constructor
  · intro correct
    obtain ⟨h, lists, result, -⟩ := correct
    have freed := (reduce h).mp result
    have inside : length / 16 < 2 ^ m := by
      by_contra whole
      have equal : length / 16 = 2 ^ m := by omega
      rw [equal] at freed
      have shorter := metaLength_lt least
      exact bdInitfree_outside placed mode least (by omega) (by omega) _ freed
    obtain ⟨-, -, count⟩ := bdInitfree_spec placed.sizes freed
    have bytes := pushedBytes_bound h₂ (h₂.bdBase + 16 * (metaLength m / 16)) (h₂.bdBase + 16 * (length / 16)) m
    have spread := exact_of_total (show m ≤ 27 by omega) count bytes room' rfl
    have exactly := prepared.exact range upper (by rw [spread]; omega)
    exact ⟨inside, fun k below => prepared.no_conflict window upper range edge inside
      (fun k lower => ⟨(exactly k lower).1, fun a member => ((exactly k lower).2 a).mp member⟩) below⟩
  · intro good
    obtain ⟨inside, free⟩ := good
    obtain ⟨h, freed⟩ := prepared.returns window inside edge range free
    have value : ((16 * (length / 16 - metaLength m / 16) : Nat) : Int) =
        ((16 * (length / 16) : Nat) : Int) - metaLength m := by omega
    rw [value] at freed
    exact initCorrect_of_returns (order.trans endRange) endRange ((reduce h).mpr freed)

theorem bdInit_correct_700 : GoodLength 700 ∧ InitCorrect blankMemory 4096 4796 := by
  have good : GoodLength 700 := by
    refine .inr (.inr ⟨by decide, fun j same => ?_⟩)
    rcases Nat.lt_or_ge j 10 with small | large
    · have bound : 2 ^ j ≤ 2 ^ 9 := Nat.pow_le_pow_right (by decide) (by omega)
      omega
    · have bound : 2 ^ 10 ≤ 2 ^ j := Nat.pow_le_pow_right (by decide) large
      omega
  exact ⟨good, (bdInit_correct_iff blankMemory 4096 4796 (by decide) (by decide) (by decide +kernel)
    (by decide +kernel)).mpr good⟩

/-- A page as a heap: the region is as long as the heap. And 400 bytes, where both boundaries fall into the same
    pair of blocks of 128 bytes. -/
theorem bdInit_panics_4096_400 :
    ((bdInitSizes true blankMemory 4096 8192).2.heapSize < 2 ^ 31 ∧
      (bdInitSizes true blankMemory 4096 8192).1 ≤ bdEnd (bdInitSizes true blankMemory 4096 8192).2 8192 ∧
      faultOf (bdInit true blankMemory 4096 8192) = some .outOfBounds ∧
      faultOf (bdInit false blankMemory 4096 8192) = some (.panic "bd_init: free mem") ∧
      ¬ InitCorrect blankMemory 4096 8192) ∧
    ((bdInitSizes true blankMemory 4096 4496).2.heapSize < 2 ^ 31 ∧
      (bdInitSizes true blankMemory 4096 4496).1 ≤ bdEnd (bdInitSizes true blankMemory 4096 4496).2 4496 ∧
      faultOf (bdInit false blankMemory 4096 4496) = some (.panic "bd_init: free mem") ∧
      ¬ InitCorrect blankMemory 4096 4496) := by
  have page : faultOf (bdInit true blankMemory 4096 8192) = some .outOfBounds := by decide +kernel
  have short : faultOf (bdInit true blankMemory 4096 4496) = some (.panic "bd_init: free mem") := by decide +kernel
  refine ⟨⟨by decide +kernel, by decide +kernel, page, by decide +kernel, fun correct => ?_⟩, by decide +kernel,
    by decide +kernel, by decide +kernel, fun correct => ?_⟩
  · obtain ⟨h, lists, result, -⟩ := correct
    rw [result] at page
    cases page
  · obtain ⟨h, lists, result, -⟩ := correct
    rw [result] at short
    cases short

end Correctness

end OShard.Buddy
