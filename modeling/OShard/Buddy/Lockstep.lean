import OShard.Buddy.Reference

namespace OShard.Buddy

open LinkedList BitArray AlignedBlock

section Start

def Ref.pushes (r : Ref) (bdLeft bdRight k : Nat) : List Nat :=
  let left : Block := ⟨k, (bdLeft + (blkSize k - 1)) / blkSize k⟩
  let right : Block := ⟨k, bdRight / blkSize k⟩
  (if r.alloc left = r.alloc left.buddy then [] else [r.addr left]) ++
    (if right.index ≤ left.index ∨ r.alloc right = r.alloc right.buddy then [] else [r.addr right.buddy])

theorem Ref.initfreeLoop_lists (bdLeft bdRight n k : Nat) (r : Ref) :
    Ref.initfreeLoop bdLeft bdRight n k r = { r with
      lists := fun j => if k ≤ j ∧ j < k + n then (r.pushes bdLeft bdRight j).reverse ++ r.lists j else r.lists j } := by
  induction n generalizing k r with
  | zero =>
    have same : (fun j => if k ≤ j ∧ j < k + 0 then (r.pushes bdLeft bdRight j).reverse ++ r.lists j else r.lists j) =
        r.lists := by
      funext j
      rw [if_neg (by omega)]
    rw [same]
    rfl
  | succ n ih =>
    have step : Ref.initfreeLoop bdLeft bdRight (n + 1) k r = Ref.initfreeLoop bdLeft bdRight n (k + 1)
        { r with lists := Function.update r.lists k ((r.pushes bdLeft bdRight k).reverse ++ r.lists k) } := by
      rw [Ref.initfreeLoop]
      unfold Ref.pushes Ref.initfreePair
      by_cases left : r.alloc ⟨k, (bdLeft + (blkSize k - 1)) / blkSize k⟩ =
          r.alloc (Block.buddy ⟨k, (bdLeft + (blkSize k - 1)) / blkSize k⟩)
      · by_cases stop : bdRight / blkSize k ≤ (bdLeft + (blkSize k - 1)) / blkSize k
        · simp [left, stop]
        · by_cases right : r.alloc ⟨k, bdRight / blkSize k⟩ = r.alloc (Block.buddy ⟨k, bdRight / blkSize k⟩)
          · simp [left, stop, right]
          · simp [left, stop, right, Ref.push]
      · by_cases stop : bdRight / blkSize k ≤ (bdLeft + (blkSize k - 1)) / blkSize k
        · simp [left, stop, Ref.push]
        · by_cases right : r.alloc ⟨k, bdRight / blkSize k⟩ = r.alloc (Block.buddy ⟨k, bdRight / blkSize k⟩)
          · simp [left, stop, right, Ref.push]
          · simp [left, stop, right, Ref.push, Ref.addr]
    rw [step, ih]
    congr 1
    funext j
    dsimp only
    by_cases here : j = k
    · subst here
      rw [if_neg (by omega), if_pos (by omega), Function.update_self]
    rw [Function.update_of_ne here]
    by_cases inside : k + 1 ≤ j ∧ j < k + 1 + n
    · rw [if_pos inside, if_pos (by omega)]
      rfl
    · rw [if_neg inside, if_neg (by omega)]

def Ref.marked (m bdBase left right : Nat) : Ref :=
  ((⟨m + 1, bdBase, fun _ => [], fun _ => false, fun _ => false⟩ : Ref).mark 0 (16 * left)).mark (16 * right) (blkSize m)

theorem Ref.init_eq (m bdBase left right : Nat) :
    Ref.init (m + 1) bdBase (bdBase + 16 * left) (bdBase + 16 * right) = { Ref.marked m bdBase left right with
      lists := fun j =>
        if j < m then ((Ref.marked m bdBase left right).pushes (16 * left) (16 * right) j).reverse else [] } := by
  unfold Ref.init
  dsimp only
  rw [Nat.add_sub_cancel_left, Nat.add_sub_cancel_left, Nat.add_sub_cancel, Ref.initfreeLoop_lists]
  unfold Ref.marked
  congr 1
  funext j
  by_cases below : j < m
  · rw [if_pos below, if_pos (by omega)]
    exact List.append_nil _
  · rw [if_neg below, if_neg (by omega)]
    rfl

variable {m : Nat} (base left right : Nat) {b : Block}

theorem Ref.marked_alloc (inside : InHeap m b) :
    (Ref.marked m base left right).alloc b = true ↔ Touches (outside left right) b := by
  have level := inside.1
  rw [touches_outside]
  unfold Ref.marked Ref.mark
  dsimp only
  rw [meets_low, meets_high inside]
  simp
  omega

theorem Ref.marked_beyond {left : Nat} (fits : left ≤ 2 ^ m) (level : b.level ≤ m) (beyond : 2 ^ (m - b.level) ≤ b.index) :
    (Ref.marked m base left right).alloc b = false := by
  have whole : 2 ^ (m - b.level) * 2 ^ b.level = 2 ^ m := by rw [← Nat.pow_add, Nat.sub_add_cancel level]
  have start : 2 ^ (m - b.level) * 2 ^ b.level ≤ b.index * 2 ^ b.level := Nat.mul_le_mul_right _ beyond
  have low : ¬ b.index * 2 ^ b.level < left := by omega
  have high : ¬ b.index * blkSize b.level < blkSize m := by
    unfold blkSize leafSize
    rw [← Nat.mul_assoc]
    omega
  unfold Ref.marked Ref.mark
  dsimp only
  rw [meets_low]
  simp [low, meets, high]

theorem Ref.marked_flags : Flags (Ref.marked m base left right) m (outside left right) ∅ := by
  refine ⟨rfl, fun b inside lower => ?_, fun b inside positive => ?_⟩
  · rw [marked_empty]
    exact Ref.marked_alloc base left right inside
  · rw [split_empty, touches_outside]
    have level := inside.1
    unfold Ref.marked Ref.mark
    dsimp only
    rw [meets_low, meets_high inside]
    simp
    omega

end Start

section Boundaries

theorem heap_room {m : Nat} (range : 16 * 2 ^ m < 2 ^ 31) {size : Nat} (half : 2 * size ≤ blkSize m) :
    blkSize m + size < 2 ^ 31 := by
  have small : m < 27 := (Nat.pow_lt_pow_iff_right (by decide : 1 < 2)).mp (show 2 ^ m < 2 ^ 27 by omega)
  have bound : 2 ^ m ≤ 2 ^ 26 := Nat.pow_le_pow_right (by decide) (by omega)
  unfold blkSize leafSize at half ⊢
  omega

variable {h h₂ : Heap} {m left right k : Nat} (base : Nat) (pushed : Pushed h h₂ m left right) (lower : k < m)

include pushed lower

theorem Pushed.subset : ∀ a ∈ initPushes h₂ (h₂.bdBase + 16 * left) (h₂.bdBase + 16 * right) k,
    ∃ b : Block, b.level = k ∧ InHeap m b ∧ Maximal (outside left right) ∅ b ∧ a = h₂.at b :=
  fun a member => ((pushed.exactly k lower).2 a).mp member

theorem Pushed.left_bit : bit h₂.bytes (h₂.bdSizes k).alloc.start (leftIndex left k / 2) = true ↔
    InHeap m ⟨k, leftIndex left k⟩ ∧ Maximal (outside left right) ∅ ⟨k, leftIndex left k⟩ := by
  have edge : ∀ k < m, 2 ^ (m - k) ≤ leftIndex left k → m - k ≤ 3 := by
    intro k below
    have start : left = metaLength m / 16 := by
      have metaEnd := pushed.metaEnd
      omega
    rw [start]
    exact edge_of_least pushed.least below
  have spoilt := pushed.prepared.not_spoilt pushed.order pushed.fits pushed.range edge lower (pushed.subset lower)
  rw [pushed.prepared.left_bit pushed.order lower (edge k lower) (pushed.order.trans pushed.fits)]
  simp [spoilt]

theorem Pushed.left_flags :
    bit h₂.bytes (h₂.bdSizes k).alloc.start (leftIndex left k / 2) = true ↔
      ¬ (Ref.marked m base left right).alloc ⟨k, leftIndex left k⟩ =
        (Ref.marked m base left right).alloc (Block.buddy ⟨k, leftIndex left k⟩) := by
  have fits := pushed.order.trans pushed.fits
  have first := leftIndex_lower left k
  have even := blocks_even lower
  have level : (Block.buddy ⟨k, leftIndex left k⟩).level = k := rfl
  have neighbour := Block.buddy_adjacent ⟨k, leftIndex left k⟩
  dsimp only at neighbour
  rw [pushed.left_bit lower]
  by_cases inside : leftIndex left k < 2 ^ (m - k)
  · have inHeap : InHeap m ⟨k, leftIndex left k⟩ := ⟨lower.le, inside⟩
    have here := Ref.marked_alloc base left right inHeap
    have there := Ref.marked_alloc base left right (buddy_inside inHeap lower)
    rw [maximal_iff_buddy, used_empty, used_empty, Bool.eq_iff_iff, here, there]
    by_cases touched : Touches (outside left right) ⟨k, leftIndex left k⟩
    · -- The block starts at or after `left`, so it reaches over `right`, and so does its right neighbour.
      have both : Touches (outside left right) (Block.buddy ⟨k, leftIndex left k⟩) := by
        rw [touches_outside] at touched ⊢
        rw [level]
        dsimp only at touched
        rcases neighbour with ⟨-, after, -⟩ | ⟨-, before, -⟩
        · have positive := Nat.two_pow_pos k
          right
          rw [after, Nat.succ_mul]
          omega
        · left
          exact (lt_leftIndex left k _).mp (by omega)
      simp [touched, both]
    · simp [touched, inHeap]
  · have beyond : 2 ^ (m - k) ≤ (Block.buddy ⟨k, leftIndex left k⟩).index := by
      unfold Block.buddy
      dsimp only
      split
      · omega
      · omega
    have here := Ref.marked_beyond base right (b := ⟨k, leftIndex left k⟩) fits lower.le (Nat.not_lt.mp inside)
    have there := Ref.marked_beyond base right (b := Block.buddy ⟨k, leftIndex left k⟩) fits lower.le beyond
    have outside' : ¬ InHeap m ⟨k, leftIndex left k⟩ := fun inHeap => inside inHeap.2
    rw [here, there]
    simp [outside']

theorem Pushed.right_bit (apart : leftIndex left k < rightIndex right k) :
    bit h₂.bytes (h₂.bdSizes k).alloc.start (rightIndex right k / 2) = true ↔
      right < 2 ^ m ∧ rightIndex right k % 2 = 1 := by
  by_cases inside : right < 2 ^ m
  · simp [pushed.prepared.right_bit pushed.order lower inside apart, inside]
  simp only [inside, false_and, iff_false]
  intro set
  have even := blocks_even lower
  have whole : right = 2 ^ m := Nat.le_antisymm pushed.fits (Nat.not_lt.mp inside)
  have index : rightIndex right k = 2 ^ (m - k) := by
    unfold rightIndex
    rw [whole, Nat.pow_div lower.le (by decide)]
  have buddy : (Block.buddy ⟨k, rightIndex right k⟩).index = rightIndex right k + 1 := by
    unfold Block.buddy
    dsimp only
    rw [if_pos (by omega)]
  have member : addr h₂ k (buddyIndex (rightIndex right k)) ∈
      initPushes h₂ (h₂.bdBase + 16 * left) (h₂.bdBase + 16 * right) k := by
    rw [initPushes_units h₂ pushed.order pushed.range k, if_pos (show _ ∧ _ from ⟨apart, set⟩)]
    exact List.mem_append_right _ List.mem_cons_self
  obtain ⟨b, level, inHeap, -, place⟩ := pushed.subset lower _ member
  have offset := offset_lt inHeap
  have same := buddyIndex_eq ⟨k, rightIndex right k⟩
  have size : (rightIndex right k + 1) * blkSize k = blkSize m + blkSize k := by
    rw [index, Nat.succ_mul]
    unfold blkSize
    rw [← Nat.mul_assoc, ← Nat.pow_add, Nat.sub_add_cancel lower.le]
  have half : 2 * blkSize k ≤ blkSize m := by
    rw [← blkSize_succ]
    unfold blkSize
    exact Nat.mul_le_mul_right _ (Nat.pow_le_pow_right (by decide) lower)
  have small : blkSize m + blkSize k < 2 ^ 31 := heap_room (by rw [← whole]; exact pushed.range) half
  dsimp only at same
  rw [same, buddy, addr_offset h₂ k _ (by rw [size]; exact small), size] at place
  unfold Heap.at at place
  omega

theorem Pushed.right_flags (apart : leftIndex left k < rightIndex right k) :
    bit h₂.bytes (h₂.bdSizes k).alloc.start (rightIndex right k / 2) = true ↔
      ¬ (Ref.marked m base left right).alloc ⟨k, rightIndex right k⟩ =
        (Ref.marked m base left right).alloc (Block.buddy ⟨k, rightIndex right k⟩) := by
  have bounds := rightIndex_bounds right k
  have first := leftIndex_lower left k
  have even := blocks_even lower
  have level : (Block.buddy ⟨k, rightIndex right k⟩).level = k := rfl
  rw [pushed.right_bit lower apart]
  by_cases inside : right < 2 ^ m
  · have inHeap := rightIndex_inside inside lower.le
    have here := Ref.marked_alloc base left right inHeap
    have there := Ref.marked_alloc base left right (buddy_inside inHeap lower)
    have last : (rightIndex right k + 1) * 2 ^ k = rightIndex right k * 2 ^ k + 2 ^ k := Nat.succ_mul _ _
    rw [Bool.eq_iff_iff, here, there, touches_outside, touches_outside, level]
    dsimp only
    by_cases parity : rightIndex right k % 2 = 0
    · have index : (Block.buddy ⟨k, rightIndex right k⟩).index = rightIndex right k + 1 := by
        unfold Block.buddy
        dsimp only
        rw [if_pos parity]
      rw [index, Nat.succ_mul (rightIndex right k + 1)]
      omega
    · have index : (Block.buddy ⟨k, rightIndex right k⟩).index + 1 = rightIndex right k := by
        unfold Block.buddy
        dsimp only
        rw [if_neg parity]
        omega
      have start : leftIndex left k * 2 ^ k ≤ (Block.buddy ⟨k, rightIndex right k⟩).index * 2 ^ k :=
        Nat.mul_le_mul_right _ (by omega)
      rw [index]
      omega
  · have index : rightIndex right k = 2 ^ (m - k) := by
      unfold rightIndex
      rw [Nat.le_antisymm pushed.fits (Nat.not_lt.mp inside), Nat.pow_div lower.le (by decide)]
    have beyond : 2 ^ (m - k) ≤ (Block.buddy ⟨k, rightIndex right k⟩).index := by
      unfold Block.buddy
      dsimp only
      rw [if_pos (by omega)]
      omega
    have fits := pushed.order.trans pushed.fits
    have here := Ref.marked_beyond base right (b := ⟨k, rightIndex right k⟩) fits lower.le index.ge
    have there := Ref.marked_beyond base right (b := Block.buddy ⟨k, rightIndex right k⟩) fits lower.le beyond
    rw [here, there]
    simp [inside]

theorem Pushed.pushes_eq : (Ref.marked m h₂.bdBase left right).pushes (16 * left) (16 * right) k =
    initPushes h₂ (h₂.bdBase + 16 * left) (h₂.bdBase + 16 * right) k := by
  have small := pushed.prepared.geometry.small
  unfold Ref.pushes
  dsimp only
  rw [initPushes_units h₂ pushed.order pushed.range k, leftIndex_bytes, rightIndex_bytes]
  congr 1
  · have flags := pushed.left_flags h₂.bdBase lower
    by_cases set : bit h₂.bytes (h₂.bdSizes k).alloc.start (leftIndex left k / 2) = true
    · have place := addr_at (h := h₂) small ((pushed.left_bit lower).mp set).1
      dsimp only at place
      rw [if_pos set, if_neg (flags.mp set), place]
      rfl
    · rw [if_neg set, if_pos (not_not.mp (set ∘ flags.mpr))]
  · by_cases apart : leftIndex left k < rightIndex right k
    · have flags := pushed.right_flags h₂.bdBase lower apart
      by_cases set : bit h₂.bytes (h₂.bdSizes k).alloc.start (rightIndex right k / 2) = true
      · obtain ⟨inside, odd⟩ := (pushed.right_bit lower apart).mp set
        obtain ⟨b, level, index, -, -, place⟩ := pushed.prepared.right_maximal lower inside apart odd
        have same : b = Block.buddy ⟨k, rightIndex right k⟩ := by
          ext
          · exact level
          · unfold Block.buddy
            dsimp only
            rw [if_neg (by omega)]
            omega
        rw [if_neg (by rw [not_or]; exact ⟨by omega, flags.mp set⟩), if_pos ⟨apart, set⟩, place, same]
        rfl
      · rw [if_pos (.inr (not_not.mp (set ∘ flags.mpr))), if_neg (fun both => set both.2)]
    · rw [if_pos (.inl (by omega)), if_neg (fun both => apart both.1)]

end Boundaries

section Runs

structure Agreement (h₀ : Heap) (m : Nat) (reserved : Set Nat) (h : Heap) (r : Ref) (live : List (Nat × Nat)) : Prop where
  sound : Sound h₀ m reserved h live r.lists
  flags : Flags r m reserved (owned h₀ live)
  base : r.bdBase = h₀.bdBase

/-- The two allocators side by side: the same calls in the same order, each with the pointers it returned itself,
    and writes of the owners to their own blocks. -/
inductive Lockstep (h₀ : Heap) (r₀ : Ref) : Heap → Ref → List (Nat × Nat) → Prop where
  | init : Lockstep h₀ r₀ h₀ r₀ []
  | malloc {h r live n p h' p' r'} : Lockstep h₀ r₀ h r live → n ≤ 2 ^ 63 → bdMalloc h n = .ok (p, h') →
      r.malloc n = .ok (p', r') → Lockstep h₀ r₀ h' r' (if p = 0 then live else (p, n) :: live)
  | free {h r live e h' r'} : Lockstep h₀ r₀ h r live → e ∈ live → bdFree h e.1 = .ok h' → r.free e.1 = .ok r' →
      Lockstep h₀ r₀ h' r' (live.erase e)
  | write {h r live} {bytes : Bytes} {links : Links Nat} : Lockstep h₀ r₀ h r live →
      (∀ x, ¬ Held live x → bytes x = h.bytes x ∧ links.next x = h.links.next x ∧ links.prev x = h.links.prev x) →
      Lockstep h₀ r₀ { h with bytes := bytes, links := links } r live

section Steps

variable {h₀ h : Heap} {r : Ref} {m : Nat} {reserved : Set Nat} {live : List (Nat × Nat)}

theorem Agreement.malloc (agreement : Agreement h₀ m reserved h r live) {n : Nat} (bound : n ≤ 2 ^ 63) :
    ∃ p h' r', bdMalloc h n = .ok (p, h') ∧ r.malloc n = .ok (p, r') ∧
      Agreement h₀ m reserved h' r' (if p = 0 then live else (p, n) :: live) := by
  rcases agreement.sound.malloc bound with
    ⟨empty, none⟩ | ⟨f, rest, h', level, inside, maximal, below, position, nonzero, some, -, next⟩
  · exact ⟨0, h, r, none, Ref.malloc_none agreement.flags bound empty, agreement⟩
  have place : r.addr f = h₀.at f := Ref.addr_eq agreement.base f
  obtain ⟨r', result, base, lists, flags⟩ := Ref.malloc_some agreement.flags bound level inside maximal below
    (by rw [place]; exact position)
  rw [place] at result lists
  refine ⟨h₀.at f, h', r', some, result, ?_⟩
  rw [if_neg nonzero]
  refine ⟨by rw [lists]; exact next, ?_, base.trans agreement.base⟩
  have first : h₀.at (firstPart f (f.level - levelOf n)) = h₀.at f := firstPart_at h₀ (Nat.sub_le _ _)
  have block : ownedBlock h₀ (h₀.at f, n) = firstPart f (f.level - levelOf n) := by
    rw [← first]
    exact ownedBlock_at h₀ (Nat.sub_sub_self level)
  rw [owned_cons, block]
  exact flags

theorem Agreement.free (agreement : Agreement h₀ m reserved h r live) {e : Nat × Nat} (member : e ∈ live) :
    ∃ h' r', bdFree h e.1 = .ok h' ∧ r.free e.1 = .ok r' ∧ Agreement h₀ m reserved h' r' (live.erase e) := by
  obtain ⟨n, h', joins, result, next⟩ := agreement.sound.free member
  obtain ⟨split, outside, -⟩ := owned_erase h₀ member agreement.sound.nodup
  have flags := agreement.flags
  have state := agreement.sound.state
  rw [split] at flags state
  have place : r.addr (ownedBlock h₀ e) = e.1 := by
    rw [Ref.addr_eq agreement.base]
    exact (agreement.sound.place e member).symm
  obtain ⟨r', result', base, lists, flags'⟩ := Ref.free_spec flags
    (agreement.base.trans agreement.sound.same.bdBase.symm) state outside joins
  rw [place] at result'
  rw [joinLists_same agreement.sound.same] at lists
  exact ⟨h', r', result, result', by rw [lists]; exact next, flags', base.trans agreement.base⟩

end Steps

theorem Lockstep.agreement {h₀ h : Heap} {r₀ r : Ref} {m left right : Nat} {live : List (Nat × Nat)}
    (placed : Placed h₀ m) (room : metaRaw m ≤ 16 * left) (start : Agreement h₀ m (outside left right) h₀ r₀ [])
    (run : Lockstep h₀ r₀ h r live) : Agreement h₀ m (outside left right) h r live := by
  induction run with
  | init => exact start
  | malloc _ bound result result' ih =>
    obtain ⟨p, h', r', first, second, next⟩ := ih.malloc bound
    rw [first] at result
    rw [second] at result'
    cases result
    cases result'
    exact next
  | free _ member result result' ih =>
    obtain ⟨h', r', first, second, next⟩ := ih.free member
    rw [first] at result
    rw [second] at result'
    cases result
    cases result'
    exact next
  | write _ kept ih => exact ⟨ih.sound.write placed room kept, ih.flags, ih.base⟩

theorem Pushed.agreement {h h₂ : Heap} {m left right : Nat} (pushed : Pushed h h₂ m left right) :
    Agreement h m (outside left right) h
      (Ref.init (m + 1) h.bdBase (h.bdBase + 16 * left) (h.bdBase + 16 * right)) [] := by
  have lists : (Ref.init (m + 1) h.bdBase (h.bdBase + 16 * left) (h.bdBase + 16 * right)).lists = fun j =>
      if j < m then (initPushes h₂ (h₂.bdBase + 16 * left) (h₂.bdBase + 16 * right) j).reverse else [] := by
    rw [← pushed.base, Ref.init_eq]
    funext j
    dsimp only
    by_cases below : j < m
    · rw [if_pos below, if_pos below, pushed.pushes_eq below]
    · rw [if_neg below, if_neg below]
  refine ⟨⟨?_, Heap.Same.refl h, by simp, by simp, List.nodup_nil⟩, ?_, ?_⟩
  · rw [owned_nil, lists]
    exact pushed.state
  · rw [owned_nil, Ref.init_eq]
    exact (Ref.marked_flags h.bdBase left right).withLists _
  · rw [Ref.init_eq]
    rfl

end Runs

section Rounds

/-- The rounds of the loop of `bd_free` on pointer `p`: the heap, the size and the block at the head of each. -/
inductive Visits (h : Heap) (p : Nat) : Heap → Nat → Nat → Prop where
  | start {k : Nat} : size h p = .ok k → Visits h p h k p
  | next {g g' : Heap} {k q q' : Nat} : Visits h p g k q → k < g.maxSize → freeRound g k q = .ok (some q', g') →
      Visits h p g' (k + 1) q'

variable {h g : Heap} {m : Nat} {reserved : Set Nat} {live : Set Block} {lists : Nat → List Nat} {c : Block}
  (state : Consistent h m reserved (insert c live) lists) (outside : c ∉ live)

include state outside

theorem Visits.consistent {k q : Nat} (visits : Visits h (h.at c) g k q) :
    ∃ d : Block, ∃ lists', d.level = k ∧ q = g.at d ∧ d ∉ live ∧ Consistent g m reserved (insert d live) lists' := by
  induction visits with
  | start size =>
    have level := size_spec state (Set.mem_insert _ _)
    rw [size] at level
    cases level
    exact ⟨c, lists, rfl, rfl, outside, state⟩
  | next _ below round ih =>
    obtain ⟨d, lists', level, place, outside', state'⟩ := ih
    subst level place
    by_cases free : Used reserved (insert d live) d.buddy
    · rw [freeRound_used state' outside' free] at round
      cases round
    · rw [freeRound_free state' outside' free] at round
      cases round
      exact ⟨d.parent, _, rfl, rfl, parent_outside outside' state'.separated,
        (state'.join outside' free).2⟩

theorem Visits.bit {k q : Nat} (visits : Visits h (h.at c) g k q) :
    ∃ g' v xs, bitInvert g (g.bdSizes k).alloc ((buddyIndex (blkIndex g k q)).tdiv 2) = .ok g' ∧
      bitIsset g' (g'.bdSizes k).alloc ((buddyIndex (blkIndex g k q)).tdiv 2) = .ok v ∧
      Ring g.links (g.free k) xs ∧ (v = false ↔ addr g k (buddyIndex (blkIndex g k q)) ∈ xs) := by
  obtain ⟨d, lists', level, place, outside', state'⟩ := visits.consistent state outside
  subst level place
  have member : d ∈ insert d live := Set.mem_insert _ _
  have inside := state'.bounded d member
  have buddyIn := buddy_inside inside (live_level state' member)
  obtain ⟨index, inverted, isset⟩ := freeRound_bits state'
  have located : addr g d.level d.buddy.index = g.at d.buddy := addr_at state'.geometry.small buddyIn
  rw [index, located]
  refine ⟨_, _, lists' d.level, inverted, isset, state'.rings.ring d.level inside.1, ?_⟩
  rw [← Bool.not_eq_true, pairBit_after_invert state' outside', state'.listed d.level inside.1]
  constructor
  · intro free
    exact ⟨d.buddy, rfl, buddyIn, maximal_free_buddy free, rfl⟩
  · intro listed
    obtain ⟨b, same, -, maximal, equal⟩ := listed
    have block : b = d.buddy := at_injective g same equal.symm
    rw [← block]
    exact maximal.1

end Rounds

/-- One bit for each pair does the work of one flag for each block: both allocators return the same pointers and keep
    the same lists and split bits, and `bd_free` unlinks the buddy of a block exactly when it is listed. -/
theorem pairBits_refine_flags {checked : Bool} {memory : Memory} {base endp : Nat} {h₀ h : Heap} {r : Ref}
    {live : List (Nat × Nat)} (baseRange : base < 2 ^ 64) (endRange : endp < 2 ^ 64)
    (init : bdInit checked memory base endp = .ok h₀)
    (run : Lockstep h₀ (Ref.init h₀.nsizes h₀.bdBase (bdInitSizes checked memory base endp).1 (bdEnd h₀ endp)) h r live) :
    (∀ k ≤ h₀.maxSize, Ring h.links (h.free k) (r.lists k)) ∧
    (∀ k ≤ h₀.maxSize, 0 < k → ∀ i < h₀.nblk k, bit h.bytes (h.bdSizes k).split.start i = r.split ⟨k, i⟩) ∧
    (∀ n ≤ 2 ^ 63, ∃ p h' r', bdMalloc h n = .ok (p, h') ∧ r.malloc n = .ok (p, r')) ∧
    (∀ e ∈ live, ∃ h' r', bdFree h e.1 = .ok h' ∧ r.free e.1 = .ok r') ∧
    (∀ e ∈ live, ∀ g k q, Visits h e.1 g k q →
      ∃ g' v xs, bitInvert g (g.bdSizes k).alloc ((buddyIndex (blkIndex g k q)).tdiv 2) = .ok g' ∧
        bitIsset g' (g'.bdSizes k).alloc ((buddyIndex (blkIndex g k q)).tdiv 2) = .ok v ∧
        Ring g.links (g.free k) xs ∧ (v = false ↔ addr g k (buddyIndex (blkIndex g k q)) ∈ xs)) := by
  obtain ⟨m, left, right, h₂, window, pushed⟩ := bdInit_pushed baseRange endRange init
  have start := pushed.agreement
  rw [window.low, window.high, window.placed.sizes] at run
  have agreement := run.agreement window.placed window.room start
  have state := agreement.sound.state
  have top : h₀.maxSize = m := Heap.maxSize_of window.placed.sizes
  rw [top]
  refine ⟨fun k upper => state.rings.ring k upper, ?_, ?_, ?_, ?_⟩
  · intro k upper positive i inside
    have inHeap : InHeap m ⟨k, i⟩ := by
      refine ⟨upper, ?_⟩
      unfold Heap.nblk at inside
      rw [top] at inside
      exact inside
    rw [Bool.eq_iff_iff, agreement.flags.split ⟨k, i⟩ inHeap positive]
    exact state.split ⟨k, i⟩ inHeap positive
  · intro n bound
    obtain ⟨p, h', r', first, second, -⟩ := agreement.malloc bound
    exact ⟨p, h', r', first, second⟩
  · intro e member
    obtain ⟨h', r', first, second, -⟩ := agreement.free member
    exact ⟨h', r', first, second⟩
  · intro e member g k q visits
    obtain ⟨split, outside, -⟩ := owned_erase h₀ member agreement.sound.nodup
    rw [split] at state
    rw [agreement.sound.place e member, ← agreement.sound.same.at_eq] at visits
    exact visits.bit state outside

theorem pairBits_refine_flags_700 :
    ∃ h₀ h r, bdInit false blankMemory 4096 4796 = .ok h₀ ∧ bdMalloc h₀ 64 = .ok (4608, h) ∧
      Lockstep h₀ (Ref.init h₀.nsizes h₀.bdBase (bdInitSizes false blankMemory 4096 4796).1 (bdEnd h₀ 4796)) h r
        [(4608, 64)] ∧
      ∃ h' r', bdFree h 4608 = .ok h' ∧ r.free 4608 = .ok r' := by
  obtain ⟨h₀, h, init, first⟩ := blank_700
  obtain ⟨p, h', r, result, result'⟩ :=
    (pairBits_refine_flags (by decide) (by decide) init Lockstep.init).2.2.1 64 (by decide)
  rw [first] at result
  cases result
  have run := Lockstep.malloc Lockstep.init (by decide) first result'
  exact ⟨h₀, h, r, init, first, run,
    (pairBits_refine_flags (by decide) (by decide) init run).2.2.2.1 (4608, 64) List.mem_cons_self⟩

end OShard.Buddy
