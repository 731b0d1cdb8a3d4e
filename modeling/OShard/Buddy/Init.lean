import OShard.Buddy.InitFree

namespace OShard.Buddy

open LinkedList BitArray AlignedBlock

section Prepared

variable {b : Block} {m left right : Nat} {h : Heap}

theorem meets_low (left : Nat) : meets 0 (16 * left) b = decide (b.index * 2 ^ b.level < left) := by
  unfold meets blkSize leafSize
  rw [decide_eq_decide, Nat.zero_div, ← Nat.mul_assoc]
  omega

theorem meets_high (inside : InHeap m b) (right : Nat) :
    meets (16 * right) (blkSize m) b = decide (right < (b.index + 1) * 2 ^ b.level) := by
  have bound := offset_lt inside
  unfold meets
  rw [decide_eq_decide, ← Nat.lt_succ_iff, Nat.div_lt_iff_lt_mul (blkSize_pos _)]
  unfold blkSize leafSize at bound ⊢
  rw [Nat.succ_eq_add_one, ← Nat.mul_assoc]
  omega

structure Prepared (h : Heap) (m left right : Nat) : Prop where
  geometry : Geometry h m (outside left right)
  rings : Rings h.links h.free (fun _ => []) (· ≤ m)
  root : 0 < left
  bits : ∀ b : Block, InHeap m b → b.level < m →
    h.pairBit b = (decide (b.index * 2 ^ b.level < left) ^^ decide (b.buddy.index * 2 ^ b.level < left) ^^
      decide (right < (b.index + 1) * 2 ^ b.level) ^^ decide (right < (b.buddy.index + 1) * 2 ^ b.level))
  split : ∀ b : Block, InHeap m b → 0 < b.level → (h.splitBit b = true ↔ Touches (outside left right) b)
  slack : ∀ k ≤ m, ∀ i, 2 ^ (m - k) ≤ 2 * i → i / 8 < (h.bdSizes k).alloc.bytes →
    bit h.bytes (h.bdSizes k).alloc.start i = false

theorem prepared_of_marks {h₁ h₂ : Heap} (laid : LaidOut h m) (small : m ≤ 27)
    (headers : 2 * (m + 1) ≤ left) (first : Marking h h₁ m (meets 0 (16 * left)))
    (second : Marking h₁ h₂ m (meets (16 * right) (blkSize m))) : Prepared h₂ m left right := by
  have geometry : Geometry h m (outside left right) :=
    laid.geometry small fun k upper => .inl (show 2 * k < left by omega)
  have header : h₂.free = h.free := by
    funext k
    unfold Heap.free
    rw [second.base, first.base]
  have sizes : h₂.bdSizes = h.bdSizes := second.sizes.trans first.sizes
  refine ⟨second.geometry (first.geometry geometry), ?_, by omega, ?_, ?_, ?_⟩
  · rw [second.links, first.links, header]
    exact laid.rings
  · intro b inside lower
    rw [second.pair b inside, first.pair b inside, laid.pairBit_zero inside, Bool.false_xor, meets_low, meets_low,
      meets_high inside, meets_high (buddy_inside inside lower)]
    rfl
  · intro b inside positive
    rw [second.split b inside positive, first.split b inside positive, laid.splitBit_zero inside positive,
      meets_low, meets_high inside, touches_outside]
    simp
  · intro k upper i beyond bound
    rw [sizes] at bound ⊢
    have array := laid.alloc_below upper
    have later := second.slack k upper i beyond
    rw [first.sizes] at later
    rw [later bound, first.slack k upper i beyond bound]
    exact laid.bit_zero array.1 (by unfold metaRaw; omega)

theorem Prepared.pair (prepared : Prepared h m left right)
    (inside : InHeap m b) (lower : b.level < m) (untouched : ¬ Touches (outside left right) b) :
    h.pairBit b = true ↔ Touches (outside left right) b.buddy := by
  have single := one_side untouched
  have level : b.buddy.level = b.level := rfl
  rw [touches_outside] at untouched
  rw [prepared.bits b inside lower, touches_outside, level]
  have low : ¬ b.index * 2 ^ b.level < left := fun low => untouched (.inl low)
  have high : ¬ right < (b.index + 1) * 2 ^ b.level := fun high => untouched (.inr high)
  simp only [low, high, decide_false, Bool.false_xor, Bool.xor_false]
  by_cases before : b.buddy.index * 2 ^ b.level < left
  · have after : ¬ right < (b.buddy.index + 1) * 2 ^ b.level := fun after => single ⟨before, after⟩
    simp [before, after]
  · simp [before]

variable {h : Heap} {m left right : Nat} (prepared : Prepared h m left right) (small : 16 * right < 2 ^ 31)

include prepared small

theorem Prepared.pushed (inside : InHeap m b) (lower : b.level < m) (maximal : Maximal (outside left right) ∅ b) :
    h.at b ∈ initPushes h (h.bdBase + 16 * left) (h.bdBase + 16 * right) b.level := by
  obtain ⟨low, high, side⟩ := maximal_outside maximal
  obtain ⟨unused, used⟩ := maximal_iff_buddy.mp maximal
  rw [used_empty] at unused used
  have set : h.pairBit b = true := (prepared.pair inside lower unused).mpr used
  have place := addr_at (h := h) prepared.geometry.small inside
  have size : blkSize b.level = 2 ^ b.level * 16 := rfl
  have bound : 16 * left < 2 ^ 31 := by
    rw [Nat.succ_mul] at high
    omega
  have start := blkIndexNext_offset h b.level bound.le
  have stop := blkIndex_offset h b.level small
  have notBefore : ¬ b.index < (16 * left + (blkSize b.level - 1)) / blkSize b.level := by
    rw [lt_up_iff _ _ (blkSize_pos _), size, ← Nat.mul_assoc]
    omega
  unfold initPushes
  dsimp only
  rw [start, stop]
  rcases side with ⟨before, edge⟩ | ⟨after, edge⟩
  · have index : (16 * left + (blkSize b.level - 1)) / blkSize b.level = b.index := by
      have next : b.buddy.index < (16 * left + (blkSize b.level - 1)) / blkSize b.level := by
        rw [lt_up_iff _ _ (blkSize_pos _), size, ← Nat.mul_assoc]
        omega
      omega
    have read : bit h.bytes (h.bdSizes b.level).alloc.start ((b.index : Int).tdiv 2).toNat = true := set
    rw [index, read, place]
    simp
  have index : 16 * right / blkSize b.level = b.buddy.index := by
    apply Nat.div_eq_of_lt_le
    · rw [after, size, ← Nat.mul_assoc]
      omega
    · rw [size, ← Nat.mul_assoc]
      omega
  have half : b.buddy.index / 2 = b.index / 2 := congrArg Block.index b.buddy_parent
  have read : bit h.bytes (h.bdSizes b.level).alloc.start ((b.buddy.index : Int).tdiv 2).toNat = true := by
    change bit h.bytes (h.bdSizes b.level).alloc.start (b.buddy.index / 2) = true
    rw [half]
    exact set
  have back : buddyIndex b.buddy.index = b.index := by rw [buddyIndex_eq, b.buddy_buddy]
  have ordered : (((16 * left + (blkSize b.level - 1)) / blkSize b.level : Nat) : Int) < b.buddy.index := by omega
  rw [index, read, back, place]
  simp only [ordered]
  simp

theorem Prepared.exact (upper : right ≤ 2 ^ m)
    (total : span (pushedBytes (initPushes h (h.bdBase + 16 * left) (h.bdBase + 16 * right))) 0 m =
      16 * (right - left)) :
    ∀ k < m, (initPushes h (h.bdBase + 16 * left) (h.bdBase + 16 * right) k).Nodup ∧
      ∀ a, a ∈ initPushes h (h.bdBase + 16 * left) (h.bdBase + 16 * right) k ↔
        ∃ b : Block, b.level = k ∧ InHeap m b ∧ Maximal (outside left right) ∅ b ∧ a = h.at b := by
  classical
  set pushes := initPushes h (h.bdBase + 16 * left) (h.bdBase + 16 * right)
  let blocks : Nat → Finset Nat := fun k =>
    (Finset.range (2 ^ (m - k))).filter fun i => Maximal (outside left right) ∅ ⟨k, i⟩
  let places : Nat → Finset Nat := fun k => (blocks k).image fun i => h.at ⟨k, i⟩
  have count : ∑ k ∈ Finset.range m, (blocks k).card * 2 ^ k = right - left := by
    have used : Used (outside left right) ∅ ⟨m, 0⟩ := by
      rw [used_empty, touches_outside]
      left
      simpa using prepared.root
    rw [sum_maximal used blocks fun k _ i => by simp [blocks], card_window upper]
  have sizes : ∀ k, (places k).card = (blocks k).card := by
    intro k
    apply Finset.card_image_of_injective
    intro i j same
    have equal : (⟨k, i⟩ : Block) = ⟨k, j⟩ := at_injective h rfl same
    exact congrArg Block.index equal
  have subset : ∀ k < m, ∀ a ∈ places k, a ∈ pushes k := by
    intro k lower a member
    obtain ⟨i, inBlocks, same⟩ := Finset.mem_image.mp member
    obtain ⟨bound, maximal⟩ := Finset.mem_filter.mp inBlocks
    have inside : InHeap m ⟨k, i⟩ := ⟨lower.le, Finset.mem_range.mp bound⟩
    have listed := prepared.pushed small inside lower maximal
    rw [← same]
    exact listed
  have atLeast : ∀ k ∈ Finset.range m, (blocks k).card * 2 ^ k ≤ (pushes k).length * 2 ^ k := by
    intro k member
    have contained : places k ⊆ (pushes k).toFinset := fun a inPlaces =>
      List.mem_toFinset.mpr (subset k (Finset.mem_range.mp member) a inPlaces)
    have cards := Finset.card_le_card contained
    have length := List.toFinset_card_le (pushes k)
    rw [sizes] at cards
    exact Nat.mul_le_mul_right _ (cards.trans length)
  have pushed : ∑ k ∈ Finset.range m, (pushes k).length * 2 ^ k = right - left := by
    have scaled : span (pushedBytes pushes) 0 m = 16 * ∑ k ∈ Finset.range m, (pushes k).length * 2 ^ k := by
      unfold span pushedBytes blkSize leafSize
      rw [Finset.mul_sum]
      refine Finset.sum_congr rfl fun k _ => ?_
      rw [Nat.zero_add]
      ring
    omega
  have equal := (Finset.sum_eq_sum_iff_of_le atLeast).mp (count.trans pushed.symm)
  intro k lower
  have length : (pushes k).length ≤ (places k).card := by
    have same := Nat.eq_of_mul_eq_mul_right (Nat.two_pow_pos k) (equal k (Finset.mem_range.mpr lower))
    rw [sizes]
    omega
  obtain ⟨nodup, members⟩ := nodup_of_subset (subset k lower) length
  refine ⟨nodup, ?_⟩
  intro a
  rw [members a]
  constructor
  · intro member
    obtain ⟨i, inBlocks, same⟩ := Finset.mem_image.mp member
    obtain ⟨bound, maximal⟩ := Finset.mem_filter.mp inBlocks
    exact ⟨⟨k, i⟩, rfl, ⟨lower.le, Finset.mem_range.mp bound⟩, maximal, same.symm⟩
  · intro found
    obtain ⟨b, level, inside, maximal, same⟩ := found
    subst level
    exact Finset.mem_image.mpr ⟨b.index, Finset.mem_filter.mpr ⟨Finset.mem_range.mpr inside.2, maximal⟩, same.symm⟩

theorem Prepared.consistent (upper : right ≤ 2 ^ m)
    (total : span (pushedBytes (initPushes h (h.bdBase + 16 * left) (h.bdBase + 16 * right))) 0 m =
      16 * (right - left)) :
    Consistent (pushLevels (initPushes h (h.bdBase + 16 * left) (h.bdBase + 16 * right)) m 0 h) m
      (outside left right) ∅
      (fun j => if j < m then (initPushes h (h.bdBase + 16 * left) (h.bdBase + 16 * right) j).reverse else []) := by
  have exactly := prepared.exact small upper total
  set pushes := initPushes h (h.bdBase + 16 * left) (h.bdBase + 16 * right)
  have root : Touches (outside left right) ⟨m, 0⟩ := by
    rw [touches_outside]
    left
    simpa using prepared.root
  have found : ∀ i < m, ∀ p ∈ pushes i, ∃ b : Block, b.level = i ∧ Maximal (outside left right) ∅ b ∧ p = h.at b := by
    intro i lower p member
    obtain ⟨b, level, -, maximal, same⟩ := ((exactly i lower).2 p).mp member
    exact ⟨b, level, maximal, same⟩
  have apart : ∀ i j, i ≠ j → i < m → j < m → ∀ p ∈ pushes i, p ∉ pushes j := by
    intro i j different lower lower' p member member'
    obtain ⟨b, level, maximal, same⟩ := found i lower p member
    obtain ⟨c, level', maximal', same'⟩ := found j lower' p member'
    have unit : b.index * 2 ^ b.level = c.index * 2 ^ c.level := by
      rw [same, at_eq_unit, at_eq_unit] at same'
      omega
    have equal := maximal.eq_of_overlap maximal' b.covers_first (unit ▸ c.covers_first)
    exact different (by rw [← level, ← level', equal])
  have fresh : ∀ i < m, ∀ p ∈ pushes i, ∀ j ≤ m, p ∉ h.free j :: [] := by
    intro i lower p member j bound listed
    obtain ⟨b, level, maximal, same⟩ := found i lower p member
    have header := List.mem_singleton.mp listed
    have unit : b.index * 2 ^ b.level = 2 * j := by
      rw [same, at_eq_unit] at header
      unfold Heap.free szInfoBytes at header
      omega
    exact maximal.1 ⟨_, b.covers_first, .inl (unit ▸ prepared.geometry.headers j bound)⟩
  have rings := pushLevels_rings pushes m 0 h (fun _ => []) (by omega) prepared.rings
    (fun i _ lower => (exactly i (by omega)).1)
    (fun i j different _ lower _ lower' => apart i j different (by omega) (by omega))
    (fun i _ lower => fresh i (by omega))
  have lists : (fun j => if 0 ≤ j ∧ j < 0 + m then (pushes j).reverse ++ [] else []) =
      fun j => if j < m then (pushes j).reverse else [] := by
    funext j
    simp
  rw [lists] at rings
  obtain ⟨links, same⟩ := pushLevels_eq pushes m 0 h
  rw [same] at rings ⊢
  refine ⟨prepared.geometry.transfer rfl rfl, separated_empty _, root, fun l member => member.elim, rings, ?_, ?_, ?_⟩
  · intro k bound a
    dsimp only
    by_cases lower : k < m
    · rw [if_pos lower, List.mem_reverse]
      exact (exactly k lower).2 a
    rw [if_neg lower]
    constructor
    · intro member
      cases member
    · intro maximal
      obtain ⟨b, level, inside, maximal, -⟩ := maximal
      have zero := inside.2
      have top : b.level = m := by omega
      rw [top, Nat.sub_self, Nat.pow_zero] at zero
      have equal : b = ⟨m, 0⟩ := by
        ext
        · exact top
        · exact Nat.lt_one_iff.mp zero
      rw [equal] at maximal
      exact absurd root.used maximal.1
  · intro b inside lower untouched
    rw [marked_empty, marked_empty]
    have bits := prepared.pair inside lower untouched
    change h.pairBit b = true ↔ _
    rw [bits]
    tauto
  · intro b inside positive
    rw [split_empty]
    exact prepared.split b inside positive

end Prepared

section Region

variable {checked : Bool} {memory : Memory} {base endp m length bdLeft bdRight : Nat} {h h₀ h₁ h₂ h' : Heap} {total : Int}

theorem bdInit_cases
    (start : bdInitSizes checked memory base endp = (h₀.bdBase + metaLength m, h₀)) (sizes : h₀.nsizes = m + 1)
    (result : bdInit checked memory base endp = .ok h) :
    m < 31 ∧ ∃ h₁ h₂ total, bdMark h₀ h₀.bdBase (h₀.bdBase + metaLength m) = .ok h₁ ∧
      bdMark h₁ (bdEnd h₁ endp) (h₁.bdBase + h₁.heapSize) = .ok h₂ ∧
      bdInitfree h₂ (h₀.bdBase + metaLength m) (bdEnd h₂ endp) = .ok (total, h) ∧
      total = (h.heapSize : Int) - toInt (metaLength m) - unavailableBytes h₂ endp := by
  have top : h₀.maxSize = m := Heap.maxSize_of sizes
  have difference : ((h₀.bdBase + metaLength m : Nat) : Int) - h₀.bdBase = metaLength m := by omega
  unfold bdInit at result
  simp only [start, bdMarkDataStructures, bdMarkUnavailable, top, difference] at result
  by_cases large : 31 ≤ m
  · simp [large, Bind.bind, Except.bind, throw, throwThe, MonadExceptOf.throw] at result
  refine ⟨by omega, ?_⟩
  simp only [large, if_false, Bind.bind, Except.bind, Pure.pure, Except.pure] at result
  cases first : bdMark h₀ h₀.bdBase (h₀.bdBase + metaLength m) with
  | error fault => simp [first] at result
  | ok h₁ =>
    simp only [first] at result
    cases second : bdMark h₁ (bdEnd h₁ endp) (h₁.bdBase + h₁.heapSize) with
    | error fault => simp [second] at result
    | ok h₂ =>
      simp only [second] at result
      cases third : bdInitfree h₂ (h₀.bdBase + metaLength m) (bdEnd h₂ endp) with
      | error fault => simp [third] at result
      | ok pair =>
        obtain ⟨total, h₃⟩ := pair
        simp only [third] at result
        by_cases agree : total = (h₃.heapSize : Int) - toInt (metaLength m) - unavailableBytes h₂ endp
        · simp only [agree, ne_eq, not_true_eq_false, if_false, Except.ok.injEq] at result
          subst result
          exact ⟨h₁, h₂, total, rfl, second, third, agree⟩
        · simp [agree, throw, throwThe, MonadExceptOf.throw] at result

theorem unavailableBytes_eq (sizes : h.nsizes = m + 1) (small : m ≤ 28)
    (region : (endp : Int) - h.bdBase = length) (half : blkSize m < 2 * length) (fits : length ≤ blkSize m) :
    unavailableBytes h endp = (blkSize m : Int) - (16 * (length / 16) : Nat) := by
  have heapSize : h.heapSize = blkSize m := Heap.heapSize_of sizes
  have bound : 2 ^ m ≤ 2 ^ 28 := Nat.pow_le_pow_right (by decide) small
  have size : blkSize m = 2 ^ m * 16 := rfl
  have difference : (blkSize m : Int) - length = (blkSize m - length : Nat) := by omega
  unfold unavailableBytes
  dsimp only
  rw [heapSize, region, difference, toInt_nat (by omega), Int.toNat_natCast]
  by_cases positive : (0 : Int) < (blkSize m - length : Nat)
  · rw [if_pos positive, roundUp_eq _ _ (by decide)]
    unfold leafSize
    omega
  · rw [if_neg positive]
    omega

theorem bdEnd_eq (sizes : h.nsizes = m + 1) (small : m ≤ 28)
    (region : (endp : Int) - h.bdBase = length) (half : blkSize m < 2 * length) (fits : length ≤ blkSize m) :
    bdEnd h endp = h.bdBase + 16 * (length / 16) := by
  have heapSize : h.heapSize = blkSize m := Heap.heapSize_of sizes
  unfold bdEnd
  rw [unavailableBytes_eq sizes small region half fits, heapSize]
  omega

theorem bdMark_wrapped (h : Heap) {s t : Nat} (sizes : 0 < h.nsizes) (lower : 2 ^ 31 ≤ s) (upper : s < 2 ^ 31 + 2 ^ 30)
    (stop : t ≤ 2 ^ 32) (result : Heap) : bdMark h (h.bdBase + s) (h.bdBase + t) ≠ .ok result := by
  intro marked
  unfold bdMark at marked
  by_cases unaligned : (h.bdBase + s) % leafSize ≠ 0 ∨ (h.bdBase + t) % leafSize ≠ 0
  · rw [if_pos unaligned] at marked
    cases marked
  rw [if_neg unaligned] at marked
  obtain ⟨n, count⟩ := Nat.exists_eq_succ_of_ne_zero (Nat.pos_iff_ne_zero.mp sizes)
  have leaf : blkSize 0 = 16 := by decide
  have first : blkIndex h 0 (h.bdBase + s) < -1 := by
    have difference : ((h.bdBase + s : Nat) : Int) - h.bdBase = s := by omega
    have quotient : ((s : Int) - 2 ^ 32).tdiv (16 : Nat) = -(((2 ^ 32 - s) / 16 : Nat) : Int) := by
      have negated : (s : Int) - 2 ^ 32 = -((2 ^ 32 - s : Nat) : Int) := by omega
      rw [negated, Int.neg_tdiv]
      rfl
    unfold blkIndex
    rw [difference, toInt_high lower (by omega), leaf]
    dsimp only
    rw [quotient]
    omega
  have last : 0 ≤ blkIndexNext h 0 (h.bdBase + t) := by
    have difference : ((h.bdBase + t : Nat) : Int) - h.bdBase = t := by omega
    have quotient : (t : Int).tdiv (16 : Nat) = (t / 16 : Nat) := rfl
    unfold blkIndexNext
    dsimp only
    rw [difference, leaf, quotient, toInt_nat (by omega)]
    split <;> omega
  obtain ⟨k, steps⟩ := Nat.exists_eq_succ_of_ne_zero
    (show (blkIndexNext h 0 (h.bdBase + t) - blkIndex h 0 (h.bdBase + s)).toNat ≠ 0 by omega)
  have negative : (blkIndex h 0 (h.bdBase + s)).tdiv 2 < 0 := by
    obtain ⟨i, same⟩ : ∃ i : Nat, blkIndex h 0 (h.bdBase + s) = -(i : Int) :=
      ⟨(-blkIndex h 0 (h.bdBase + s)).toNat, by omega⟩
    have half : (-(i : Int)).tdiv 2 = -((i / 2 : Nat) : Int) := by
      rw [Int.neg_tdiv]
      rfl
    rw [same, half]
    omega
  have fault : bitInvert h (h.bdSizes 0).alloc ((blkIndex h 0 (h.bdBase + s)).tdiv 2) = .error .undefined := by
    unfold bitInvert bitUpdate bitIndex
    rw [if_pos negative]
    rfl
  rw [count, markLevels] at marked
  simp only [steps, Nat.succ_eq_add_one, markBlocks, Nat.lt_irrefl, if_false, Bind.bind, Except.bind, Pure.pure,
    Except.pure, fault] at marked
  cases marked

theorem unavailableBytes_upper (h : Heap) (endp : Nat) : unavailableBytes h endp < 2 ^ 31 + 16 := by
  have bound := toInt_upper ((h.heapSize : Int) - ((endp : Int) - h.bdBase))
  unfold unavailableBytes
  dsimp only
  split
  · rw [roundUp_eq _ _ (by decide)]
    unfold leafSize
    omega
  · omega

theorem metaLength_small (small : m ≤ 28) : metaLength m ≤ 2 ^ 30 := by
  by_cases lower : 6 ≤ m
  · have quarter := metaLength_large lower
    have bound : 2 ^ m ≤ 2 ^ 28 := Nat.pow_le_pow_right (by decide) small
    unfold blkSize leafSize at quarter
    omega
  · have cases : m = 0 ∨ m = 1 ∨ m = 2 ∨ m = 3 ∨ m = 4 ∨ m = 5 := by omega
    rcases cases with h | h | h | h | h | h <;> subst h <;> decide

/-- The region of a heap that `bd_init` accepts, with the bounds under which no `int` of it wraps. -/
structure Region (h : Heap) (base endp m length : Nat) : Prop where
  placed : Placed h m
  sizes : sizesFor ((endp : Int) - roundUp base leafSize) = m + 1
  origin : h.bdBase = roundUp base leafSize
  region : (endp : Int) - h.bdBase = length
  least : 4 ≤ m
  small : m ≤ 27
  half : blkSize m < 2 * length
  fits : length ≤ blkSize m
  room : metaLength m ≤ 16 * (length / 16)
  range : 16 * (length / 16) < 2 ^ 31

theorem bounds_of_total (sizes : h₁.nsizes = m + 1)
    (region : (endp : Int) - h₁.bdBase = length) (half : blkSize m < 2 * length) (fits : length ≤ blkSize m)
    (limit : m < 31) (marked : bdMark h₁ (bdEnd h₁ endp) (h₁.bdBase + h₁.heapSize) = .ok h₂) (upper : total < 2 ^ 31)
    (small : m ≤ 5 → 0 ≤ total) (agree : total = (blkSize m : Int) - toInt (metaLength m) - unavailableBytes h₂ endp) :
    4 ≤ m ∧ m ≤ 27 ∧ metaLength m ≤ 16 * (length / 16) ∧ 16 * (length / 16) < 2 ^ 31 ∧
      total = (16 * (length / 16) : Nat) - metaLength m := by
  have same := bdMark_same marked
  have heapSize : h₁.heapSize = blkSize m := Heap.heapSize_of sizes
  have size : blkSize m = 2 ^ m * 16 := rfl
  have low : m ≤ 28 := by
    by_contra large
    have bound : 2 ^ 29 ≤ 2 ^ m := Nat.pow_le_pow_right (by decide) (by omega)
    have first := toInt_upper (metaLength m)
    have second := unavailableBytes_upper h₂ endp
    omega
  have value : total = (16 * (length / 16) : Nat) - metaLength m := by
    have shorter := metaLength_small low
    rw [agree, toInt_nat (by omega), unavailableBytes_eq (same.nsizes.trans sizes) low (same.bdBase ▸ region) half fits]
    omega
  have range : 16 * (length / 16) < 2 ^ 31 := by
    by_contra beyond
    have shorter := metaLength_small low
    have bound : 2 ^ m ≤ 2 ^ 28 := Nat.pow_le_pow_right (by decide) low
    rw [bdEnd_eq sizes low region half fits, heapSize] at marked
    exact bdMark_wrapped h₁ (by omega) (by omega) (by omega) (by omega) h₂ marked
  have room : metaLength m ≤ 16 * (length / 16) := by
    by_cases lower : 6 ≤ m
    · have quarter := metaLength_large lower
      have aligned := metaLength_dvd m
      omega
    · have nonneg := small (by omega)
      omega
  refine ⟨?_, ?_, room, range, value⟩
  · by_contra tiny
    have larger := metaLength_tiny (show m ≤ 3 by omega)
    omega
  · by_contra large
    have bound : 2 ^ 28 ≤ 2 ^ m := Nat.pow_le_pow_right (by decide) (by omega)
    omega

theorem Placed.transfer (placed : Placed h m) (same : h.Same h') : Placed h' m :=
  ⟨by rw [same.nsizes, placed.sizes], by rw [same.bdBase, same.bdSizes]; exact placed.alloc,
    by rw [same.bdBase, same.bdSizes]; exact placed.split⟩

theorem marks_of_bounds (laid : LaidOut h₀ m) (aligned : h₀.bdBase % 16 = 0)
    (region : (endp : Int) - h₀.bdBase = length) (small : m ≤ 27) (half : blkSize m < 2 * length)
    (fits : length ≤ blkSize m) (room : metaLength m ≤ 16 * (length / 16)) (range : 16 * (length / 16) < 2 ^ 31) :
    ∃ h₁ h₂, bdMark h₀ h₀.bdBase (h₀.bdBase + metaLength m) = .ok h₁ ∧
      bdMark h₁ (bdEnd h₁ endp) (h₁.bdBase + h₁.heapSize) = .ok h₂ ∧
      h₂.checked = h₀.checked ∧ Prepared h₂ m (metaLength m / 16) (length / 16) := by
  have dvd := metaLength_dvd m
  have whole : metaLength m = 16 * (metaLength m / 16) := by omega
  have headers : 2 * (m + 1) ≤ metaLength m / 16 := by
    have lower := metaLength_headers m
    omega
  have geometry : Geometry h₀ m (outside (metaLength m / 16) (length / 16)) :=
    laid.geometry small fun k upper => .inl (show 2 * k < metaLength m / 16 by omega)
  have heapAligned : blkSize m % 16 = 0 := Nat.mul_mod_left _ _
  obtain ⟨h₁, first, marking⟩ := bdMark_spec h₀ geometry (Nat.zero_le (metaLength m)) (by omega) (by decide)
    aligned (by decide) dvd
  rw [Nat.add_zero] at first
  have same := bdMark_same first
  have sizes : h₁.nsizes = m + 1 := same.nsizes.trans laid.sizes
  have heapSize : h₁.heapSize = blkSize m := Heap.heapSize_of sizes
  obtain ⟨h₂, second, marking'⟩ := bdMark_spec h₁ (marking.geometry geometry)
    (show 16 * (length / 16) ≤ blkSize m by omega) (Nat.le_refl _) range (by rw [same.bdBase]; exact aligned)
    (by omega) heapAligned
  rw [whole] at marking
  refine ⟨h₁, h₂, first, ?_, marking'.checked.trans marking.checked, prepared_of_marks laid small headers marking marking'⟩
  rw [bdEnd_eq sizes (by omega) (same.bdBase ▸ region) half fits, heapSize]
  exact second

theorem bdInitfree_spec (sizes : h.nsizes = m + 1) (result : bdInitfree h bdLeft bdRight = .ok (total, h')) :
    h' = pushLevels (initPushes h bdLeft bdRight) m 0 h ∧ h.Same h' ∧
      total = toInt (span (pushedBytes (initPushes h bdLeft bdRight)) 0 m) := by
  have top : h.maxSize = m := Heap.maxSize_of sizes
  unfold bdInitfree at result
  rw [top] at result
  obtain ⟨final, count⟩ := initfreeLoop_spec _ _ _ _ _ _ (toInt_nat (n := 0) (by decide)) result
  rw [Nat.cast_zero, Int.zero_add] at count
  obtain ⟨links, shape⟩ := pushLevels_eq (initPushes h bdLeft bdRight) m 0 h
  refine ⟨final, ?_, count⟩
  rw [final, shape]
  exact ⟨rfl, rfl, rfl⟩

theorem total_nonneg (tiny : m ≤ 5) : 0 ≤ toInt (span (pushedBytes (initPushes h bdLeft bdRight)) 0 m) := by
  have bytes := pushedBytes_bound h bdLeft bdRight m
  have bound : 2 ^ m ≤ 2 ^ 5 := Nat.pow_le_pow_right (by decide) tiny
  unfold blkSize leafSize at bytes
  rw [toInt_nat (by omega)]
  omega

theorem exact_of_total {left right bytes : Nat} (small : m ≤ 27) (count : total = toInt bytes)
    (bound : bytes < 2 * blkSize m) (order : left ≤ right) (value : total = (right : Int) - left) :
    bytes = right - left := by
  have limit := blkSize_small small
  have nonneg : 0 ≤ toInt bytes := by
    rw [← count, value]
    omega
  rw [toInt_nat_nonneg (by omega) nonneg] at count
  omega

theorem consistent_of_total (laid : LaidOut h₀ m)
    (aligned : h₀.bdBase % 16 = 0) (region : (endp : Int) - h₀.bdBase = length) (half : blkSize m < 2 * length)
    (fits : length ≤ blkSize m) (limit : m < 31) (first : bdMark h₀ h₀.bdBase (h₀.bdBase + metaLength m) = .ok h₁)
    (second : bdMark h₁ (bdEnd h₁ endp) (h₁.bdBase + h₁.heapSize) = .ok h₂)
    (third : bdInitfree h₂ (h₀.bdBase + metaLength m) (bdEnd h₂ endp) = .ok (total, h))
    (agree : total = (blkSize m : Int) - toInt (metaLength m) - unavailableBytes h₂ endp) :
    4 ≤ m ∧ m ≤ 27 ∧ metaLength m ≤ 16 * (length / 16) ∧ 16 * (length / 16) < 2 ^ 31 ∧
      ∃ lists, Consistent h m (outside (metaLength m / 16) (length / 16)) ∅ lists := by
  have same₁ := bdMark_same first
  have same₂ := bdMark_same second
  have sizes₁ : h₁.nsizes = m + 1 := same₁.nsizes.trans laid.sizes
  have region₁ : (endp : Int) - h₁.bdBase = length := by rw [same₁.bdBase]; exact region
  have base₂ : h₂.bdBase = h₀.bdBase := same₂.bdBase.trans same₁.bdBase
  obtain ⟨final, -, count⟩ := bdInitfree_spec (same₂.nsizes.trans sizes₁) third
  obtain ⟨least, small, room, range, value⟩ := bounds_of_total sizes₁ region₁ half fits limit second
    (count ▸ toInt_upper _) (fun tiny => count ▸ total_nonneg tiny) agree
  obtain ⟨g₁, g₂, first', second', -, prepared⟩ := marks_of_bounds laid aligned region small half fits room range
  rw [first] at first'
  cases first'
  rw [second] at second'
  cases second'
  have dvd := metaLength_dvd m
  have left : h₀.bdBase + metaLength m = h₂.bdBase + 16 * (metaLength m / 16) := by omega
  have right : bdEnd h₂ endp = h₂.bdBase + 16 * (length / 16) :=
    bdEnd_eq (same₂.nsizes.trans sizes₁) (by omega) (same₂.bdBase ▸ region₁) half fits
  rw [left, right] at final count
  have spread : span (pushedBytes (initPushes h₂ (h₂.bdBase + 16 * (metaLength m / 16))
      (h₂.bdBase + 16 * (length / 16)))) 0 m = 16 * (length / 16 - metaLength m / 16) := by
    have bytes := pushedBytes_bound h₂ (h₂.bdBase + 16 * (metaLength m / 16)) (h₂.bdBase + 16 * (length / 16)) m
    have exactly := exact_of_total small count bytes room value
    rw [exactly]
    omega
  have state := prepared.consistent range (by unfold blkSize leafSize at fits; omega) spread
  rw [← final] at state
  exact ⟨least, small, room, range, _, state⟩

theorem bdInit_tiny
    (lower : -16 < (endp : Int) - roundUp base leafSize) (tiny : (endp : Int) - roundUp base leafSize < 16)
    (one : sizesFor ((endp : Int) - roundUp base leafSize) = 0 + 1) : bdInit checked memory base endp ≠ .ok h := by
  intro result
  obtain ⟨h₀, start, origin, -, laid⟩ := bdInitSizes_spec checked memory base endp 0 one
  obtain ⟨-, h₁, h₂, total, first, second, third, agree⟩ := bdInit_cases start laid.sizes result
  have same := (bdMark_same first).trans (bdMark_same second)
  have sizes : h₂.nsizes = 0 + 1 := same.nsizes.trans laid.sizes
  obtain ⟨-, same', count⟩ := bdInitfree_spec sizes third
  have free : total = 0 := by
    rw [count, span_zero]
    decide
  have heapSize₂ : h₂.heapSize = 16 := Heap.heapSize_of sizes
  have heapSize : h.heapSize = 16 := Heap.heapSize_of (same'.nsizes.trans sizes)
  rw [← origin, ← same.bdBase] at tiny lower
  have unavailable : 0 < unavailableBytes h₂ endp := by
    unfold unavailableBytes
    dsimp only
    rw [heapSize₂, toInt_of_range (by omega) (by omega), if_pos (by omega), roundUp_eq _ _ (by decide)]
    unfold leafSize
    omega
  have metaBytes : toInt (metaLength 0) = 48 := by decide
  rw [metaBytes, heapSize, free] at agree
  omega

theorem bdInit_spec (baseRange : base < 2 ^ 64)
    (endRange : endp < 2 ^ 64) (result : bdInit checked memory base endp = .ok h) :
    ∃ m length lists, Region h base endp m length ∧
      (bdInitSizes checked memory base endp).1 = h.bdBase + metaLength m ∧
      Consistent h m (outside (metaLength m / 16) (length / 16)) ∅ lists := by
  have rounded := roundUp_bounds base
  unfold leafSize at rounded
  obtain ⟨m, sizes⟩ : ∃ m, sizesFor ((endp : Int) - roundUp base leafSize) = m + 1 := by
    refine Nat.exists_eq_succ_of_ne_zero ?_
    unfold sizesFor
    dsimp only
    split <;> omega
  obtain ⟨h₀, start, origin, -, laid⟩ := bdInitSizes_spec checked memory base endp m sizes
  obtain ⟨limit, h₁, h₂, total, first, second, third, agree⟩ := bdInit_cases start laid.sizes result
  have same : h₀.Same h :=
    (bdMark_same first).trans ((bdMark_same second).trans
      (bdInitfree_spec ((bdMark_same second).nsizes.trans ((bdMark_same first).nsizes.trans laid.sizes)) third).2.1)
  have heapSize : h.heapSize = blkSize m := Heap.heapSize_of (same.nsizes.trans laid.sizes)
  rw [heapSize] at agree
  by_cases negative : (endp : Int) - roundUp base leafSize ≤ -16
  · have large := sizesFor_negative (by unfold leafSize; omega) negative
    omega
  have upper : (endp : Int) - roundUp base leafSize < 2 ^ 64 := by
    unfold leafSize
    omega
  rcases sizesFor_spec (Int.not_le.mp negative) upper with ⟨tiny, one⟩ | ⟨m', sizes', half, fits, positive⟩
  · exact absurd result (bdInit_tiny (Int.not_le.mp negative) tiny one)
  have equal : m' = m := by omega
  subst equal
  obtain ⟨length, exactly⟩ : ∃ length : Nat, (endp : Int) - h₀.bdBase = length :=
    ⟨((endp : Int) - h₀.bdBase).toNat, by rw [origin]; omega⟩
  rw [← origin, exactly] at half fits
  have half' : blkSize m' < 2 * length := by exact_mod_cast half
  have fits' : length ≤ blkSize m' := by exact_mod_cast fits
  have aligned : h₀.bdBase % 16 = 0 := by
    rw [origin]
    exact roundUp_dvd base
  obtain ⟨least, small, room, range, lists, state⟩ :=
    consistent_of_total laid aligned exactly half' fits' limit first second third agree
  have placed := laid.toPlaced.transfer same
  have region : (endp : Int) - h.bdBase = length := by
    rw [same.bdBase]
    exact exactly
  refine ⟨m', length, lists,
    ⟨placed, sizes', same.bdBase.trans origin, region, least, small, half', fits', room, range⟩, ?_, state⟩
  rw [start, same.bdBase]

/-- The heap that `bd_init` leaves, in units: the data structures end at `left`, the tail begins at `right`. -/
structure Window (checked : Bool) (memory : Memory) (base endp : Nat) (h : Heap) (m left right : Nat) : Prop where
  placed : Placed h m
  origin : h.bdBase = roundUp base leafSize
  room : metaRaw m ≤ 16 * left
  order : left ≤ right
  fits : right ≤ 2 ^ m
  low : (bdInitSizes checked memory base endp).1 = h.bdBase + 16 * left
  high : bdEnd h endp = h.bdBase + 16 * right

theorem bdInit_window (baseRange : base < 2 ^ 64)
    (endRange : endp < 2 ^ 64) (result : bdInit checked memory base endp = .ok h) :
    ∃ m left right lists, Window checked memory base endp h m left right ∧
      Consistent h m (outside left right) ∅ lists := by
  obtain ⟨m, length, lists, region, metaEnd, start⟩ := bdInit_spec baseRange endRange result
  have dvd := metaLength_dvd m
  have raw := metaRaw_le m
  have order := region.room
  have fits := region.fits
  unfold blkSize leafSize at fits
  have high : bdEnd h endp = h.bdBase + 16 * (length / 16) :=
    bdEnd_eq region.placed.sizes (Nat.le_succ_of_le region.small) region.region region.half region.fits
  exact ⟨m, metaLength m / 16, length / 16, lists,
    ⟨region.placed, region.origin, by omega, by omega, by omega, by rw [metaEnd]; omega, high⟩, start⟩

end Region

end OShard.Buddy
