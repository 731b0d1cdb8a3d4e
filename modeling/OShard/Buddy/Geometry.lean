import OShard.Base.AlignedBlock
import OShard.Buddy.Model

namespace OShard.Buddy

open LinkedList BitArray AlignedBlock

def CharArray.Apart (a b : CharArray) : Prop :=
  a.start + a.bytes ≤ b.start ∨ b.start + b.bytes ≤ a.start

def InHeap (m : Nat) (b : Block) : Prop := b.level ≤ m ∧ b.index < 2 ^ (m - b.level)

instance (m : Nat) (b : Block) : Decidable (InHeap m b) := inferInstanceAs (Decidable (_ ∧ _))

variable {m : Nat} {h h' : Heap}

theorem InHeap.fits {b : Block} (inside : InHeap m b) : (b.index + 1) * 2 ^ b.level ≤ 2 ^ m := by
  calc (b.index + 1) * 2 ^ b.level ≤ 2 ^ (m - b.level) * 2 ^ b.level := Nat.mul_le_mul_right _ inside.2
    _ = 2 ^ m := by rw [← Nat.pow_add, Nat.sub_add_cancel inside.1]

/-- The address of a block; units are leaves, counted from `bd_base`. -/
def Heap.at (h : Heap) (b : Block) : Nat := h.bdBase + b.index * blkSize b.level

/-- What `bd_init` fixes for good: the sizes and the arrays, which never overlap. -/
structure Geometry (h : Heap) (m : Nat) (reserved : Set Nat) : Prop where
  sizes : h.nsizes = m + 1
  small : m ≤ 27
  alloc : ∀ b, InHeap m b → b.index / 2 / 8 < (h.bdSizes b.level).alloc.bytes
  split : ∀ b, InHeap m b → 0 < b.level → b.index / 8 < (h.bdSizes b.level).split.bytes
  allocs : ∀ j k, j ≤ m → k ≤ m → j ≠ k → (h.bdSizes j).alloc.Apart (h.bdSizes k).alloc
  splits : ∀ j k, 0 < j → j ≤ m → 0 < k → k ≤ m → j ≠ k → (h.bdSizes j).split.Apart (h.bdSizes k).split
  mixed : ∀ j k, j ≤ m → 0 < k → k ≤ m → (h.bdSizes j).alloc.Apart (h.bdSizes k).split
  headers : ∀ k ≤ m, 2 * k ∈ reserved

theorem Heap.maxSize_of (sizes : h.nsizes = m + 1) : h.maxSize = m := by
  rw [Heap.maxSize, sizes, Nat.add_sub_cancel]

theorem Heap.heapSize_of (sizes : h.nsizes = m + 1) : h.heapSize = blkSize m := by
  rw [Heap.heapSize, Heap.maxSize_of sizes]

structure Heap.Same (h h' : Heap) : Prop where
  nsizes : h'.nsizes = h.nsizes
  bdBase : h'.bdBase = h.bdBase
  bdSizes : h'.bdSizes = h.bdSizes

theorem Heap.Same.refl (h : Heap) : h.Same h := ⟨rfl, rfl, rfl⟩

theorem Heap.Same.trans {h'' : Heap} (first : h.Same h') (second : h'.Same h'') : h.Same h'' :=
  ⟨second.nsizes.trans first.nsizes, second.bdBase.trans first.bdBase, second.bdSizes.trans first.bdSizes⟩

theorem Heap.Same.at_eq (same : h.Same h') (b : Block) : h'.at b = h.at b := by
  unfold Heap.at
  rw [same.bdBase]

theorem Geometry.transfer {reserved : Set Nat} (geometry : Geometry h m reserved)
    (count : h'.nsizes = h.nsizes) (sizes : h'.bdSizes = h.bdSizes) : Geometry h' m reserved := by
  obtain ⟨nsizes, small, alloc, split, allocs, splits, mixed, headers⟩ := geometry
  exact ⟨by rw [count, nsizes], small, by rw [sizes]; exact alloc, by rw [sizes]; exact split,
    by rw [sizes]; exact allocs, by rw [sizes]; exact splits, by rw [sizes]; exact mixed, headers⟩

section Indices

variable {m : Nat} {b : Block}

theorem blkSize_pos (k : Nat) : 0 < blkSize k := Nat.mul_pos (Nat.two_pow_pos k) (by decide)

theorem blkSize_succ (k : Nat) : blkSize (k + 1) = 2 * blkSize k := by
  unfold blkSize
  rw [Nat.pow_succ]
  ring

theorem offset_lt (inside : InHeap m b) : b.index * blkSize b.level < blkSize m := by
  have bound : b.index * blkSize b.level < 2 ^ (m - b.level) * blkSize b.level :=
    Nat.mul_lt_mul_of_pos_right inside.2 (blkSize_pos _)
  have whole : 2 ^ (m - b.level) * blkSize b.level = blkSize m := by
    unfold blkSize
    rw [← Nat.mul_assoc, ← Nat.pow_add, Nat.sub_add_cancel inside.1]
  omega

theorem blkSize_small (small : m ≤ 27) : blkSize m ≤ 2 ^ 31 := by
  have bound : 2 ^ m ≤ 2 ^ 27 := Nat.pow_le_pow_right (by decide) small
  unfold blkSize leafSize
  omega

theorem blkIndex_offset (h : Heap) (k : Nat) {offset : Nat} (bound : offset < 2 ^ 31) :
    blkIndex h k (h.bdBase + offset) = (offset / blkSize k : Nat) := by
  unfold blkIndex
  have difference : ((h.bdBase + offset : Nat) : Int) - h.bdBase = offset := by omega
  rw [difference, toInt_nat bound]
  rfl

theorem addr_offset (h : Heap) (k i : Nat) (bound : i * blkSize k < 2 ^ 31) :
    addr h k i = h.bdBase + i * blkSize k := by
  unfold addr
  have product : (i : Int) * blkSize k = (i * blkSize k : Nat) := by push_cast; rfl
  dsimp only
  rw [product, toInt_nat bound]
  omega

theorem buddyIndex_eq (b : Block) : buddyIndex b.index = b.buddy.index := by
  unfold buddyIndex Block.buddy
  have remainder : (b.index : Int).tmod 2 = (b.index % 2 : Nat) := rfl
  dsimp only
  rw [remainder]
  by_cases even : b.index % 2 = 0
  · simp only [even, Nat.cast_zero, ↓reduceIte, Nat.cast_add, Nat.cast_one]
  · rw [if_neg (by omega), if_neg even]
    omega

theorem half_eq (n : Nat) : (n : Int).tdiv 2 = (n / 2 : Nat) := rfl

theorem at_parent_even (h : Heap) (even : b.index % 2 = 0) : h.at b.parent = h.at b := by
  unfold Heap.at Block.parent
  dsimp only
  rw [blkSize_succ, ← Nat.mul_assoc]
  congr 2
  omega

theorem at_parent_odd (h : Heap) (odd : b.index % 2 = 1) : h.at b.parent = h.at b.buddy := by
  unfold Heap.at Block.parent Block.buddy
  dsimp only
  rw [if_neg (by omega), blkSize_succ, ← Nat.mul_assoc]
  congr 2
  omega

variable {h : Heap} {m : Nat} {b : Block} (small : m ≤ 27) (inside : InHeap m b)

include small inside

theorem at_bound : b.index * blkSize b.level < 2 ^ 31 :=
  Nat.lt_of_lt_of_le (offset_lt inside) (blkSize_small small)

theorem blkIndex_at : blkIndex h b.level (h.at b) = b.index := by
  unfold Heap.at
  rw [blkIndex_offset h _ (at_bound small inside), Nat.mul_div_cancel _ (blkSize_pos _)]

theorem addr_at : addr h b.level b.index = h.at b := addr_offset h _ _ (at_bound small inside)

omit small in
theorem buddy_inside (lower : b.level < m) : InHeap m b.buddy := by
  have even : 2 ^ (m - b.level) = 2 * 2 ^ (m - b.level - 1) := by
    rw [← Nat.pow_succ']
    congr 1
    omega
  have bound := inside.2
  refine ⟨inside.1, ?_⟩
  unfold Block.buddy
  dsimp only
  split <;> omega

omit small in
theorem parent_inside (lower : b.level < m) : InHeap m b.parent := by
  have even : 2 ^ (m - b.level) = 2 * 2 ^ (m - (b.level + 1)) := by
    rw [← Nat.pow_succ']
    congr 1
    omega
  have bound := inside.2
  exact ⟨lower, by simp only [Block.parent]; omega⟩

end Indices

section Bits

def Heap.pairBit (h : Heap) (b : Block) : Bool := bit h.bytes (h.bdSizes b.level).alloc.start (b.index / 2)

def Heap.splitBit (h : Heap) (b : Block) : Bool := bit h.bytes (h.bdSizes b.level).split.start b.index

theorem bitIndex_ok (h : Heap) (array : CharArray) {i : Nat} (bound : i / 8 < array.bytes) :
    bitIndex h array i = .ok i := by
  unfold bitIndex
  rw [if_neg (by omega), if_neg]
  · rfl
  · intro outside
    have := outside.2
    simp only [Int.toNat_natCast] at this
    omega

theorem bitIsset_ok (h : Heap) (array : CharArray) {i : Nat} (bound : i / 8 < array.bytes) :
    bitIsset h array i = .ok (bit h.bytes array.start i) := by
  simp only [bitIsset, bitIndex_ok h array bound, Bind.bind, Except.bind, Pure.pure, Except.pure, isset_eq_bit]

def Heap.changed (h : Heap) (change : BitVec 8 → BitVec 8 → BitVec 8) (array i : Nat) : Heap :=
  { h with bytes := Function.update h.bytes (array + i / 8) (change (h.bytes (array + i / 8)) (mask i)) }

theorem bitUpdate_ok (change : BitVec 8 → BitVec 8 → BitVec 8) (h : Heap) (array : CharArray) {i : Nat}
    (bound : i / 8 < array.bytes) : bitUpdate change h array i = .ok (h.changed change array.start i) := by
  simp only [bitUpdate, bitIndex_ok h array bound, Bind.bind, Except.bind, Pure.pure, Except.pure, Heap.changed]

theorem sameBit_self (array i j : Nat) : SameBit array i array j ↔ i = j := by
  unfold SameBit
  omega

theorem CharArray.Apart.not_sameBit {a b : CharArray} (apart : a.Apart b) {i j : Nat}
    (first : i / 8 < a.bytes) (second : j / 8 < b.bytes) : ¬ SameBit a.start i b.start j := by
  unfold CharArray.Apart at apart
  unfold SameBit
  omega

variable {h : Heap} {m : Nat} {reserved : Set Nat} (geometry : Geometry h m reserved) {f b : Block}
  (target : InHeap m f) (inside : InHeap m b)

include geometry target inside

theorem sameBit_pair : SameBit (h.bdSizes f.level).alloc.start (f.index / 2)
    (h.bdSizes b.level).alloc.start (b.index / 2) ↔ b.parent = f.parent := by
  by_cases level : f.level = b.level
  · rw [level, sameBit_self]
    unfold Block.parent
    simp only [Block.mk.injEq, level, true_and]
    exact eq_comm
  have apart := geometry.allocs _ _ target.1 inside.1 level
  have different : b.parent ≠ f.parent := by
    intro same
    have := congrArg Block.level same
    simp only [Block.parent_level] at this
    omega
  simp only [different, iff_false]
  exact apart.not_sameBit (geometry.alloc f target) (geometry.alloc b inside)

theorem sameBit_split (positive : 0 < f.level) (positive' : 0 < b.level) :
    SameBit (h.bdSizes f.level).split.start f.index (h.bdSizes b.level).split.start b.index ↔ b = f := by
  by_cases level : f.level = b.level
  · rw [level, sameBit_self]
    constructor
    · intro same
      ext
      · exact level.symm
      · exact same.symm
    · intro same
      rw [same]
  · have apart := geometry.splits _ _ positive target.1 positive' inside.1 level
    have different : b ≠ f := by
      intro same
      exact level (congrArg Block.level same.symm)
    simp only [different, iff_false]
    exact apart.not_sameBit (geometry.split f target positive) (geometry.split b inside positive')

theorem not_sameBit_mixed (positive : 0 < b.level) :
    ¬ SameBit (h.bdSizes f.level).alloc.start (f.index / 2) (h.bdSizes b.level).split.start b.index :=
  (geometry.mixed _ _ target.1 positive inside.1).not_sameBit (geometry.alloc f target)
    (geometry.split b inside positive)

theorem not_sameBit_mixed' (positive : 0 < f.level) :
    ¬ SameBit (h.bdSizes f.level).split.start f.index (h.bdSizes b.level).alloc.start (b.index / 2) := by
  intro same
  exact not_sameBit_mixed geometry inside target positive ⟨same.1.symm, same.2.symm⟩

end Bits

section Updates

def Heap.inverted (h : Heap) (f : Block) : Heap :=
  h.changed (fun b m => b ^^^ m) (h.bdSizes f.level).alloc.start (f.index / 2)

def Heap.splitSet (h : Heap) (f : Block) : Heap :=
  h.changed (fun b m => b ||| m) (h.bdSizes f.level).split.start f.index

def Heap.splitCleared (h : Heap) (f : Block) : Heap :=
  h.changed (fun b m => b &&& ~~~m) (h.bdSizes f.level).split.start f.index

variable {h : Heap} {m : Nat} {reserved : Set Nat} (geometry : Geometry h m reserved) {f b : Block}
  (target : InHeap m f)

include geometry target

theorem bitInvert_pair : bitInvert h (h.bdSizes f.level).alloc (f.index / 2 : Nat) = .ok (h.inverted f) :=
  bitUpdate_ok _ h _ (geometry.alloc f target)

theorem bitIsset_pair : bitIsset h (h.bdSizes f.level).alloc (f.index / 2 : Nat) = .ok (h.pairBit f) :=
  bitIsset_ok h _ (geometry.alloc f target)

theorem bitSet_split (positive : 0 < f.level) : bitSet h (h.bdSizes f.level).split f.index = .ok (h.splitSet f) :=
  bitUpdate_ok _ h _ (geometry.split f target positive)

theorem bitClear_split (positive : 0 < f.level) :
    bitClear h (h.bdSizes f.level).split f.index = .ok (h.splitCleared f) :=
  bitUpdate_ok _ h _ (geometry.split f target positive)

theorem bitIsset_split (positive : 0 < f.level) : bitIsset h (h.bdSizes f.level).split f.index = .ok (h.splitBit f) :=
  bitIsset_ok h _ (geometry.split f target positive)

variable (inside : InHeap m b)

include inside

theorem inverted_pairBit : (h.inverted f).pairBit b = (h.pairBit b ^^ decide (b.parent = f.parent)) := by
  have same := sameBit_pair geometry target inside
  simp only [Heap.inverted, Heap.changed, Heap.pairBit, bit_invert, same]

theorem inverted_splitBit (positive : 0 < b.level) : (h.inverted f).splitBit b = h.splitBit b := by
  have different := not_sameBit_mixed geometry target inside positive
  simp only [Heap.inverted, Heap.changed, Heap.splitBit, bit_invert, different, decide_false, Bool.xor_false]

variable (positive : 0 < f.level)

include positive

theorem splitSet_splitBit (positive' : 0 < b.level) :
    (h.splitSet f).splitBit b = (h.splitBit b || decide (b = f)) := by
  have same := sameBit_split geometry target inside positive positive'
  simp only [Heap.splitSet, Heap.changed, Heap.splitBit, bit_set, same]

theorem splitSet_pairBit : (h.splitSet f).pairBit b = h.pairBit b := by
  have different := not_sameBit_mixed' geometry target inside positive
  simp only [Heap.splitSet, Heap.changed, Heap.pairBit, bit_set, different, decide_false, Bool.or_false]

theorem splitCleared_splitBit (positive' : 0 < b.level) :
    (h.splitCleared f).splitBit b = (h.splitBit b && !decide (b = f)) := by
  have same := sameBit_split geometry target inside positive positive'
  simp only [Heap.splitCleared, Heap.changed, Heap.splitBit, bit_clear, same]

theorem splitCleared_pairBit : (h.splitCleared f).pairBit b = h.pairBit b := by
  have different := not_sameBit_mixed' geometry target inside positive
  simp only [Heap.splitCleared, Heap.changed, Heap.pairBit, bit_clear, different, decide_false,
    Bool.not_false, Bool.and_true]

end Updates

section Frames

structure Heap.Around (h h' : Heap) (m : Nat) (c : Block) : Prop where
  pair : ∀ b, InHeap m b → h'.pairBit b ≠ h.pairBit b → c.Within b.parent
  split : ∀ b, InHeap m b → 0 < b.level → h'.splitBit b ≠ h.splitBit b → c.Within b

variable {h h' h'' : Heap} {m : Nat} {reserved : Set Nat} {c d f : Block}

theorem Heap.Around.refl : h.Around h m c :=
  ⟨fun _ _ changed => absurd rfl changed, fun _ _ _ changed => absurd rfl changed⟩

theorem Heap.Around.trans (first : h.Around h' m c) (within : d.Within c) (second : h'.Around h'' m d) :
    h.Around h'' m d := by
  refine ⟨fun b inside changed => ?_, fun b inside positive changed => ?_⟩
  · by_cases kept : h'.pairBit b = h.pairBit b
    · rw [← kept] at changed
      exact second.pair b inside changed
    · exact within.trans (first.pair b inside kept)
  · by_cases kept : h'.splitBit b = h.splitBit b
    · rw [← kept] at changed
      exact second.split b inside positive changed
    · exact within.trans (first.split b inside positive kept)

theorem inverted_around (geometry : Geometry h m reserved) (target : InHeap m f) : h.Around (h.inverted f) m f := by
  refine ⟨fun b inside changed => ?_, fun b inside positive changed => ?_⟩
  · by_cases same : b.parent = f.parent
    · rw [same]
      exact f.within_parent
    · rw [inverted_pairBit geometry target inside, decide_eq_false same, Bool.xor_false] at changed
      exact absurd rfl changed
  · exact absurd (inverted_splitBit geometry target inside positive) changed

theorem splitSet_around (geometry : Geometry h m reserved) (target : InHeap m f) (positive : 0 < f.level) :
    h.Around (h.splitSet f) m f := by
  refine ⟨fun b inside changed => ?_, fun b inside positive' changed => ?_⟩
  · exact absurd (splitSet_pairBit geometry target inside positive) changed
  · by_cases same : b = f
    · rw [same]
      exact Block.Within.refl f
    · rw [splitSet_splitBit geometry target inside positive positive', decide_eq_false same, Bool.or_false] at changed
      exact absurd rfl changed

end Frames

end OShard.Buddy
