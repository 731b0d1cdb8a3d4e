import OShard.Buddy.Layout

namespace OShard.Buddy

open LinkedList BitArray AlignedBlock

/-- What marking the blocks in `hit` does to the bits: one inversion of the pair bit for each, and
    the split bit of each set. The bits that fill up the last byte of an array stay as they are. -/
structure Marking (h h' : Heap) (m : Nat) (hit : Block → Bool) : Prop where
  count : h'.nsizes = h.nsizes
  base : h'.bdBase = h.bdBase
  sizes : h'.bdSizes = h.bdSizes
  links : h'.links = h.links
  checked : h'.checked = h.checked
  pair : ∀ b, InHeap m b → h'.pairBit b = (h.pairBit b ^^ hit b ^^ hit b.buddy)
  split : ∀ b, InHeap m b → 0 < b.level → h'.splitBit b = (h.splitBit b || hit b)
  slack : ∀ k ≤ m, ∀ i, 2 ^ (m - k) ≤ 2 * i → i / 8 < (h.bdSizes k).alloc.bytes →
    bit h'.bytes (h.bdSizes k).alloc.start i = bit h.bytes (h.bdSizes k).alloc.start i

section Composition

variable {h h' h'' : Heap} {m : Nat} {hit hit' : Block → Bool}

theorem Marking.none (h : Heap) (m : Nat) {hit : Block → Bool} (empty : ∀ b, hit b = false) : Marking h h m hit :=
  ⟨rfl, rfl, rfl, rfl, rfl, fun b _ => by simp [empty], fun b _ _ => by simp [empty], fun _ _ _ _ _ => rfl⟩

theorem Marking.trans (first : Marking h h' m hit) (second : Marking h' h'' m hit') {both : Block → Bool}
    (union : ∀ b, both b = (hit b || hit' b)) (apart : ∀ b, hit b = true → hit' b = false) : Marking h h'' m both := by
  have exclusive : ∀ b, both b = (hit b ^^ hit' b) := by
    intro b
    rw [union]
    cases here : hit b with
    | false => simp
    | true => simp [apart b here]
  refine ⟨second.count.trans first.count, second.base.trans first.base, second.sizes.trans first.sizes,
    second.links.trans first.links, second.checked.trans first.checked, ?_, ?_, ?_⟩
  · intro b inside
    rw [second.pair b inside, first.pair b inside, exclusive, exclusive]
    cases h.pairBit b <;> cases hit b <;> cases hit' b <;> cases hit b.buddy <;> cases hit' b.buddy <;> rfl
  · intro b inside positive
    rw [second.split b inside positive, first.split b inside positive, union, Bool.or_assoc]
  · intro k upper i beyond bound
    have later := second.slack k upper i beyond
    rw [first.sizes] at later
    rw [later bound, first.slack k upper i beyond bound]

theorem Marking.geometry {reserved : Set Nat} (marking : Marking h h' m hit) (geometry : Geometry h m reserved) :
    Geometry h' m reserved :=
  geometry.transfer marking.count marking.sizes

end Composition

section Indices

theorem blkIndexNext_offset (h : Heap) (k : Nat) {offset : Nat} (bound : offset ≤ 2 ^ 31) :
    blkIndexNext h k (h.bdBase + offset) = ((offset + (blkSize k - 1)) / blkSize k : Nat) := by
  have positive := blkSize_pos k
  have leaf : 16 ≤ blkSize k := Nat.le_mul_of_pos_left _ (Nat.two_pow_pos k)
  have difference : ((h.bdBase + offset : Nat) : Int) - h.bdBase = offset := by omega
  have quotient : (offset : Int).tdiv (blkSize k) = (offset / blkSize k : Nat) := rfl
  have remainder : (offset : Int).tmod (blkSize k) = (offset % blkSize k : Nat) := rfl
  have small : offset / blkSize k < 2 ^ 31 := by
    have shrunk : offset / blkSize k ≤ offset / 16 := Nat.div_le_div_left leaf (by decide)
    omega
  have whole := Nat.div_add_mod offset (blkSize k)
  unfold blkIndexNext
  dsimp only
  rw [difference, quotient, remainder, toInt_nat small]
  by_cases zero : offset % blkSize k = 0
  · rw [if_neg (by simp [zero])]
    congr 1
    symm
    apply Nat.div_eq_of_lt_le
    · rw [Nat.mul_comm]
      omega
    · rw [Nat.mul_comm, Nat.mul_add]
      omega
  · rw [if_pos (by omega)]
    have up : (offset + (blkSize k - 1)) / blkSize k = offset / blkSize k + 1 := by
      apply Nat.div_eq_of_lt_le
      · rw [Nat.mul_comm, Nat.mul_add]
        omega
      · have bound := Nat.mod_lt offset positive
        rw [Nat.mul_comm, Nat.mul_add, Nat.mul_add]
        omega
    rw [up]
    push_cast
    rfl

theorem lt_up_iff (offset i : Nat) {size : Nat} (positive : 0 < size) :
    i < (offset + (size - 1)) / size ↔ i * size < offset := by
  rw [Nat.lt_iff_add_one_le, Nat.le_div_iff_mul_le positive, Nat.succ_mul]
  omega

end Indices

def meets (s t : Nat) (b : Block) : Bool :=
  decide (s / blkSize b.level ≤ b.index ∧ b.index * blkSize b.level < t)

section Marks

variable {m : Nat} {reserved : Set Nat} {h : Heap} {f : Block} {k i s t : Nat}

theorem same_pair (b f : Block) : decide (b.parent = f.parent) = (decide (b = f) ^^ decide (b.buddy = f)) := by
  by_cases same : b.parent = f.parent
  · rcases (b.parent_eq_iff f).mp same with equal | equal
    · subst equal
      simp [b.buddy_ne]
    · subst equal
      simp [f.buddy_parent, f.buddy_buddy, f.buddy_ne]
  · have here : b ≠ f := fun equal => same (by rw [equal])
    have there : b.buddy ≠ f := fun equal => same (by rw [← equal, b.buddy_parent])
    simp [same, here, there]

section

variable (geometry : Geometry h m reserved)

include geometry

theorem not_sameBit_slack (target : InHeap m f)
    (upper : k ≤ m) (beyond : 2 ^ (m - k) ≤ 2 * i) (bound : i / 8 < (h.bdSizes k).alloc.bytes) :
    ¬ SameBit (h.bdSizes f.level).alloc.start (f.index / 2) (h.bdSizes k).alloc.start i := by
  by_cases level : f.level = k
  · subst level
    have inside := target.2
    rw [sameBit_self]
    omega
  · exact (geometry.allocs f.level k target.1 upper level).not_sameBit (geometry.alloc f target) bound

theorem not_sameBit_slack_split (target : InHeap m f)
    (positive : 0 < f.level) (upper : k ≤ m) (bound : i / 8 < (h.bdSizes k).alloc.bytes) :
    ¬ SameBit (h.bdSizes f.level).split.start f.index (h.bdSizes k).alloc.start i := by
  intro same
  exact (geometry.mixed k f.level upper positive target.1).not_sameBit bound (geometry.split f target positive)
    ⟨same.1.symm, same.2.symm⟩

theorem marking_block (target : InHeap m f) :
    Marking h ((if 0 < f.level then h.splitSet f else h).inverted f) m (fun b => decide (b = f)) := by
  by_cases positive : 0 < f.level
  · rw [if_pos positive]
    have set : Geometry (h.splitSet f) m reserved := geometry.transfer rfl rfl
    refine ⟨rfl, rfl, rfl, rfl, rfl, ?_, ?_, ?_⟩
    · intro b inside
      rw [inverted_pairBit set target inside, splitSet_pairBit geometry target inside positive, same_pair]
      exact (Bool.xor_assoc _ _ _).symm
    · intro b inside positive'
      rw [inverted_splitBit set target inside positive', splitSet_splitBit geometry target inside positive positive']
    · intro k upper i beyond bound
      have pair := not_sameBit_slack geometry target upper beyond bound
      have cut := not_sameBit_slack_split geometry target positive upper bound
      simp only [Heap.inverted, Heap.splitSet, Heap.changed, bit_invert, bit_set, pair, cut, decide_false,
        Bool.xor_false, Bool.or_false]
  · rw [if_neg positive]
    refine ⟨rfl, rfl, rfl, rfl, rfl, ?_, ?_, ?_⟩
    · intro b inside
      rw [inverted_pairBit geometry target inside, same_pair]
      exact (Bool.xor_assoc _ _ _).symm
    · intro b inside positive'
      have other : b ≠ f := by
        intro equal
        rw [equal] at positive'
        exact positive positive'
      rw [inverted_splitBit geometry target inside positive']
      simp [other]
    · intro k upper i beyond bound
      have pair := not_sameBit_slack geometry target upper beyond bound
      simp only [Heap.inverted, Heap.changed, bit_invert, pair, decide_false, Bool.xor_false]

end

theorem markBlocks_spec (k : Nat) (level : k ≤ m) (n i : Nat) (h : Heap) (geometry : Geometry h m reserved)
    (upper : i + n ≤ 2 ^ (m - k)) :
    ∃ h', markBlocks k n i h = .ok h' ∧
      Marking h h' m (fun b => decide (b.level = k ∧ i ≤ b.index ∧ b.index < i + n)) := by
  induction n generalizing i h with
  | zero =>
    refine ⟨h, rfl, Marking.none h m fun b => ?_⟩
    have outside : ¬ (b.level = k ∧ i ≤ b.index ∧ b.index < i + 0) := by omega
    exact decide_eq_false outside
  | succ n ih =>
    have target : InHeap m ⟨k, i⟩ := ⟨level, by dsimp only; omega⟩
    let set : Heap := if 0 < k then h.splitSet ⟨k, i⟩ else h
    have geometrySet : Geometry set m reserved := by
      by_cases positive : 0 < k
      · exact geometry.transfer (by simp [set, positive, Heap.splitSet, Heap.changed])
          (by simp [set, positive, Heap.splitSet, Heap.changed])
      · exact geometry.transfer (by simp [set, positive]) (by simp [set, positive])
    have first : Marking h (set.inverted ⟨k, i⟩) m (fun b => decide (b = ⟨k, i⟩)) := marking_block geometry target
    obtain ⟨h', rest, second⟩ := ih (i + 1) (set.inverted ⟨k, i⟩) (first.geometry geometry) (by omega)
    refine ⟨h', ?_, first.trans second ?_ ?_⟩
    · have inverted : bitInvert set (set.bdSizes k).alloc ((i : Int).tdiv 2) = .ok (set.inverted ⟨k, i⟩) :=
        bitInvert_pair geometrySet target
      have next : (i : Int) + 1 = (i + 1 : Nat) := by push_cast; rfl
      rw [markBlocks]
      by_cases positive : 0 < k
      · have cut : bitSet h (h.bdSizes k).split (i : Int) = .ok set := by
          simp only [set, positive, if_true]
          exact bitSet_split geometry target positive
        simp only [positive, if_true, Bind.bind, Except.bind, cut, inverted, next]
        exact rest
      · have same : set = h := by simp only [set, positive, if_false]
        rw [same] at inverted rest
        simp only [positive, if_false, Bind.bind, Except.bind, Pure.pure, Except.pure, inverted, next]
        exact rest
    · intro b
      rw [Bool.eq_iff_iff]
      simp only [decide_eq_true_eq, Bool.or_eq_true, Block.ext_iff]
      omega
    · intro b here
      simp only [decide_eq_true_eq, decide_eq_false_iff_not, Block.ext_iff] at here ⊢
      omega

theorem markLevels_spec (order : s ≤ t) (inHeap : t ≤ blkSize m) (small : s < 2 ^ 31) (n k : Nat) (h : Heap)
    (geometry : Geometry h m reserved) (levels : k + n ≤ m + 1) :
    ∃ h', markLevels (h.bdBase + s) (h.bdBase + t) n k h = .ok h' ∧
      Marking h h' m (fun b => decide (k ≤ b.level ∧ b.level < k + n) && meets s t b) := by
  induction n generalizing k h with
  | zero =>
    refine ⟨h, rfl, Marking.none h m fun b => ?_⟩
    have outside : ¬ (k ≤ b.level ∧ b.level < k + 0) := by omega
    rw [decide_eq_false outside, Bool.false_and]
  | succ n ih =>
    have whole : blkSize m = 2 ^ (m - k) * blkSize k := by
      unfold blkSize
      rw [← Nat.mul_assoc, ← Nat.pow_add, Nat.sub_add_cancel (by omega)]
    have start := blkIndex_offset h k small
    have limit := blkSize_small geometry.small
    have stop := blkIndexNext_offset h k (show t ≤ 2 ^ 31 by omega)
    have positive := blkSize_pos k
    have low : s / blkSize k ≤ 2 ^ (m - k) := by
      apply Nat.div_le_of_le_mul
      rw [Nat.mul_comm, ← whole]
      omega
    have high : (t + (blkSize k - 1)) / blkSize k ≤ 2 ^ (m - k) := by
      rw [← Nat.not_lt, lt_up_iff _ _ positive, ← whole]
      omega
    have count : ((((t + (blkSize k - 1)) / blkSize k : Nat) : Int) - (s / blkSize k : Nat)).toNat =
        (t + (blkSize k - 1)) / blkSize k - s / blkSize k := by omega
    obtain ⟨h₁, marked, first⟩ := markBlocks_spec k (by omega)
      ((t + (blkSize k - 1)) / blkSize k - s / blkSize k) (s / blkSize k) h geometry (by omega)
    obtain ⟨h₂, rest, second⟩ := ih (k + 1) h₁ (first.geometry geometry) (by omega)
    rw [first.base] at rest
    refine ⟨h₂, ?_, first.trans second ?_ ?_⟩
    · rw [markLevels, start, stop, count, marked]
      exact rest
    · intro b
      rw [Bool.eq_iff_iff]
      have bound := lt_up_iff t b.index positive
      by_cases here : b.level = k
      · simp only [meets, here, Bool.and_eq_true, Bool.or_eq_true, decide_eq_true_eq, true_and, ← bound]
        generalize (t + (blkSize k - 1)) / blkSize k = up
        generalize s / blkSize k = down
        omega
      · simp only [Bool.and_eq_true, Bool.or_eq_true, decide_eq_true_eq, here]
        have range : k ≤ b.level ∧ b.level < k + (n + 1) ↔ k + 1 ≤ b.level ∧ b.level < k + 1 + n := by omega
        rw [range]
        simp
    · intro b here
      simp only [decide_eq_true_eq] at here
      simp [here.1]

theorem bdMark_spec (h : Heap) (geometry : Geometry h m reserved) (order : s ≤ t) (inHeap : t ≤ blkSize m)
    (small : s < 2 ^ 31) (alignedBase : h.bdBase % 16 = 0) (alignedStart : s % 16 = 0) (alignedStop : t % 16 = 0) :
    ∃ h', bdMark h (h.bdBase + s) (h.bdBase + t) = .ok h' ∧ Marking h h' m (meets s t) := by
  obtain ⟨h', marked, marking⟩ := markLevels_spec order inHeap small h.nsizes 0 h geometry (by rw [geometry.sizes]; omega)
  refine ⟨h', ?_, marking.count, marking.base, marking.sizes, marking.links, marking.checked, ?_, ?_,
    marking.slack⟩
  · unfold bdMark leafSize
    rw [if_neg (by omega)]
    exact marked
  · intro b inside
    have level : b.level ≤ m := inside.1
    rw [marking.pair b inside]
    simp [geometry.sizes, show b.level < m + 1 by omega]
  · intro b inside positive
    have level : b.level ≤ m := inside.1
    rw [marking.split b inside positive]
    simp [geometry.sizes, show b.level < m + 1 by omega]

end Marks

section Frame

variable {h h' : Heap}

theorem bitUpdate_same {change : BitVec 8 → BitVec 8 → BitVec 8} {array : CharArray} {index : Int}
    (result : bitUpdate change h array index = .ok h') : h.Same h' := by
  unfold bitUpdate at result
  cases found : bitIndex h array index with
  | error fault => simp [found, Bind.bind, Except.bind] at result
  | ok i =>
    simp only [found, Bind.bind, Except.bind, Pure.pure, Except.pure, Except.ok.injEq] at result
    subst result
    exact ⟨rfl, rfl, rfl⟩

theorem markBlocks_same (k n : Nat) (bi : Int) (result : markBlocks k n bi h = .ok h') : h.Same h' := by
  induction n generalizing bi h with
  | zero =>
    cases result
    exact Heap.Same.refl h'
  | succ n ih =>
    rw [markBlocks] at result
    have invert : ∀ g, (do
        let h ← bitInvert g (g.bdSizes k).alloc (bi.tdiv 2)
        markBlocks k n (bi + 1) h) = .ok h' → g.Same h' := by
      intro g rest
      cases inverted : bitInvert g (g.bdSizes k).alloc (bi.tdiv 2) with
      | error fault => simp [inverted, Bind.bind, Except.bind] at rest
      | ok g' =>
        simp only [inverted, Bind.bind, Except.bind] at rest
        exact (bitUpdate_same inverted).trans (ih (bi + 1) rest)
    by_cases positive : 0 < k
    · rw [if_pos positive] at result
      cases set : bitSet h (h.bdSizes k).split bi with
      | error fault => simp [set, Bind.bind, Except.bind] at result
      | ok g =>
        simp only [set, Bind.bind, Except.bind] at result
        exact (bitUpdate_same set).trans (invert g result)
    · rw [if_neg positive] at result
      exact invert h result

theorem markLevels_same (start stop n k : Nat) (result : markLevels start stop n k h = .ok h') : h.Same h' := by
  induction n generalizing k h with
  | zero =>
    cases result
    exact Heap.Same.refl h'
  | succ n ih =>
    rw [markLevels] at result
    cases marked : markBlocks k (blkIndexNext h k stop - blkIndex h k start).toNat (blkIndex h k start) h with
    | error fault => simp [marked, Bind.bind, Except.bind] at result
    | ok g =>
      simp only [marked, Bind.bind, Except.bind] at result
      exact (markBlocks_same k _ _ marked).trans (ih (k + 1) result)

theorem bdMark_same {start stop : Nat} (result : bdMark h start stop = .ok h') : h.Same h' := by
  unfold bdMark at result
  split at result
  · cases result
  · exact markLevels_same start stop _ _ result

end Frame

end OShard.Buddy
