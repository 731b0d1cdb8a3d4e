import OShard.Buddy.Malloc

namespace OShard.Buddy

open LinkedList BitArray AlignedBlock

def Joins (reserved : Set Nat) (live : Set Block) : Nat → Block → Prop
  | 0, c => Used reserved (insert c live) c.buddy
  | n + 1, c => ¬ Used reserved (insert c live) c.buddy ∧ Joins reserved live n c.parent

def joinLists (h : Heap) : Nat → Block → (Nat → List Nat) → Nat → List Nat
  | 0, c, lists => Function.update lists c.level (h.at c :: lists c.level)
  | n + 1, c, lists =>
    joinLists h n c.parent (Function.update lists c.level ((lists c.level).erase (h.at c.buddy)))

variable {reserved : Set Nat} {live : Set Block} {c : Block}

theorem joinLists_same {h h' : Heap} (same : h.Same h') (n : Nat) (c : Block) (lists : Nat → List Nat) :
    joinLists h' n c lists = joinLists h n c lists := by
  induction n generalizing c lists with
  | zero => simp only [joinLists, same.at_eq]
  | succ n ih => simp only [joinLists, same.at_eq, ih]

theorem Joins.unique {n n' : Nat} (first : Joins reserved live n c) (second : Joins reserved live n' c) : n = n' := by
  induction n generalizing n' c with
  | zero =>
    cases n' with
    | zero => rfl
    | succ n' => exact absurd first second.1
  | succ n ih =>
    cases n' with
    | zero => exact absurd second first.1
    | succ n' => rw [ih first.2 second.2]

theorem exists_joins {m : Nat} (root : Touches reserved ⟨m, 0⟩) (inside : InHeap m c) (outside : c ∉ live) (separated : Separated reserved (insert c live)) :
    ∃ n, Joins reserved live n c ∧ c.level + n < m := by
  induction gap : m - c.level generalizing c with
  | zero =>
    have level : c.level = m := by
      have := inside.1
      omega
    have zero : c.index = 0 := by
      have bound := inside.2
      rw [level, Nat.sub_self, Nat.pow_zero] at bound
      omega
    have same : c = ⟨m, 0⟩ := by
      ext
      · exact level
      · exact zero
    obtain ⟨u, covers, member⟩ := root
    rw [← same] at covers
    exact absurd member (separated.unreserved c (Set.mem_insert _ _) u covers)
  | succ gap' ih =>
    have lower : c.level < m := by omega
    by_cases used : Used reserved (insert c live) c.buddy
    · exact ⟨0, used, lower⟩
    obtain ⟨n, joins, bound⟩ := ih (parent_inside inside lower) (parent_outside outside separated)
      (separated_merge outside separated used) (by simp only [Block.parent_level]; omega)
    refine ⟨n + 1, ⟨used, joins⟩, ?_⟩
    simp only [Block.parent_level] at bound
    omega

section Size

variable {h : Heap} {m : Nat} {reserved : Set Nat} {live : Set Block} {lists : Nat → List Nat}

def blockOver (level u : Nat) : Block := ⟨level, u / 2 ^ level⟩

theorem blockOver_covers (level u : Nat) : (blockOver level u).Covers u := rfl

theorem blockOver_inside {level u : Nat} (bound : u < 2 ^ m) (upper : level ≤ m) : InHeap m (blockOver level u) := by
  refine ⟨upper, ?_⟩
  unfold blockOver
  dsimp only
  rw [Nat.div_lt_iff_lt_mul (Nat.two_pow_pos _), ← Nat.pow_add, Nat.sub_add_cancel upper]
  exact bound

theorem first_lt {f : Block} (inside : InHeap m f) : f.index * 2 ^ f.level < 2 ^ m := by
  have whole : 2 ^ (m - f.level) * 2 ^ f.level = 2 ^ m := by
    rw [← Nat.pow_add, Nat.sub_add_cancel inside.1]
  have bound : f.index * 2 ^ f.level < 2 ^ (m - f.level) * 2 ^ f.level :=
    Nat.mul_lt_mul_of_pos_right inside.2 (Nat.two_pow_pos _)
  omega

theorem blkIndex_over (small : m ≤ 27) {f : Block} (inside : InHeap m f) (level : Nat) :
    blkIndex h level (h.at f) = (blockOver level (f.index * 2 ^ f.level)).index := by
  have bound := at_bound small inside
  unfold Heap.at
  rw [blkIndex_offset h _ bound]
  unfold blockOver blkSize leafSize
  dsimp only
  rw [← Nat.mul_assoc, Nat.mul_div_mul_right _ _ (by decide)]

variable (state : Consistent h m reserved live lists) {f : Block} (member : f ∈ live)

include state member

theorem live_level : f.level < m :=
  state.level_lt (state.bounded f member) (state.not_touches member (Block.Within.refl f))

theorem split_over {k : Nat} (below : k ≤ f.level) :
    Split reserved live (blockOver (k + 1) (f.index * 2 ^ f.level)) ↔ k = f.level := by
  constructor
  · intro split
    by_contra different
    have within : (blockOver (k + 1) (f.index * 2 ^ f.level)).Within f :=
      Block.within_of_overlap (blockOver_covers _ _) f.covers_first (show k + 1 ≤ f.level by omega)
    by_cases same : blockOver (k + 1) (f.index * 2 ^ f.level) = f
    · rw [same] at split
      exact not_split_live state.separated member split
    · exact not_marked_below state.separated member within same split.marked
  · intro same
    have parent : blockOver (k + 1) (f.index * 2 ^ f.level) = f.parent := by
      refine Block.eq_of_overlap (blockOver_covers _ _) (f.within_parent.covers f.covers_first) ?_
      rw [same]
      rfl
    rw [parent]
    exact .inr ⟨f, member, f.within_parent, f.ne_parent⟩

theorem sizeLoop_spec (n k : Nat) (below : k ≤ f.level) (enough : f.level < k + n) :
    sizeLoop h (h.at f) n k = .ok f.level := by
  have inside := state.bounded f member
  have level := live_level state member
  have count := state.geometry.sizes
  induction n generalizing k with
  | zero => omega
  | succ n ih =>
    have covering := blockOver_inside (first_lt inside) (show k + 1 ≤ m by omega)
    have isset : bitIsset h (h.bdSizes (k + 1)).split (blkIndex h (k + 1) (h.at f)) =
        .ok (h.splitBit (blockOver (k + 1) (f.index * 2 ^ f.level))) := by
      rw [blkIndex_over state.geometry.small inside]
      exact bitIsset_split state.geometry covering (Nat.succ_pos k)
    have meaning := state.split _ covering (Nat.succ_pos k)
    rw [split_over state member below] at meaning
    rw [sizeLoop, if_neg (by omega), isset]
    simp only [Bind.bind, Except.bind, Pure.pure, Except.pure]
    by_cases here : k = f.level
    · rw [meaning.mpr here, here]
      rfl
    have clear : h.splitBit (blockOver (k + 1) (f.index * 2 ^ f.level)) = false := Bool.eq_false_of_not_eq_true fun set => here (meaning.mp set)
    rw [clear]
    exact ih (k + 1) (by omega) (by omega)

theorem size_spec : size h (h.at f) = .ok f.level := by
  have level := live_level state member
  have count := state.geometry.sizes
  exact sizeLoop_spec state member h.nsizes 0 (Nat.zero_le _) (by omega)

end Size

section Rounds

variable {h : Heap} {m : Nat} {reserved : Set Nat} {live : Set Block} {lists : Nat → List Nat} {c : Block}

theorem buddy_half (c : Block) : c.buddy.index / 2 = c.index / 2 := by
  unfold Block.buddy
  dsimp only
  split <;> omega

variable (state : Consistent h m reserved (insert c live) lists) (outside : c ∉ live)

include state outside

theorem pairBit_after_invert : (h.inverted c).pairBit c = true ↔ Used reserved (insert c live) c.buddy := by
  have member : c ∈ insert c live := Set.mem_insert _ _
  have inside := state.bounded c member
  have level := live_level state member
  have bits := inverted_pairBit state.geometry inside inside
  have meaning := state.pair c inside level (state.not_touches member (Block.Within.refl c))
  have marked : Marked reserved (insert c live) c := .inr ⟨c, member, Block.Within.refl c⟩
  rw [← marked_buddy_iff outside state.separated, bits]
  simp only [marked, true_iff] at meaning
  by_cases other : Marked reserved (insert c live) c.buddy
  · simp only [other, not_true_eq_false, iff_false, Bool.not_eq_true] at meaning
    simp [meaning, other]
  · simp only [other, not_false_eq_true, iff_true] at meaning
    simp [meaning, other]

omit outside in
theorem freeRound_bits :
    buddyIndex (blkIndex h c.level (h.at c)) = c.buddy.index ∧
    bitInvert h (h.bdSizes c.level).alloc ((c.buddy.index : Int).tdiv 2) = .ok (h.inverted c) ∧
    bitIsset (h.inverted c) ((h.inverted c).bdSizes c.level).alloc ((c.buddy.index : Int).tdiv 2) =
      .ok ((h.inverted c).pairBit c) := by
  have inside := state.bounded c (Set.mem_insert _ _)
  have geometry : Geometry (h.inverted c) m reserved := state.geometry.transfer rfl rfl
  rw [blkIndex_at state.geometry.small inside, buddyIndex_eq, half_eq, buddy_half]
  exact ⟨rfl, bitInvert_pair state.geometry inside, bitIsset_pair geometry inside⟩

theorem freeRound_used (used : Used reserved (insert c live) c.buddy) :
    freeRound h c.level (h.at c) = .ok (none, h.inverted c) := by
  obtain ⟨index, inverted, isset⟩ := freeRound_bits state
  have bit := (pairBit_after_invert state outside).mpr used
  unfold freeRound
  simp only [index, inverted, Bind.bind, Except.bind, isset, bit, Pure.pure, Except.pure]
  rfl

theorem freeRound_free (free : ¬ Used reserved (insert c live) c.buddy) :
    freeRound h c.level (h.at c) = .ok (some (h.at c.parent),
      ((h.inverted c).remove (h.at c.buddy)).splitCleared c.parent) := by
  have member : c ∈ insert c live := Set.mem_insert _ _
  have inside := state.bounded c member
  have level := live_level state member
  have small := state.geometry.small
  have parentInside := parent_inside inside level
  have buddyInside := buddy_inside inside level
  obtain ⟨index, inverted, isset⟩ := freeRound_bits state
  have bit : (h.inverted c).pairBit c = false := Bool.eq_false_of_not_eq_true fun set => free ((pairBit_after_invert state outside).mp set)
  have geometry : Geometry ((h.inverted c).remove (h.at c.buddy)) m reserved :=
    state.geometry.transfer rfl rfl
  have cleared : bitClear ((h.inverted c).remove (h.at c.buddy))
      (((h.inverted c).remove (h.at c.buddy)).bdSizes (c.level + 1)).split c.parent.index =
      .ok (((h.inverted c).remove (h.at c.buddy)).splitCleared c.parent) :=
    bitClear_split geometry parentInside (Nat.succ_pos c.level)
  have located : addr (h.inverted c) c.level c.buddy.index = h.at c.buddy := addr_at small buddyInside
  have merged : (if (c.buddy.index : Int).tmod 2 = 0 then h.at c.buddy else h.at c) = h.at c.parent := by
    have remainder : (c.buddy.index : Int).tmod 2 = (c.buddy.index % 2 : Nat) := rfl
    rw [remainder]
    by_cases even : c.index % 2 = 0
    · have odd : c.buddy.index % 2 = 1 := by
        unfold Block.buddy
        dsimp only
        rw [if_pos even]
        omega
      rw [odd, at_parent_even h even]
      rfl
    · have even' : c.buddy.index % 2 = 0 := by
        unfold Block.buddy
        dsimp only
        rw [if_neg even]
        omega
      rw [even', at_parent_odd h (by omega)]
      rfl
  have parentIndex : blkIndex ((h.inverted c).remove (h.at c.buddy)) (c.level + 1) (h.at c.parent) =
      c.parent.index := blkIndex_at small parentInside
  unfold freeRound
  simp only [index, inverted, Bind.bind, Except.bind, isset, bit, Pure.pure, Except.pure, located, merged,
    parentIndex, cleared, Bool.false_eq_true, ↓reduceIte]

end Rounds

section Return

variable {h : Heap} {m : Nat} {reserved : Set Nat} {live : Set Block} {lists : Nat → List Nat}

theorem freeLoop_spec (n fuel : Nat) {c : Block} (state : Consistent h m reserved (insert c live) lists)
    (outside : c ∉ live) (joins : Joins reserved live n c) (enough : n < fuel) :
    ∃ d : Block, ∃ h', freeLoop fuel c.level (h.at c) h = .ok (d.level, h.at d, h') ∧ h.Same h' ∧
      Consistent (h'.push d.level (h.at d)) m reserved live (joinLists h n c lists) := by
  induction n generalizing h c lists fuel with
  | zero =>
    cases fuel with
    | zero => omega
    | succ fuel =>
      refine ⟨c, h.inverted c, ?_, ⟨rfl, rfl, rfl⟩, state.release outside joins⟩
      rw [freeLoop, freeRound_used state outside joins]
      rfl
  | succ n ih =>
    cases fuel with
    | zero => omega
    | succ fuel =>
      obtain ⟨free, rest⟩ := joins
      obtain ⟨_, joined⟩ := state.join outside free
      have kept : h.Same (((h.inverted c).remove (h.at c.buddy)).splitCleared c.parent) := ⟨rfl, rfl, rfl⟩
      obtain ⟨d, h', result, same, final⟩ :=
        ih fuel joined (parent_outside outside state.separated) rest (by omega)
      rw [kept.at_eq, kept.at_eq] at result
      rw [kept.at_eq, joinLists_same kept] at final
      refine ⟨d, h', ?_, kept.trans same, final⟩
      rw [freeLoop, freeRound_free state outside free]
      exact result

theorem bdFree_spec {f : Block} (state : Consistent h m reserved (insert f live) lists) (outside : f ∉ live) :
    ∃ n h', Joins reserved live n f ∧ bdFree h (h.at f) = .ok h' ∧ h.Same h' ∧
      Consistent h' m reserved live (joinLists h n f lists) := by
  have member : f ∈ insert f live := Set.mem_insert _ _
  have inside := state.bounded f member
  obtain ⟨n, joins, bound⟩ := exists_joins state.root inside outside state.separated
  have enough : n < h.maxSize - f.level := by
    unfold Heap.maxSize
    rw [state.geometry.sizes]
    omega
  obtain ⟨d, h', result, same, final⟩ := freeLoop_spec n _ state outside joins enough
  refine ⟨n, h'.push d.level (h.at d), joins, ?_, ⟨same.nsizes, same.bdBase, same.bdSizes⟩, final⟩
  unfold bdFree
  simp only [size_spec state member, Bind.bind, Except.bind, result, Pure.pure, Except.pure]

end Return

end OShard.Buddy
