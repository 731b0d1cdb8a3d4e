import OShard.Buddy.Geometry

namespace OShard.Buddy

open LinkedList BitArray AlignedBlock Function

def Listed (h : Heap) (m : Nat) (chosen : Block → Prop) (lists : Nat → List Nat) : Prop :=
  ∀ k ≤ m, ∀ a, a ∈ lists k ↔ ∃ b : Block, b.level = k ∧ InHeap m b ∧ chosen b ∧ a = h.at b

/-- The allocator's three structures agree with the set of live blocks: each list holds the maximal
    free blocks of its level, the split bits the cut blocks, and each pair bit the exclusive or of
    its two marks. A pair of two reserved blocks is never read again, so its bit is left open. -/
structure Consistent (h : Heap) (m : Nat) (reserved : Set Nat) (live : Set Block)
    (lists : Nat → List Nat) : Prop where
  geometry : Geometry h m reserved
  separated : Separated reserved live
  root : Touches reserved ⟨m, 0⟩
  bounded : ∀ l ∈ live, InHeap m l
  rings : Rings h.links h.free lists (· ≤ m)
  listed : Listed h m (Maximal reserved live) lists
  pair : ∀ b : Block, InHeap m b → b.level < m → ¬ Touches reserved b →
    (h.pairBit b = true ↔ ¬ (Marked reserved live b ↔ Marked reserved live b.buddy))
  split : ∀ b : Block, InHeap m b → 0 < b.level → (h.splitBit b = true ↔ Split reserved live b)

variable {b f : Block} {h : Heap} {m : Nat} {before after : Block → Prop} {lists : Nat → List Nat}

theorem at_eq_unit (h : Heap) (b : Block) : h.at b = h.bdBase + b.index * 2 ^ b.level * 16 := by
  unfold Heap.at blkSize leafSize
  rw [Nat.mul_assoc]

theorem at_injective (h : Heap) {a : Block} (level : a.level = b.level) (same : h.at a = h.at b) : a = b := by
  rw [at_eq_unit, at_eq_unit, level] at same
  have positive := Nat.two_pow_pos b.level
  have units : a.index * 2 ^ b.level = b.index * 2 ^ b.level := by omega
  ext
  · exact level
  · exact Nat.eq_of_mul_eq_mul_right positive units

theorem Listed.push (listed : Listed h m before lists) (inside : InHeap m f)
    (change : ∀ b, after b ↔ before b ∨ b = f) : Listed h m after (update lists f.level (h.at f :: lists f.level)) := by
  intro k upper a
  by_cases here : k = f.level
  · subst here
    rw [update_self, List.mem_cons, listed _ upper]
    constructor
    · intro member
      rcases member with same | ⟨b, level, within, old, same⟩
      · exact ⟨f, rfl, inside, (change f).mpr (.inr rfl), same⟩
      · exact ⟨b, level, within, (change b).mpr (.inl old), same⟩
    · intro found
      obtain ⟨b, level, within, new, same⟩ := found
      rcases (change b).mp new with old | equal
      · exact .inr ⟨b, level, within, old, same⟩
      · exact .inl (by rw [same, equal])
  · rw [update_of_ne here, listed k upper]
    constructor
    · intro found
      obtain ⟨b, level, within, old, same⟩ := found
      exact ⟨b, level, within, (change b).mpr (.inl old), same⟩
    · intro found
      obtain ⟨b, level, within, new, same⟩ := found
      rcases (change b).mp new with old | equal
      · exact ⟨b, level, within, old, same⟩
      · exact absurd (by rw [← level, equal]) here

theorem Listed.remove (listed : Listed h m before lists) {rest : List Nat}
    (left : ∀ a, a ∈ rest ↔ a ∈ lists f.level ∧ a ≠ h.at f) (change : ∀ b, after b ↔ before b ∧ b ≠ f) :
    Listed h m after (update lists f.level rest) := by
  intro k upper a
  by_cases here : k = f.level
  · subst here
    rw [update_self, left, listed _ upper]
    constructor
    · intro member
      obtain ⟨⟨b, level, within, old, same⟩, different⟩ := member
      exact ⟨b, level, within, (change b).mpr ⟨old, fun equal => different (by rw [same, equal])⟩, same⟩
    · intro found
      obtain ⟨b, level, within, new, same⟩ := found
      obtain ⟨old, different⟩ := (change b).mp new
      exact ⟨⟨b, level, within, old, same⟩, fun clash =>
        different (at_injective h level (same.symm.trans clash))⟩
  · rw [update_of_ne here, listed k upper]
    constructor
    · intro found
      obtain ⟨b, level, within, old, same⟩ := found
      exact ⟨b, level, within, (change b).mpr ⟨old, fun equal => here (by rw [← level, equal])⟩, same⟩
    · intro found
      obtain ⟨b, level, within, new, same⟩ := found
      exact ⟨b, level, within, ((change b).mp new).1, same⟩

open Classical in
theorem total_listed {reserved : Set Nat} {live : Set Block} (root : Used reserved live ⟨m, 0⟩)
    (lists : Nat → List Nat) (nodup : ∀ k < m, (lists k).Nodup)
    (listed : ∀ k < m, ∀ a, a ∈ lists k ↔ ∃ b : Block, b.level = k ∧ InHeap m b ∧ Maximal reserved live b ∧ a = h.at b) :
    ∑ k ∈ Finset.range m, (lists k).length * blkSize k =
      16 * ((Finset.range (2 ^ m)).filter fun u => ¬ Used reserved live ⟨0, u⟩).card := by
  let blocks : Nat → Finset Nat := fun k => (Finset.range (2 ^ (m - k))).filter fun i => Maximal reserved live ⟨k, i⟩
  have lengths : ∀ k < m, (lists k).length = (blocks k).card := by
    intro k lower
    have image : (lists k).toFinset = (blocks k).image fun i => h.at ⟨k, i⟩ := by
      ext a
      rw [List.mem_toFinset, listed k lower, Finset.mem_image]
      constructor
      · intro found
        obtain ⟨b, level, inside, maximal, same⟩ := found
        subst level
        exact ⟨b.index, Finset.mem_filter.mpr ⟨Finset.mem_range.mpr inside.2, maximal⟩, same.symm⟩
      · intro found
        obtain ⟨i, member, same⟩ := found
        obtain ⟨bound, maximal⟩ := Finset.mem_filter.mp member
        exact ⟨⟨k, i⟩, rfl, ⟨lower.le, Finset.mem_range.mp bound⟩, maximal, same.symm⟩
    rw [← List.toFinset_card_of_nodup (nodup k lower), image]
    apply Finset.card_image_of_injective
    intro i j same
    have equal : (⟨k, i⟩ : Block) = ⟨k, j⟩ := at_injective h rfl same
    exact congrArg Block.index equal
  rw [← sum_maximal root blocks fun k _ i => by simp [blocks], Finset.mul_sum]
  refine Finset.sum_congr rfl fun k member => ?_
  rw [lengths k (Finset.mem_range.mp member)]
  unfold blkSize leafSize
  ring

theorem pair_flip {old new : Bool}
    (meaning : old = true ↔ ¬ (before b ↔ before b.buddy)) (change : new = (old ^^ decide (b.parent = f.parent)))
    (other : ∀ x, x ≠ f → (after x ↔ before x)) (flip : after f ↔ ¬ before f) :
    new = true ↔ ¬ (after b ↔ after b.buddy) := by
  by_cases same : b.parent = f.parent
  · have inverted : new = !old := by simp [change, same]
    rcases (b.parent_eq_iff f).mp same with equal | equal
    · subst equal
      have buddy := other b.buddy b.buddy_ne
      rw [inverted, flip, buddy]
      cases old <;> simp at meaning ⊢ <;> tauto
    · subst equal
      have here := other f.buddy f.buddy_ne
      rw [inverted, f.buddy_buddy, flip, here]
      rw [f.buddy_buddy] at meaning
      cases old <;> simp at meaning ⊢ <;> tauto
  · have equal : new = old := by simp [change, same]
    have here : b ≠ f := fun h => same (by rw [h])
    have there : b.buddy ≠ f := fun h => same (by rw [← h, b.buddy_parent])
    rw [equal, meaning, other b here, other b.buddy there]

section Steps

variable {h : Heap} {m : Nat} {reserved : Set Nat} {live : Set Block} {lists : Nat → List Nat} {f l c : Block}

section Consistent

variable (state : Consistent h m reserved live lists)

include state

theorem Consistent.used_root : Used reserved live ⟨m, 0⟩ :=
  state.root.used

theorem Consistent.level_lt (inside : InHeap m f) (free : ¬ Touches reserved f) : f.level < m := by
  rcases Nat.lt_or_ge f.level m with lower | upper
  · exact lower
  have level : f.level = m := Nat.le_antisymm inside.1 upper
  have zero : f.index = 0 := by
    have bound := inside.2
    rw [level, Nat.sub_self, Nat.pow_zero] at bound
    omega
  have same : f = ⟨m, 0⟩ := by
    ext
    · exact level
    · exact zero
  rw [same] at free
  exact absurd state.root free

theorem Consistent.top_empty : lists m = [] := by
  apply List.eq_nil_iff_forall_not_mem.mpr
  intro a member
  obtain ⟨b, level, inside, maximal, -⟩ := (state.listed m (Nat.le_refl m) a).mp member
  have lower := state.level_lt inside fun touches => maximal.1 touches.used
  omega

theorem Consistent.fresh (member : l ∈ live) (within : f.Within l) : ∀ j, j ≤ m → h.at f ∉ h.free j :: lists j := by
  intro j upper listed
  have covered := within.covers f.covers_first
  rcases List.mem_cons.mp listed with header | member'
  · have unit : f.index * 2 ^ f.level = 2 * j := by
      rw [at_eq_unit] at header
      simp only [Heap.free, szInfoBytes] at header
      omega
    have forbidden := state.geometry.headers j upper
    rw [← unit] at forbidden
    exact state.separated.unreserved l member _ covered forbidden
  · obtain ⟨b, level, inside, maximal, same⟩ := (state.listed j upper _).mp member'
    have unit : f.index * 2 ^ f.level = b.index * 2 ^ b.level := by
      rw [at_eq_unit, at_eq_unit] at same
      omega
    exact maximal.1 ⟨_, b.covers_first, .inr ⟨l, member, unit ▸ covered⟩⟩

theorem Consistent.not_touches (member : l ∈ live) (within : f.Within l) : ¬ Touches reserved f := by
  intro touches
  obtain ⟨u, covers, forbidden⟩ := touches
  exact state.separated.unreserved l member u (within.covers covers) forbidden

theorem Consistent.take {k a : Nat} {rest : List Nat} (upper : k ≤ m) (position : lists k = a :: rest) :
    ∃ f : Block, ∃ links', f.level = k ∧ InHeap m f ∧ Maximal reserved live f ∧ a = h.at f ∧
      lstPop h.links (h.free k) = .ok (a, links') ∧
      Consistent (({ h with links := links' } : Heap).inverted f) m reserved (insert f live)
        (update lists k rest) := by
  obtain ⟨f, level, inside, maximal, same⟩ := (state.listed k upper a).mp (by rw [position]; simp)
  obtain ⟨links', popped, rings⟩ := lstPop_rings state.rings upper position
  let h' : Heap := { h with links := links' }
  have geometry : Geometry h' m reserved := state.geometry.transfer rfl rfl
  have nodup := (state.rings.ring k upper).nodup
  rw [position] at nodup
  have distinct : a ∉ rest := (List.nodup_cons.mp (List.nodup_cons.mp nodup).2).1
  have left : ∀ c, c ∈ rest ↔ c ∈ lists f.level ∧ c ≠ h.at f := by
    intro c
    rw [level, position, ← same, List.mem_cons]
    constructor
    · intro member
      exact ⟨.inr member, fun equal => distinct (equal ▸ member)⟩
    · intro member
      exact member.1.resolve_left member.2
  refine ⟨f, links', level, inside, maximal, same, popped, geometry.transfer rfl rfl,
    maximal.separated_insert state.separated, state.root, ?_, rings, ?_, ?_, ?_⟩
  · intro l member
    rcases Set.mem_insert_iff.mp member with equal | old
    · rw [equal]; exact inside
    · exact state.bounded l old
  · rw [← level]
    exact state.listed.remove left maximal.maximal_insert
  · intro b within under free
    refine pair_flip (state.pair b within under free) (inverted_pairBit geometry inside within) ?_ ?_
    · intro x different
      rw [maximal.marked_insert x]
      simp [different]
    · have unmarked := not_marked_of_not_used maximal.1
      rw [maximal.marked_insert f]
      simp [unmarked]
  · intro b within positive
    rw [inverted_splitBit geometry inside within positive, maximal.split_insert b]
    exact state.split b within positive

end Consistent

theorem bounded_insert (bounded : ∀ l ∈ live, InHeap m l) (inside : InHeap m f) : ∀ l ∈ insert f live, InHeap m l := by
  intro l member
  rcases Set.mem_insert_iff.mp member with equal | old
  · rw [equal]; exact inside
  · exact bounded l old

theorem Consistent.halve (state : Consistent h m reserved (insert c.parent live) lists)
    (outside : c.parent ∉ live) (inside : InHeap m c) (lower : c.level < m) :
    Consistent (((h.splitSet c.parent).inverted c).push c.level (h.at c.buddy)) m reserved (insert c live)
      (update lists c.level (h.at c.buddy :: lists c.level)) := by
  have parentInside := parent_inside inside lower
  have member : c.parent ∈ insert c.parent live := Set.mem_insert _ _
  have geometry := state.geometry
  have geometrySet : Geometry (h.splitSet c.parent) m reserved := geometry.transfer rfl rfl
  have fresh := state.fresh member (c.buddy_parent ▸ c.buddy.within_parent)
  refine ⟨geometry.transfer rfl rfl, separated_half outside state.separated, state.root,
    bounded_insert (fun l old => state.bounded l (Set.mem_insert_of_mem _ old)) inside,
    lstPush_rings state.rings inside.1 fresh, ?_, ?_, ?_⟩
  · exact state.listed.push (buddy_inside inside lower) (maximal_half outside state.separated)
  · intro b within under free
    have bits : ((h.splitSet c.parent).inverted c).pairBit b = (h.pairBit b ^^ decide (b.parent = c.parent)) := by
      rw [inverted_pairBit geometrySet inside within,
        splitSet_pairBit geometry parentInside within (Nat.succ_pos _)]
    refine pair_flip (state.pair b within under free) bits ?_ ?_
    · intro x different
      rw [marked_half x]
      simp [different]
    · have unmarked := not_marked_half state.separated
      rw [marked_half c]
      simp [unmarked]
  · intro b within positive
    have bits : ((h.splitSet c.parent).inverted c).splitBit b = (h.splitBit b || decide (b = c.parent)) := by
      rw [inverted_splitBit geometrySet inside within positive,
        splitSet_splitBit geometry parentInside within (Nat.succ_pos _) positive]
    change ((h.splitSet c.parent).inverted c).splitBit b = true ↔ _
    rw [bits, split_half b, ← state.split b within positive]
    simp

theorem Consistent.release (state : Consistent h m reserved (insert f live) lists)
    (outside : f ∉ live) (used : Used reserved (insert f live) f.buddy) :
    Consistent ((h.inverted f).push f.level (h.at f)) m reserved live
      (update lists f.level (h.at f :: lists f.level)) := by
  have member : f ∈ insert f live := Set.mem_insert _ _
  have inside := state.bounded f member
  have maximal := maximal_of_used_buddy outside state.separated used
  refine ⟨state.geometry.transfer rfl rfl, state.separated.of_insert, state.root,
    fun l old => state.bounded l (Set.mem_insert_of_mem _ old),
    lstPush_rings state.rings inside.1 (state.fresh member (Block.Within.refl f)), ?_, ?_, ?_⟩
  · refine state.listed.push inside fun b => ?_
    rw [maximal.maximal_insert b]
    by_cases same : b = f
    · simp [same, maximal]
    · simp [same]
  · intro b within under free
    refine pair_flip (state.pair b within under free) (inverted_pairBit state.geometry inside within) ?_ ?_
    · intro x different
      rw [maximal.marked_insert x]
      simp [different]
    · have unmarked := not_marked_of_not_used maximal.1
      rw [maximal.marked_insert f]
      simp [unmarked]
  · intro b within positive
    change (h.inverted f).splitBit b = true ↔ _
    rw [inverted_splitBit state.geometry inside within positive, ← maximal.split_insert b]
    exact state.split b within positive

theorem Consistent.join (state : Consistent h m reserved (insert c live) lists)
    (outside : c ∉ live) (free : ¬ Used reserved (insert c live) c.buddy) :
    h.at c.buddy ∈ lists c.level ∧
    Consistent (((h.inverted c).remove (h.at c.buddy)).splitCleared c.parent) m reserved (insert c.parent live)
      (update lists c.level ((lists c.level).erase (h.at c.buddy))) := by
  have member : c ∈ insert c live := Set.mem_insert _ _
  have inside := state.bounded c member
  have lower := state.level_lt inside (state.not_touches member (Block.Within.refl c))
  have parentInside := parent_inside inside lower
  have buddyInside := buddy_inside inside lower
  have parentOutside := parent_outside outside state.separated
  have merged := separated_merge outside state.separated free
  have listed : h.at c.buddy ∈ lists c.level :=
    (state.listed _ inside.1 _).mpr ⟨c.buddy, rfl, buddyInside, maximal_free_buddy free, rfl⟩
  obtain ⟨xs, ys, position⟩ := List.append_of_mem listed
  have nodup := (List.nodup_cons.mp (state.rings.ring _ inside.1).nodup).2
  have rest : (lists c.level).erase (h.at c.buddy) = xs ++ ys := by
    rw [position] at nodup ⊢
    have absent : h.at c.buddy ∉ xs := fun early =>
      (List.nodup_append.mp nodup).2.2 _ early _ (by simp) rfl
    rw [List.erase_append_right _ absent, List.erase_cons_head]
  let h' : Heap := (h.inverted c).remove (h.at c.buddy)
  have geometryRemoved : Geometry h' m reserved := state.geometry.transfer rfl rfl
  refine ⟨listed, state.geometry.transfer rfl rfl, merged, state.root,
    bounded_insert (fun l old => state.bounded l (Set.mem_insert_of_mem _ old)) parentInside, ?_, ?_, ?_, ?_⟩
  · rw [rest]
    exact lstRemove_rings state.rings inside.1 position
  · have removed : Listed h m (Maximal reserved (insert c.parent live))
        (update lists c.buddy.level ((lists c.level).erase (h.at c.buddy))) := by
      apply state.listed.remove
      · intro a
        rw [List.Nodup.mem_erase_iff nodup]
        exact and_comm
      intro b
      rw [maximal_half parentOutside merged b]
      by_cases same : b = c.buddy
      · have gone : ¬ Maximal reserved (insert c.parent live) c.buddy := by
          intro maximal
          exact maximal.1 (used_insert.mpr (.inr ⟨_, c.buddy.covers_first,
            c.buddy_parent ▸ c.buddy.within_parent.covers c.buddy.covers_first⟩))
        simp [same, gone]
      · simp [same]
    exact removed
  · intro b within under untouched
    have bits : (h'.splitCleared c.parent).pairBit b = (h.pairBit b ^^ decide (b.parent = c.parent)) := by
      rw [splitCleared_pairBit geometryRemoved parentInside within (Nat.succ_pos _)]
      exact inverted_pairBit state.geometry inside within
    refine pair_flip (state.pair b within under untouched) bits ?_ ?_
    · intro x different
      rw [marked_half (c := c) x]
      simp [different]
    · have unmarked := not_marked_half merged
      rw [marked_half (c := c) c]
      simp [unmarked]
  · intro b within positive
    have bits : (h'.splitCleared c.parent).splitBit b = (h.splitBit b && !decide (b = c.parent)) := by
      rw [splitCleared_splitBit geometryRemoved parentInside within (Nat.succ_pos _) positive]
      congr 1
      exact inverted_splitBit state.geometry inside within positive
    have old := state.split b within positive
    rw [split_half b] at old
    change (h'.splitCleared c.parent).splitBit b = true ↔ _
    rw [bits]
    by_cases same : b = c.parent
    · have uncut := not_split_live merged (Set.mem_insert c.parent live)
      simp [same, uncut]
    · simpa [same] using old

end Steps

end OShard.Buddy
