import Mathlib

namespace AlignedBlock

/-- The block `index` of the units cut into runs of length `2 ^ level`. -/
@[ext] structure Block where
  level : Nat
  index : Nat
  deriving DecidableEq, Repr

def Block.Covers (b : Block) (u : Nat) : Prop := u / 2 ^ b.level = b.index

instance (b : Block) (u : Nat) : Decidable (b.Covers u) := inferInstanceAs (Decidable (_ = _))

def Block.parent (b : Block) : Block := ⟨b.level + 1, b.index / 2⟩

def Block.buddy (b : Block) : Block :=
  ⟨b.level, if b.index % 2 = 0 then b.index + 1 else b.index - 1⟩

def Block.Within (a b : Block) : Prop :=
  a.level ≤ b.level ∧ a.index / 2 ^ (b.level - a.level) = b.index

variable {a b : Block} {u : Nat}

theorem Block.covers_first (b : Block) : b.Covers (b.index * 2 ^ b.level) :=
  Nat.mul_div_cancel _ (Nat.two_pow_pos _)

theorem Block.covers_iff (b : Block) (u : Nat) :
    b.Covers u ↔ b.index * 2 ^ b.level ≤ u ∧ u < (b.index + 1) * 2 ^ b.level := by
  unfold Covers
  rw [Nat.div_eq_iff (Nat.two_pow_pos _)]
  have positive := Nat.two_pow_pos b.level
  rw [Nat.add_mul]
  omega

theorem Block.Within.refl (b : Block) : b.Within b := ⟨Nat.le_refl _, by simp⟩

theorem Block.Within.covers (within : a.Within b) (covers : a.Covers u) : b.Covers u := by
  unfold Covers at covers ⊢
  rw [← within.2, ← covers, Nat.div_div_eq_div_mul, ← Nat.pow_add, Nat.add_sub_cancel' within.1]

theorem Block.within_of_overlap (first : a.Covers u) (second : b.Covers u)
    (order : a.level ≤ b.level) : a.Within b := by
  refine ⟨order, ?_⟩
  unfold Covers at first second
  rw [← first, ← second, Nat.div_div_eq_div_mul, ← Nat.pow_add, Nat.add_sub_cancel' order]

theorem Block.eq_of_overlap (first : a.Covers u) (second : b.Covers u) (same : a.level = b.level) : a = b := by
  unfold Covers at first second
  ext
  · exact same
  · rw [← first, ← second, same]

theorem Block.Within.trans {c : Block} (first : a.Within b) (second : b.Within c) : a.Within c :=
  within_of_overlap a.covers_first (second.covers (first.covers a.covers_first)) (first.1.trans second.1)

theorem Block.Within.antisymm (first : a.Within b) (second : b.level ≤ a.level) : a = b :=
  eq_of_overlap a.covers_first (first.covers a.covers_first) (Nat.le_antisymm first.1 second)

theorem Block.within_parent (b : Block) : b.Within b.parent :=
  ⟨Nat.le_succ _, by simp [parent]⟩

theorem Block.Within.parent_within (within : a.Within b) (strict : a ≠ b) : a.parent.Within b := by
  have lower : a.level < b.level := by
    rcases Nat.lt_or_ge a.level b.level with lt | ge
    · exact lt
    · exact absurd (within.antisymm ge) strict
  exact within_of_overlap (a.within_parent.covers a.covers_first) (within.covers a.covers_first) lower

theorem Block.buddy_parent (b : Block) : b.buddy.parent = b.parent := by
  unfold buddy parent
  split <;> simp <;> omega

theorem Block.buddy_buddy (b : Block) : b.buddy.buddy = b := by
  unfold buddy
  ext
  · rfl
  · dsimp only
    split <;> split <;> omega

theorem Block.buddy_ne (b : Block) : b.buddy ≠ b := by
  intro same
  have equal := congrArg Block.index same
  unfold buddy at equal
  dsimp only at equal
  split at equal <;> omega

@[simp] theorem Block.buddy_level (b : Block) : b.buddy.level = b.level := rfl
@[simp] theorem Block.parent_level (b : Block) : b.parent.level = b.level + 1 := rfl

theorem Block.parent_covers (b : Block) (u : Nat) : b.parent.Covers u ↔ b.Covers u ∨ b.buddy.Covers u := by
  unfold Covers parent buddy
  dsimp only
  rw [Nat.pow_succ, ← Nat.div_div_eq_div_mul]
  split <;> omega

theorem Block.buddy_disjoint (b : Block) (covers : b.Covers u) : ¬ b.buddy.Covers u :=
  fun other => b.buddy_ne (eq_of_overlap other covers rfl)

theorem Block.parent_eq_iff (a b : Block) : a.parent = b.parent ↔ a = b ∨ a = b.buddy := by
  constructor
  · intro same
    have inside : b.parent.Covers (a.index * 2 ^ a.level) := same ▸ a.within_parent.covers a.covers_first
    have level : a.level = b.level := by
      have equal := congrArg Block.level same
      simpa [parent] using equal
    rcases (b.parent_covers _).mp inside with left | right
    · exact .inl (eq_of_overlap a.covers_first left level)
    · exact .inr (eq_of_overlap a.covers_first right level)
  · intro cases
    rcases cases with same | same
    · rw [same]
    · rw [same, b.buddy_parent]

theorem Block.ne_parent (b : Block) : b ≠ b.parent := by
  intro same
  have equal := congrArg Block.level same
  simp at equal

section Occupation

variable {reserved : Set Nat} {live : Set Block}

def Touches (reserved : Set Nat) (b : Block) : Prop := ∃ u, b.Covers u ∧ u ∈ reserved

def Used (reserved : Set Nat) (live : Set Block) (b : Block) : Prop :=
  ∃ u, b.Covers u ∧ (u ∈ reserved ∨ ∃ l ∈ live, l.Covers u)

def Maximal (reserved : Set Nat) (live : Set Block) (b : Block) : Prop :=
  ¬ Used reserved live b ∧ Used reserved live b.parent

/-- The block has been handed out, or cut, or reserved: a block nested in a larger live one is not. -/
def Marked (reserved : Set Nat) (live : Set Block) (b : Block) : Prop :=
  Touches reserved b ∨ ∃ l ∈ live, l.Within b

def Split (reserved : Set Nat) (live : Set Block) (b : Block) : Prop :=
  Touches reserved b ∨ ∃ l ∈ live, l.Within b ∧ l ≠ b

structure Separated (reserved : Set Nat) (live : Set Block) : Prop where
  unreserved : ∀ l ∈ live, ∀ u, l.Covers u → u ∉ reserved
  disjoint : ∀ l ∈ live, ∀ l' ∈ live, ∀ u, l.Covers u → l'.Covers u → l = l'

variable {a b f g : Block}

theorem Touches.mono (touches : Touches reserved a) (within : a.Within b) : Touches reserved b := by
  obtain ⟨u, covers, member⟩ := touches
  exact ⟨u, within.covers covers, member⟩

theorem Marked.mono (marked : Marked reserved live a) (within : a.Within b) : Marked reserved live b := by
  rcases marked with touches | ⟨l, member, inside⟩
  · exact .inl (touches.mono within)
  · exact .inr ⟨l, member, inside.trans within⟩

theorem Used.mono (used : Used reserved live a) (within : a.Within b) : Used reserved live b := by
  obtain ⟨u, covers, cause⟩ := used
  exact ⟨u, within.covers covers, cause⟩

theorem Touches.used (touches : Touches reserved b) : Used reserved live b := by
  obtain ⟨u, covers, member⟩ := touches
  exact ⟨u, covers, .inl member⟩

theorem Marked.used (marked : Marked reserved live b) : Used reserved live b := by
  rcases marked with touches | ⟨l, member, inside⟩
  · exact touches.used
  · exact ⟨_, inside.covers l.covers_first, .inr ⟨l, member, l.covers_first⟩⟩

theorem Split.marked (split : Split reserved live b) : Marked reserved live b := by
  rcases split with touches | ⟨l, member, inside, _⟩
  · exact .inl touches
  · exact .inr ⟨l, member, inside⟩

theorem Used.cases (used : Used reserved live b) : Marked reserved live b ∨ ∃ l ∈ live, b.Within l ∧ b ≠ l := by
  obtain ⟨u, covers, cause⟩ := used
  rcases cause with member | ⟨l, member, other⟩
  · exact .inl (.inl ⟨u, covers, member⟩)
  rcases Nat.le_total l.level b.level with le | ge
  · exact .inl (.inr ⟨l, member, Block.within_of_overlap other covers le⟩)
  · by_cases same : b = l
    · exact .inl (.inr ⟨l, member, same ▸ Block.Within.refl b⟩)
    · exact .inr ⟨l, member, Block.within_of_overlap covers other ge, same⟩

theorem used_parent_iff : Used reserved live b.parent ↔ Used reserved live b ∨ Used reserved live b.buddy := by
  constructor
  · rintro ⟨u, covers, cause⟩
    rcases (b.parent_covers u).mp covers with left | right
    · exact .inl ⟨u, left, cause⟩
    · exact .inr ⟨u, right, cause⟩
  · rintro (used | used)
    · exact used.mono b.within_parent
    · exact used.mono (b.buddy_parent ▸ b.buddy.within_parent)

theorem maximal_iff_buddy : Maximal reserved live b ↔ ¬ Used reserved live b ∧ Used reserved live b.buddy := by
  unfold Maximal
  rw [used_parent_iff]
  tauto

theorem Maximal.eq_of_overlap {u : Nat} (first : Maximal reserved live a)
    (second : Maximal reserved live b) (left : a.Covers u) (right : b.Covers u) : a = b := by
  by_contra different
  rcases Nat.le_total a.level b.level with le | ge
  · exact second.1 (first.2.mono ((Block.within_of_overlap left right le).parent_within different))
  · exact first.1 (second.2.mono ((Block.within_of_overlap right left ge).parent_within (Ne.symm different)))

theorem not_marked_of_not_used (free : ¬ Used reserved live b) : ¬ Marked reserved live b :=
  fun marked => free marked.used

theorem Maximal.parent_split (maximal : Maximal reserved live f) : Split reserved live f.parent := by
  rcases maximal.2.cases with marked | ⟨l, member, inside, _⟩
  · rcases marked with touches | ⟨l, member, inside⟩
    · exact .inl touches
    · refine .inr ⟨l, member, inside, ?_⟩
      rintro rfl
      exact maximal.1 ⟨_, f.covers_first, .inr ⟨_, member, f.within_parent.covers f.covers_first⟩⟩
  · exact absurd ⟨_, f.covers_first, .inr ⟨l, member,
      (f.within_parent.trans inside).covers f.covers_first⟩⟩ maximal.1

theorem Split.mono (split : Split reserved live a) (within : a.Within b) : Split reserved live b := by
  rcases split with touches | ⟨l, member, inside, strict⟩
  · exact .inl (touches.mono within)
  · refine .inr ⟨l, member, inside.trans within, ?_⟩
    rintro rfl
    exact strict (inside.antisymm within.1)

theorem used_insert : Used reserved (insert f live) b ↔ Used reserved live b ∨ ∃ u, b.Covers u ∧ f.Covers u := by
  constructor
  · rintro ⟨u, covers, member | ⟨l, rfl | member, other⟩⟩
    · exact .inl ⟨u, covers, .inl member⟩
    · exact .inr ⟨u, covers, other⟩
    · exact .inl ⟨u, covers, .inr ⟨l, member, other⟩⟩
  · rintro (⟨u, covers, member | ⟨l, member, other⟩⟩ | ⟨u, covers, other⟩)
    · exact ⟨u, covers, .inl member⟩
    · exact ⟨u, covers, .inr ⟨l, Set.mem_insert_of_mem _ member, other⟩⟩
    · exact ⟨u, covers, .inr ⟨f, Set.mem_insert _ _, other⟩⟩

theorem marked_insert_iff : Marked reserved (insert f live) b ↔ Marked reserved live b ∨ f.Within b := by
  unfold Marked
  simp only [Set.mem_insert_iff, or_and_right, exists_or, exists_eq_left]
  rw [or_assoc]
  exact or_congr_right or_comm

theorem split_insert_iff : Split reserved (insert f live) b ↔ Split reserved live b ∨ (f.Within b ∧ f ≠ b) := by
  unfold Split
  simp only [Set.mem_insert_iff, or_and_right, exists_or, exists_eq_left]
  rw [or_assoc]
  exact or_congr_right or_comm

section

variable (maximal : Maximal reserved live f)

include maximal

theorem Maximal.marked_insert (b : Block) :
    Marked reserved (insert f live) b ↔ Marked reserved live b ∨ b = f := by
  rw [marked_insert_iff]
  constructor
  · rintro (marked | within)
    · exact .inl marked
    · by_cases same : f = b
      · exact .inr same.symm
      · exact .inl (maximal.parent_split.marked.mono (within.parent_within same))
  · rintro (marked | rfl)
    · exact .inl marked
    · exact .inr (Block.Within.refl _)

theorem Maximal.split_insert (b : Block) :
    Split reserved (insert f live) b ↔ Split reserved live b := by
  rw [split_insert_iff]
  constructor
  · rintro (split | ⟨within, strict⟩)
    · exact split
    · exact maximal.parent_split.mono (within.parent_within strict)
  · exact .inl

theorem Maximal.maximal_insert (b : Block) :
    Maximal reserved (insert f live) b ↔ Maximal reserved live b ∧ b ≠ f := by
  constructor
  · rintro ⟨free, used⟩
    have apart : ∀ u, b.Covers u → ¬ f.Covers u := fun u first second =>
      free (used_insert.mpr (.inr ⟨u, first, second⟩))
    have stillFree : ¬ Used reserved live b := fun h => free (used_insert.mpr (.inl h))
    refine ⟨⟨stillFree, ?_⟩, ?_⟩
    · rcases used_insert.mp used with used | ⟨u, inParent, inF⟩
      · exact used
      have other : b.buddy.Covers u := by
        rcases (b.parent_covers u).mp inParent with left | right
        · exact absurd inF (apart u left)
        · exact right
      by_contra parentFree
      rcases Nat.le_total f.level b.level with le | ge
      · have inside : f.Within b.parent :=
          (Block.within_of_overlap inF other le).trans (b.buddy_parent ▸ b.buddy.within_parent)
        have strict : f ≠ b.parent := by
          rintro rfl
          simp at le
        exact parentFree (maximal.2.mono (inside.parent_within strict))
      · by_cases level : f.level = b.level
        · have same : f = b.buddy := Block.eq_of_overlap inF other level
          refine parentFree ?_
          have parentUsed := maximal.2
          rwa [same, b.buddy_parent] at parentUsed
        · have inside : b.parent.Within f :=
            Block.within_of_overlap inParent inF (by simp only [Block.parent_level]; omega)
          exact apart _ b.covers_first (inside.covers (b.within_parent.covers b.covers_first))
    · rintro rfl
      exact apart _ b.covers_first b.covers_first
  · rintro ⟨old, different⟩
    refine ⟨?_, used_insert.mpr (.inl old.2)⟩
    intro used
    rcases used_insert.mp used with used | ⟨u, first, second⟩
    · exact old.1 used
    · exact different (old.eq_of_overlap maximal first second)

end

theorem Separated.of_insert (separated : Separated reserved (insert f live)) : Separated reserved live :=
  ⟨fun l member => separated.unreserved l (Set.mem_insert_of_mem _ member),
    fun l member l' member' => separated.disjoint l (Set.mem_insert_of_mem _ member) l'
      (Set.mem_insert_of_mem _ member')⟩

theorem Separated.extend (separated : Separated reserved live)
    (apart : ∀ u, f.Covers u → u ∉ reserved ∧ ∀ l ∈ live, ¬ l.Covers u) : Separated reserved (insert f live) := by
  refine ⟨?_, ?_⟩
  · rintro l (rfl | member) u covers
    · exact (apart u covers).1
    · exact separated.unreserved l member u covers
  · rintro l (rfl | member) l' (rfl | member') u covers covers'
    · rfl
    · exact absurd covers' ((apart u covers).2 l' member')
    · exact absurd covers ((apart u covers').2 l member)
    · exact separated.disjoint l member l' member' u covers covers'

theorem Separated.apart (separated : Separated reserved (insert f live)) (outside : f ∉ live)
    (u : Nat) (covers : f.Covers u) : u ∉ reserved ∧ ∀ l ∈ live, ¬ l.Covers u := by
  refine ⟨separated.unreserved _ (Set.mem_insert _ _) u covers, fun l member other => ?_⟩
  have same := separated.disjoint l (Set.mem_insert_of_mem _ member) _ (Set.mem_insert _ _) u other covers
  exact outside (same ▸ member)

theorem not_used_of_apart (apart : ∀ u, b.Covers u → u ∉ reserved ∧ ∀ l ∈ live, ¬ l.Covers u) :
    ¬ Used reserved live b := by
  rintro ⟨u, covers, member | ⟨l, member, other⟩⟩
  · exact (apart u covers).1 member
  · exact (apart u covers).2 l member other

theorem Maximal.separated_insert (maximal : Maximal reserved live f)
    (separated : Separated reserved live) : Separated reserved (insert f live) :=
  separated.extend fun u covers => ⟨fun member => maximal.1 ⟨u, covers, .inl member⟩,
    fun l member other => maximal.1 ⟨u, covers, .inr ⟨l, member, other⟩⟩⟩

theorem not_marked_below (separated : Separated reserved live) (member : g ∈ live)
    (within : b.Within g) (strict : b ≠ g) : ¬ Marked reserved live b := by
  rintro (⟨u, covers, reservedUnit⟩ | ⟨l, other, inside⟩)
  · exact separated.unreserved g member u (within.covers covers) reservedUnit
  · have same := separated.disjoint l other g member _ l.covers_first
      ((inside.trans within).covers l.covers_first)
    subst same
    exact strict (within.antisymm inside.1)

theorem not_split_live (separated : Separated reserved live) (member : g ∈ live) : ¬ Split reserved live g := by
  rintro (⟨u, covers, reservedUnit⟩ | ⟨l, other, inside, strict⟩)
  · exact separated.unreserved g member u covers reservedUnit
  · exact strict (separated.disjoint l other g member _ l.covers_first (inside.covers l.covers_first))

section Halving

variable {c : Block} (outside : c.parent ∉ live) (separated : Separated reserved (insert c.parent live))

include outside separated

theorem not_used_half (side : Block) (half : side.parent = c.parent) : ¬ Used reserved live side :=
  not_used_of_apart fun u covers =>
    separated.apart outside u (half ▸ side.within_parent.covers covers)

theorem separated_half : Separated reserved (insert c live) :=
  separated.of_insert.extend fun u covers => separated.apart outside u (c.within_parent.covers covers)

theorem maximal_other_half : Maximal reserved (insert c live) c.buddy := by
  refine ⟨?_, ?_⟩
  · intro used
    rcases used_insert.mp used with used | ⟨u, first, second⟩
    · exact not_used_half outside separated c.buddy c.buddy_parent used
    · exact c.buddy_disjoint second first
  · rw [c.buddy_parent]
    exact used_insert.mpr (.inr ⟨_, c.within_parent.covers c.covers_first, c.covers_first⟩)

theorem maximal_half (b : Block) : Maximal reserved (insert c live) b ↔
    Maximal reserved (insert c.parent live) b ∨ b = c.buddy := by
  have other := maximal_other_half outside separated
  constructor
  · intro maximal
    by_cases overlap : ∃ u, b.Covers u ∧ c.buddy.Covers u
    · obtain ⟨u, first, second⟩ := overlap
      exact .inr (maximal.eq_of_overlap other first second)
    left
    refine ⟨?_, ?_⟩
    · intro used
      rcases used_insert.mp used with used | ⟨u, first, second⟩
      · exact maximal.1 (used_insert.mpr (.inl used))
      · rcases (c.parent_covers u).mp second with left | right
        · exact maximal.1 (used_insert.mpr (.inr ⟨u, first, left⟩))
        · exact overlap ⟨u, first, right⟩
    · rcases used_insert.mp maximal.2 with used | ⟨u, first, second⟩
      · exact used_insert.mpr (.inl used)
      · exact used_insert.mpr (.inr ⟨u, first, c.within_parent.covers second⟩)
  · rintro (maximal | rfl)
    · have apart : ∀ u, b.Covers u → ¬ c.parent.Covers u := fun u first second =>
        maximal.1 (used_insert.mpr (.inr ⟨u, first, second⟩))
      refine ⟨?_, ?_⟩
      · intro used
        rcases used_insert.mp used with used | ⟨u, first, second⟩
        · exact maximal.1 (used_insert.mpr (.inl used))
        · exact apart u first (c.within_parent.covers second)
      · rcases used_insert.mp maximal.2 with used | ⟨u, first, second⟩
        · exact used_insert.mpr (.inl used)
        rcases Nat.le_total c.parent.level b.parent.level with le | ge
        · have inside := Block.within_of_overlap second first le
          have start := c.within_parent.covers c.covers_first
          exact used_insert.mpr (.inr ⟨_, inside.covers start, c.covers_first⟩)
        · have inside := Block.within_of_overlap first second ge
          exact absurd (inside.covers (b.within_parent.covers b.covers_first)) (apart _ b.covers_first)
    · exact other

omit outside separated in
theorem within_iff_parent (b : Block) : c.Within b ↔ c.parent.Within b ∨ b = c := by
  constructor
  · intro within
    by_cases same : c = b
    · exact .inr same.symm
    · exact .inl (within.parent_within same)
  · rintro (within | rfl)
    · exact c.within_parent.trans within
    · exact Block.Within.refl _

omit outside separated in
theorem marked_half (b : Block) : Marked reserved (insert c live) b ↔
    Marked reserved (insert c.parent live) b ∨ b = c := by
  rw [marked_insert_iff, marked_insert_iff, within_iff_parent, or_assoc]

omit outside separated in
theorem split_half (b : Block) : Split reserved (insert c live) b ↔
    Split reserved (insert c.parent live) b ∨ b = c.parent := by
  rw [split_insert_iff, split_insert_iff, or_assoc]
  refine or_congr_right ?_
  constructor
  · rintro ⟨within, strict⟩
    have inside := within.parent_within strict
    by_cases same : c.parent = b
    · exact .inr same.symm
    · exact .inl ⟨inside, same⟩
  · rintro (⟨within, _⟩ | rfl)
    · refine ⟨c.within_parent.trans within, ?_⟩
      rintro rfl
      have bound := within.1
      simp at bound
    · exact ⟨c.within_parent, c.ne_parent⟩

omit outside in
theorem not_marked_half : ¬ Marked reserved (insert c.parent live) c :=
  not_marked_below separated (Set.mem_insert _ _) c.within_parent c.ne_parent

end Halving

section Returning

variable {f : Block} (outside : f ∉ live) (separated : Separated reserved (insert f live))

include outside separated

theorem marked_buddy_iff : Marked reserved (insert f live) f.buddy ↔ Used reserved (insert f live) f.buddy := by
  refine ⟨Marked.used, fun used => ?_⟩
  rcases used.cases with marked | ⟨l, member, inside, strict⟩
  · exact marked
  have above := inside.parent_within strict
  rw [f.buddy_parent] at above
  have same := separated.disjoint l member f (Set.mem_insert _ _) _
    ((f.within_parent.trans above).covers f.covers_first) f.covers_first
  subst same
  have bound := above.1
  simp at bound

omit outside separated in
theorem maximal_free_buddy (free : ¬ Used reserved (insert f live) f.buddy) :
    Maximal reserved (insert f live) f.buddy := by
  refine ⟨free, ?_⟩
  rw [f.buddy_parent]
  exact used_insert.mpr (.inr ⟨_, f.within_parent.covers f.covers_first, f.covers_first⟩)

theorem maximal_of_used_buddy (used : Used reserved (insert f live) f.buddy) : Maximal reserved live f := by
  refine ⟨?_, ?_⟩
  · exact not_used_of_apart (separated.apart outside)
  · rcases used_insert.mp used with used | ⟨u, first, second⟩
    · exact used.mono (f.buddy_parent ▸ f.buddy.within_parent)
    · exact absurd first (f.buddy_disjoint second)

theorem parent_outside : f.parent ∉ live := by
  intro member
  exact (separated.apart outside _ f.covers_first).2 _ member (f.within_parent.covers f.covers_first)

theorem separated_merge (free : ¬ Used reserved (insert f live) f.buddy) :
    Separated reserved (insert f.parent live) := by
  refine separated.of_insert.extend fun u covers => ?_
  rcases (f.parent_covers u).mp covers with left | right
  · exact separated.apart outside u left
  · exact ⟨fun member => free ⟨u, right, .inl member⟩, fun l member other =>
      free ⟨u, right, .inr ⟨l, Set.mem_insert_of_mem _ member, other⟩⟩⟩

end Returning

section Counting

variable {top : Nat}

theorem Block.covers_parent_index (k u : Nat) : (⟨k, u / 2 ^ k⟩ : Block).parent = ⟨k + 1, u / 2 ^ (k + 1)⟩ := by
  ext
  · rfl
  · simp only [Block.parent, Nat.pow_succ, Nat.div_div_eq_div_mul]

theorem exists_maximal (root : Used reserved live ⟨top, 0⟩) {u : Nat} (bound : u < 2 ^ top)
    (free : ¬ Used reserved live ⟨0, u⟩) : ∃ k < top, Maximal reserved live ⟨k, u / 2 ^ k⟩ := by
  classical
  have reached : ∃ k, Used reserved live ⟨k, u / 2 ^ k⟩ :=
    ⟨top, by rwa [Nat.div_eq_of_lt bound]⟩
  have least := Nat.find_spec reached
  have below := fun k lower => Nat.find_min reached (m := k) lower
  have upper : Nat.find reached ≤ top := Nat.find_min' reached (by rwa [Nat.div_eq_of_lt bound])
  obtain ⟨k, same⟩ : ∃ k, Nat.find reached = k + 1 := by
    refine Nat.exists_eq_succ_of_ne_zero fun zero => ?_
    rw [zero] at least
    exact free (by simpa using least)
  refine ⟨k, by omega, below k (by omega), ?_⟩
  rw [Block.covers_parent_index]
  rwa [same] at least

theorem card_block_units (k i bound : Nat) (fits : (i + 1) * 2 ^ k ≤ bound) :
    ((Finset.range bound).filter fun u => u / 2 ^ k = i).card = 2 ^ k := by
  have same : ((Finset.range bound).filter fun u => u / 2 ^ k = i) =
      Finset.Ico (i * 2 ^ k) ((i + 1) * 2 ^ k) := by
    ext u
    have covers := Block.covers_iff ⟨k, i⟩ u
    simp only [Block.Covers] at covers
    simp only [Finset.mem_filter, Finset.mem_range, Finset.mem_Ico, covers]
    omega
  rw [same, Nat.card_Ico, Nat.add_mul]
  omega

open Classical in
theorem sum_maximal (root : Used reserved live ⟨top, 0⟩) (blocks : Nat → Finset Nat)
    (exact : ∀ k < top, ∀ i, i ∈ blocks k ↔ i < 2 ^ (top - k) ∧ Maximal reserved live ⟨k, i⟩) :
    ∑ k ∈ Finset.range top, (blocks k).card * 2 ^ k =
      ((Finset.range (2 ^ top)).filter fun u => ¬ Used reserved live ⟨0, u⟩).card := by
  set free := (Finset.range (2 ^ top)).filter fun u => ¬ Used reserved live ⟨0, u⟩ with freeDef
  let level := fun k => free.filter fun u => Maximal reserved live ⟨k, u / 2 ^ k⟩
  have cover : free = (Finset.range top).biUnion level := by
    ext u
    simp only [Finset.mem_biUnion, Finset.mem_range, level, Finset.mem_filter, freeDef]
    constructor
    · rintro ⟨bound, unused⟩
      obtain ⟨k, lower, maximal⟩ := exists_maximal root bound unused
      exact ⟨k, lower, ⟨bound, unused⟩, maximal⟩
    · rintro ⟨k, _, member, _⟩
      exact member
  have apart : ∀ j ∈ Finset.range top, ∀ k ∈ Finset.range top, j ≠ k → Disjoint (level j) (level k) := by
    intro j _ k _ different
    refine Finset.disjoint_left.mpr fun u first second => different ?_
    have same := (Finset.mem_filter.mp first).2.eq_of_overlap (Finset.mem_filter.mp second).2
      (show u / 2 ^ j = u / 2 ^ j from rfl) (show u / 2 ^ k = u / 2 ^ k from rfl)
    exact congrArg Block.level same
  rw [cover, Finset.card_biUnion apart]
  refine Finset.sum_congr rfl fun k inside => ?_
  have lower := Finset.mem_range.mp inside
  have maps : ∀ u ∈ level k, u / 2 ^ k ∈ blocks k := by
    intro u member
    obtain ⟨unit, maximal⟩ := Finset.mem_filter.mp member
    have bound := Finset.mem_range.mp (Finset.mem_filter.mp unit).1
    refine (exact k lower _).mpr ⟨?_, maximal⟩
    rw [Nat.div_lt_iff_lt_mul (Nat.two_pow_pos k), ← Nat.pow_add, Nat.sub_add_cancel lower.le]
    exact bound
  rw [Finset.card_eq_sum_card_fiberwise maps, Finset.sum_const_nat fun i member => ?_]
  obtain ⟨bound, maximal⟩ := (exact k lower i).mp member
  have fits : (i + 1) * 2 ^ k ≤ 2 ^ top := by
    calc (i + 1) * 2 ^ k ≤ 2 ^ (top - k) * 2 ^ k := Nat.mul_le_mul_right _ bound
      _ = 2 ^ top := by rw [← Nat.pow_add, Nat.sub_add_cancel lower.le]
  refine Eq.trans (congrArg Finset.card ?_) (card_block_units k i (2 ^ top) fits)
  ext u
  simp only [level, freeDef, Finset.mem_filter, Finset.mem_range]
  constructor
  · rintro ⟨⟨⟨bound, _⟩, _⟩, same⟩
    exact ⟨bound, same⟩
  · rintro ⟨bound, same⟩
    have unitWithin : (⟨0, u⟩ : Block).Within ⟨k, i⟩ := ⟨Nat.zero_le _, by simpa using same⟩
    exact ⟨⟨⟨bound, fun used => maximal.1 (used.mono unitWithin)⟩, by rwa [same]⟩, same⟩

end Counting

end Occupation

theorem Separated.ordered {reserved : Set Nat} {live : Set Block} (separated : Separated reserved live)
    (first : a ∈ live) (second : b ∈ live) (different : a ≠ b) :
    (a.index + 1) * 2 ^ a.level ≤ b.index * 2 ^ b.level ∨ (b.index + 1) * 2 ^ b.level ≤ a.index * 2 ^ a.level := by
  by_contra overlap
  rcases Nat.le_total (a.index * 2 ^ a.level) (b.index * 2 ^ b.level) with order | order
  · have covers : a.Covers (b.index * 2 ^ b.level) := (a.covers_iff _).mpr ⟨order, by omega⟩
    exact different (separated.disjoint a first b second _ covers b.covers_first)
  · have covers : b.Covers (a.index * 2 ^ a.level) := (b.covers_iff _).mpr ⟨order, by omega⟩
    exact different (separated.disjoint a first b second _ a.covers_first covers)

section Lists

open Classical in
theorem card_free_insert {reserved : Set Nat} {live : Set Block} {top : Nat} {b : Block}
    (separated : Separated reserved (insert b live)) (outside : b ∉ live) (fits : (b.index + 1) * 2 ^ b.level ≤ 2 ^ top) :
    ((Finset.range (2 ^ top)).filter fun u => ¬ Used reserved (insert b live) ⟨0, u⟩).card + 2 ^ b.level =
      ((Finset.range (2 ^ top)).filter fun u => ¬ Used reserved live ⟨0, u⟩).card := by
  have units := card_block_units b.level b.index (2 ^ top) fits
  have unit : ∀ u v, (⟨0, u⟩ : Block).Covers v ↔ v = u := by
    intro u v
    unfold Block.Covers
    rw [Nat.pow_zero, Nat.div_one]
  have used : ∀ u, Used reserved (insert b live) ⟨0, u⟩ ↔ Used reserved live ⟨0, u⟩ ∨ b.Covers u := by
    intro u
    rw [used_insert]
    refine or_congr_right ⟨fun overlap => ?_, fun covers => ⟨u, (unit u u).mpr rfl, covers⟩⟩
    obtain ⟨v, first, second⟩ := overlap
    rw [(unit u v).mp first] at second
    exact second
  have fresh : ∀ u, b.Covers u → ¬ Used reserved live ⟨0, u⟩ := by
    intro u covers other
    obtain ⟨v, first, cause⟩ := other
    rw [(unit u v).mp first] at cause
    rcases cause with member | ⟨l, member, covers'⟩
    · exact separated.unreserved b (Set.mem_insert _ _) u covers member
    · have equal := separated.disjoint b (Set.mem_insert _ _) l (Set.mem_insert_of_mem _ member) u covers covers'
      exact outside (equal ▸ member)
  rw [← units, ← Finset.card_union_of_disjoint]
  · congr 1
    ext u
    simp only [Finset.mem_union, Finset.mem_filter, used]
    constructor
    · intro member
      rcases member with ⟨bound, free⟩ | ⟨bound, covers⟩
      · exact ⟨bound, fun old => free (.inl old)⟩
      · exact ⟨bound, fresh u covers⟩
    · intro member
      by_cases covers : b.Covers u
      · exact .inr ⟨member.1, covers⟩
      · exact .inl ⟨member.1, fun now => now.elim member.2 covers⟩
  · refine Finset.disjoint_left.mpr fun u first second => ?_
    exact (Finset.mem_filter.mp first).2 ((used u).mpr (.inr (Finset.mem_filter.mp second).2))

open Classical in
theorem card_free_list {reserved : Set Nat} (top : Nat) (blocks : List Block) (nodup : blocks.Nodup)
    (separated : Separated reserved {b | b ∈ blocks}) (fits : ∀ b ∈ blocks, (b.index + 1) * 2 ^ b.level ≤ 2 ^ top) :
    ((Finset.range (2 ^ top)).filter fun u => ¬ Used reserved {b | b ∈ blocks} ⟨0, u⟩).card +
        (blocks.map fun b => 2 ^ b.level).sum =
      ((Finset.range (2 ^ top)).filter fun u => ¬ Used reserved ∅ ⟨0, u⟩).card := by
  induction blocks with
  | nil =>
    have empty : {b : Block | b ∈ ([] : List Block)} = ∅ := by
      ext b
      simp
    rw [empty]
    rfl
  | cons b blocks ih =>
    obtain ⟨fresh, rest⟩ := List.nodup_cons.mp nodup
    have split : {c | c ∈ b :: blocks} = insert b {c | c ∈ blocks} := by
      ext c
      simp
    rw [split] at separated ⊢
    have step := card_free_insert separated fresh (fits b List.mem_cons_self)
    have tail := ih rest separated.of_insert fun c member => fits c (List.mem_cons_of_mem b member)
    rw [List.map_cons, List.sum_cons]
    omega

end Lists

section Window

variable {reserved : Set Nat}

def outside (left right : Nat) : Set Nat := {u | u < left ∨ right ≤ u}

variable {left right : Nat} {b : Block}

theorem touches_outside :
    Touches (outside left right) b ↔ b.index * 2 ^ b.level < left ∨ right < (b.index + 1) * 2 ^ b.level := by
  have positive := Nat.two_pow_pos b.level
  have next : (b.index + 1) * 2 ^ b.level = b.index * 2 ^ b.level + 2 ^ b.level := Nat.succ_mul _ _
  constructor
  · intro touches
    obtain ⟨u, covers, member⟩ := touches
    obtain ⟨first, last⟩ := (b.covers_iff u).mp covers
    rcases member with low | high
    · left
      omega
    · right
      omega
  · intro bound
    rcases bound with low | high
    · exact ⟨_, b.covers_first, .inl low⟩
    · refine ⟨(b.index + 1) * 2 ^ b.level - 1, (b.covers_iff _).mpr ⟨?_, ?_⟩, .inr ?_⟩ <;> omega

theorem used_empty : Used reserved ∅ b ↔ Touches reserved b := by
  constructor
  · intro used
    obtain ⟨u, covers, cause⟩ := used
    rcases cause with member | ⟨l, impossible, _⟩
    · exact ⟨u, covers, member⟩
    · cases impossible
  · exact Touches.used

theorem marked_empty : Marked reserved ∅ b ↔ Touches reserved b := by
  simp [Marked]

theorem split_empty : Split reserved ∅ b ↔ Touches reserved b := by
  simp [Split]

theorem separated_empty (reserved : Set Nat) : Separated reserved ∅ :=
  ⟨fun _ member => member.elim, fun _ member => member.elim⟩

theorem Block.buddy_adjacent (b : Block) :
    (b.index % 2 = 0 ∧ b.buddy.index = b.index + 1 ∧ b.buddy.index * 2 ^ b.level = b.index * 2 ^ b.level + 2 ^ b.level) ∨
      (b.index % 2 = 1 ∧ b.index = b.buddy.index + 1 ∧
        b.index * 2 ^ b.level = b.buddy.index * 2 ^ b.level + 2 ^ b.level) := by
  have order : (b.index % 2 = 0 ∧ b.buddy.index = b.index + 1) ∨ (b.index % 2 = 1 ∧ b.index = b.buddy.index + 1) := by
    unfold Block.buddy
    dsimp only
    split <;> omega
  rcases order with ⟨even, after⟩ | ⟨odd, before⟩
  · exact .inl ⟨even, after, by rw [after, Nat.succ_mul]⟩
  · exact .inr ⟨odd, before, by rw [← Nat.succ_mul, before]⟩

theorem maximal_outside (maximal : Maximal (outside left right) ∅ b) :
    left ≤ b.index * 2 ^ b.level ∧ (b.index + 1) * 2 ^ b.level ≤ right ∧
      ((b.index = b.buddy.index + 1 ∧ b.buddy.index * 2 ^ b.level < left) ∨
        (b.buddy.index = b.index + 1 ∧ right < (b.buddy.index + 1) * 2 ^ b.level)) := by
  obtain ⟨unused, used⟩ := maximal_iff_buddy.mp maximal
  rw [used_empty, touches_outside] at unused used
  have positive := Nat.two_pow_pos b.level
  have next : (b.index + 1) * 2 ^ b.level = b.index * 2 ^ b.level + 2 ^ b.level := Nat.succ_mul _ _
  have next' : (b.buddy.index + 1) * 2 ^ b.level = b.buddy.index * 2 ^ b.level + 2 ^ b.level := Nat.succ_mul _ _
  have level : b.buddy.level = b.level := rfl
  rw [level] at used
  rcases b.buddy_adjacent with ⟨_, after, shift⟩ | ⟨_, before, shift⟩ <;> omega

theorem one_side (unused : ¬ Touches (outside left right) b) :
    ¬ (b.buddy.index * 2 ^ b.level < left ∧ right < (b.buddy.index + 1) * 2 ^ b.level) := by
  rw [touches_outside] at unused
  have next : (b.index + 1) * 2 ^ b.level = b.index * 2 ^ b.level + 2 ^ b.level := Nat.succ_mul _ _
  have next' : (b.buddy.index + 1) * 2 ^ b.level = b.buddy.index * 2 ^ b.level + 2 ^ b.level := Nat.succ_mul _ _
  rcases b.buddy_adjacent with ⟨_, after, shift⟩ | ⟨_, before, shift⟩ <;> omega

open Classical in
theorem card_window {top : Nat} (upper : right ≤ 2 ^ top) :
    ((Finset.range (2 ^ top)).filter fun u => ¬ Used (outside left right) ∅ ⟨0, u⟩).card = right - left := by
  have same : ((Finset.range (2 ^ top)).filter fun u => ¬ Used (outside left right) ∅ ⟨0, u⟩) =
      Finset.Ico left right := by
    ext u
    rw [Finset.mem_filter, Finset.mem_range, Finset.mem_Ico, used_empty, touches_outside]
    simp only [Nat.pow_zero, Nat.mul_one]
    omega
  rw [same, Nat.card_Ico]

end Window

end AlignedBlock
