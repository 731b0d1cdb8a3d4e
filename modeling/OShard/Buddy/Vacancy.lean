import OShard.Buddy.Canonical

namespace OShard.Buddy

open LinkedList BitArray AlignedBlock

def vacant (h₀ : Heap) (low high : Nat) (live : List (Nat × Nat)) (k : Nat) : Set Nat :=
  {i | (i + 1) * blkSize k ≤ h₀.heapSize ∧
    ∀ x, h₀.bdBase + i * blkSize k ≤ x → x < h₀.bdBase + i * blkSize k + blkSize k → ¬ Taken h₀ low high live x}

def freeAt (m : Nat) (reserved : Set Nat) (live : Set Block) (k : Nat) : Set Nat :=
  {i | InHeap m ⟨k, i⟩ ∧ ¬ Used reserved live ⟨k, i⟩}

section Vacancies

variable {h₀ h : Heap} {m : Nat} {live : List (Nat × Nat)} {lists : Nat → List Nat}

theorem inHeap_iff (m k i : Nat) : InHeap m ⟨k, i⟩ ↔ (i + 1) * blkSize k ≤ blkSize m := by
  unfold blkSize leafSize
  rw [← Nat.mul_assoc, Nat.mul_le_mul_right_iff (by decide)]
  constructor
  · exact InHeap.fits
  · intro fits
    have positive := Nat.two_pow_pos k
    have level : k ≤ m := by
      by_contra above
      have larger : 2 ^ m < 2 ^ k := Nat.pow_lt_pow_right (by decide) (by omega)
      rw [Nat.succ_mul] at fits
      omega
    refine ⟨level, ?_⟩
    dsimp only
    rw [← Nat.sub_add_cancel level, Nat.pow_add] at fits
    exact Nat.le_of_mul_le_mul_right fits positive

theorem Sound.vacant_eq {left right : Nat} (sound : Sound h₀ m (outside left right) h live lists) (k : Nat) :
    vacant h₀ (h₀.bdBase + 16 * left) (h₀.bdBase + 16 * right) live k =
      freeAt m (outside left right) (owned h₀ live) k := by
  ext i
  unfold vacant freeAt
  rw [Set.mem_ofPred_eq, Set.mem_ofPred_eq, sound.heapSize, ← inHeap_iff]
  apply and_congr_right
  intro inside
  rw [← sound.used_iff inside]
  constructor
  · intro free byte
    obtain ⟨x, lower, upper, taken⟩ := byte
    exact free x lower upper taken
  · intro free x lower upper taken
    exact free ⟨x, lower, upper, taken⟩

theorem Consistent.listed_of_free {reserved : Set Nat} {blocks : Set Block} (state : Consistent h m reserved blocks lists)
    {k i : Nat} (free : i ∈ freeAt m reserved blocks k) : ∃ j, k ≤ j ∧ j ≤ m ∧ lists j ≠ [] := by
  obtain ⟨inside, unused⟩ := free
  have covers := (⟨k, i⟩ : Block).covers_first
  have fits := inside.fits
  have positive := Nat.two_pow_pos k
  rw [Nat.succ_mul] at fits
  dsimp only at fits
  have unit : ¬ Used reserved blocks ⟨0, i * 2 ^ k⟩ := by
    intro used
    have first : (⟨0, i * 2 ^ k⟩ : Block).Covers (i * 2 ^ k) := Nat.div_one _
    exact unused (used.mono (Block.within_of_overlap first covers (Nat.zero_le k)))
  obtain ⟨j, lower, maximal⟩ := exists_maximal state.used_root (by omega) unit
  have covers' : (⟨j, i * 2 ^ k / 2 ^ j⟩ : Block).Covers (i * 2 ^ k) := rfl
  have order : k ≤ j := by
    by_contra below
    have parent : (⟨j, i * 2 ^ k / 2 ^ j⟩ : Block).parent.Covers (i * 2 ^ k) :=
      (Block.within_parent _).covers covers'
    have larger : (⟨j, i * 2 ^ k / 2 ^ j⟩ : Block).parent.level ≤ k := by
      rw [Block.parent_level]
      dsimp only
      omega
    exact unused (maximal.2.mono (Block.within_of_overlap parent covers larger))
  refine ⟨j, order, lower.le, ?_⟩
  have bound : InHeap m ⟨j, i * 2 ^ k / 2 ^ j⟩ := by
    refine ⟨lower.le, ?_⟩
    rw [Nat.div_lt_iff_lt_mul (Nat.two_pow_pos j), ← Nat.pow_add, Nat.sub_add_cancel lower.le]
    omega
  have member := (state.listed j lower.le (h.at ⟨j, i * 2 ^ k / 2 ^ j⟩)).mpr ⟨_, rfl, bound, maximal, rfl⟩
  exact List.ne_nil_of_mem member

theorem Sound.malloc_vacant {reserved : Set Nat} (sound : Sound h₀ m reserved h live lists) {n : Nat} (bound : n ≤ 2 ^ 63) :
    (freeAt m reserved (owned h₀ live) (levelOf n) = ∅ ∧ bdMalloc h n = .ok (0, h)) ∨
    ∃ r h' lists', r ≠ 0 ∧ bdMalloc h n = .ok (r, h') ∧ Sound h₀ m reserved h' ((r, n) :: live) lists' ∧
      ∃ i ∈ freeAt m reserved (owned h₀ live) (levelOf n),
        freeAt m reserved (owned h₀ ((r, n) :: live)) (levelOf n) =
          freeAt m reserved (owned h₀ live) (levelOf n) \ {i} := by
  rcases sound.malloc bound with ⟨empty, result⟩ | ⟨f, rest, h', level, inside, maximal, -, -, nonzero, result, -, next⟩
  · refine Or.inl ⟨Set.eq_empty_of_forall_notMem fun i free => ?_, result⟩
    obtain ⟨j, lower, upper, full⟩ := sound.state.listed_of_free free
    exact full (empty j lower upper)
  refine Or.inr ⟨h₀.at f, h', _, nonzero, result, next, ?_⟩
  have kept : f.level - levelOf n ≤ f.level := Nat.sub_le _ _
  have block : ownedBlock h₀ (h₀.at f, n) = firstPart f (f.level - levelOf n) := by
    rw [← firstPart_at h₀ kept]
    exact ownedBlock_at h₀ (Nat.sub_sub_self level)
  have size : (firstPart f (f.level - levelOf n)).level = levelOf n := Nat.sub_sub_self level
  have member : ownedBlock h₀ (h₀.at f, n) ∈ owned h₀ ((h₀.at f, n) :: live) := ⟨_, List.mem_cons_self, rfl⟩
  have within : InHeap m (firstPart f (f.level - levelOf n)) := by
    rw [← block]
    exact next.state.bounded _ member
  have unused : ¬ Used reserved (owned h₀ live) (firstPart f (f.level - levelOf n)) :=
    fun used => maximal.1 (used.mono (firstPart_within kept))
  generalize firstPart f (f.level - levelOf n) = c at block size within unused
  obtain ⟨k, i⟩ := c
  dsimp only at size
  subst size
  refine ⟨i, ⟨within, unused⟩, ?_⟩
  ext j
  unfold freeAt
  rw [owned_cons, block, Set.mem_sdiff, Set.mem_singleton_iff, Set.mem_ofPred_eq, Set.mem_ofPred_eq, used_insert]
  constructor
  · rintro ⟨inside', free⟩
    refine ⟨⟨inside', fun used => free (Or.inl used)⟩, ?_⟩
    rintro rfl
    exact free (Or.inr ⟨_, Block.covers_first _, Block.covers_first _⟩)
  · rintro ⟨⟨inside', free⟩, other⟩
    refine ⟨inside', ?_⟩
    rintro (used | ⟨u, first, second⟩)
    · exact free used
    · have same := Block.eq_of_overlap first second rfl
      exact other (congrArg Block.index same)

end Vacancies

end OShard.Buddy
