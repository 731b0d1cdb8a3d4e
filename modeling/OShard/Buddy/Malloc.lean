import OShard.Buddy.Invariant

namespace OShard.Buddy

open LinkedList BitArray AlignedBlock

def pushHalves (p : Nat) : Nat → Nat → (Nat → List Nat) → Nat → List Nat
  | 0, _, lists => lists
  | n + 1, k, lists =>
    pushHalves p n (k - 1) (Function.update lists (k - 1) ((p + blkSize (k - 1)) :: lists (k - 1)))

def firstPart (b : Block) (n : Nat) : Block := ⟨b.level - n, b.index * 2 ^ n⟩

variable {b : Block} {n : Nat}

theorem firstPart_zero (b : Block) : firstPart b 0 = b := by
  unfold firstPart
  ext <;> simp

theorem firstPart_succ (b : Block) (n : Nat) : firstPart (firstPart b 1) n = firstPart b (n + 1) := by
  unfold firstPart
  ext
  · dsimp only
    omega
  · dsimp only
    rw [Nat.pow_one, Nat.pow_succ', Nat.mul_assoc]

theorem firstPart_parent (positive : 0 < b.level) : (firstPart b 1).parent = b := by
  unfold firstPart Block.parent
  ext
  · dsimp only
    omega
  · dsimp only
    omega

theorem firstPart_within (bound : n ≤ b.level) : (firstPart b n).Within b := by
  unfold firstPart
  refine ⟨Nat.sub_le _ _, ?_⟩
  dsimp only
  rw [Nat.sub_sub_self bound, Nat.mul_div_cancel _ (Nat.two_pow_pos n)]

theorem firstPart_at (h : Heap) (bound : n ≤ b.level) : h.at (firstPart b n) = h.at b := by
  rw [at_eq_unit, at_eq_unit]
  unfold firstPart
  dsimp only
  rw [Nat.mul_assoc b.index, ← Nat.pow_add, Nat.add_sub_cancel' bound]

theorem firstPart_inside {m : Nat} (inside : InHeap m b) (bound : n ≤ b.level) : InHeap m (firstPart b n) := by
  unfold firstPart
  refine ⟨Nat.le_trans (Nat.sub_le _ _) inside.1, ?_⟩
  have split : m - (b.level - n) = (m - b.level) + n := by
    have := inside.1
    omega
  dsimp only
  rw [split, Nat.pow_add]
  exact Nat.mul_lt_mul_of_pos_right inside.2 (Nat.two_pow_pos n)

section Calls

variable {h : Heap} {m : Nat} {reserved : Set Nat} {live : Set Block} {lists : Nat → List Nat}

theorem findLevel_eq (rings : Rings h.links h.free lists (· ≤ m)) (n k : Nat) (bound : k + n ≤ m + 1) :
    (findLevel h n k = k + n ∧ ∀ j, k ≤ j → j < k + n → lists j = []) ∨
      (k ≤ findLevel h n k ∧ findLevel h n k < k + n ∧ lists (findLevel h n k) ≠ [] ∧
        ∀ j, k ≤ j → j < findLevel h n k → lists j = []) := by
  induction n generalizing k with
  | zero => exact .inl ⟨rfl, fun j lower upper => absurd lower (by omega)⟩
  | succ n ih =>
    have empty := lstEmpty_iff rings (i := k) (by omega)
    by_cases none : lists k = []
    · have here := empty.mpr none
      have step : findLevel h (n + 1) k = findLevel h n (k + 1) := by simp [findLevel, here]
      have below : ∀ j, k ≤ j → ¬ k + 1 ≤ j → lists j = [] := by
        intro j lower upper
        have same : j = k := by omega
        rw [same]
        exact none
      rw [step]
      rcases ih (k + 1) (by omega) with ⟨result, all⟩ | ⟨lower, upper, found, all⟩
      · refine .inl ⟨by omega, fun j first second => ?_⟩
        by_cases next : k + 1 ≤ j
        · exact all j next (by omega)
        · exact below j first next
      · refine .inr ⟨by omega, by omega, found, fun j first second => ?_⟩
        by_cases next : k + 1 ≤ j
        · exact all j next second
        · exact below j first next
    · have here : lstEmpty h.links (h.free k) = false := Bool.eq_false_of_not_eq_true fun set => none (empty.mp set)
      have step : findLevel h (n + 1) k = k := by simp [findLevel, here]
      rw [step]
      exact .inr ⟨Nat.le_refl _, by omega, none, fun j first second => absurd first (by omega)⟩

theorem splitLoop_step (state : Consistent h m reserved live lists) {g : Block} (inside : InHeap m g)
    (positive : 0 < g.level) (n : Nat) : let c := firstPart g 1
    splitLoop (h.at g) (n + 1) g.level h =
      splitLoop (h.at g) n (g.level - 1) (((h.splitSet g).inverted c).push c.level (h.at c.buddy)) ∧
      h.at c.buddy = h.at g + blkSize (g.level - 1) := by
  intro c
  have small := state.geometry.small
  have cInside : InHeap m c := firstPart_inside inside positive
  have cAt : h.at c = h.at g := firstPart_at h positive
  have index : blkIndex h g.level (h.at g) = g.index := blkIndex_at small inside
  have set := bitSet_split state.geometry inside positive
  have geometrySet : Geometry (h.splitSet g) m reserved := state.geometry.transfer rfl rfl
  have half : blkIndex (h.splitSet g) (g.level - 1) (h.at g) = c.index := by
    have located : blkIndex (h.splitSet g) c.level ((h.splitSet g).at c) = c.index := blkIndex_at small cInside
    rw [← cAt]
    exact located
  have inverted : bitInvert (h.splitSet g) ((h.splitSet g).bdSizes (g.level - 1)).alloc (c.index / 2 : Nat) =
      .ok ((h.splitSet g).inverted c) := bitInvert_pair geometrySet cInside
  have buddyAt : h.at c.buddy = h.at g + blkSize (g.level - 1) := by
    rw [← cAt]
    unfold Heap.at Block.buddy
    have even : c.index % 2 = 0 := by simp [c, firstPart]
    simp only [even, ↓reduceIte, Nat.add_mul, Nat.one_mul, Nat.add_assoc]
    rfl
  refine ⟨?_, buddyAt⟩
  rw [splitLoop, buddyAt]
  simp only [index, set, Bind.bind, Except.bind, half, half_eq, inverted]
  rfl

theorem splitLoop_spec (n : Nat) {g : Block} (state : Consistent h m reserved (insert g live) lists)
    (outside : g ∉ live) (apart : ∀ u, g.Covers u → ∀ l ∈ live, ¬ l.Covers u) (bound : n ≤ g.level) :
    ∃ h', splitLoop (h.at g) n g.level h = .ok h' ∧ h.Same h' ∧ h.Around h' m (firstPart g n) ∧
      Consistent h' m reserved (insert (firstPart g n) live) (pushHalves (h.at g) n g.level lists) := by
  induction n generalizing h g lists with
  | zero =>
    refine ⟨h, rfl, Heap.Same.refl h, Heap.Around.refl, ?_⟩
    rw [firstPart_zero]
    exact state
  | succ n ih =>
    have positive : 0 < g.level := by omega
    have inside := state.bounded g (Set.mem_insert _ _)
    obtain ⟨step, buddyAt⟩ := splitLoop_step state inside positive n
    have parent : (firstPart g 1).parent = g := firstPart_parent positive
    have cInside : InHeap m (firstPart g 1) := firstPart_inside inside positive
    have lower : (firstPart g 1).level < m := by
      have := inside.1
      simp only [firstPart]
      omega
    have within : (firstPart g 1).Within g := firstPart_within positive
    have cut := state
    rw [← parent] at cut
    have halved := cut.halve (by rw [parent]; exact outside) cInside lower
    rw [parent, buddyAt] at halved
    rw [buddyAt] at step
    have apartHalf : ∀ u, (firstPart g 1).Covers u → ∀ l ∈ live, ¬ l.Covers u :=
      fun u covers => apart u (within.covers covers)
    have outsideHalf : firstPart g 1 ∉ live := fun member =>
      apart _ (within.covers (firstPart g 1).covers_first) _ member (firstPart g 1).covers_first
    obtain ⟨h', result, same, around, final⟩ := ih halved outsideHalf apartHalf (by simp only [firstPart]; omega)
    have located : (((h.splitSet g).inverted (firstPart g 1)).push (firstPart g 1).level
        (h.at g + blkSize (g.level - 1))).at (firstPart g 1) = h.at g := firstPart_at h positive
    rw [located] at result final
    rw [firstPart_succ] at around final
    have geometrySet : Geometry (h.splitSet g) m reserved := state.geometry.transfer rfl rfl
    have cutBits : h.Around ((h.splitSet g).inverted (firstPart g 1)) m (firstPart g 1) :=
      (splitSet_around state.geometry inside positive).trans within (inverted_around geometrySet cInside)
    have pushBits : h.Around (((h.splitSet g).inverted (firstPart g 1)).push (firstPart g 1).level
        (h.at g + blkSize (g.level - 1))) m (firstPart g 1) := ⟨cutBits.pair, cutBits.split⟩
    have deeper : (firstPart g (n + 1)).Within (firstPart g 1) := by
      rw [← firstPart_succ]
      exact firstPart_within (by simp only [firstPart]; omega)
    have kept : h.Same (((h.splitSet g).inverted (firstPart g 1)).push (firstPart g 1).level
        (h.at g + blkSize (g.level - 1))) := ⟨rfl, rfl, rfl⟩
    exact ⟨h', step.trans result, kept.trans same, pushBits.trans deeper around, final⟩

theorem bdMalloc_spec (state : Consistent h m reserved live lists) {nbytes fk : Nat} (level : firstk nbytes = .ok fk) :
    ((∀ j, fk ≤ j → j ≤ m → lists j = []) ∧ bdMalloc h nbytes = .ok (0, h)) ∨
    ∃ f : Block, ∃ rest h', fk ≤ f.level ∧ InHeap m f ∧ Maximal reserved live f ∧
      (∀ j, fk ≤ j → j < f.level → lists j = []) ∧ lists f.level = h.at f :: rest ∧
      bdMalloc h nbytes = .ok (h.at f, h') ∧ h.Same h' ∧ h.Around h' m (firstPart f (f.level - fk)) ∧
      Consistent h' m reserved (insert (firstPart f (f.level - fk)) live)
        (pushHalves (h.at f) (f.level - fk) f.level (Function.update lists f.level rest)) := by
  have count := state.geometry.sizes
  by_cases beyond : m + 1 ≤ fk
  · left
    have search : findLevel h (h.nsizes - fk) fk = fk := by
      have zero : h.nsizes - fk = 0 := by omega
      rw [zero]
      rfl
    refine ⟨fun j lower upper => absurd lower (by omega), ?_⟩
    unfold bdMalloc
    simp only [level, Bind.bind, Except.bind, search, Pure.pure, Except.pure]
    rw [if_pos (by omega)]
  rcases findLevel_eq state.rings (h.nsizes - fk) fk (by omega) with ⟨search, none⟩ | ⟨lower, upper, found, below⟩
  · left
    refine ⟨fun j first second => none j first (by omega), ?_⟩
    unfold bdMalloc
    simp only [level, Bind.bind, Except.bind, search, Pure.pure, Except.pure]
    rw [if_pos (by omega)]
  right
  obtain ⟨a, rest, position⟩ := List.exists_cons_of_ne_nil found
  have bound : findLevel h (h.nsizes - fk) fk ≤ m := by omega
  obtain ⟨f, links', flevel, inside, maximal, same, popped, taken⟩ := state.take bound position
  have small := state.geometry.small
  have kept : h.Same (({ h with links := links' } : Heap).inverted f) := ⟨rfl, rfl, rfl⟩
  have apart : ∀ u, f.Covers u → ∀ l ∈ live, ¬ l.Covers u := fun u covers l member other =>
    maximal.1 ⟨u, covers, .inr ⟨l, member, other⟩⟩
  have outside : f ∉ live := fun member => apart _ f.covers_first f member f.covers_first
  obtain ⟨h', split, same', around, final⟩ := splitLoop_spec (f.level - fk) taken outside apart (Nat.sub_le _ _)
  have index : blkIndex ({ h with links := links' } : Heap) f.level (h.at f) = f.index :=
    blkIndex_at small inside
  have geometry : Geometry ({ h with links := links' } : Heap) m reserved := state.geometry.transfer rfl rfl
  have inverted : bitInvert ({ h with links := links' } : Heap) (h.bdSizes f.level).alloc (f.index / 2 : Nat) =
      .ok (({ h with links := links' } : Heap).inverted f) := bitInvert_pair geometry inside
  rw [kept.at_eq f] at split final
  rw [← flevel] at position final popped lower below
  have taken' : h.Around (({ h with links := links' } : Heap).inverted f) m f := by
    have bits := inverted_around geometry inside
    exact ⟨bits.pair, bits.split⟩
  refine ⟨f, rest, h', lower, inside, maximal, below, by rw [position, same], ?_, kept.trans same',
    taken'.trans (firstPart_within (Nat.sub_le _ _)) around, final⟩
  unfold bdMalloc
  simp only [level, Bind.bind, Except.bind, Pure.pure, Except.pure]
  rw [← flevel, if_neg (by omega), popped, same]
  simp only [index, half_eq, inverted, split]

end Calls

section FirstLevel

theorem firstkLoop_spec (n : Nat) (bound : n ≤ 2 ^ 63) (fuel k : Nat) (budget : k + fuel = 61) (upper : k ≤ 59)
    (below : ∀ j < k, blkSize j < n) :
    ∃ r ≤ 59, firstkLoop fuel n k (blkSize k) = some r ∧ n ≤ blkSize r ∧ ∀ j < r, blkSize j < n := by
  induction fuel generalizing k with
  | zero => omega
  | succ fuel ih =>
    rw [firstkLoop]
    by_cases more : blkSize k < n
    · rw [if_pos more]
      have next : k + 1 ≤ 59 := by
        by_contra top
        have same : k = 59 := by omega
        rw [same] at more
        unfold blkSize leafSize at more
        omega
      have double : blkSize k * 2 % 2 ^ 64 = blkSize (k + 1) := by
        have range : 2 ^ (k + 1) ≤ 2 ^ 59 := Nat.pow_le_pow_right (by decide) next
        rw [blkSize_succ, Nat.mul_comm, Nat.mod_eq_of_lt]
        unfold blkSize leafSize
        rw [Nat.pow_succ] at range
        omega
      rw [double]
      refine ih (k + 1) (by omega) next ?_
      intro j lower
      rcases Nat.lt_succ_iff_lt_or_eq.mp lower with earlier | same
      · exact below j earlier
      · rw [same]; exact more
    · rw [if_neg more]
      exact ⟨k, upper, rfl, Nat.le_of_not_lt more, below⟩

theorem firstk_spec {n : Nat} (bound : n ≤ 2 ^ 63) :
    ∃ k ≤ 59, firstk n = .ok k ∧ n ≤ blkSize k ∧ ∀ j < k, blkSize j < n := by
  obtain ⟨k, upper, result, fits, below⟩ := firstkLoop_spec n bound 61 0 rfl (by omega) (by omega)
  refine ⟨k, upper, ?_, fits, below⟩
  unfold firstk
  have start : blkSize 0 = leafSize := by decide
  rw [← start, result]

end FirstLevel

end OShard.Buddy
