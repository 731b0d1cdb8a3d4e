import OShard.Buddy.Vacancy

namespace OShard.Buddy

open LinkedList BitArray AlignedBlock Function

/-- The free list of each size, read from its ring, holds the free blocks of that size. -/
structure FreeLists (h₀ h : Heap) (low high : Nat) (live : List (Nat × Nat)) (lists : Nat → List Nat) : Prop where
  ring : ∀ k ≤ h₀.maxSize, Ring h.links (h.free k) (lists k)
  nodup : ∀ k ≤ h₀.maxSize, (lists k).Nodup
  blocks : ∀ k < h₀.maxSize, ∀ a, a ∈ lists k ↔ FreeBlock h₀ low high live k a
  top : lists h₀.maxSize = []

def Encloses (h₀ : Heap) (k i r size : Nat) : Prop :=
  h₀.bdBase + i * blkSize k ≤ r ∧ r + size ≤ h₀.bdBase + (i + 1) * blkSize k

/-- What a request for `n` bytes that is granted at `r` does to the allocator. -/
structure Granted (h₀ h h' : Heap) (low high : Nat) (live : List (Nat × Nat)) (n r : Nat) : Prop where
  vacant : ∃ i ∈ vacant h₀ low high live (levelOf n), r = h₀.bdBase + i * blkSize (levelOf n)
  -- one block of the lowest list that has one goes, its right halves come
  lists : ∃ k lists rest, levelOf n ≤ k ∧ k < h₀.maxSize ∧ FreeLists h₀ h low high live lists ∧
    lists k = r :: rest ∧ (∀ j, levelOf n ≤ j → j < k → lists j = []) ∧
    FreeLists h₀ h' low high ((r, n) :: live) fun j =>
      if j = k then rest else if levelOf n ≤ j ∧ j < k then [r + blkSize j] else lists j
  split : ∀ k i, 0 < k → k ≤ h₀.maxSize → i < h₀.nblk k → h'.splitBit ⟨k, i⟩ ≠ h.splitBit ⟨k, i⟩ →
    Encloses h₀ k i r (blkSize (levelOf n))
  pair : ∀ k i, k ≤ h₀.maxSize → i < h₀.nblk k → h'.pairBit ⟨k, i⟩ ≠ h.pairBit ⟨k, i⟩ →
    Encloses h₀ (k + 1) (i / 2) r (blkSize (levelOf n))

theorem pushHalves_eq (p n : Nat) {k : Nat} (bound : n ≤ k) (lists : Nat → List Nat) :
    pushHalves p n k lists = fun j => if k - n ≤ j ∧ j < k then (p + blkSize j) :: lists j else lists j := by
  induction n generalizing k lists with
  | zero =>
    funext j
    rw [if_neg (by omega)]
    rfl
  | succ n ih =>
    rw [pushHalves, ih (by omega)]
    funext j
    by_cases last : j = k - 1
    · rw [last, if_neg (by omega), if_pos (by omega), update_self]
    · rw [update_of_ne last]
      by_cases between : k - (n + 1) ≤ j ∧ j < k
      · rw [if_pos between, if_pos (by omega)]
      · rw [if_neg between, if_neg (by omega)]

theorem within_encloses (h₀ : Heap) {b c : Block} (within : c.Within b) :
    Encloses h₀ b.level b.index (h₀.at c) (blkSize c.level) := by
  have first := (b.covers_iff _).mp (within.covers c.covers_first)
  have positive := Nat.two_pow_pos c.level
  have last : c.Covers ((c.index + 1) * 2 ^ c.level - 1) := by
    rw [c.covers_iff, Nat.succ_mul]
    omega
  have end' := (b.covers_iff _).mp (within.covers last)
  rw [Nat.succ_mul c.index] at end'
  rw [at_eq_unit]
  unfold Encloses blkSize leafSize
  rw [← Nat.mul_assoc, ← Nat.mul_assoc]
  omega

section Requests

variable {h₀ h : Heap} {m left right : Nat} {live : List (Nat × Nat)} {lists : Nat → List Nat}

theorem Sound.maxSize {reserved : Set Nat} (sound : Sound h₀ m reserved h live lists) : h₀.maxSize = m :=
  Heap.maxSize_of (sound.same.nsizes.symm.trans sound.state.geometry.sizes)

variable (sound : Sound h₀ m (outside left right) h live lists)

include sound

theorem Sound.freeLists :
    FreeLists h₀ h (h₀.bdBase + 16 * left) (h₀.bdBase + 16 * right) live lists := by
  have top := sound.maxSize
  constructor
  · rw [top]
    exact sound.state.rings.ring
  · rw [top]
    exact fun k upper => (List.nodup_cons.mp (sound.state.rings.ring k upper).nodup).2
  · rw [top]
    intro k lower a
    rw [sound.freeBlock_iff lower a]
    exact sound.state.listed k lower.le a
  · rw [top]
    exact sound.state.top_empty

theorem Sound.malloc_granted {n : Nat} (bound : n ≤ 2 ^ 63) :
    (vacant h₀ (h₀.bdBase + 16 * left) (h₀.bdBase + 16 * right) live (levelOf n) = ∅ ∧ bdMalloc h n = .ok (0, h)) ∨
    ∃ r h', r ≠ 0 ∧ bdMalloc h n = .ok (r, h') ∧
      Granted h₀ h h' (h₀.bdBase + 16 * left) (h₀.bdBase + 16 * right) live n r := by
  rw [sound.vacant_eq]
  rcases sound.malloc bound with
    ⟨empty, result⟩ | ⟨f, rest, h', level, inside, maximal, below, position, nonzero, result, around, next⟩
  · refine Or.inl ⟨Set.eq_empty_of_forall_notMem fun i free => ?_, result⟩
    obtain ⟨j, lower, upper, full⟩ := sound.state.listed_of_free free
    exact full (empty j lower upper)
  have kept : f.level - levelOf n ≤ f.level := Nat.sub_le _ _
  have place : h₀.at (firstPart f (f.level - levelOf n)) = h₀.at f := firstPart_at h₀ kept
  have size : (firstPart f (f.level - levelOf n)).level = levelOf n := Nat.sub_sub_self level
  have block : (⟨levelOf n, (firstPart f (f.level - levelOf n)).index⟩ : Block) = firstPart f (f.level - levelOf n) := by
    ext
    · exact size.symm
    · rfl
  have lower : f.level < m := sound.state.level_lt inside fun touches => maximal.1 touches.used
  have encloses : ∀ b : Block, (firstPart f (f.level - levelOf n)).Within b →
      Encloses h₀ b.level b.index (h₀.at f) (blkSize (levelOf n)) := by
    intro b within
    have bytes := within_encloses h₀ within
    rw [place, size] at bytes
    exact bytes
  have heap : ∀ k i, k ≤ h₀.maxSize → i < h₀.nblk k → InHeap m ⟨k, i⟩ := by
    intro k i upper index
    rw [sound.maxSize] at upper
    rw [sound.nblk] at index
    exact ⟨upper, index⟩
  refine Or.inr ⟨h₀.at f, h', nonzero, result, ?_, ?_, ?_, ?_⟩
  · rw [sound.vacant_eq]
    refine ⟨(firstPart f (f.level - levelOf n)).index, ?_, ?_⟩
    · rw [freeAt, Set.mem_ofPred_eq, block]
      exact ⟨firstPart_inside inside kept, fun used => maximal.1 (used.mono (firstPart_within kept))⟩
    · rw [← place, ← block]
      rfl
  · refine ⟨f.level, lists, rest, level, ?_, sound.freeLists, position, below, ?_⟩
    · rw [sound.maxSize]
      exact lower
    · have free := next.freeLists
      rw [pushHalves_eq _ _ kept, Nat.sub_sub_self level] at free
      have same : (fun j => if levelOf n ≤ j ∧ j < f.level then
          (h₀.at f + blkSize j) :: update lists f.level rest j else update lists f.level rest j) =
          fun j => if j = f.level then rest else if levelOf n ≤ j ∧ j < f.level then [h₀.at f + blkSize j] else lists j := by
        funext j
        by_cases here : j = f.level
        · rw [if_neg (by omega), if_pos here, here, update_self]
        · rw [if_neg here, update_of_ne here]
          by_cases between : levelOf n ≤ j ∧ j < f.level
          · rw [if_pos between, if_pos between, below j between.1 between.2]
          · rw [if_neg between, if_neg between]
      rw [same] at free
      exact free
  · intro k i positive upper index changed
    exact encloses ⟨k, i⟩ (around.split _ (heap k i upper index) positive changed)
  · intro k i upper index changed
    exact encloses (Block.parent ⟨k, i⟩) (around.pair _ (heap k i upper index) changed)

end Requests

/-- A request fails only if no block of its size is vacant, and leaves everything as it was then; a granted one
    takes one free block apart and touches nothing around it. -/
theorem malloc_complete {checked : Bool} {memory : Memory} {base endp : Nat} {h₀ h : Heap} {live : List (Nat × Nat)}
    (baseRange : base < 2 ^ 64) (endRange : endp < 2 ^ 64) (init : bdInit checked memory base endp = .ok h₀)
    (run : Run h₀ h live) {n : Nat} (bound : n ≤ 2 ^ 63) :
    ∃ r h', bdMalloc h n = .ok (r, h') ∧
      (r = 0 ↔ vacant h₀ (bdInitSizes checked memory base endp).1 (bdEnd h₀ endp) live (levelOf n) = ∅) ∧
      (r = 0 → h' = h) ∧
      (r ≠ 0 → Granted h₀ h h' (bdInitSizes checked memory base endp).1 (bdEnd h₀ endp) live n r) := by
  obtain ⟨m, left, right, lists₀, window, start⟩ := bdInit_window baseRange endRange init
  obtain ⟨lists, sound⟩ := run.sound window.placed window.room start
  rw [window.low, window.high]
  rcases sound.malloc_granted bound with ⟨empty, result⟩ | ⟨r, h', nonzero, result, granted⟩
  · exact ⟨0, h, result, iff_of_true rfl empty, fun _ => rfl, fun nonzero => absurd rfl nonzero⟩
  · refine ⟨r, h', result, iff_of_false nonzero fun empty => ?_, fun zero => absurd zero nonzero, fun _ => granted⟩
    obtain ⟨i, free, -⟩ := granted.vacant
    rw [empty] at free
    exact free

theorem malloc_complete_700 :
    ∃ h₀ h h', bdInit false blankMemory 4096 4796 = .ok h₀ ∧ bdMalloc h₀ 64 = .ok (4608, h) ∧
      Granted h₀ h₀ h (bdInitSizes false blankMemory 4096 4796).1 (bdEnd h₀ 4796) [] 64 4608 ∧
      bdMalloc h 1024 = .ok (0, h') ∧ h' = h ∧
      vacant h₀ (bdInitSizes false blankMemory 4096 4796).1 (bdEnd h₀ 4796) [(4608, 64)] (levelOf 1024) = ∅ := by
  obtain ⟨h₀, init, rest⟩ := returns_ok (show returns (bdInit false blankMemory 4096 4796)
    (fun h₀ => returns (bdMalloc h₀ 64) fun first => first.1 == 4608 && returns (bdMalloc first.2 1024) fun second =>
      second.1 == 0) = true by decide +kernel)
  obtain ⟨⟨r, h⟩, first, value⟩ := returns_ok rest
  obtain ⟨equal, more⟩ := Bool.and_eq_true_iff.mp value
  obtain ⟨⟨r', h'⟩, second, zero⟩ := returns_ok more
  have address : r = 4608 := eq_of_beq equal
  have null : r' = 0 := eq_of_beq zero
  subst address null
  have run : Run h₀ h [(4608, 64)] := Run.malloc Run.init (by decide) first
  obtain ⟨r, g, result, -, -, granted⟩ := malloc_complete (by decide) (by decide) init Run.init (show 64 ≤ 2 ^ 63 by decide)
  cases first.symm.trans result
  obtain ⟨r, g, result', empty, same, -⟩ := malloc_complete (by decide) (by decide) init run (show 1024 ≤ 2 ^ 63 by decide)
  cases second.symm.trans result'
  exact ⟨h₀, h, h', init, first, granted (by decide), second, same rfl, empty.mp rfl⟩

end OShard.Buddy
