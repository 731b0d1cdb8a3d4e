import OShard.Buddy.Safety

namespace OShard.Buddy

open LinkedList BitArray AlignedBlock

/-- A byte of the heap that is not free: below `low` lie the data structures, from `high` on the
    unavailable tail. -/
def Taken (h₀ : Heap) (low high : Nat) (live : List (Nat × Nat)) (x : Nat) : Prop :=
  (h₀.bdBase ≤ x ∧ x < low) ∨ (high ≤ x ∧ x < h₀.bdBase + h₀.heapSize) ∨ Held live x

/-- A block of size `k` at `a` without a taken byte, cut out of one that has some. -/
def FreeBlock (h₀ : Heap) (low high : Nat) (live : List (Nat × Nat)) (k a : Nat) : Prop :=
  ∃ i < h₀.nblk k, a = h₀.bdBase + i * blkSize k ∧
    (∀ x, a ≤ x → x < a + blkSize k → ¬ Taken h₀ low high live x) ∧
    ∃ x, h₀.bdBase + i / 2 * blkSize (k + 1) ≤ x ∧ x < h₀.bdBase + i / 2 * blkSize (k + 1) + blkSize (k + 1) ∧
      Taken h₀ low high live x

section Bytes

variable {h₀ h : Heap} {m left right : Nat} {live : List (Nat × Nat)} {lists : Nat → List Nat}
  (sound : Sound h₀ m (outside left right) h live lists)

include sound

theorem Sound.nblk (k : Nat) : h₀.nblk k = 2 ^ (m - k) := by
  unfold Heap.nblk Heap.maxSize
  rw [← sound.same.nsizes, sound.state.geometry.sizes]
  rfl

theorem Sound.heapSize : h₀.heapSize = blkSize m :=
  Heap.heapSize_of (sound.same.nsizes.symm.trans sound.state.geometry.sizes)

theorem Sound.used_iff {b : Block} (inside : InHeap m b) :
    (∃ x, h₀.at b ≤ x ∧ x < h₀.at b + blkSize b.level ∧
      Taken h₀ (h₀.bdBase + 16 * left) (h₀.bdBase + 16 * right) live x) ↔
      Used (outside left right) (owned h₀ live) b := by
  have size : blkSize b.level = 2 ^ b.level * 16 := rfl
  rw [at_eq_unit, size]
  constructor
  · intro byte
    obtain ⟨x, lower, upper, taken⟩ := byte
    refine ⟨(x - h₀.bdBase) / 16, (b.covers_iff _).mpr ⟨by omega, by rw [Nat.succ_mul]; omega⟩, ?_⟩
    rcases taken with ⟨_, low⟩ | ⟨high, _⟩ | held
    · exact .inl (.inl (by omega))
    · exact .inl (.inr (by omega))
    · obtain ⟨l, member, u, covers, first, last⟩ := sound.covered held
      have unit : (x - h₀.bdBase) / 16 = u := by omega
      exact .inr ⟨l, member, unit ▸ covers⟩
  · intro used
    obtain ⟨u, covers, cause⟩ := used
    obtain ⟨first, last⟩ := (b.covers_iff u).mp covers
    rw [Nat.succ_mul] at last
    refine ⟨h₀.bdBase + 16 * u, by omega, by omega, ?_⟩
    rcases cause with (low | high) | ⟨l, member, covers'⟩
    · exact .inl ⟨by omega, by omega⟩
    · have bound := inside.fits
      rw [Nat.succ_mul] at bound
      refine .inr (.inl ⟨by omega, ?_⟩)
      rw [sound.heapSize]
      unfold blkSize leafSize
      omega
    · obtain ⟨e, owner, same⟩ := member
      have place := sound.place e owner
      rw [same, at_eq_unit] at place
      obtain ⟨first', last'⟩ := (l.covers_iff u).mp covers'
      rw [Nat.succ_mul] at last'
      have level : levelOf e.2 = l.level := congrArg Block.level same
      refine .inr (.inr ⟨e, owner, by omega, ?_⟩)
      rw [level]
      unfold blkSize leafSize
      omega

theorem Sound.freeBlock_iff {k : Nat} (lower : k < m) (a : Nat) :
    FreeBlock h₀ (h₀.bdBase + 16 * left) (h₀.bdBase + 16 * right) live k a ↔
      ∃ b : Block, b.level = k ∧ InHeap m b ∧ Maximal (outside left right) (owned h₀ live) b ∧ a = h.at b := by
  constructor
  · intro block
    obtain ⟨i, bound, place, free, taken⟩ := block
    rw [sound.nblk] at bound
    have inside : InHeap m ⟨k, i⟩ := ⟨lower.le, bound⟩
    refine ⟨⟨k, i⟩, rfl, inside, ⟨fun used => ?_, (sound.used_iff (parent_inside inside lower)).mp taken⟩, ?_⟩
    · obtain ⟨x, first, last, taken'⟩ := (sound.used_iff inside).mpr used
      exact free x (place ▸ first) (place ▸ last) taken'
    · rw [sound.same.at_eq]
      exact place
  · intro block
    obtain ⟨b, level, inside, maximal, place⟩ := block
    subst level
    rw [sound.same.at_eq] at place
    refine ⟨b.index, ?_, place, fun x first last taken => ?_, ?_⟩
    · rw [sound.nblk]
      exact inside.2
    · exact maximal.1 ((sound.used_iff inside).mp ⟨x, place ▸ first, place ▸ last, taken⟩)
    · exact (sound.used_iff (parent_inside inside lower)).mpr maximal.2

theorem Sound.total (upper : right ≤ 2 ^ m) :
    ∑ k ∈ Finset.range m, (lists k).length * blkSize k + (live.map fun e => blkSize (levelOf e.2)).sum =
      16 * (right - left) := by
  classical
  have state := sound.state
  have owners : owned h₀ live = {b | b ∈ live.map (ownedBlock h₀)} := by
    ext b
    simp [owned]
  have free := total_listed state.used_root lists
    (fun k lower => (List.nodup_cons.mp (state.rings.ring k lower.le).nodup).2)
    (fun k lower => state.listed k lower.le)
  have fits : ∀ b ∈ live.map (ownedBlock h₀), (b.index + 1) * 2 ^ b.level ≤ 2 ^ m := by
    intro b member
    obtain ⟨e, owner, same⟩ := List.mem_map.mp member
    exact (state.bounded b ⟨e, owner, same⟩).fits
  have rest := card_free_list m (live.map (ownedBlock h₀)) sound.nodup (owners ▸ state.separated) fits
  rw [card_window upper, ← owners] at rest
  have sizes : (live.map fun e => blkSize (levelOf e.2)).sum =
      16 * ((live.map (ownedBlock h₀)).map fun b => 2 ^ b.level).sum := by
    rw [List.map_map, ← List.sum_map_mul_left]
    congr 1
    refine List.map_congr_left fun e _ => ?_
    unfold blkSize leafSize ownedBlock
    exact Nat.mul_comm _ _
  rw [free, sizes]
  omega

end Bytes

theorem owned_congr (h₀ : Heap) {live live' : List (Nat × Nat)}
    (same : ∀ p k, (∃ n, (p, n) ∈ live ∧ levelOf n = k) ↔ ∃ n, (p, n) ∈ live' ∧ levelOf n = k) :
    owned h₀ live = owned h₀ live' := by
  have half : ∀ l l' : List (Nat × Nat),
      (∀ p k, (∃ n, (p, n) ∈ l ∧ levelOf n = k) → ∃ n, (p, n) ∈ l' ∧ levelOf n = k) → owned h₀ l ⊆ owned h₀ l' := by
    intro l l' step b member
    obtain ⟨e, owner, block⟩ := member
    obtain ⟨n, owner', level⟩ := step e.1 (levelOf e.2) ⟨e.2, owner, rfl⟩
    refine ⟨(e.1, n), owner', ?_⟩
    rw [← block]
    unfold ownedBlock
    rw [level]
  exact Set.Subset.antisymm (half live live' fun p k => (same p k).mp) (half live' live fun p k => (same p k).mpr)

theorem Sound.lists_congr {h₀ h h' : Heap} {m : Nat} {reserved : Set Nat} {live live' : List (Nat × Nat)}
    {lists lists' : Nat → List Nat} (sound : Sound h₀ m reserved h live lists)
    (sound' : Sound h₀ m reserved h' live' lists')
    (same : ∀ p k, (∃ n, (p, n) ∈ live ∧ levelOf n = k) ↔ ∃ n, (p, n) ∈ live' ∧ levelOf n = k) {k : Nat} (upper : k ≤ m)
    {xs : List Nat} (ring : Ring h'.links (h'.free k) xs) (a : Nat) : a ∈ xs ↔ a ∈ lists k := by
  have equal : xs = lists' k := ring.unique (sound'.state.rings.ring k upper)
  rw [equal, sound.state.listed k upper, sound'.state.listed k upper, owned_congr h₀ same]
  simp only [sound.same.at_eq, sound'.same.at_eq]

/-- After any calls in any order the free lists are determined by the live blocks alone: they hold each
    maximal free block once, so that nothing is lost and everything is merged. -/
theorem free_lists_canonical {checked : Bool} {memory : Memory} {base endp : Nat} {h₀ h : Heap}
    {live : List (Nat × Nat)} (baseRange : base < 2 ^ 64) (endRange : endp < 2 ^ 64)
    (init : bdInit checked memory base endp = .ok h₀) (run : Run h₀ h live) :
    ∃ lists : Nat → List Nat,
      (∀ k ≤ h₀.maxSize, Ring h.links (h.free k) (lists k)) ∧
      (∀ k < h₀.maxSize, (lists k).Nodup ∧ ∀ a, a ∈ lists k ↔
        FreeBlock h₀ (bdInitSizes checked memory base endp).1 (bdEnd h₀ endp) live k a) ∧
      lists h₀.maxSize = [] ∧
      ∑ k ∈ Finset.range h₀.maxSize, (lists k).length * blkSize k + (live.map fun e => blkSize (levelOf e.2)).sum +
        (((bdInitSizes checked memory base endp).1 - h₀.bdBase) + (h₀.bdBase + h₀.heapSize - bdEnd h₀ endp)) =
          h₀.heapSize ∧
      (∀ h' live', Run h₀ h' live' →
        (∀ p k, (∃ n, (p, n) ∈ live ∧ levelOf n = k) ↔ ∃ n, (p, n) ∈ live' ∧ levelOf n = k) →
        ∀ k ≤ h₀.maxSize, ∀ xs, Ring h'.links (h'.free k) xs → ∀ a, a ∈ xs ↔ a ∈ lists k) ∧
      (live = [] → ∀ k ≤ h₀.maxSize, ∀ xs, Ring h₀.links (h₀.free k) xs → ∀ a, a ∈ xs ↔ a ∈ lists k) := by
  obtain ⟨m, left, right, lists₀, window, start⟩ := bdInit_window baseRange endRange init
  obtain ⟨lists, sound⟩ := run.sound window.placed window.room start
  have top : h₀.maxSize = m := Heap.maxSize_of window.placed.sizes
  rw [window.low, window.high, top]
  refine ⟨lists, sound.state.rings.ring, ?_, sound.state.top_empty, ?_, ?_, ?_⟩
  · intro k lower
    refine ⟨(List.nodup_cons.mp (sound.state.rings.ring k lower.le).nodup).2, fun a => ?_⟩
    rw [sound.freeBlock_iff lower a]
    exact sound.state.listed k lower.le a
  · have total := sound.total window.fits
    have order := window.order
    have fits := window.fits
    rw [sound.heapSize]
    have size : blkSize m = 2 ^ m * 16 := rfl
    omega
  · intro h' live' run' same k upper xs ring a
    obtain ⟨lists', sound'⟩ := run'.sound window.placed window.room start
    exact sound.lists_congr sound' same upper ring a
  · intro empty k upper xs ring a
    obtain ⟨lists', sound'⟩ := (Run.init : Run h₀ h₀ []).sound window.placed window.room start
    refine sound.lists_congr sound' (fun p k => ?_) upper ring a
    rw [empty]

/-- A request of 64 bytes and its return, on a heap of 1024 bytes of which 700 are there. -/
theorem free_lists_canonical_700 :
    ∃ h₀ h, bdInit false blankMemory 4096 4796 = .ok h₀ ∧ Run h₀ h [] ∧
      ∃ lists : Nat → List Nat, lists h₀.maxSize = [] ∧
        (∀ k ≤ h₀.maxSize, ∀ xs, Ring h₀.links (h₀.free k) xs → ∀ a, a ∈ xs ↔ a ∈ lists k) := by
  obtain ⟨h₀, init, rest⟩ := returns_ok (show returns (bdInit false blankMemory 4096 4796)
    (fun h₀ => returns (bdMalloc h₀ 64) fun first => first.1 == 4608 && returns (bdFree first.2 4608) fun _ => true) =
      true by decide +kernel)
  obtain ⟨⟨r, h₁⟩, first, value⟩ := returns_ok rest
  obtain ⟨equal, freed⟩ := Bool.and_eq_true_iff.mp value
  obtain ⟨h, second, -⟩ := returns_ok freed
  have address : r = 4608 := eq_of_beq equal
  subst address
  have run : Run h₀ h [] := Run.free (Run.malloc Run.init (by decide) first) (e := (4608, 64)) (by simp) second
  obtain ⟨lists, -, -, empty, -, -, restored⟩ := free_lists_canonical (by decide) (by decide) init run
  exact ⟨h₀, h, init, run, lists, empty, restored rfl⟩

end OShard.Buddy
