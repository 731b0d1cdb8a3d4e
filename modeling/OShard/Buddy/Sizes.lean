import OShard.Buddy.Safety

/-! `firstk` and `size`: the level a request is served at, computed from the request by doubling and recovered from the
split bits when the block is returned. -/

namespace OShard.Buddy

open LinkedList BitArray AlignedBlock

section Doubling

theorem firstkLoop_zero (n fuel k : Nat) (positive : 0 < n) : firstkLoop fuel n k 0 = none := by
  induction fuel generalizing k with
  | zero => rfl
  | succ fuel ih =>
    rw [firstkLoop, if_pos positive]
    exact ih (k + 1)

theorem firstkLoop_never (n : Nat) (large : 2 ^ 63 < n) (fuel k : Nat) (upper : k ≤ 59) :
    firstkLoop fuel n k (blkSize k) = none := by
  induction fuel generalizing k with
  | zero => rfl
  | succ fuel ih =>
    have range : 2 ^ k ≤ 2 ^ 59 := Nat.pow_le_pow_right (by decide) upper
    have below : blkSize k < n := by
      unfold blkSize leafSize
      omega
    rw [firstkLoop, if_pos below]
    by_cases last : k = 59
    · have wrapped : blkSize k * 2 % 2 ^ 64 = 0 := by
        rw [last]
        decide
      rw [wrapped]
      exact firstkLoop_zero n fuel (k + 1) (by omega)
    · have next : 2 ^ (k + 1) ≤ 2 ^ 59 := Nat.pow_le_pow_right (by decide) (by omega)
      have double : blkSize k * 2 % 2 ^ 64 = blkSize (k + 1) := by
        rw [blkSize_succ, Nat.mul_comm, Nat.mod_eq_of_lt]
        unfold blkSize leafSize
        rw [Nat.pow_succ] at next
        omega
      rw [double]
      exact ih (k + 1) (by omega)

theorem firstk_diverges {n : Nat} (large : 2 ^ 63 < n) : firstk n = .error .diverges := by
  have never : firstkLoop 61 n 0 leafSize = none := firstkLoop_never n large 61 0 (by decide)
  rw [firstk, never]

def Ends (n : Nat) : Prop :=
  ∃ fuel k, firstkLoop fuel n 0 leafSize = some k ∧ n ≤ leafSize * 2 ^ k ∧ ∀ j < k, leafSize * 2 ^ j < n

theorem ends_iff (n : Nat) : Ends n ↔ n ≤ 2 ^ 63 := by
  constructor
  · rintro ⟨fuel, k, ended, _⟩
    by_contra large
    have never := firstkLoop_never n (by omega) fuel 0 (by decide)
    change firstkLoop fuel n 0 leafSize = none at never
    rw [never] at ended
    cases ended
  · intro bound
    obtain ⟨k, _, ended, fits, below⟩ := firstkLoop_spec n bound 61 0 rfl (by omega) (by omega)
    have size : ∀ j, blkSize j = leafSize * 2 ^ j := fun j => Nat.mul_comm _ _
    rw [size] at fits
    refine ⟨61, k, ended, fits, ?_⟩
    intro j lower
    rw [← size]
    exact below j lower

end Doubling

/-- A call that takes the allocator's lock: `acquire` spins while it is held, and `release` stands before each return. The
    result is paired with the lock afterwards. -/
def withLock {α : Type} (locked : Bool) (body : Except Fault α) : Except Fault (α × Bool) :=
  if locked then .error .diverges else body.map fun result => (result, false)

theorem withLock_returns {α : Type} {body : Except Fault α} {result : α} (returned : body = .ok result) :
    withLock false body = .ok (result, false) := by
  rw [returned]
  rfl

theorem bdMalloc_diverges (h : Heap) {n : Nat} (large : 2 ^ 63 < n) : bdMalloc h n = .error .diverges := by
  rw [bdMalloc, firstk_diverges large]
  rfl

/-- `firstk` ends with the right level and `bd_malloc` returns with its lock released, in every reachable state, exactly for
    requests up to `2 ^ 63` bytes. -/
theorem bdMalloc_returns_iff {checked : Bool} {memory : Memory} {base endp : Nat} {h₀ h : Heap} {live : List (Nat × Nat)}
    (baseRange : base < 2 ^ 64) (endRange : endp < 2 ^ 64) (init : bdInit checked memory base endp = .ok h₀)
    (run : Run h₀ h live) (n : Nat) :
    (Ends n ∧ ∃ r h', withLock false (bdMalloc h n) = .ok ((r, h'), false)) ↔ n ≤ 2 ^ 63 := by
  constructor
  · rintro ⟨ends, _⟩
    exact (ends_iff n).mp ends
  · intro bound
    obtain ⟨m, left, right, lists₀, window, start⟩ := bdInit_window baseRange endRange init
    obtain ⟨lists, sound⟩ := run.sound window.placed window.room start
    refine ⟨(ends_iff n).mpr bound, ?_⟩
    rcases sound.malloc bound with ⟨_, none⟩ | ⟨f, _, h', _, _, _, _, _, _, some, _⟩
    · exact ⟨0, h, withLock_returns none⟩
    · exact ⟨h₀.at f, h', withLock_returns some⟩

theorem bdMalloc_returns_700 : ∃ h₀, bdInit false blankMemory 4096 4796 = .ok h₀ ∧
    ((Ends 64 ∧ ∃ r h', withLock false (bdMalloc h₀ 64) = .ok ((r, h'), false)) ↔ 64 ≤ 2 ^ 63) := by
  obtain ⟨h₀, -, init, -⟩ := blank_700
  exact ⟨h₀, init, bdMalloc_returns_iff (by decide) (by decide) init Run.init 64⟩

/-- The loop never ends for a request of `2 ^ 63 + 1` bytes, and `bd_malloc` never returns on any heap. -/
theorem firstk_never_ends : (∀ fuel, firstkLoop fuel (2 ^ 63 + 1) 0 leafSize = none) ∧
    ∀ h, withLock false (bdMalloc h (2 ^ 63 + 1)) = .error .diverges := by
  constructor
  · intro fuel
    exact firstkLoop_never (2 ^ 63 + 1) (by decide) fuel 0 (by decide)
  · intro h
    rw [bdMalloc_diverges h (by decide)]
    rfl

def splitAt (h : Heap) (k p : Nat) : Bool := h.splitBit ⟨k, (p - h.bdBase) / blkSize k⟩

theorem blkSize_dvd {j k : Nat} (order : j ≤ k) : blkSize j ∣ blkSize k :=
  Nat.mul_dvd_mul_right (Nat.pow_dvd_pow 2 order) leafSize

section Recovery

variable {h₀ h : Heap} {m : Nat} {reserved : Set Nat} {live : List (Nat × Nat)} {lists : Nat → List Nat}

theorem splitAt_over (h : Heap) (f : Block) (k : Nat) :
    splitAt h k (h.at f) = h.splitBit (blockOver k (f.index * 2 ^ f.level)) := by
  have index : (h.at f - h.bdBase) / blkSize k = f.index * 2 ^ f.level / 2 ^ k := by
    rw [at_eq_unit, Nat.add_sub_cancel_left, blkSize, leafSize, Nat.mul_div_mul_right _ _ (by decide)]
  rw [splitAt, index]
  rfl

theorem Sound.splitAt (sound : Sound h₀ m reserved h live lists) {e : Nat × Nat} (member : e ∈ live) {k : Nat}
    (below : k ≤ levelOf e.2) : Buddy.splitAt h (k + 1) e.1 = decide (k = levelOf e.2) := by
  have owner : ownedBlock h₀ e ∈ owned h₀ live := ⟨e, member, rfl⟩
  have place : e.1 = h.at (ownedBlock h₀ e) := by
    rw [sound.same.at_eq]
    exact sound.place e member
  have level : (ownedBlock h₀ e).level = levelOf e.2 := rfl
  have lower := live_level sound.state owner
  have inside := blockOver_inside (first_lt (sound.state.bounded _ owner)) (show k + 1 ≤ m by omega)
  have meaning := sound.state.split _ inside (Nat.succ_pos k)
  rw [split_over sound.state owner (by omega), level] at meaning
  rw [place, splitAt_over]
  exact Bool.eq_iff_iff.mpr (meaning.trans decide_eq_true_iff.symm)

theorem Sound.size (sound : Sound h₀ m reserved h live lists) {e : Nat × Nat} (member : e ∈ live) :
    Buddy.size h e.1 = .ok (levelOf e.2) := by
  have owner : ownedBlock h₀ e ∈ owned h₀ live := ⟨e, member, rfl⟩
  have found := size_spec sound.state owner
  rw [sound.same.at_eq, ← sound.place e member] at found
  exact found

end Recovery

/-- `size` finds the level that `firstk` gave each live block, reading only levels that exist. -/
theorem size_recovers_firstk {checked : Bool} {memory : Memory} {base endp : Nat} {h₀ h : Heap} {live : List (Nat × Nat)}
    (baseRange : base < 2 ^ 64) (endRange : endp < 2 ^ 64) (init : bdInit checked memory base endp = .ok h₀)
    (run : Run h₀ h live) :
    (∀ e ∈ live, firstk e.2 = .ok (levelOf e.2) ∧ size h e.1 = .ok (levelOf e.2) ∧ levelOf e.2 + 1 < h.nsizes ∧
      (∀ k, 1 ≤ k → k ≤ levelOf e.2 → (e.1 - h.bdBase) % blkSize k = 0 ∧ splitAt h k e.1 = false) ∧
      splitAt h (levelOf e.2 + 1) e.1 = true) ∧
    0 < h.maxSize ∧ h.splitBit ⟨h.maxSize, 0⟩ = true := by
  obtain ⟨m, left, right, lists₀, window, start⟩ := bdInit_window baseRange endRange init
  obtain ⟨lists, sound⟩ := run.sound window.placed window.room start
  have sizes : h.nsizes = m + 1 := sound.state.geometry.sizes
  have top : h.maxSize = m := by
    rw [Heap.maxSize, sizes]
    rfl
  have positive : 0 < m := by
    have room := window.room
    have order := window.order
    have fits := window.fits
    by_contra none
    have zero : m = 0 := by omega
    subst zero
    have header : 32 ≤ metaRaw 0 := by decide
    omega
  refine ⟨?_, ?_, ?_⟩
  · intro e member
    have owner : ownedBlock h₀ e ∈ owned h₀ live := ⟨e, member, rfl⟩
    have lower : levelOf e.2 < m := live_level sound.state owner
    refine ⟨(levelOf_spec (sound.request e member)).1, sound.size member, by omega, ?_, ?_⟩
    · intro k positive below
      obtain ⟨j, rfl⟩ : ∃ j, k = j + 1 := ⟨k - 1, by omega⟩
      refine ⟨?_, ?_⟩
      · have aligned := (sound.ownBlock member).aligned.2
        rw [sound.same.bdBase]
        apply Nat.mod_eq_zero_of_dvd
        exact (blkSize_dvd below).trans (Nat.dvd_of_mod_eq_zero aligned)
      · rw [sound.splitAt member (by omega)]
        exact decide_eq_false (by omega)
    · rw [sound.splitAt member (Nat.le_refl _)]
      exact decide_eq_true rfl
  · rw [top]
    exact positive
  · rw [top]
    exact (sound.state.split ⟨m, 0⟩ ⟨Nat.le_refl _, Nat.two_pow_pos _⟩ positive).mpr (.inl sound.state.root)

theorem size_recovers_700 : ∃ h₀ h, bdInit false blankMemory 4096 4796 = .ok h₀ ∧ Run h₀ h [(4608, 64)] ∧
    size h 4608 = .ok (levelOf 64) := by
  obtain ⟨h₀, h, init, first⟩ := blank_700
  have run : Run h₀ h [(4608, 64)] := Run.malloc Run.init (by decide) first
  exact ⟨h₀, h, init, run, ((size_recovers_firstk (by decide) (by decide) init run).1 (4608, 64) List.mem_cons_self).2.1⟩

end OShard.Buddy
