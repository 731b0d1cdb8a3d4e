import OShard.Buddy.Geometry

namespace OShard.Buddy

open LinkedList BitArray AlignedBlock Function

section Rounding

theorem roundUp_eq (n sz : Nat) (positive : 0 < sz) : roundUp n sz = (n + (sz - 1)) / sz * sz := by
  unfold roundUp
  have shift : ((n : Int) - 1) / sz + 1 = ((n + (sz - 1) : Nat) : Int) / sz := by
    have cast : ((n + (sz - 1) : Nat) : Int) = ((n : Int) - 1) + sz := by omega
    rw [cast, Int.add_ediv_of_dvd_right (dvd_refl _), Int.ediv_self (by omega)]
  rw [shift]
  norm_cast

theorem roundUp_dvd (n : Nat) : roundUp n leafSize % leafSize = 0 := by
  rw [roundUp_eq _ _ (by decide)]
  exact Nat.mul_mod_left _ _

theorem roundUp_bounds (n : Nat) : n ≤ roundUp n leafSize ∧ roundUp n leafSize < n + leafSize := by
  rw [roundUp_eq _ _ (by decide)]
  unfold leafSize
  omega

theorem roundUp_add (base n : Nat) (aligned : base % leafSize = 0) :
    roundUp (base + n) leafSize = base + roundUp n leafSize := by
  rw [roundUp_eq _ _ (by decide), roundUp_eq _ _ (by decide)]
  unfold leafSize at aligned ⊢
  omega

theorem log2Loop_eq (fuel n k : Nat) (bound : n < 2 ^ fuel) : log2Loop fuel n k = k + Nat.log2 n := by
  induction fuel generalizing n k with
  | zero =>
    have zero : n = 0 := by omega
    subst zero
    simp [log2Loop]
  | succ fuel ih =>
    rw [log2Loop, Nat.log2_def]
    by_cases large : 1 < n
    · rw [if_pos large, if_pos (by omega), Nat.shiftRight_one, ih]
      · omega
      · rw [Nat.pow_succ] at bound
        omega
    · rw [if_neg large, if_neg (by omega)]
      omega

theorem log2_eq {n : Nat} (bound : n < 2 ^ 64) : log2 n = Nat.log2 n := by
  unfold log2
  rw [log2Loop_eq 64 n 0 bound]
  omega

theorem sizesFor_negative {length : Int} (lower : -2 ^ 64 - 16 < length) (upper : length ≤ -16) :
    64 ≤ sizesFor length := by
  obtain ⟨n, same⟩ : ∃ n : Nat, length = -(n : Int) := ⟨length.natAbs, by omega⟩
  have quotient : length.tdiv leafSize = -((n / 16 : Nat) : Int) := by
    rw [same, Int.neg_tdiv]
    rfl
  have residue : (length.tdiv leafSize % 2 ^ 64).toNat = 2 ^ 64 - n / 16 := by
    rw [quotient]
    omega
  have large : 63 ≤ log2 (2 ^ 64 - n / 16) := by
    rw [log2_eq (by omega)]
    exact (Nat.le_log2 (by omega)).mpr (by omega)
  unfold sizesFor
  rw [residue]
  dsimp only
  split <;> omega

theorem sizesFor_spec {length : Int} (lower : -16 < length) (upper : length < 2 ^ 64) :
    (length < 16 ∧ sizesFor length = 1) ∨
      ∃ m, sizesFor length = m + 1 ∧ (blkSize m : Int) < 2 * length ∧ length ≤ blkSize m ∧ 16 ≤ length := by
  by_cases tiny : length < 16
  · left
    have quotient : length.tdiv leafSize = 0 := by
      rcases Int.le_total 0 length with nonneg | negative
      · exact Int.tdiv_eq_zero_of_lt nonneg tiny
      · obtain ⟨n, same⟩ : ∃ n : Nat, length = -(n : Int) := ⟨length.natAbs, by omega⟩
        rw [same, Int.neg_tdiv, Int.tdiv_eq_zero_of_lt (by omega) (by unfold leafSize; omega)]
        rfl
    refine ⟨tiny, ?_⟩
    unfold sizesFor
    rw [quotient]
    dsimp only
    have zero : log2 ((0 : Int) % 2 ^ 64).toNat = 0 := by decide
    rw [zero, if_neg]
    have leaf : blkSize (0 + 1 - 1) = 16 := by decide
    rw [leaf]
    omega
  · right
    obtain ⟨n, same⟩ : ∃ n : Nat, length = n := ⟨length.toNat, by omega⟩
    subst same
    have quotient : ((n : Int).tdiv leafSize % 2 ^ 64).toNat = n / 16 := by
      have cast : (n : Int).tdiv leafSize = (n / 16 : Nat) := rfl
      rw [cast]
      omega
    have nonzero : n / 16 ≠ 0 := by omega
    have low := Nat.log2_self_le nonzero
    have high := Nat.lt_log2_self (n := n / 16)
    rw [Nat.pow_succ] at high
    unfold sizesFor
    rw [quotient, log2_eq (by omega)]
    simp only [Nat.add_sub_cancel]
    by_cases above : (blkSize (n / 16).log2 : Int) < n
    · rw [if_pos above]
      refine ⟨(n / 16).log2 + 1, rfl, ?_, ?_, by omega⟩
      · rw [blkSize_succ]
        omega
      · rw [blkSize_succ]
        unfold blkSize leafSize
        omega
    · rw [if_neg above]
      refine ⟨(n / 16).log2, rfl, ?_, ?_, by omega⟩
      · have exactly : blkSize (n / 16).log2 ≤ n := by
          unfold blkSize leafSize
          omega
        omega
      · omega

end Rounding

section Arrays

def span (f : Nat → Nat) (k n : Nat) : Nat := ∑ j ∈ Finset.range n, f (k + j)

theorem span_zero (f : Nat → Nat) (k : Nat) : span f k 0 = 0 := rfl

theorem span_succ (f : Nat → Nat) (k n : Nat) : span f k (n + 1) = f k + span f (k + 1) n := by
  unfold span
  rw [Finset.sum_range_succ', Nat.add_comm]
  congr 1
  exact Finset.sum_congr rfl fun j _ => by rw [Nat.add_right_comm, Nat.add_assoc]

theorem span_last (f : Nat → Nat) (k n : Nat) : span f k (n + 1) = span f k n + f (k + n) := by
  unfold span
  exact Finset.sum_range_succ _ _

theorem span_mono (f : Nat → Nat) (k : Nat) {i j : Nat} (order : i ≤ j) : span f k i ≤ span f k j := by
  unfold span
  exact Finset.sum_le_sum_of_subset (Finset.range_mono order)

def allocBytes (m k : Nat) : Nat := roundUp (2 ^ (m - k)) 16 / 16

def splitBytes (m k : Nat) : Nat := roundUp (2 ^ (m - k)) 8 / 8

/-- The bytes of the data structures for a heap of `2 ^ m` leaves, before and after rounding. -/
def metaRaw (m : Nat) : Nat := szInfoBytes * (m + 1) + span (allocBytes m) 0 (m + 1) + span (splitBytes m) 1 m

def metaLength (m : Nat) : Nat := roundUp (metaRaw m) leafSize

theorem memset_zero (bytes : Bytes) (dst n a : Nat) (cause : bytes a = 0 ∨ (dst ≤ a ∧ a < dst + n)) :
    memset bytes dst n a = 0 := by
  unfold memset
  split
  · rfl
  · rename_i outside
    exact cause.resolve_right outside

section Step

variable {f : Nat → Nat} {k n p a : Nat} {bytes : Bytes}

theorem zeroed_nil (cause : bytes a = 0 ∨ (p ≤ a ∧ a < p + span f k 0)) : bytes a = 0 := by
  apply cause.resolve_right
  rw [span_zero]
  omega

theorem zeroed_next (cause : bytes a = 0 ∨ (p ≤ a ∧ a < p + span f k (n + 1))) :
    memset bytes p (f k) a = 0 ∨ (p + f k ≤ a ∧ a < p + f k + span f (k + 1) n) := by
  rw [span_succ] at cause
  by_cases inFirst : p ≤ a ∧ a < p + f k
  · exact .inl (memset_zero _ _ _ _ (.inr inFirst))
  · rcases cause with old | range
    · exact .inl (memset_zero _ _ _ _ (.inl old))
    · exact .inr (by omega)

theorem arrays_next (arrays : Nat → CharArray) (first : arrays k = ⟨p, f k⟩)
    (later : ∀ j < n, arrays (k + 1 + j) = ⟨p + f k + span f (k + 1) j, f (k + 1 + j)⟩) :
    ∀ j < n + 1, arrays (k + j) = ⟨p + span f k j, f (k + j)⟩ := by
  intro j bound
  cases j with
  | zero => exact first
  | succ j => rw [span_succ, show k + (j + 1) = k + 1 + j by omega, later j (by omega), Nat.add_assoc]

end Step

theorem initAlloc_spec (m n k p : Nat) (h : Heap) (top : h.maxSize = m) :
    ∃ h', initAlloc n k p h = (p + span (allocBytes m) k n, h') ∧
      h'.nsizes = h.nsizes ∧ h'.bdBase = h.bdBase ∧ h'.checked = h.checked ∧
      (∀ i, i < k ∨ k + n ≤ i → h'.bdSizes i = h.bdSizes i) ∧
      (∀ j < n, (h'.bdSizes (k + j)).alloc = ⟨p + span (allocBytes m) k j, allocBytes m (k + j)⟩) ∧
      (∀ a, h.bytes a = 0 ∨ (p ≤ a ∧ a < p + span (allocBytes m) k n) → h'.bytes a = 0) ∧
      (∀ j < n, h'.links.next (h.free (k + j)) = h.free (k + j) ∧
        h'.links.prev (h.free (k + j)) = h.free (k + j)) ∧
      (∀ c, (∀ j < n, c ≠ h.free (k + j)) → h'.links.next c = h.links.next c ∧
        h'.links.prev c = h.links.prev c) := by
  induction n generalizing k p h with
  | zero =>
    exact ⟨h, rfl, rfl, rfl, rfl, fun i _ => rfl, by omega, fun _ => zeroed_nil, by omega, fun c _ => ⟨rfl, rfl⟩⟩
  | succ n ih =>
    have size : roundUp (h.nblk k) 16 / 16 = allocBytes m k := by
      unfold Heap.nblk allocBytes
      rw [top]
    let next : Heap := { h with
      links := lstInit h.links (h.free k)
      bdSizes := update h.bdSizes k { h.bdSizes k with alloc := ⟨p, allocBytes m k⟩ }
      bytes := memset h.bytes p (allocBytes m k) }
    obtain ⟨h', result, count, base, checked, others, arrays, zero, rings, links⟩ :=
      ih (k + 1) (p + allocBytes m k) next top
    have step : initAlloc (n + 1) k p h = initAlloc n (k + 1) (p + allocBytes m k) next := by
      rw [initAlloc]
      simp only [size, next]
    have distinct : ∀ j, h.free k ≠ h.free (k + 1 + j) := by
      intro j
      unfold Heap.free szInfoBytes
      omega
    refine ⟨h', ?_, count, base, checked, ?_, ?_, ?_, ?_, ?_⟩
    · rw [step, result, span_succ, Nat.add_assoc]
    · intro i outside
      rw [others i (by omega)]
      exact update_of_ne (by omega) _ _
    · apply arrays_next (fun i => (h'.bdSizes i).alloc) _ arrays
      rw [others k (by omega)]
      simp only [next, update_self]
    · exact fun a cause => zero a (zeroed_next cause)
    · intro j bound
      cases j with
      | zero =>
        have same := links (h.free k) fun j _ => distinct j
        have self := (lstInit_ring h.links (h.free k)).linked
        rw [Nat.add_zero, same.1, same.2]
        exact ⟨self.1, self.2⟩
      | succ j =>
        have self := rings j (by omega)
        rw [show k + (j + 1) = k + 1 + j by omega]
        exact self
    · intro c different
      have first : c ≠ h.free k := different 0 (by omega)
      have later := links c fun j bound => by
        have other := different (j + 1) (by omega)
        rw [show k + (j + 1) = k + 1 + j by omega] at other
        exact other
      have other := lstInit_other h.links first
      exact ⟨later.1.trans other.1, later.2.trans other.2⟩

theorem initSplit_spec (m n k p : Nat) (h : Heap) (top : h.maxSize = m) :
    ∃ h', initSplit n k p h = (p + span (splitBytes m) k n, h') ∧
      h'.nsizes = h.nsizes ∧ h'.bdBase = h.bdBase ∧ h'.checked = h.checked ∧ h'.links = h.links ∧
      (∀ i, (h'.bdSizes i).alloc = (h.bdSizes i).alloc) ∧
      (∀ i, i < k → (h'.bdSizes i).split = (h.bdSizes i).split) ∧
      (∀ j < n, (h'.bdSizes (k + j)).split = ⟨p + span (splitBytes m) k j, splitBytes m (k + j)⟩) ∧
      (∀ a, h.bytes a = 0 ∨ (p ≤ a ∧ a < p + span (splitBytes m) k n) → h'.bytes a = 0) := by
  induction n generalizing k p h with
  | zero =>
    exact ⟨h, rfl, rfl, rfl, rfl, rfl, fun i => rfl, fun i _ => rfl, by omega, fun _ => zeroed_nil⟩
  | succ n ih =>
    have size : roundUp (h.nblk k) 8 / 8 = splitBytes m k := by
      unfold Heap.nblk splitBytes
      rw [top]
    let next : Heap := { h with
      bdSizes := update h.bdSizes k { h.bdSizes k with split := ⟨p, splitBytes m k⟩ }
      bytes := memset h.bytes p (splitBytes m k) }
    obtain ⟨h', result, count, base, checked, links, allocs, others, arrays, zero⟩ :=
      ih (k + 1) (p + splitBytes m k) next top
    have step : initSplit (n + 1) k p h = initSplit n (k + 1) (p + splitBytes m k) next := by
      rw [initSplit]
      simp only [size, next]
    refine ⟨h', ?_, count, base, checked, links, ?_, ?_, ?_, ?_⟩
    · rw [step, result, span_succ, Nat.add_assoc]
    · intro i
      rw [allocs i]
      by_cases same : i = k
      · subst same
        simp only [next, update_self]
      · simp only [next, update_of_ne same]
    · intro i lower
      rw [others i (by omega)]
      simp only [next, update_of_ne (show i ≠ k by omega)]
    · apply arrays_next (fun i => (h'.bdSizes i).split) _ arrays
      rw [others k (by omega)]
      simp only [next, update_self]
    · exact fun a cause => zero a (zeroed_next cause)

end Arrays

section Metadata

variable {m : Nat}

theorem allocBytes_succ (m k : Nat) : allocBytes (m + 1) (k + 1) = allocBytes m k := by
  unfold allocBytes
  rw [Nat.add_sub_add_right]

theorem splitBytes_succ (m k : Nat) : splitBytes (m + 1) (k + 1) = splitBytes m k := by
  unfold splitBytes
  rw [Nat.add_sub_add_right]

theorem span_shift {f g : Nat → Nat} (shift : ∀ k, f (k + 1) = g k) (k n : Nat) : span f (k + 1) n = span g k n := by
  unfold span
  exact Finset.sum_congr rfl fun j _ => by rw [Nat.add_right_comm, shift]

theorem metaRaw_succ (m : Nat) : metaRaw (m + 1) = metaRaw m + szInfoBytes + allocBytes (m + 1) 0 + splitBytes m 0 := by
  have allocs : span (allocBytes (m + 1)) 0 (m + 2) = allocBytes (m + 1) 0 + span (allocBytes m) 0 (m + 1) := by
    rw [span_succ, span_shift (allocBytes_succ m)]
  have splits : span (splitBytes (m + 1)) 1 (m + 1) = splitBytes m 0 + span (splitBytes m) 1 m := by
    rw [span_shift (splitBytes_succ m), span_succ]
  unfold metaRaw szInfoBytes
  rw [allocs, splits]
  omega

theorem allocBytes_zero (lower : 4 ≤ m) : allocBytes m 0 = 2 ^ (m - 4) := by
  obtain ⟨n, rfl⟩ := Nat.exists_eq_add_of_le' lower
  unfold allocBytes
  rw [roundUp_eq _ _ (by decide), Nat.sub_zero, Nat.add_sub_cancel, Nat.pow_add]
  omega

theorem splitBytes_zero (lower : 3 ≤ m) : splitBytes m 0 = 2 ^ (m - 3) := by
  obtain ⟨n, rfl⟩ := Nat.exists_eq_add_of_le' lower
  unfold splitBytes
  rw [roundUp_eq _ _ (by decide), Nat.sub_zero, Nat.add_sub_cancel, Nat.pow_add]
  omega

theorem metaRaw_eq (lower : 4 ≤ m) : metaRaw m = 32 * (m + 1) + 2 ^ (m - 2) + 5 := by
  induction m, lower using Nat.le_induction with
  | base => decide
  | succ m lower ih =>
    obtain ⟨n, rfl⟩ := Nat.exists_eq_add_of_le' lower
    rw [metaRaw_succ, ih, allocBytes_zero (by omega), splitBytes_zero (by omega)]
    have first : 2 ^ (n + 4 + 1 - 4) = 2 ^ (n + 4 - 3) := by congr 1
    have second : 2 ^ (n + 4 + 1 - 2) = 2 * 2 ^ (n + 4 - 2) := by rw [← Nat.pow_succ']; congr 1
    have third : 2 ^ (n + 4 - 2) = 2 * 2 ^ (n + 4 - 3) := by rw [← Nat.pow_succ']; congr 1
    unfold szInfoBytes
    omega

theorem metaLength_dvd (m : Nat) : metaLength m % 16 = 0 := roundUp_dvd _

theorem metaRaw_le (m : Nat) : metaRaw m ≤ metaLength m := (roundUp_bounds _).1

theorem metaLength_headers (m : Nat) : 32 * (m + 1) < metaLength m := by
  have lower := metaRaw_le m
  have first : 0 < span (allocBytes m) 0 (m + 1) := by
    rw [span_succ]
    have positive := Nat.two_pow_pos m
    unfold allocBytes
    rw [roundUp_eq _ _ (by decide), Nat.sub_zero]
    omega
  unfold metaRaw szInfoBytes at lower
  omega

theorem metaLength_tiny (tiny : m ≤ 3) : blkSize m < metaLength m := by
  have cases : m = 0 ∨ m = 1 ∨ m = 2 ∨ m = 3 := by omega
  rcases cases with h | h | h | h <;> subst h <;> decide

theorem metaLength_four : metaLength 4 = 176 := by decide

theorem metaLength_five : metaLength 5 = 208 := by decide

theorem metaLength_large (lower : 6 ≤ m) : 4 * metaLength m ≤ blkSize m := by
  have aligned := metaLength_dvd m
  have upper := (roundUp_bounds (metaRaw m)).2
  have raw := metaRaw_eq (show 4 ≤ m by omega)
  obtain ⟨n, rfl⟩ := Nat.exists_eq_add_of_le' lower
  have linear : n < 2 ^ n := Nat.lt_two_pow_self
  have low : 2 ^ (n + 6 - 2) = 16 * 2 ^ n := by
    rw [show n + 6 - 2 = n + 4 by omega, Nat.pow_add]
    omega
  have high : blkSize (n + 6) = 1024 * 2 ^ n := by
    unfold blkSize leafSize
    rw [Nat.pow_add]
    omega
  unfold metaLength leafSize at *
  omega

theorem metaLength_lt (least : 4 ≤ m) : metaLength m < blkSize m := by
  by_cases large : 6 ≤ m
  · have quarter := metaLength_large large
    have positive := blkSize_pos m
    omega
  · have cases : m = 4 ∨ m = 5 := by omega
    rcases cases with h | h <;> subst h <;> decide

end Metadata

section Regions

/-- Where `bd_init` puts the arrays: they follow `bd_sizes`, first all of `alloc`, then all of `split`. -/
structure Placed (h : Heap) (m : Nat) : Prop where
  sizes : h.nsizes = m + 1
  alloc : ∀ k ≤ m, (h.bdSizes k).alloc =
    ⟨h.bdBase + szInfoBytes * (m + 1) + span (allocBytes m) 0 k, allocBytes m k⟩
  split : ∀ k, 0 < k → k ≤ m → (h.bdSizes k).split =
    ⟨h.bdBase + szInfoBytes * (m + 1) + span (allocBytes m) 0 (m + 1) + span (splitBytes m) 1 (k - 1),
      splitBytes m k⟩

structure LaidOut (h : Heap) (m : Nat) : Prop extends Placed h m where
  zero : ∀ a, h.bdBase ≤ a → a < h.bdBase + metaRaw m → h.bytes a = 0
  rings : Rings h.links h.free (fun _ => []) (· ≤ m)

variable {m i k : Nat} {b : Block}

theorem bdInitSizes_spec (checked : Bool) (memory : Memory) (base endp m : Nat)
    (sizes : sizesFor ((endp : Int) - roundUp base leafSize) = m + 1) :
    ∃ h, bdInitSizes checked memory base endp = (h.bdBase + metaLength m, h) ∧
      h.bdBase = roundUp base leafSize ∧ h.checked = checked ∧ LaidOut h m := by
  unfold bdInitSizes
  dsimp only
  rw [sizes]
  set start : Heap := ⟨m + 1, roundUp base leafSize, fun _ => ⟨⟨0, 0⟩, ⟨0, 0⟩⟩,
    memset memory.bytes (roundUp base leafSize) (szInfoBytes * (m + 1)), memory.links, checked⟩
  obtain ⟨h₁, first, count₁, base₁, checked₁, -, allocs, zero₁, rings, -⟩ :=
    initAlloc_spec m (m + 1) 0 (roundUp base leafSize + szInfoBytes * (m + 1)) start rfl
  have top : h₁.maxSize = m := Heap.maxSize_of count₁
  obtain ⟨h₂, second, count₂, base₂, checked₂, links₂, allocs₂, -, splits, zero₂⟩ :=
    initSplit_spec m m 1 (roundUp base leafSize + szInfoBytes * (m + 1) + span (allocBytes m) 0 (m + 1)) h₁ top
  have origin : h₂.bdBase = roundUp base leafSize := base₂.trans base₁
  have free : ∀ k, h₂.free k = start.free (0 + k) := by
    intro k
    unfold Heap.free
    rw [origin, Nat.zero_add]
  refine ⟨h₂, ?_, origin, checked₂.trans checked₁,
    ⟨⟨count₂.trans count₁, ?_, ?_⟩, ?_, ⟨?_, ?_⟩⟩⟩
  · rw [first]
    dsimp only
    rw [Nat.add_sub_cancel, second, origin]
    dsimp only
    rw [Nat.add_assoc, Nat.add_assoc, roundUp_add _ _ (roundUp_dvd base), ← Nat.add_assoc (szInfoBytes * (m + 1))]
    rfl
  · intro k upper
    have position := allocs k (by omega)
    rw [Nat.zero_add] at position
    rw [allocs₂, position, origin]
  · intro k positive upper
    have position := splits (k - 1) (by omega)
    rw [Nat.add_sub_cancel' positive] at position
    rw [position, origin]
  · intro a lower upper
    rw [origin] at lower upper
    apply zero₂
    by_cases late : roundUp base leafSize + szInfoBytes * (m + 1) + span (allocBytes m) 0 (m + 1) ≤ a
    · right
      unfold metaRaw at upper
      omega
    left
    apply zero₁
    by_cases early : a < roundUp base leafSize + szInfoBytes * (m + 1)
    · exact .inl (memset_zero _ _ _ _ (.inr ⟨lower, early⟩))
    · exact .inr (by omega)
  · intro k upper
    have self := rings k (by omega)
    rw [links₂, free]
    exact Ring.nil self.1 self.2
  · intro i j _ _ different c first second
    simp only [List.mem_singleton] at first second
    rw [first] at second
    unfold Heap.free szInfoBytes at second
    omega

theorem allocBytes_bound (inside : InHeap m b) : b.index / 2 / 8 < allocBytes m b.level := by
  have bound := inside.2
  unfold allocBytes
  rw [roundUp_eq _ _ (by decide)]
  omega

theorem splitBytes_bound (inside : InHeap m b) : b.index / 8 < splitBytes m b.level := by
  have bound := inside.2
  unfold splitBytes
  rw [roundUp_eq _ _ (by decide)]
  omega

theorem span_step_le (f : Nat → Nat) (k : Nat) {j : Nat} (order : i < j) : span f k i + f (k + i) ≤ span f k j := by
  rw [← span_last]
  exact span_mono f k order

variable {h : Heap} {m : Nat} (placed : Placed h m)

include placed

theorem Placed.alloc_below (upper : k ≤ m) :
    h.bdBase ≤ (h.bdSizes k).alloc.start ∧
      (h.bdSizes k).alloc.start + (h.bdSizes k).alloc.bytes ≤
        h.bdBase + szInfoBytes * (m + 1) + span (allocBytes m) 0 (m + 1) := by
  have room := span_step_le (allocBytes m) 0 (show k < m + 1 by omega)
  rw [Nat.zero_add] at room
  rw [placed.alloc k upper]
  dsimp only
  omega

theorem Placed.split_below (positive : 0 < k) (upper : k ≤ m) :
    h.bdBase + szInfoBytes * (m + 1) + span (allocBytes m) 0 (m + 1) ≤ (h.bdSizes k).split.start ∧
      (h.bdSizes k).split.start + (h.bdSizes k).split.bytes ≤ h.bdBase + metaRaw m := by
  have room := span_step_le (splitBytes m) 1 (show k - 1 < m by omega)
  rw [Nat.add_sub_cancel' positive] at room
  rw [placed.split k positive upper]
  unfold metaRaw
  dsimp only
  omega

theorem Placed.geometry {reserved : Set Nat} (small : m ≤ 27) (headers : ∀ k ≤ m, 2 * k ∈ reserved) :
    Geometry h m reserved := by
  have allocs : ∀ j k, j < k → k ≤ m → (h.bdSizes j).alloc.Apart (h.bdSizes k).alloc := by
    intro j k order upper
    have room := span_step_le (allocBytes m) 0 order
    rw [Nat.zero_add] at room
    left
    rw [placed.alloc j (by omega), placed.alloc k upper]
    dsimp only
    omega
  have splits : ∀ j k, 0 < j → j < k → k ≤ m → (h.bdSizes j).split.Apart (h.bdSizes k).split := by
    intro j k positive order upper
    have room := span_step_le (splitBytes m) 1 (show j - 1 < k - 1 by omega)
    rw [Nat.add_sub_cancel' positive] at room
    left
    rw [placed.split j positive (by omega), placed.split k (by omega) upper]
    dsimp only
    omega
  refine ⟨placed.sizes, small, ?_, ?_, ?_, ?_, ?_, headers⟩
  · intro b inside
    rw [placed.alloc _ inside.1]
    exact allocBytes_bound inside
  · intro b inside positive
    rw [placed.split _ positive inside.1]
    exact splitBytes_bound inside
  · intro j k first second different
    rcases Nat.lt_or_gt_of_ne different with order | order
    · exact allocs j k order second
    · exact (allocs k j order first).symm
  · intro j k positive first positive' second different
    rcases Nat.lt_or_gt_of_ne different with order | order
    · exact splits j k positive order second
    · exact (splits k j positive' order first).symm
  · intro j k first positive second
    have before := (placed.alloc_below first).2
    have after := (placed.split_below positive second).1
    left
    omega

omit placed

variable (laid : LaidOut h m)

include laid

theorem LaidOut.bit_zero {array : Nat} (lower : h.bdBase ≤ array) (upper : array + i / 8 < h.bdBase + metaRaw m) :
    bit h.bytes array i = false := by
  unfold bit
  rw [laid.zero _ (by omega) upper]
  exact BitVec.getLsbD_zero

theorem LaidOut.pairBit_zero (inside : InHeap m b) : h.pairBit b = false := by
  have below := laid.alloc_below inside.1
  have bound := allocBytes_bound inside
  have size : (h.bdSizes b.level).alloc.bytes = allocBytes m b.level := by rw [laid.alloc _ inside.1]
  apply laid.bit_zero below.1
  unfold metaRaw
  omega

theorem LaidOut.splitBit_zero (inside : InHeap m b) (positive : 0 < b.level) : h.splitBit b = false := by
  have below := laid.split_below positive inside.1
  have bound := splitBytes_bound inside
  have size : (h.bdSizes b.level).split.bytes = splitBytes m b.level := by rw [laid.split _ positive inside.1]
  apply laid.bit_zero
  · omega
  · omega

end Regions

end OShard.Buddy
