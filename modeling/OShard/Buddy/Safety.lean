import OShard.Buddy.Run

namespace OShard.Buddy

open LinkedList BitArray AlignedBlock

/-- The block of an owner that asked for `n` bytes and got `r`: large enough, aligned to its size, and
    between the addresses `low` and `high`. -/
structure OwnBlock (h₀ : Heap) (low high r n : Nat) : Prop where
  level : firstk n = .ok (levelOf n)
  fits : n ≤ blkSize (levelOf n)
  aligned : h₀.bdBase ≤ r ∧ (r - h₀.bdBase) % blkSize (levelOf n) = 0
  lower : low ≤ r
  upper : r + blkSize (levelOf n) ≤ high

def Apart (e e' : Nat × Nat) : Prop :=
  e.1 + blkSize (levelOf e.2) ≤ e'.1 ∨ e'.1 + blkSize (levelOf e'.2) ≤ e.1

section Blocks

variable {h₀ h : Heap} {m left right : Nat} {live : List (Nat × Nat)} {lists : Nat → List Nat}
  (sound : Sound h₀ m (outside left right) h live lists)

include sound

theorem Sound.ownBlock {e : Nat × Nat} (member : e ∈ live) :
    OwnBlock h₀ (h₀.bdBase + 16 * left) (h₀.bdBase + 16 * right) e.1 e.2 := by
  have place := sound.place e member
  have unreserved := sound.state.not_touches ⟨e, member, rfl⟩ (Block.Within.refl (ownedBlock h₀ e))
  rw [touches_outside, Nat.succ_mul] at unreserved
  rw [at_eq_unit] at place
  have level : (ownedBlock h₀ e).level = levelOf e.2 := rfl
  rw [level] at place unreserved
  obtain ⟨result, fits⟩ := levelOf_spec (sound.request e member)
  have size : blkSize (levelOf e.2) = 2 ^ levelOf e.2 * 16 := rfl
  refine ⟨result, fits, ⟨by omega, ?_⟩, by omega, by omega⟩
  have offset : e.1 - h₀.bdBase = (ownedBlock h₀ e).index * blkSize (levelOf e.2) := by
    rw [size, ← Nat.mul_assoc]
    omega
  rw [offset]
  exact Nat.mul_mod_left _ _

theorem Sound.apart : live.Pairwise Apart := by
  have distinct := List.pairwise_map.mp sound.nodup
  refine distinct.imp_of_mem fun {e e'} member member' different => ?_
  have order := sound.state.separated.ordered ⟨e, member, rfl⟩ ⟨e', member', rfl⟩ different
  have place := sound.place e member
  have place' := sound.place e' member'
  rw [at_eq_unit] at place place'
  rw [Nat.succ_mul, Nat.succ_mul] at order
  have level : (ownedBlock h₀ e).level = levelOf e.2 := rfl
  have level' : (ownedBlock h₀ e').level = levelOf e'.2 := rfl
  unfold Apart blkSize leafSize
  rw [level] at place order
  rw [level'] at place' order
  omega

end Blocks

theorem roundUp_page (first : Nat) : roundUp (pgRoundUp first) leafSize % pgSize = 0 := by
  rw [roundUp_eq _ _ (by decide)]
  unfold pgRoundUp leafSize pgSize
  omega

/-- Whatever the calls and their order, every pointer handed out owns its bytes: they lie between the data
    structures and the unavailable tail, apart from all other owners', and no call faults. -/
theorem malloc_memory_safety {checked : Bool} {memory : Memory} {base endp : Nat} {h₀ h : Heap}
    {live : List (Nat × Nat)} (baseRange : base < 2 ^ 64) (endRange : endp < 2 ^ 64)
    (init : bdInit checked memory base endp = .ok h₀) (run : Run h₀ h live) :
    (∀ n ≤ 2 ^ 63, ∃ r h', bdMalloc h n = .ok (r, h') ∧
      (r ≠ 0 → OwnBlock h₀ (bdInitSizes checked memory base endp).1 (bdEnd h₀ endp) r n ∧
        ∀ e ∈ live, Apart (r, n) e)) ∧
    (∀ e ∈ live, OwnBlock h₀ (bdInitSizes checked memory base endp).1 (bdEnd h₀ endp) e.1 e.2 ∧
      ∃ h', bdFree h e.1 = .ok h') ∧
    live.Pairwise Apart ∧
    (∀ r h', kalloc h = .ok (r, h') → h₀.bdBase % pgSize = 0 → r % pgSize = 0) ∧
    (∀ kernelEnd, base = pgRoundUp kernelEnd → h₀.bdBase % pgSize = 0) := by
  obtain ⟨m, left, right, lists₀, window, start⟩ := bdInit_window baseRange endRange init
  obtain ⟨lists, sound⟩ := run.sound window.placed window.room start
  rw [window.low, window.high]
  have calls : ∀ n ≤ 2 ^ 63, ∃ r h', bdMalloc h n = .ok (r, h') ∧
      (r ≠ 0 → OwnBlock h₀ (h₀.bdBase + 16 * left) (h₀.bdBase + 16 * right) r n ∧
        ∀ e ∈ live, Apart (r, n) e) := by
    intro n bound
    rcases sound.malloc bound with ⟨-, none⟩ | ⟨f, rest, h', -, -, -, -, -, nonzero, some, -, next⟩
    · exact ⟨0, h, none, fun nonzero => absurd rfl nonzero⟩
    · refine ⟨h₀.at f, h', some, fun _ => ⟨next.ownBlock List.mem_cons_self, ?_⟩⟩
      exact (List.pairwise_cons.mp next.apart).1
  refine ⟨calls, ?_, sound.apart, ?_, ?_⟩
  · intro e member
    obtain ⟨n, h', -, result, -⟩ := sound.free member
    exact ⟨sound.ownBlock member, h', result⟩
  · intro r h' result aligned
    obtain ⟨r', h'', result', safe⟩ := calls pgSize (by decide)
    have equal : r = r' := by
      unfold kalloc at result
      rw [result] at result'
      cases result'
      rfl
    subst equal
    by_cases zero : r = 0
    · rw [zero]
      rfl
    have own := (safe zero).1.aligned
    have size : blkSize (levelOf pgSize) = pgSize := by decide
    rw [size] at own
    unfold pgSize at own aligned ⊢
    omega
  · intro kernelEnd page
    rw [window.origin, page]
    exact roundUp_page kernelEnd

def blankMemory : Memory := ⟨fun _ => 0, ⟨fun _ => 0, fun _ => 0⟩⟩

theorem blank_700 : ∃ h₀ h, bdInit false blankMemory 4096 4796 = .ok h₀ ∧ bdMalloc h₀ 64 = .ok (4608, h) := by
  obtain ⟨h₀, init, rest⟩ := returns_ok (show returns (bdInit false blankMemory 4096 4796)
    (fun h₀ => returns (bdMalloc h₀ 64) fun result => result.1 == 4608) = true by decide +kernel)
  obtain ⟨⟨r, h⟩, first, value⟩ := returns_ok rest
  have equal : r = 4608 := eq_of_beq value
  subst equal
  exact ⟨h₀, h, init, first⟩

theorem malloc_memory_safety_700 :
    ∃ h₀ h, bdInit false blankMemory 4096 4796 = .ok h₀ ∧ bdMalloc h₀ 64 = .ok (4608, h) ∧
      Run h₀ h [(4608, 64)] ∧
      ∃ r h', bdMalloc h 16 = .ok (r, h') ∧
        (r ≠ 0 → OwnBlock h₀ (bdInitSizes false blankMemory 4096 4796).1 (bdEnd h₀ 4796) r 16 ∧
          ∀ e ∈ [(4608, 64)], Apart (r, 16) e) := by
  obtain ⟨h₀, h, init, first⟩ := blank_700
  have run : Run h₀ h [(4608, 64)] := Run.malloc Run.init (by decide) first
  exact ⟨h₀, h, init, first, run,
    (malloc_memory_safety (by decide) (by decide) init run).1 16 (by decide)⟩

end OShard.Buddy
