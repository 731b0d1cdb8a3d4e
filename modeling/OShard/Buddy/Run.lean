import OShard.Buddy.Free
import OShard.Buddy.Init

namespace OShard.Buddy

open LinkedList BitArray AlignedBlock

section Runs

/-- The level `bd_malloc` serves a request at; `firstk` returns for every request of at most `2 ^ 63` bytes. -/
def levelOf (n : Nat) : Nat :=
  match firstk n with
  | .ok k => k
  | .error _ => 0

theorem levelOf_spec {n : Nat} (bound : n ≤ 2 ^ 63) : firstk n = .ok (levelOf n) ∧ n ≤ blkSize (levelOf n) := by
  obtain ⟨k, -, result, fits, -⟩ := firstk_spec bound
  unfold levelOf
  rw [result]
  exact ⟨rfl, fits⟩

/-- A byte of a block that its owner has not returned; each owner is a pointer and the size it asked for. -/
def Held (live : List (Nat × Nat)) (x : Nat) : Prop :=
  ∃ e ∈ live, e.1 ≤ x ∧ x < e.1 + blkSize (levelOf e.2)

/-- Every sequence of calls on the heap `h₀`, in which only live pointers are freed. Between the calls the
    owners may write anything into their blocks. -/
inductive Run (h₀ : Heap) : Heap → List (Nat × Nat) → Prop where
  | init : Run h₀ h₀ []
  | malloc {h h' live n r} : Run h₀ h live → n ≤ 2 ^ 63 →
      bdMalloc h n = .ok (r, h') → Run h₀ h' (if r = 0 then live else (r, n) :: live)
  | free {h h' live e} : Run h₀ h live → e ∈ live → bdFree h e.1 = .ok h' → Run h₀ h' (live.erase e)
  | write {h live bytes links} : Run h₀ h live →
      (∀ x, ¬ Held live x → bytes x = h.bytes x ∧ links.next x = h.links.next x ∧ links.prev x = h.links.prev x) →
      Run h₀ { h with bytes := bytes, links := links } live

end Runs

section Owners

def ownedBlock (h₀ : Heap) (e : Nat × Nat) : Block :=
  ⟨levelOf e.2, (e.1 - h₀.bdBase) / blkSize (levelOf e.2)⟩

def owned (h₀ : Heap) (live : List (Nat × Nat)) : Set Block := {b | ∃ e ∈ live, ownedBlock h₀ e = b}

structure Sound (h₀ : Heap) (m : Nat) (reserved : Set Nat) (h : Heap) (live : List (Nat × Nat))
    (lists : Nat → List Nat) : Prop where
  state : Consistent h m reserved (owned h₀ live) lists
  same : h₀.Same h
  place : ∀ e ∈ live, e.1 = h₀.at (ownedBlock h₀ e)
  request : ∀ e ∈ live, e.2 ≤ 2 ^ 63
  nodup : (live.map (ownedBlock h₀)).Nodup

variable {n left right : Nat} {e : Nat × Nat}

theorem owned_nil (h₀ : Heap) : owned h₀ [] = ∅ := by
  ext b
  simp [owned]

theorem owned_cons (h₀ : Heap) (e : Nat × Nat) (live : List (Nat × Nat)) :
    owned h₀ (e :: live) = insert (ownedBlock h₀ e) (owned h₀ live) := by
  ext b
  simp only [owned, Set.mem_ofPred_eq, List.exists_mem_cons_iff, Set.mem_insert_iff]
  exact or_congr_left eq_comm

theorem ownedBlock_at (h₀ : Heap) {b : Block} (level : b.level = levelOf n) : ownedBlock h₀ (h₀.at b, n) = b := by
  unfold ownedBlock Heap.at
  ext
  · exact level.symm
  · dsimp only
    rw [Nat.add_sub_cancel_left, level, Nat.mul_div_cancel _ (blkSize_pos _)]

theorem owned_erase (h₀ : Heap) {live : List (Nat × Nat)} (member : e ∈ live)
    (nodup : (live.map (ownedBlock h₀)).Nodup) :
    owned h₀ live = insert (ownedBlock h₀ e) (owned h₀ (live.erase e)) ∧
      ownedBlock h₀ e ∉ owned h₀ (live.erase e) ∧ ((live.erase e).map (ownedBlock h₀)).Nodup := by
  have order := List.perm_cons_erase member
  have nodup' : ((e :: live.erase e).map (ownedBlock h₀)).Nodup := (order.map _).nodup_iff.mp nodup
  rw [List.map_cons, List.nodup_cons] at nodup'
  refine ⟨?_, ?_, nodup'.2⟩
  · rw [← owned_cons]
    ext b
    simp only [owned, Set.mem_ofPred_eq, order.mem_iff]
  · intro inside
    obtain ⟨e', member', same⟩ := inside
    exact nodup'.1 (List.mem_map.mpr ⟨e', member', same⟩)

variable {h₀ h : Heap} {m : Nat} {reserved : Set Nat} {live : List (Nat × Nat)} {lists : Nat → List Nat}

theorem Sound.covered (sound : Sound h₀ m reserved h live lists) {x : Nat} (held : Held live x) :
    ∃ l ∈ owned h₀ live, ∃ u, l.Covers u ∧ h₀.bdBase + 16 * u ≤ x ∧ x < h₀.bdBase + 16 * u + 16 := by
  obtain ⟨e, member, lower, upper⟩ := held
  have place := sound.place e member
  rw [at_eq_unit] at place
  have level : (ownedBlock h₀ e).level = levelOf e.2 := rfl
  refine ⟨ownedBlock h₀ e, ⟨e, member, rfl⟩, (x - h₀.bdBase) / 16, ?_, ?_, ?_⟩
  · rw [Block.covers_iff, Nat.succ_mul, level]
    rw [level] at place
    unfold blkSize leafSize at upper
    omega
  · omega
  · omega

theorem Sound.write (sound : Sound h₀ m (outside left right) h live lists) (placed : Placed h₀ m)
    (room : metaRaw m ≤ 16 * left) {bytes : Bytes} {links : Links Nat} (kept : ∀ x, ¬ Held live x →
      bytes x = h.bytes x ∧ links.next x = h.links.next x ∧ links.prev x = h.links.prev x) :
    Sound h₀ m (outside left right) { h with bytes := bytes, links := links } live lists := by
  have state := sound.state
  have placed' := placed.transfer sound.same
  have below : ∀ x, h.bdBase ≤ x → x < h.bdBase + 16 * left → ¬ Held live x := by
    intro x lower upper held
    obtain ⟨l, member, u, covers, first, last⟩ := sound.covered held
    rw [sound.same.bdBase] at lower upper
    exact state.separated.unreserved l member u covers (.inl (by omega))
  have bits : ∀ array i, h.bdBase ≤ array → array + i / 8 < h.bdBase + metaRaw m →
      bit bytes array i = bit h.bytes array i := by
    intro array i lower upper
    unfold bit
    rw [(kept _ (below _ (by omega) (by omega))).1]
  refine ⟨⟨state.geometry.transfer rfl rfl, state.separated, state.root, state.bounded, ?_, state.listed, ?_, ?_⟩,
    ⟨sound.same.nsizes, sound.same.bdBase, sound.same.bdSizes⟩, sound.place, sound.request, sound.nodup⟩
  · refine state.rings.frame fun k upper c member => (kept c fun held => ?_).2
    obtain ⟨l, owner, u, covers, first, last⟩ := sound.covered held
    rw [← sound.same.bdBase] at first last
    rcases List.mem_cons.mp member with header | listed
    · have unit : u = 2 * k := by
        rw [header] at first last
        unfold Heap.free szInfoBytes at first last
        omega
      exact state.separated.unreserved l owner u covers (unit ▸ state.geometry.headers k upper)
    · obtain ⟨b, level, inside, maximal, same⟩ := (state.listed k upper c).mp listed
      have unit : u = b.index * 2 ^ b.level := by
        rw [same, at_eq_unit] at first last
        omega
      exact maximal.1 ⟨u, unit ▸ b.covers_first, .inr ⟨l, owner, covers⟩⟩
  · intro b inside lower free
    have array := placed'.alloc_below inside.1
    have bound := state.geometry.alloc b inside
    have same := bits (h.bdSizes b.level).alloc.start (b.index / 2) array.1 (by unfold metaRaw; omega)
    rw [← state.pair b inside lower free]
    unfold Heap.pairBit
    rw [← same]
  · intro b inside positive
    have array := placed'.split_below positive inside.1
    have bound := state.geometry.split b inside positive
    have same := bits (h.bdSizes b.level).split.start b.index (by omega) (by omega)
    rw [← state.split b inside positive]
    unfold Heap.splitBit
    rw [← same]

theorem Sound.malloc (sound : Sound h₀ m reserved h live lists) (bound : n ≤ 2 ^ 63) :
    ((∀ j, levelOf n ≤ j → j ≤ m → lists j = []) ∧ bdMalloc h n = .ok (0, h)) ∨
    ∃ f : Block, ∃ rest h', levelOf n ≤ f.level ∧ InHeap m f ∧ Maximal reserved (owned h₀ live) f ∧
      (∀ j, levelOf n ≤ j → j < f.level → lists j = []) ∧
      lists f.level = h₀.at f :: rest ∧ h₀.at f ≠ 0 ∧ bdMalloc h n = .ok (h₀.at f, h') ∧
      h.Around h' m (firstPart f (f.level - levelOf n)) ∧
      Sound h₀ m reserved h' ((h₀.at f, n) :: live)
        (pushHalves (h₀.at f) (f.level - levelOf n) f.level (Function.update lists f.level rest)) := by
  rcases bdMalloc_spec sound.state (levelOf_spec bound).1 with
    empty | ⟨f, rest, h', level, inside, maximal, lower, position, result, same, around, state⟩
  · exact .inl empty
  right
  rw [sound.same.at_eq] at position result state
  have kept : f.level - levelOf n ≤ f.level := Nat.sub_le _ _
  have place : h₀.at (firstPart f (f.level - levelOf n)) = h₀.at f := firstPart_at h₀ kept
  have block : ownedBlock h₀ (h₀.at f, n) = firstPart f (f.level - levelOf n) := by
    rw [← place]
    exact ownedBlock_at h₀ (Nat.sub_sub_self level)
  have unused : firstPart f (f.level - levelOf n) ∉ owned h₀ live := by
    intro member
    have covered := (firstPart f (f.level - levelOf n)).covers_first
    exact maximal.1 ⟨_, (firstPart_within kept).covers covered, .inr ⟨_, member, covered⟩⟩
  have nonzero : h₀.at f ≠ 0 := by
    intro zero
    have first : f.index * 2 ^ f.level = 2 * 0 := by
      rw [at_eq_unit] at zero
      omega
    have forbidden := sound.state.geometry.headers 0 (Nat.zero_le m)
    exact maximal.1 ⟨_, f.covers_first, .inl (first ▸ forbidden)⟩
  refine ⟨f, rest, h', level, inside, maximal, lower, position, nonzero, result, around, ?_, sound.same.trans same, ?_,
    ?_, ?_⟩
  · rw [owned_cons, block]
    exact state
  · intro e member
    rcases List.mem_cons.mp member with equal | old
    · rw [equal, block, place]
    · exact sound.place e old
  · intro e member
    rcases List.mem_cons.mp member with equal | old
    · rw [equal]
      exact bound
    · exact sound.request e old
  · rw [List.map_cons, List.nodup_cons, block]
    refine ⟨fun member => ?_, sound.nodup⟩
    obtain ⟨e, inside', equal⟩ := List.mem_map.mp member
    exact unused ⟨e, inside', equal⟩

theorem Sound.free (sound : Sound h₀ m reserved h live lists) (member : e ∈ live) :
    ∃ n h', Joins reserved (owned h₀ (live.erase e)) n (ownedBlock h₀ e) ∧ bdFree h e.1 = .ok h' ∧
      Sound h₀ m reserved h' (live.erase e) (joinLists h₀ n (ownedBlock h₀ e) lists) := by
  obtain ⟨split, outside, nodup⟩ := owned_erase h₀ member sound.nodup
  have state := sound.state
  rw [split] at state
  obtain ⟨n, h', joins, result, same, final⟩ := bdFree_spec state outside
  rw [sound.same.at_eq, ← sound.place e member] at result
  rw [joinLists_same sound.same] at final
  exact ⟨n, h', joins, result, final, sound.same.trans same,
    fun e' old => sound.place e' (List.mem_of_mem_erase old), fun e' old => sound.request e' (List.mem_of_mem_erase old),
    nodup⟩

theorem Run.sound (placed : Placed h₀ m) (room : metaRaw m ≤ 16 * left) {lists₀ : Nat → List Nat}
    (start : Consistent h₀ m (outside left right) ∅ lists₀) (run : Run h₀ h live) :
    ∃ lists, Sound h₀ m (outside left right) h live lists := by
  induction run with
  | init =>
    have state : Consistent h₀ m (outside left right) (owned h₀ []) lists₀ := by
      rw [owned_nil]
      exact start
    exact ⟨lists₀, state, Heap.Same.refl h₀, by simp, by simp, List.nodup_nil⟩
  | malloc _ bound result ih =>
    obtain ⟨lists, sound⟩ := ih
    rcases sound.malloc bound with ⟨-, none⟩ | ⟨f, rest, h', -, -, -, -, -, nonzero, some, -, next⟩
    · rw [none] at result
      cases result
      exact ⟨lists, sound⟩
    · rw [some] at result
      cases result
      rw [if_neg nonzero]
      exact ⟨_, next⟩
  | free _ member result ih =>
    obtain ⟨lists, sound⟩ := ih
    obtain ⟨n, h', -, freed, next⟩ := sound.free member
    rw [freed] at result
    cases result
    exact ⟨_, next⟩
  | write _ kept ih =>
    obtain ⟨lists, sound⟩ := ih
    exact ⟨lists, sound.write placed room kept⟩

end Owners

end OShard.Buddy
