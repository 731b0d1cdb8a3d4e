import OShard.Buddy.InitExact

namespace OShard.Buddy

open LinkedList BitArray AlignedBlock Function

/-- The plain allocator that `buddy.c` optimises: one flag for each block instead of one for each pair. Its lists
    are sequences and its offsets exact. -/
structure Ref where
  nsizes : Nat
  bdBase : Nat
  lists : Nat → List Nat
  alloc : Block → Bool
  split : Block → Bool

namespace Ref

def block (r : Ref) (k p : Nat) : Block := ⟨k, (p - r.bdBase) / blkSize k⟩

def addr (r : Ref) (b : Block) : Nat := r.bdBase + b.index * blkSize b.level

def push (r : Ref) (k p : Nat) : Ref := { r with lists := update r.lists k (p :: r.lists k) }

def setAlloc (r : Ref) (b : Block) (v : Bool) : Ref := { r with alloc := update r.alloc b v }

def setSplit (r : Ref) (b : Block) (v : Bool) : Ref := { r with split := update r.split b v }

def findLevel (r : Ref) : Nat → Nat → Nat
  | 0, k => k
  | n + 1, k => if r.lists k = [] then findLevel r n (k + 1) else k

def splitLoop (p : Nat) : Nat → Nat → Ref → Ref
  | 0, _, r => r
  | n + 1, k, r =>
    let q := p + blkSize (k - 1)
    splitLoop p n (k - 1) (((r.setSplit (r.block k p) true).setAlloc (r.block (k - 1) p) true).push (k - 1) q)

def malloc (r : Ref) (nbytes : Nat) : Except Fault (Nat × Ref) := do
  let fk ← firstk nbytes
  let k := r.findLevel (r.nsizes - fk) fk
  if r.nsizes ≤ k then
    return (0, r)
  match r.lists k with
  | [] => throw (.panic "lst_pop")
  | p :: rest =>
    let r := { r with lists := update r.lists k rest }
    return (p, splitLoop p (k - fk) k (r.setAlloc (r.block k p) true))

def sizeLoop (r : Ref) (p : Nat) : Nat → Nat → Except Fault Nat
  | 0, _ => .ok 0
  | n + 1, k =>
    if r.nsizes ≤ k + 1 then .error .undefined
    else if r.split (r.block (k + 1) p) then .ok k
    else sizeLoop r p n (k + 1)

/-- The loop of `bd_free`: the block is marked free, and joined with its buddy while that one's flag is clear. -/
def freeLoop : Nat → Nat → Nat → Ref → Nat × Nat × Ref
  | 0, k, p, r => (k, p, r)
  | n + 1, k, p, r =>
    let b := r.block k p
    let r := r.setAlloc b false
    if r.alloc b.buddy then (k, p, r)
    else
      let q := r.addr b.buddy
      let r := { r with lists := update r.lists k ((r.lists k).erase q) }
      let p := if b.buddy.index % 2 = 0 then q else p
      freeLoop n (k + 1) p (r.setSplit (r.block (k + 1) p) false)

def free (r : Ref) (p : Nat) : Except Fault Ref := do
  let k ← sizeLoop r p r.nsizes 0
  let (k, p, r) := freeLoop (r.nsizes - 1 - k) k p r
  return r.push k p

def mark (r : Ref) (s t : Nat) : Ref :=
  { r with
    alloc := fun b => r.alloc b || (decide (b.level < r.nsizes) && meets s t b)
    split := fun b => r.split b || (decide (0 < b.level ∧ b.level < r.nsizes) && meets s t b) }

def initfreePair (r : Ref) (b : Block) (isRight : Bool) : Ref :=
  if r.alloc b = r.alloc b.buddy then r
  else r.push b.level (if isRight then r.addr b.buddy else r.addr b)

def initfreeLoop (bdLeft bdRight : Nat) : Nat → Nat → Ref → Ref
  | 0, _, r => r
  | n + 1, k, r =>
    let left := (bdLeft + (blkSize k - 1)) / blkSize k
    let right := bdRight / blkSize k
    let r := r.initfreePair ⟨k, left⟩ false
    if right ≤ left then initfreeLoop bdLeft bdRight n (k + 1) r
    else initfreeLoop bdLeft bdRight n (k + 1) (r.initfreePair ⟨k, right⟩ true)

def init (nsizes bdBase metaEnd bdEnd : Nat) : Ref :=
  let r : Ref := ⟨nsizes, bdBase, fun _ => [], fun _ => false, fun _ => false⟩
  let r := r.mark 0 (metaEnd - bdBase)
  let r := r.mark (bdEnd - bdBase) (blkSize (nsizes - 1))
  initfreeLoop (metaEnd - bdBase) (bdEnd - bdBase) (nsizes - 1) 0 r

end Ref

structure Flags (r : Ref) (m : Nat) (reserved : Set Nat) (live : Set Block) : Prop where
  sizes : r.nsizes = m + 1
  alloc : ∀ b : Block, InHeap m b → b.level < m → (r.alloc b = true ↔ Marked reserved live b)
  split : ∀ b : Block, InHeap m b → 0 < b.level → (r.split b = true ↔ Split reserved live b)

section Steps

variable {r : Ref} {m : Nat} {reserved : Set Nat} {live : Set Block}

section

variable (flags : Flags r m reserved live)

include flags

theorem Flags.withLists (lists : Nat → List Nat) :
    Flags { r with lists := lists } m reserved live :=
  ⟨flags.sizes, flags.alloc, flags.split⟩

theorem Flags.push (k p : Nat) : Flags (r.push k p) m reserved live :=
  flags.withLists _

theorem Flags.take {f : Block} (maximal : Maximal reserved live f) :
    Flags (r.setAlloc f true) m reserved (insert f live) := by
  refine ⟨flags.sizes, fun b inside lower => ?_, fun b inside positive => ?_⟩
  · rw [maximal.marked_insert b, ← flags.alloc b inside lower]
    by_cases same : b = f
    · simp [Ref.setAlloc, same]
    · simp [Ref.setAlloc, same]
  · rw [maximal.split_insert b]
    exact flags.split b inside positive

end

theorem Flags.halve {c : Block} (flags : Flags r m reserved (insert c.parent live)) :
    Flags ((r.setSplit c.parent true).setAlloc c true) m reserved (insert c live) := by
  refine ⟨flags.sizes, fun b inside lower => ?_, fun b inside positive => ?_⟩
  · rw [marked_half b, ← flags.alloc b inside lower]
    by_cases same : b = c
    · simp [Ref.setAlloc, same]
    · simp [Ref.setAlloc, Ref.setSplit, same]
  · rw [split_half b, ← flags.split b inside positive]
    by_cases same : b = c.parent
    · simp [Ref.setAlloc, Ref.setSplit, same]
    · simp [Ref.setAlloc, Ref.setSplit, same]

variable {c : Block} (flags : Flags r m reserved (insert c live)) (outside : c ∉ live)
  (separated : Separated reserved (insert c live))

include flags outside separated

theorem Flags.buddy (inside : InHeap m c) (lower : c.level < m) :
    (r.setAlloc c false).alloc c.buddy = true ↔ Used reserved (insert c live) c.buddy := by
  rw [← marked_buddy_iff outside separated, ← flags.alloc c.buddy (buddy_inside inside lower) lower]
  simp [Ref.setAlloc, c.buddy_ne]

theorem Flags.release (used : Used reserved (insert c live) c.buddy) : Flags (r.setAlloc c false) m reserved live := by
  have maximal := maximal_of_used_buddy outside separated used
  have unmarked := not_marked_of_not_used maximal.1
  refine ⟨flags.sizes, fun b inside lower => ?_, fun b inside positive => ?_⟩
  · have old := flags.alloc b inside lower
    rw [maximal.marked_insert b] at old
    by_cases same : b = c
    · simp [Ref.setAlloc, same, unmarked]
    · simpa [Ref.setAlloc, same] using old
  · rw [← maximal.split_insert b]
    exact flags.split b inside positive

theorem Flags.join (free : ¬ Used reserved (insert c live) c.buddy) :
    Flags ((r.setAlloc c false).setSplit c.parent false) m reserved (insert c.parent live) := by
  have merged := separated_merge outside separated free
  have unmarked := not_marked_half merged
  have uncut := not_split_live merged (Set.mem_insert c.parent live)
  refine ⟨flags.sizes, fun b inside lower => ?_, fun b inside positive => ?_⟩
  · have old := flags.alloc b inside lower
    rw [marked_half b] at old
    by_cases same : b = c
    · simp [Ref.setAlloc, Ref.setSplit, same, unmarked]
    · simpa [Ref.setAlloc, Ref.setSplit, same] using old
  · have old := flags.split b inside positive
    rw [split_half b] at old
    by_cases same : b = c.parent
    · simp [Ref.setAlloc, Ref.setSplit, same, uncut]
    · simpa [Ref.setAlloc, Ref.setSplit, same] using old

end Steps

section Calls

variable {r : Ref} {m : Nat} {reserved : Set Nat} {live : Set Block}

theorem Ref.block_addr (r : Ref) (b : Block) : r.block b.level (r.addr b) = b := by
  unfold Ref.block Ref.addr
  rw [Nat.add_sub_cancel_left, Nat.mul_div_cancel _ (blkSize_pos _)]

theorem Ref.addr_eq {h : Heap} (base : r.bdBase = h.bdBase) (b : Block) : r.addr b = h.at b := by
  unfold Ref.addr Heap.at
  rw [base]

theorem Ref.addr_firstPart (r : Ref) {g : Block} {n : Nat} (bound : n ≤ g.level) : r.addr (firstPart g n) = r.addr g := by
  unfold Ref.addr firstPart blkSize
  dsimp only
  rw [← Nat.mul_assoc, ← Nat.mul_assoc, Nat.mul_assoc g.index, ← Nat.pow_add, Nat.add_sub_cancel' bound]

theorem Ref.findLevel_none {n k : Nat} (empty : ∀ j, k ≤ j → j < k + n → r.lists j = []) : r.findLevel n k = k + n := by
  induction n generalizing k with
  | zero => rfl
  | succ n ih =>
    rw [Ref.findLevel, if_pos (empty k (by omega) (by omega)), ih fun j lower upper => empty j (by omega) (by omega)]
    omega

theorem Ref.findLevel_some {n k j : Nat} (lower : k ≤ j) (upper : j < k + n) (found : r.lists j ≠ [])
    (below : ∀ i, k ≤ i → i < j → r.lists i = []) : r.findLevel n k = j := by
  induction n generalizing k with
  | zero => omega
  | succ n ih =>
    by_cases here : k = j
    · subst here
      rw [Ref.findLevel, if_neg found]
    · rw [Ref.findLevel, if_pos (below k (by omega) (by omega))]
      exact ih (by omega) (by omega) fun i low high => below i (by omega) high

theorem Ref.splitLoop_spec (n : Nat) {g : Block} (flags : Flags r m reserved (insert g live)) (bound : n ≤ g.level) :
    (Ref.splitLoop (r.addr g) n g.level r).lists = pushHalves (r.addr g) n g.level r.lists ∧
      (Ref.splitLoop (r.addr g) n g.level r).bdBase = r.bdBase ∧
      Flags (Ref.splitLoop (r.addr g) n g.level r) m reserved (insert (firstPart g n) live) := by
  induction n generalizing r g with
  | zero =>
    rw [firstPart_zero]
    exact ⟨rfl, rfl, flags⟩
  | succ n ih =>
    have positive : 0 < g.level := by omega
    have parent : (firstPart g 1).parent = g := firstPart_parent positive
    have place : r.addr (firstPart g 1) = r.addr g := r.addr_firstPart positive
    have level : (firstPart g 1).level = g.level - 1 := rfl
    have block : r.block (g.level - 1) (r.addr g) = firstPart g 1 := by
      rw [← place, ← level]
      exact r.block_addr _
    have cut : Flags r m reserved (insert (firstPart g 1).parent live) := by
      rw [parent]
      exact flags
    have halved := (cut.halve).push (g.level - 1) (r.addr g + blkSize (g.level - 1))
    rw [parent] at halved
    have moved : (((r.setSplit g true).setAlloc (firstPart g 1) true).push (g.level - 1)
        (r.addr g + blkSize (g.level - 1))).addr (firstPart g 1) = r.addr g := place
    obtain ⟨lists, base, final⟩ := ih (g := firstPart g 1) halved (by rw [level]; omega)
    rw [moved, level] at lists base final
    rw [firstPart_succ] at final
    rw [Ref.splitLoop, block, r.block_addr]
    exact ⟨lists, base, final⟩

theorem Ref.malloc_none (flags : Flags r m reserved live) {n : Nat} (bound : n ≤ 2 ^ 63)
    (empty : ∀ j, levelOf n ≤ j → j ≤ m → r.lists j = []) : r.malloc n = .ok (0, r) := by
  have search : r.nsizes ≤ r.findLevel (r.nsizes - levelOf n) (levelOf n) := by
    rw [Ref.findLevel_none fun j lower upper => empty j lower (by rw [flags.sizes] at upper; omega)]
    omega
  unfold Ref.malloc
  simp only [(levelOf_spec bound).1, Bind.bind, Except.bind, Pure.pure, Except.pure]
  rw [if_pos search]

theorem Ref.malloc_some (flags : Flags r m reserved live) {n : Nat} (bound : n ≤ 2 ^ 63) {f : Block} {rest : List Nat}
    (lower : levelOf n ≤ f.level) (inside : InHeap m f) (maximal : Maximal reserved live f)
    (below : ∀ j, levelOf n ≤ j → j < f.level → r.lists j = []) (position : r.lists f.level = r.addr f :: rest) :
    ∃ r', r.malloc n = .ok (r.addr f, r') ∧ r'.bdBase = r.bdBase ∧
      r'.lists = pushHalves (r.addr f) (f.level - levelOf n) f.level (update r.lists f.level rest) ∧
      Flags r' m reserved (insert (firstPart f (f.level - levelOf n)) live) := by
  have upper := inside.1
  have search : r.findLevel (r.nsizes - levelOf n) (levelOf n) = f.level :=
    Ref.findLevel_some lower (by rw [flags.sizes]; omega) (by rw [position]; simp) below
  have taken := (flags.withLists (update r.lists f.level rest)).take maximal
  obtain ⟨lists, base, final⟩ := Ref.splitLoop_spec (f.level - levelOf n) taken (Nat.sub_le _ _)
  refine ⟨_, ?_, base, lists, final⟩
  have block : ({ r with lists := update r.lists f.level rest } : Ref).block f.level (r.addr f) = f :=
    r.block_addr f
  unfold Ref.malloc
  simp only [(levelOf_spec bound).1, Bind.bind, Except.bind, Pure.pure, Except.pure, search]
  rw [if_neg (by rw [flags.sizes]; omega), position]
  simp only [block]
  rfl

theorem Ref.block_over (r : Ref) (f : Block) (k : Nat) :
    r.block k (r.addr f) = blockOver k (f.index * 2 ^ f.level) := by
  unfold Ref.block Ref.addr blockOver blkSize leafSize
  rw [Nat.add_sub_cancel_left, ← Nat.mul_assoc, Nat.mul_div_mul_right _ _ (by decide)]

section Returns

variable {h : Heap} {lists : Nat → List Nat} {f : Block}

theorem Ref.sizeLoop_spec (flags : Flags r m reserved live) (state : Consistent h m reserved live lists) (member : f ∈ live)
    (n k : Nat) (below : k ≤ f.level) (enough : f.level < k + n) : r.sizeLoop (r.addr f) n k = .ok f.level := by
  have inside := state.bounded f member
  have level := live_level state member
  induction n generalizing k with
  | zero => omega
  | succ n ih =>
    have covering := blockOver_inside (first_lt inside) (show k + 1 ≤ m by omega)
    have meaning := flags.split _ covering (Nat.succ_pos k)
    rw [split_over state member below] at meaning
    rw [Ref.sizeLoop, if_neg (by rw [flags.sizes]; omega), r.block_over]
    by_cases here : k = f.level
    · rw [meaning.mpr here, here]
      rfl
    have clear : r.split (blockOver (k + 1) (f.index * 2 ^ f.level)) = false := Bool.eq_false_of_not_eq_true fun set => here (meaning.mp set)
    rw [clear]
    exact ih (k + 1) (by omega) (by omega)

theorem Ref.parent_addr (r : Ref) (c : Block) :
    (if c.buddy.index % 2 = 0 then r.addr c.buddy else r.addr c) = r.addr c.parent := by
  have double : blkSize (c.level + 1) = 2 * blkSize c.level := blkSize_succ c.level
  unfold Ref.addr Block.parent Block.buddy
  dsimp only
  rw [double, ← Nat.mul_assoc]
  by_cases even : c.index % 2 = 0
  · rw [if_pos even, if_neg (by omega)]
    congr 2
    omega
  · rw [if_neg even, if_pos (by omega)]
    congr 2
    omega

theorem Ref.freeLoop_spec (n fuel : Nat) {c : Block} (flags : Flags r m reserved (insert c live)) (base : r.bdBase = h.bdBase)
    (outside : c ∉ live) (separated : Separated reserved (insert c live)) (inside : InHeap m c) (levels : c.level + n < m)
    (joins : Joins reserved live n c) (enough : n < fuel) :
    ∃ d : Block, ∃ r', Ref.freeLoop fuel c.level (r.addr c) r = (d.level, r.addr d, r') ∧ r'.bdBase = r.bdBase ∧
      (r'.push d.level (r.addr d)).lists = joinLists h n c r.lists ∧ Flags r' m reserved live := by
  induction n generalizing r c fuel with
  | zero =>
    cases fuel with
    | zero => omega
    | succ fuel =>
      have flag := (flags.buddy outside separated inside levels).mpr joins
      refine ⟨c, r.setAlloc c false, ?_, rfl, ?_, flags.release outside separated joins⟩
      · rw [Ref.freeLoop, r.block_addr]
        simp only [flag, if_true]
      · unfold joinLists
        rw [← Ref.addr_eq base]
        rfl
  | succ n ih =>
    cases fuel with
    | zero => omega
    | succ fuel =>
      obtain ⟨free, rest⟩ := joins
      have flag : (r.setAlloc c false).alloc c.buddy = false := Bool.eq_false_of_not_eq_true fun set => free ((flags.buddy outside separated inside (by omega)).mp set)
      let next : Ref := { r.setAlloc c false with
        lists := update r.lists c.level ((r.lists c.level).erase (r.addr c.buddy)) }
      have joined : Flags (next.setSplit c.parent false) m reserved (insert c.parent live) :=
        (flags.join outside separated free).withLists _
      obtain ⟨d, r', result, kept, listed, final⟩ := ih fuel joined base (parent_outside outside separated)
        (separated_merge outside separated free) (parent_inside inside (by omega))
        (by rw [Block.parent_level]; omega) rest (by omega)
      refine ⟨d, r', ?_, kept, ?_, final⟩
      · have place : (if c.buddy.index % 2 = 0 then (r.setAlloc c false).addr c.buddy else r.addr c) =
            next.addr c.parent := r.parent_addr c
        have block : next.block (c.level + 1) (next.addr c.parent) = c.parent := next.block_addr c.parent
        rw [Ref.freeLoop, r.block_addr]
        simp only [flag, Bool.false_eq_true, if_false]
        rw [place]
        change Ref.freeLoop fuel (c.level + 1) (next.addr c.parent)
          (next.setSplit (next.block (c.level + 1) (next.addr c.parent)) false) = _
        rw [block]
        exact result
      · rw [joinLists, ← Ref.addr_eq base]
        exact listed

theorem Ref.free_spec {c : Block} (flags : Flags r m reserved (insert c live)) (base : r.bdBase = h.bdBase)
    (state : Consistent h m reserved (insert c live) lists) (outside : c ∉ live) {n : Nat}
    (joins : Joins reserved live n c) :
    ∃ r', r.free (r.addr c) = .ok r' ∧ r'.bdBase = r.bdBase ∧ r'.lists = joinLists h n c r.lists ∧
      Flags r' m reserved live := by
  have member : c ∈ insert c live := Set.mem_insert _ _
  have inside := state.bounded c member
  obtain ⟨n', joins', bound⟩ := exists_joins state.root inside outside state.separated
  have equal := joins.unique joins'
  subst equal
  have size : r.sizeLoop (r.addr c) r.nsizes 0 = .ok c.level :=
    Ref.sizeLoop_spec flags state member r.nsizes 0 (Nat.zero_le _) (by rw [flags.sizes]; omega)
  obtain ⟨d, r', result, kept, listed, final⟩ := Ref.freeLoop_spec n (r.nsizes - 1 - c.level) flags base outside
    state.separated inside bound joins (by rw [flags.sizes]; omega)
  refine ⟨r'.push d.level (r.addr d), ?_, kept, listed, final.push _ _⟩
  unfold Ref.free
  simp only [size, Bind.bind, Except.bind, Pure.pure, Except.pure, result]

end Returns

end Calls

end OShard.Buddy
