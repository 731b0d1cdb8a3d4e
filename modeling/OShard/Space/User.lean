import OShard.Space.Table

namespace OShard.Space

open Separation Assertion Prog

@[irreducible] def userPages : Nat := trapframeVa / pgSize

theorem userPages_eq : userPages = 2 ^ 26 - 2 := by
  unfold userPages
  decide

def pages (sz : Nat) : Nat := (sz + pgSize - 1) / pgSize

def backed (ram : Ram) (pte : Nat) : Assertion Page := if pte = 0 then 1 else page ram (pte2pa pte)

def Data (ram : Ram) (entry : Nat → Nat) : Assertion Page := ∏ i ∈ Finset.range userPages, backed ram (entry i)

/-- Entries at exactly the first `n` pages, each as `ok` says, and `top` at `TRAPFRAME` and above. -/
structure Shape (n : Nat) (top : Nat → Nat) (ok : Nat → Prop) (entry : Nat → Nat) : Prop where
  bound : n ≤ userPages
  empty : ∀ i, i < userPages → n ≤ i → entry i = 0
  leaf : ∀ i, i < n → Leaf (entry i) ∧ entry i < 2 ^ 64 ∧ ok (entry i)
  top : ∀ i, userPages ≤ i → entry i = top i

def Memory (ram : Ram) (root n : Nat) (top : Nat → Nat) (ok : Nat → Prop) : Assertion Page :=
  any fun entry => given (Shape n top ok entry) (Table ram 2 root entry * Data ram entry)

variable {ram : Ram} {fails : Prop} {root i n : Nat} {entry : Nat → Nat} {top : Nat → Nat} {ok : Nat → Prop} {h : Heap Page}

section Entries

theorem Data.split (below : i < userPages) :
    Data ram entry = backed ram (entry i) * ∏ x ∈ (Finset.range userPages).erase i, backed ram (entry x) :=
  (Finset.mul_prod_erase _ _ (Finset.mem_range.mpr below)).symm

theorem Data.update (below : i < userPages) (pte : Nat) :
    Data ram (Function.update entry i pte) = backed ram pte * ∏ x ∈ (Finset.range userPages).erase i, backed ram (entry x) := by
  have others : ∀ x ∈ (Finset.range userPages).erase i, backed ram (Function.update entry i pte x) = backed ram (entry x) := by
    intro x member
    rw [Function.update_of_ne (Finset.ne_of_mem_erase member)]
  rw [Data.split below, Function.update_self, Finset.prod_congr rfl others]

theorem Data.above (above : userPages ≤ i) (pte : Nat) : Data ram (Function.update entry i pte) = Data ram entry := by
  apply Finset.prod_congr rfl
  intro x member
  have below := Finset.mem_range.mp member
  rw [Function.update_of_ne (by omega)]

theorem card_pages {S : Finset Nat} {f : Nat → Nat} (holds : (∏ x ∈ S, page ram (f x)) h) :
    ∃ D ⊆ ram.pool, D.card = S.card ∧ ∀ a ∈ D, h a ≠ none := by
  induction S using Finset.induction generalizing h with
  | empty => exact ⟨∅, Finset.empty_subset _, rfl, nofun⟩
  | insert x S fresh ih =>
    rw [Finset.prod_insert fresh] at holds
    obtain ⟨left, right, apart, rfl, ⟨inside, junk, rfl⟩, rest⟩ := holds
    obtain ⟨D, subset, card, live⟩ := ih rest
    have here : Heap.union (Heap.single (f x) junk) right (f x) = some junk ∧ right (f x) = none :=
      Heap.union_left apart Heap.single_self
    have new : f x ∉ D := fun member => live (f x) member here.2
    refine ⟨insert (f x) D, Finset.insert_subset inside subset, ?_, fun a member => ?_⟩
    · rw [Finset.card_insert_of_notMem new, Finset.card_insert_of_notMem fresh, card]
    · rcases Finset.mem_insert.mp member with rfl | old
      · rw [here.1]
        nofun
      · intro none
        exact live a old (Heap.union_none.mp none).2

theorem Data.pages (shape : Shape n top ok entry) : Data ram entry = ∏ x ∈ Finset.range n, page ram (pte2pa (entry x)) := by
  have subset : Finset.range n ⊆ Finset.range userPages := Finset.range_subset_range.mpr shape.bound
  rw [Data, ← Finset.prod_subset subset]
  · apply Finset.prod_congr rfl
    intro x member
    exact if_neg (shape.leaf x (Finset.mem_range.mp member)).1.nonzero
  · intro x member outside
    rw [shape.empty x (Finset.mem_range.mp member) (by simpa using outside)]
    exact if_pos rfl

theorem count_pages {pa : Nat} {F : Assertion Page} (holds : (page ram pa * ((∏ x ∈ Finset.range n, page ram (pte2pa (entry x))) * F)) h) :
    n + 1 ≤ ram.pool.card := by
  obtain ⟨left, -, apart, -, ⟨inside, junk, rfl⟩, one, two, -, rfl, data, -⟩ := holds
  obtain ⟨D, subset, card, live⟩ := card_pages data
  have new : pa ∉ D := by
    intro member
    apply live pa member
    exact (Heap.union_none.mp (Heap.union_left apart Heap.single_self).2).1
  have bound := Finset.card_le_card (Finset.insert_subset inside subset)
  rw [Finset.card_insert_of_notMem new, card, Finset.card_range] at bound
  exact bound

theorem Data.count {pa : Nat} {F : Assertion Page} (shape : Shape n top ok entry)
    (holds : (page ram pa * (Data ram entry * F)) h) : n + 1 ≤ ram.pool.card := by
  rw [Data.pages shape] at holds
  exact count_pages holds

end Entries

section Pages

variable {pa perm : Nat}

theorem walk_at {alloc : Bool} {va : Nat} (below : va < maxVa) :
    Triple (ram.supply fails) (Table ram 2 root entry) (walk root va alloc) fun r =>
      match r with
      | none => given ((alloc = false → entry (va / 4096) = 0) ∧ (alloc = true → fails)) (Table ram 2 root entry)
      | some (pa, k) => Cell ram 2 root entry (va / 4096) pa k := by
  have spec := @walkFrom_spec ram fails 2 root entry va alloc
  rw [index_top below] at spec
  rw [walk, if_neg (Nat.not_le.mpr below)]
  exact spec

theorem walk_spec {alloc : Bool} (below : i < 2 ^ 26) :
    Triple (ram.supply fails) (Table ram 2 root entry) (walk root (i * pgSize) alloc) fun r =>
      match r with
      | none => given ((alloc = false → entry i = 0) ∧ (alloc = true → fails)) (Table ram 2 root entry)
      | some (pa, k) => Cell ram 2 root entry i pa k := by
  have inside : i * pgSize < maxVa := by
    unfold maxVa pgSize
    omega
  have spec := @walk_at ram fails root entry alloc _ inside
  rw [show i * pgSize / 4096 = i from Nat.mul_div_cancel i (by decide)] at spec
  exact spec

theorem walk_there {σ : Type} {f : Option (Nat × Nat) → Prog Page σ} {F : Assertion Page} {R : σ → Assertion Page}
    (below : i < 2 ^ 26) (there : entry i ≠ 0)
    (rest : ∀ pa k, Triple (ram.supply fails) (Cell ram 2 root entry i pa k * F) (f (some (pa, k))) R) :
    Triple (ram.supply fails) (Table ram 2 root entry * F) (walk root (i * pgSize) false >>= f) R := by
  apply Triple.call (walk_spec below)
  intro r
  cases r with
  | none =>
    rw [given_mul]
    apply Triple.given
    intro missing
    exact absurd (missing.1 rfl) there
  | some found => exact rest found.1 found.2

theorem mappages_spec (below : i < 2 ^ 26) (fresh : entry i = 0) (bounded : pa < 2 ^ 56) (small : perm < 1024) :
    Triple (ram.supply fails) (Table ram 2 root entry) (mappages root (i * pgSize) pgSize pa perm) fun r =>
      if r = 0 then Table ram 2 root (Function.update entry i (pa2pte pa ||| perm ||| pteV))
      else given (r = -1 ∧ fails) (Table ram 2 root entry) := by
  have aligned : ¬i * pgSize % pgSize ≠ 0 := not_not.mpr (Nat.mul_mod_left _ _)
  rw [mappages, if_neg aligned, if_neg (by decide), if_neg (by decide)]
  change Triple _ _ (mapFrom root perm 1 _ _) _
  rw [mapFrom]
  apply Triple.bind (walk_spec below)
  intro r
  cases r with
  | none =>
    apply Triple.given
    intro failed
    exact Triple.done fun h holds => ⟨⟨rfl, failed.2 rfl⟩, holds⟩
  | some found =>
    obtain ⟨t, k⟩ := found
    apply Triple.bind (Cell.load i)
    intro pte
    apply Triple.given
    rintro rfl
    rw [fresh, if_neg (by decide)]
    apply Triple.bind (Cell.store (pte_lt small bounded))
    intro _
    exact Triple.pure rfl

theorem unmapPage_free (below : i < 2 ^ 26) (leaf : Leaf (entry i)) :
    Triple (ram.supply fails) (Table ram 2 root entry * page ram (pte2pa (entry i))) (unmapPage root (i * pgSize) true) fun _ =>
      Table ram 2 root (Function.update entry i 0) := by
  apply walk_there below leaf.nonzero
  intro t k
  apply Triple.call (Cell.load i)
  intro pte
  rw [given_mul]
  apply Triple.given
  rintro rfl
  rw [if_neg leaf.valid, if_neg leaf.not_table, if_pos rfl, mul_comm, page, given_mul, any_mul]
  apply Triple.given
  intro _
  apply Triple.any
  intro junk
  apply Triple.bindRelease
  exact Cell.store (by decide)

theorem unmapPage_keep (below : i < 2 ^ 26) (leaf : Leaf (entry i)) :
    Triple (ram.supply fails) (Table ram 2 root entry) (unmapPage root (i * pgSize) false) fun _ =>
      Table ram 2 root (Function.update entry i 0) := by
  rw [← mul_one (Table ram 2 root entry)]
  apply walk_there below leaf.nonzero
  intro t k
  rw [mul_one]
  apply Triple.bind (Cell.load i)
  intro pte
  apply Triple.given
  rintro rfl
  rw [if_neg leaf.valid, if_neg leaf.not_table, if_neg (by decide)]
  exact Cell.store (by decide)

end Pages

section Ranges

variable {lo m xperm sz oldsz newsz : Nat}

theorem pages_mul (n : Nat) : pages (n * pgSize) = n := by
  unfold pages pgSize
  omega

theorem pgroundup_eq (small : sz < 2 ^ 63) : pgroundup sz = pages sz * pgSize := by
  unfold pgroundup pages pgSize
  omega

def clear (lo np : Nat) (entry : Nat → Nat) : Nat → Nat := fun i => if lo ≤ i ∧ i < lo + np then 0 else entry i

theorem clear_zero : clear lo 0 entry = entry := by
  funext i
  apply if_neg
  omega

theorem clear_succ (np : Nat) : clear lo (np + 1) entry = Function.update (clear lo np entry) (lo + np) 0 := by
  funext i
  by_cases same : i = lo + np
  · rw [same, Function.update_self]
    apply if_pos
    omega
  · rw [Function.update_of_ne same]
    apply if_congr _ rfl rfl
    omega

theorem uvmunmap_spec {np : Nat} (leaf : ∀ i, lo ≤ i → i < lo + np → Leaf (entry i)) (bound : lo + np ≤ userPages) :
    Triple (ram.supply fails) (Table ram 2 root entry * Data ram entry) (uvmunmap root (lo * pgSize) np true) fun _ =>
      Table ram 2 root (clear lo np entry) * Data ram (clear lo np entry) := by
  have top := userPages_eq
  have aligned : ¬lo * pgSize % pgSize ≠ 0 := not_not.mpr (Nat.mul_mod_left _ _)
  have step : ∀ k, k < np → Triple (ram.supply fails) (Table ram 2 root (clear lo k entry) * Data ram (clear lo k entry))
      (unmapPage root (lo * pgSize + k * pgSize) true) fun _ =>
        Table ram 2 root (clear lo (k + 1) entry) * Data ram (clear lo (k + 1) entry) := by
    intro k below
    have here : clear lo k entry (lo + k) = entry (lo + k) := if_neg (by omega)
    have leaf' := leaf (lo + k) (by omega) (by omega)
    rw [← here] at leaf'
    have split : backed ram (clear lo k entry (lo + k)) = page ram (pte2pa (clear lo k entry (lo + k))) := if_neg leaf'.nonzero
    rw [← Nat.add_mul, Data.split (by omega : lo + k < userPages), split, ← mul_assoc]
    apply ((unmapPage_free (by omega) leaf').frame _).post
    intro _ h holds
    rw [clear_succ, Data.update (by omega)]
    have zero : backed ram 0 = 1 := if_pos rfl
    rw [zero, one_mul]
    exact holds
  have loop := Triple.loop (fun k => Table ram 2 root (clear lo k entry) * Data ram (clear lo k entry)) step
  rw [clear_zero] at loop
  rw [uvmunmap, if_neg aligned]
  exact loop

theorem Shape.clear (shape : Shape n top ok entry) (less : m ≤ n) : Shape m top ok (clear m (n - m) entry) := by
  constructor
  · exact less.trans shape.bound
  · intro i below above
    by_cases inside : i < n
    · exact if_pos (by omega)
    · rw [Space.clear, if_neg (by omega)]
      exact shape.empty i below (by omega)
  · intro i below
    rw [Space.clear, if_neg (by omega)]
    exact shape.leaf i (by omega)
  · intro i above
    have bound := shape.bound
    rw [Space.clear, if_neg (by omega)]
    exact shape.top i above

theorem uvmunmap_memory (less : m ≤ n) : Triple (ram.supply fails) (Memory ram root n top ok) (uvmunmap root (m * pgSize) (n - m) true)
    fun _ => Memory ram root m top ok := by
  apply Triple.any
  intro entry
  apply Triple.given
  intro shape
  have bound := shape.bound
  apply (uvmunmap_spec (fun i _ below => (shape.leaf i (by omega)).1) (by omega)).post
  exact fun _ h holds => ⟨_, shape.clear less, holds⟩

theorem uvmdealloc_by {P : Assertion Page} {Q : Nat → Assertion Page} (small : oldsz ≤ userPages * pgSize)
    (keeps : ∀ h, P h → Q (pages oldsz) h)
    (unmaps : ∀ m, m ≤ pages oldsz → Triple (ram.supply fails) P (uvmunmap root (m * pgSize) (pages oldsz - m) true) fun _ => Q m) :
    Triple (ram.supply fails) P (uvmdealloc root oldsz newsz) fun r => given (r = min oldsz newsz) (Q (pages (min oldsz newsz))) := by
  rw [uvmdealloc]
  by_cases grows : oldsz ≤ newsz
  · rw [if_pos grows, Nat.min_eq_left grows]
    exact Triple.done fun h holds => ⟨rfl, keeps h holds⟩
  have range := userPages_eq
  unfold pgSize at small
  rw [if_neg grows, Nat.min_eq_right (by omega), pgroundup_eq (by omega), pgroundup_eq (by omega)]
  have count : (pages oldsz * pgSize - pages newsz * pgSize) / pgSize = pages oldsz - pages newsz := by
    rw [← Nat.sub_mul]
    exact Nat.mul_div_cancel _ (by decide)
  have less : pages newsz ≤ pages oldsz := by
    unfold pages pgSize
    omega
  rw [count]
  by_cases some : pages newsz * pgSize < pages oldsz * pgSize
  · rw [if_pos some]
    apply Triple.bind (unmaps _ less)
    exact fun _ => Triple.done fun h holds => ⟨rfl, holds⟩
  have same : pages oldsz = pages newsz := by
    unfold pgSize at some
    omega
  rw [same] at keeps
  rw [if_neg some]
  exact Triple.done fun h holds => ⟨rfl, keeps h holds⟩

theorem uvmdealloc_spec (small : oldsz ≤ userPages * pgSize) :
    Triple (ram.supply fails) (Memory ram root (pages oldsz) top ok) (uvmdealloc root oldsz newsz) fun r =>
      given (r = min oldsz newsz) (Memory ram root (pages (min oldsz newsz)) top ok) := by
  apply @uvmdealloc_by ram fails root oldsz newsz _ (fun m => Memory ram root m top ok) small (fun h holds => holds)
  intro m less
  exact uvmunmap_memory less

end Ranges

section Grow

variable {m xperm perm pa oldsz newsz : Nat}

theorem Ram.card_lt (ram : Ram) : ram.pool.card < userPages := by
  have small := ram.small
  unfold userPages
  exact small

theorem Shape.push (shape : Shape n top ok entry) (room : n < userPages) {pte : Nat} (leaf : Leaf pte) (small : pte < 2 ^ 64)
    (fine : ok pte) : Shape (n + 1) top ok (Function.update entry n pte) := by
  constructor
  · exact room
  · intro i below above
    rw [Function.update_of_ne (by omega)]
    exact shape.empty i below (by omega)
  · intro i below
    by_cases last : i = n
    · rw [last, Function.update_self]
      exact ⟨leaf, small, fine⟩
    · rw [Function.update_of_ne last]
      exact shape.leaf i (by omega)
  · intro i above
    rw [Function.update_of_ne (by omega)]
    exact shape.top i above

theorem mappages_next {page : Page} {F : Assertion Page} (shape : Shape n top ok entry) (inside : pa ∈ ram.pool) (small : perm < 1024)
    (count : ∀ h, (points pa page * (Table ram 2 root entry * F)) h → n + 1 ≤ ram.pool.card) :
    Triple (ram.supply fails) (points pa page * (Table ram 2 root entry * F)) (mappages root (n * pgSize) pgSize pa perm) fun r =>
      if r = 0 then given (n < userPages) (Table ram 2 root (Function.update entry n (pa2pte pa ||| perm ||| pteV)) * (points pa page * F))
      else given (r = -1 ∧ fails) (points pa page * (Table ram 2 root entry * F)) := by
  apply Triple.fact count
  intro bound
  have range := userPages_eq
  have room := Nat.lt_of_lt_of_le bound (Nat.le_of_lt ram.card_lt)
  rw [mul_left_comm]
  have mapped := @mappages_spec ram fails root n entry pa perm (by omega) (shape.empty n room (Nat.le_refl n)) (ram.bounded pa inside) small
  apply (mapped.frame _).post
  intro r h holds
  by_cases success : r = 0
  · rw [if_pos success] at holds ⊢
    exact ⟨room, holds⟩
  · rw [if_neg success, given_mul] at holds
    rw [if_neg success]
    exact holds

theorem mappages_push {page : Page} (inside : pa ∈ ram.pool) (small : perm < 1024)
    (some : perm &&& (pteR ||| pteW ||| pteX) ≠ 0) (fine : ok (pa2pte pa ||| perm ||| pteV)) :
    Triple (ram.supply fails) (points pa page * Memory ram root n top ok) (mappages root (n * pgSize) pgSize pa perm) fun r =>
      if r = 0 then Memory ram root (n + 1) top ok
      else given (r = -1 ∧ fails) (points pa page * Memory ram root n top ok) := by
  rw [Memory, mul_any]
  apply Triple.any
  intro entry
  rw [mul_given]
  apply Triple.given
  intro shape
  apply (mappages_next shape inside small _).post
  · intro r h holds
    by_cases success : r = 0
    · rw [if_pos success] at holds ⊢
      obtain ⟨room, holds⟩ := holds
      refine ⟨_, shape.push room (leaf_pte small some) (pte_lt small (ram.bounded pa inside)) fine, ?_⟩
      have behind : backed ram (pa2pte pa ||| perm ||| pteV) = Space.page ram pa := by
        rw [backed, if_neg (leaf_pte small some).nonzero, pte2pa_pte small (ram.aligned pa inside)]
      have old : backed ram (entry n) = 1 := if_pos (shape.empty n room (Nat.le_refl n))
      rw [Data.split room, old, one_mul] at holds
      rw [Data.update room, behind]
      exact mul_mono (fun _ table => table) (fun _ both => mul_mono (fun _ here => ⟨inside, page, here⟩) (fun _ rest => rest) both) holds
    · rw [if_neg success] at holds ⊢
      have back : given (Shape n top ok entry) (points pa page * (Table ram 2 root entry * Data ram entry)) h := ⟨shape, holds.2⟩
      rw [← mul_given] at back
      exact ⟨holds.1, entry, back⟩
  · intro h holds
    rw [mul_comm (Table ram 2 root entry)] at holds
    apply Data.count shape
    exact mul_mono (fun _ here => ⟨inside, page, here⟩) (fun _ rest => rest) holds

theorem uvmalloc_readable : (pteR ||| pteU ||| xperm) &&& (pteR ||| pteW ||| pteX) ≠ 0 := by
  rw [Nat.or_assoc, Nat.and_or_distrib_right]
  exact fun zero => absurd (Nat.or_eq_zero_iff.mp zero).1 (by decide)

section Loop

variable {P : Nat → Assertion Page} {B : Assertion Page}

/-- The loop of `uvmalloc` from page `n` on, which goes back to page `m` when it fails: `P n` is the memory of `n` pages, and
    `B` what is left when they are taken away again. -/
theorem uvmallocFrom_by {left : Nat} (from_m : m ≤ n) (limit : ∀ n h, P n h → n ≤ userPages)
    (deallocs : fails → ∀ n, m ≤ n → n ≤ userPages →
      Triple (ram.supply fails) (P n) (uvmdealloc root (n * pgSize) (m * pgSize)) fun _ => B)
    (pushes : ∀ n pa, m ≤ n → pa ∈ ram.pool → Triple (ram.supply fails) (points pa Page.zero * P n)
      (mappages root (n * pgSize) pgSize pa (pteR ||| pteU ||| xperm)) fun r =>
        if r = 0 then P (n + 1) else given (r = -1 ∧ fails) (points pa Page.zero * P n)) :
    Triple (ram.supply fails) (P n) (uvmallocFrom root (m * pgSize) newsz xperm left (n * pgSize)) fun r =>
      either (given (r = newsz) (P (n + left))) (given (r = 0) B) := by
  -- Both failures take the pages from `m` on away again.
  have back : fails → ∀ n total, m ≤ n → n ≤ userPages → Triple (ram.supply fails) (P n)
      (uvmdealloc root (n * pgSize) (m * pgSize) >>= fun _ => Pure.pure 0) fun r =>
        either (given (r = newsz) (P total)) (given (r = 0) B) := by
    intro failed n total from_m bound
    apply Triple.bind (deallocs failed n from_m bound)
    exact fun _ => Triple.done fun h holds => Or.inr ⟨rfl, holds⟩
  induction left generalizing n with
  | zero =>
    rw [uvmallocFrom]
    exact Triple.done fun h holds => Or.inl ⟨rfl, holds⟩
  | succ left ih =>
    apply Triple.fact (limit n)
    intro bound
    rw [uvmallocFrom]
    apply Triple.bindAllocate
    · exact fun failed => back failed n _ from_m bound
    intro mem inside junk
    apply Triple.bindUpdate
    apply Triple.bind (pushes n mem from_m inside)
    intro r
    by_cases success : r = 0
    · have next : n + (left + 1) = n + 1 + left := by omega
      rw [if_pos success, if_neg (not_not.mpr success), ← Nat.succ_mul, next]
      exact ih (Nat.le_succ_of_le from_m)
    rw [if_neg success, if_pos success]
    apply Triple.given
    intro failed
    apply Triple.bindRelease
    exact back failed.2 n _ from_m bound

theorem uvmalloc_by (small : oldsz ≤ userPages * pgSize) (limit : ∀ n h, P n h → n ≤ userPages)
    (deallocs : fails → ∀ n, pages oldsz ≤ n → n ≤ userPages →
      Triple (ram.supply fails) (P n) (uvmdealloc root (n * pgSize) (pages oldsz * pgSize)) fun _ => B)
    (pushes : ∀ n pa, pages oldsz ≤ n → pa ∈ ram.pool → Triple (ram.supply fails) (points pa Page.zero * P n)
      (mappages root (n * pgSize) pgSize pa (pteR ||| pteU ||| xperm)) fun r =>
        if r = 0 then P (n + 1) else given (r = -1 ∧ fails) (points pa Page.zero * P n)) :
    Triple (ram.supply fails) (P (pages oldsz)) (uvmalloc root oldsz newsz xperm) fun r =>
      either (given (r = max oldsz newsz) (P (pages (max oldsz newsz)))) (given (r = 0) B) := by
  have range := userPages_eq
  unfold pgSize at small
  rw [uvmalloc]
  by_cases less : newsz < oldsz
  · rw [if_pos less, Nat.max_eq_left (Nat.le_of_lt less)]
    exact Triple.done fun h holds => Or.inl ⟨rfl, holds⟩
  rw [if_neg less, Nat.max_eq_right (Nat.not_lt.mp less), pgroundup_eq (by omega)]
  have count : (newsz - pages oldsz * pgSize + pgSize - 1) / pgSize = pages newsz - pages oldsz := by
    unfold pages pgSize
    omega
  have total : pages oldsz + (pages newsz - pages oldsz) = pages newsz := by
    unfold pages pgSize
    omega
  have loop := @uvmallocFrom_by ram fails root (pages oldsz) (pages oldsz) xperm newsz P B (pages newsz - pages oldsz)
    (Nat.le_refl _) limit deallocs pushes
  rw [total] at loop
  change Triple _ _ (uvmallocFrom root (pages oldsz * pgSize) newsz xperm
    ((newsz - pages oldsz * pgSize + pgSize - 1) / pgSize) (pages oldsz * pgSize)) _
  rw [count]
  exact loop

end Loop

theorem uvmalloc_spec (small : oldsz ≤ userPages * pgSize) (flags : xperm < 1024)
    (fine : ∀ pa ∈ ram.pool, ok (pa2pte pa ||| (pteR ||| pteU ||| xperm) ||| pteV)) :
    Triple (ram.supply fails) (Memory ram root (pages oldsz) top ok) (uvmalloc root oldsz newsz xperm) fun r =>
      either (given (r = max oldsz newsz) (Memory ram root (pages (max oldsz newsz)) top ok))
        (given (r = 0) (Memory ram root (pages oldsz) top ok)) := by
  have perm : pteR ||| pteU ||| xperm < 2 ^ 10 := Nat.or_lt_two_pow (by decide) flags
  apply @uvmalloc_by ram fails root xperm oldsz newsz (fun n => Memory ram root n top ok) _ small
  · exact fun n h ⟨_, shape, _⟩ => shape.bound
  · intro _ n from_m bound
    have dealloc := @uvmdealloc_spec ram fails root top ok (n * pgSize) (pages oldsz * pgSize) (Nat.mul_le_mul_right _ bound)
    rw [pages_mul, Nat.min_eq_right (Nat.mul_le_mul_right _ from_m), pages_mul] at dealloc
    exact dealloc.post fun _ h holds => holds.2
  · intro n pa _ inside
    exact mappages_push inside perm uvmalloc_readable (fine pa inside)

end Grow

end OShard.Space
