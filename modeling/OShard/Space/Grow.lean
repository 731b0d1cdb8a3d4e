import OShard.Space.Transfer

namespace OShard.Space

open Separation Assertion Prog

variable {ram : Ram} {fails : Prop} {root m n : Nat} {top entry : Nat → Nat} {data : Nat → Page} {h : Heap Page}

section Held

theorem uvmunmap_pages {lo np : Nat} (leaf : ∀ k, k < np → Leaf (entry (lo + k))) (bound : lo + np ≤ userPages) :
    Triple (ram.supply fails) (Table ram 2 root entry * ∏ k ∈ Finset.range np, page ram (pte2pa (entry (lo + k))))
      (uvmunmap root (lo * pgSize) np true) fun _ => Table ram 2 root (clear lo np entry) := by
  have range := userPages_eq
  have aligned : ¬lo * pgSize % pgSize ≠ 0 := not_not.mpr (Nat.mul_mod_left _ _)
  rw [uvmunmap, if_neg aligned]
  induction np with
  | zero =>
    rw [Finset.range_zero, Finset.prod_empty, mul_one, clear_zero]
    exact Triple.pure rfl
  | succ np ih =>
    rw [Finset.prod_range_succ, ← mul_assoc]
    apply Triple.call (ih (fun k below => leaf k (by omega)) (by omega))
    intro _
    have here : clear lo np entry (lo + np) = entry (lo + np) := if_neg (by omega)
    change Triple _ _ (unmapPage root (lo * pgSize + np * pgSize) true) _
    rw [← Nat.add_mul, clear_succ, ← here]
    apply unmapPage_free (by omega)
    rw [here]
    exact leaf np (by omega)

theorem uvmunmap_held (less : m ≤ n) : Triple (ram.supply fails) (Held ram root n top entry data)
    (uvmunmap root (m * pgSize) (n - m) true) fun _ => Held ram root m top (clear m (n - m) entry) data := by
  apply Triple.given
  rintro ⟨shape, inside⟩
  have bound := shape.bound
  have total : m + (n - m) = n := by omega
  have split : (∏ i ∈ Finset.range n, points (pte2pa (entry i)) (data i)) =
      (∏ i ∈ Finset.range m, points (pte2pa (entry i)) (data i)) *
        ∏ k ∈ Finset.range (n - m), points (pte2pa (entry (m + k))) (data (m + k)) := by
    rw [← Finset.prod_range_add, total]
  have freed := @uvmunmap_pages ram fails root entry m (n - m) (fun k below => (shape.leaf (m + k) (by omega)).1) (by omega)
  rw [split, mul_comm (∏ i ∈ Finset.range m, points (pte2pa (entry i)) (data i)), ← mul_assoc]
  apply ((freed.frame _).pre _).post
  · intro _ h holds
    refine ⟨⟨shape.clear less, fun i below => ?_⟩, ?_⟩
    · have kept : clear m (n - m) entry i = entry i := if_neg (by omega)
      rw [kept]
      exact inside i (by omega)
    · have kept : ∀ i ∈ Finset.range m, points (pte2pa (clear m (n - m) entry i)) (data i) = points (pte2pa (entry i)) (data i) := by
        intro i member
        have below := Finset.mem_range.mp member
        have kept : clear m (n - m) entry i = entry i := if_neg (by omega)
        rw [kept]
      rw [Finset.prod_congr rfl kept]
      exact holds
  · intro h holds
    refine mul_mono (fun h both => mul_mono (fun _ table => table) (fun h pages => ?_) both) (fun _ rest => rest) holds
    apply prod_mono _ pages
    intro k member g here
    have below := Finset.mem_range.mp member
    exact ⟨inside (m + k) (by omega), data (m + k), here⟩

/-- An address space of `n` pages of which the first `m` are as they were, and the others zero. -/
def Kept (ram : Ram) (root n : Nat) (top : Nat → Nat) (m : Nat) (entry : Nat → Nat) (data : Nat → Page) : Assertion Page :=
  any fun entry' => any fun data' => given ((∀ i, i < m → entry' i = entry i ∧ data' i = data i) ∧
    ∀ i, m ≤ i → i < n → data' i = Page.zero) (Held ram root n top entry' data')

theorem Held.kept (held : Held ram root n top entry data h) : Kept ram root n top n entry data h :=
  ⟨entry, data, ⟨fun _ _ => ⟨rfl, rfl⟩, fun i above below => absurd above (by omega)⟩, held⟩

theorem uvmunmap_kept (less : m ≤ n) : Triple (ram.supply fails) (Held ram root n top entry data)
    (uvmunmap root (m * pgSize) (n - m) true) fun _ => Kept ram root m top m entry data := by
  apply (uvmunmap_held less).post
  intro _ h holds
  refine ⟨_, data, ⟨fun i below => ⟨if_neg (by omega), rfl⟩, fun i above below => absurd above (by omega)⟩, holds⟩

end Held

section Grow

variable {pa perm oldsz newsz xperm : Nat} {page : Page}

theorem uvmdealloc_kept (small : oldsz ≤ userPages * pgSize) :
    Triple (ram.supply fails) (Held ram root (pages oldsz) top entry data) (uvmdealloc root oldsz newsz) fun r =>
      given (r = min oldsz newsz)
        (Kept ram root (pages (min oldsz newsz)) top (pages (min oldsz newsz)) entry data) := by
  apply @uvmdealloc_by ram fails root oldsz newsz _ (fun m => Kept ram root m top m entry data) small
  · exact fun h held => held.kept
  · intro m less
    exact uvmunmap_kept less

theorem Kept.dealloc (from_m : m ≤ n) (bound : n ≤ userPages) : Triple (ram.supply fails) (Kept ram root n top m entry data)
    (uvmdealloc root (n * pgSize) (m * pgSize)) fun _ => Kept ram root m top m entry data := by
  apply Triple.any
  intro entry'
  apply Triple.any
  intro data'
  apply Triple.given
  rintro ⟨same, -⟩
  have dealloc := @uvmdealloc_kept ram fails root top entry' data' (n * pgSize) (m * pgSize) (Nat.mul_le_mul_right _ bound)
  rw [pages_mul, Nat.min_eq_right (Nat.mul_le_mul_right _ from_m), pages_mul] at dealloc
  apply dealloc.post
  rintro _ h ⟨-, entry'', data'', ⟨same', -⟩, held⟩
  refine ⟨entry'', data'', ⟨fun i below => ?_, fun i above below => absurd above (by omega)⟩, held⟩
  rw [(same' i below).1, (same' i below).2]
  exact same i below

theorem Kept.map (from_m : m ≤ n) (inside : pa ∈ ram.pool) (small : perm < 1024) (some : perm &&& (pteR ||| pteW ||| pteX) ≠ 0) :
    Triple (ram.supply fails) (points pa Page.zero * Kept ram root n top m entry data) (mappages root (n * pgSize) pgSize pa perm) fun r =>
      if r = 0 then Kept ram root (n + 1) top m entry data
      else given (r = -1 ∧ fails) (points pa Page.zero * Kept ram root n top m entry data) := by
  apply mappages_among inside small some
  rintro entry' data' ⟨same, zero⟩
  refine ⟨fun i below => ?_, fun i above below => ?_⟩
  · rw [Function.update_of_ne (by omega), Function.update_of_ne (by omega)]
    exact same i below
  · by_cases last : i = n
    · rw [last, Function.update_self]
    · rw [Function.update_of_ne last]
      exact zero i above (by omega)

theorem uvmalloc_kept (small : oldsz ≤ userPages * pgSize) (flags : xperm < 1024) :
    Triple (ram.supply fails) (Held ram root (pages oldsz) top entry data) (uvmalloc root oldsz newsz xperm) fun r =>
      either (given (r = max oldsz newsz) (Kept ram root (pages (max oldsz newsz)) top (pages oldsz) entry data))
        (given (r = 0) (Kept ram root (pages oldsz) top (pages oldsz) entry data)) := by
  have perm : pteR ||| pteU ||| xperm < 2 ^ 10 := Nat.or_lt_two_pow (by decide) flags
  apply Triple.pre _ fun h held => Held.kept held
  apply @uvmalloc_by ram fails root xperm oldsz newsz (fun n => Kept ram root n top (pages oldsz) entry data) _ small
  · exact fun n h ⟨_, _, _, ⟨shape, _⟩, _⟩ => shape.bound
  · exact fun _ n => Kept.dealloc
  · exact fun n pa from_m inside => Kept.map from_m inside perm uvmalloc_readable

end Grow

section Growproc

variable {p : Proc}

theorem growproc_kept {n : Int} (small : p.sz ≤ userPages * pgSize) (fits : 0 ≤ p.sz + n) (high : n < 2 ^ 31) :
    Triple (ram.supply fails) (Held ram p.pagetable (pages p.sz) top entry data) (growproc p n) fun r =>
      either (given (r = (0, { p with sz := (p.sz + n).toNat }))
          (Kept ram p.pagetable (pages (p.sz + n).toNat) top (min (pages p.sz) (pages (p.sz + n).toNat)) entry data))
        (given (r = (-1, p)) (Kept ram p.pagetable (pages p.sz) top (pages p.sz) entry data)) := by
  have range := userPages_eq
  have newsz : ((p.sz + n) % 2 ^ 64).toNat = (p.sz + n).toNat := by
    unfold pgSize at small
    omega
  have monotone : ∀ {a b}, a ≤ b → pages a ≤ pages b := by
    intro a b less
    unfold pages pgSize
    omega
  rw [growproc, newsz]
  by_cases more : 0 < n
  · have larger : max p.sz (p.sz + n).toNat = (p.sz + n).toNat := by omega
    have first : min (pages p.sz) (pages (p.sz + n).toNat) = pages p.sz := Nat.min_eq_left (monotone (by omega))
    rw [if_pos more, first]
    apply Triple.bind (uvmalloc_kept small (by decide))
    intro sz
    rw [larger]
    apply Triple.either
    · apply Triple.given
      rintro rfl
      rw [if_neg (by omega)]
      exact Triple.done fun h holds => Or.inl ⟨rfl, holds⟩
    · apply Triple.given
      rintro rfl
      rw [if_pos rfl]
      exact Triple.done fun h holds => Or.inr ⟨rfl, holds⟩
  · have smaller : min p.sz (p.sz + n).toNat = (p.sz + n).toNat := by omega
    have first : min (pages p.sz) (pages (p.sz + n).toNat) = pages (p.sz + n).toNat := Nat.min_eq_right (monotone (by omega))
    rw [if_neg more, first]
    by_cases less : n < 0
    · rw [if_pos less]
      apply Triple.bind (uvmdealloc_kept small)
      intro sz
      rw [smaller]
      apply Triple.given
      rintro rfl
      exact Triple.done fun h holds => Or.inl ⟨rfl, holds⟩
    · have same : (p.sz + n).toNat = p.sz := by omega
      rw [if_neg less, same]
      exact Triple.done fun h holds => Or.inl ⟨rfl, holds.kept⟩

def byteAt (g : Heap Page) (root va : Nat) : Option Nat := physical g (pte2pa (lookup g va 2 root)) (va % pgSize)

/-- What the result of `growproc` says of the process before and after it, and of the memory. -/
structure Reports (p : Proc) (n : Int) (g g' : Heap Page) (r : Int) (p' : Proc) : Prop where
  result : r = 0 ∨ r = -1
  fields : p' = { p with sz := p'.sz }
  size : r = 0 → (p'.sz : Int) = p.sz + n
  mapped : r = 0 → ∀ va, va < trapframeVa → (lookup g' va 2 p.pagetable &&& pteV ≠ 0 ↔ va < pgroundup p'.sz)
  below : r = 0 → ∀ va, va < p.sz → va < p'.sz → byteAt g' p.pagetable va = byteAt g p.pagetable va
  fresh : r = 0 → ∀ va, pgroundup p.sz ≤ va → va < pgroundup p'.sz → byteAt g' p.pagetable va = some 0
  failed : r = -1 → p' = p ∧ (∀ va, va < trapframeVa → lookup g' va 2 p.pagetable = lookup g va 2 p.pagetable) ∧
    ∀ va, va < pgroundup p.sz → byteAt g' p.pagetable va = byteAt g p.pagetable va
  freed : r = -1 → ∀ a, g a = none → g' a ≠ none → TablePage g' 2 p.pagetable a

namespace Held

variable {g : Heap Page} {va i : Nat} (held : Held ram root n top entry data h) (within : h.Within g)

include held within

theorem lookup (below : va < maxVa) : Space.lookup g va 2 root = entry (va / pgSize) := by
  obtain ⟨-, left, right, apart, rfl, table, -⟩ := held
  rw [table.lookup ((Heap.within_left apart).trans within), index_top below]
  rfl

theorem page (below : i < n) : g (pte2pa (entry i)) = some (data i) := by
  obtain ⟨-, left, right, apart, rfl, -, pages⟩ := held
  rw [← Finset.mul_prod_erase _ _ (Finset.mem_range.mpr below)] at pages
  obtain ⟨one, two, apart', rfl, rfl, -⟩ := pages
  apply within
  exact Heap.within_right apart _ _ (Heap.union_left apart' Heap.single_self).1

theorem byteAt (below : va / pgSize < n) : Space.byteAt g root va = some (data (va / pgSize) (va % pgSize)) := by
  have bound := held.1.1.bound
  have range := userPages_eq
  have inside : va < maxVa := by
    unfold pgSize at below
    unfold maxVa
    omega
  rw [Space.byteAt, held.lookup within inside, physical, held.page within below]
  rfl

theorem valid_iff (below : va < trapframeVa) : Space.lookup g va 2 root &&& pteV ≠ 0 ↔ va / pgSize < n := by
  have limit : va / pgSize < userPages := by
    unfold trapframeVa trampolineVa maxVa pgSize at below
    have range := userPages_eq
    unfold pgSize
    omega
  have inside : va < maxVa := by
    unfold trapframeVa trampolineVa at below
    omega
  rw [held.lookup within inside]
  constructor
  · intro valid
    by_contra outside
    rw [held.1.1.empty _ limit (Nat.not_lt.mp outside)] at valid
    exact valid rfl
  · intro less
    exact (held.1.1.leaf _ less).1.valid

theorem tablePage {a : Nat}
    (others : ∀ i, i < n → a ≠ pte2pa (entry i)) (there : h a ≠ none) : TablePage g 2 root a := by
  obtain ⟨shape, left, right, apart, rfl, table, data⟩ := held.backed
  rw [table.page_iff ((Heap.within_left apart).trans within)]
  rcases Heap.union_ne_none.mp there with mine | other
  · exact mine
  obtain ⟨parts, divided, mine, -⟩ := data_parts shape data
  obtain ⟨i, here⟩ := divided.exists_part other
  obtain ⟨below, same⟩ := (mine i a).mp here
  exact absurd same (others i below)

end Held

theorem page_lt {sz va : Nat} (small : sz < 2 ^ 63) : va < pgroundup sz ↔ va / pgSize < pages sz := by
  rw [pgroundup_eq small]
  exact (Nat.div_lt_iff_lt_mul (by decide)).symm

theorem reports_zero {n : Int} {sz : Nat} {m m' g g' : Heap Page} (small : p.sz < 2 ^ 63) (small' : sz < 2 ^ 63) (size : (sz : Int) = p.sz + n)
    (before : Held ram p.pagetable (pages p.sz) top entry data m) (within : m.Within g)
    (after : Kept ram p.pagetable (pages sz) top (min (pages p.sz) (pages sz)) entry data m') (within' : m'.Within g') :
    Reports p n g g' 0 { p with sz := sz } := by
  obtain ⟨entry', data', ⟨same, zero⟩, held⟩ := after
  constructor
  · exact Or.inl rfl
  · rfl
  · exact fun _ => size
  · intro _ va below
    rw [page_lt small', held.valid_iff within' below]
  · intro _ va old new
    have first : va / pgSize < pages p.sz := (page_lt small).mp (by unfold pgroundup pgSize; omega)
    have second : va / pgSize < pages sz := (page_lt small').mp (by unfold pgroundup pgSize; change va < sz at new; omega)
    rw [held.byteAt within' second, before.byteAt within first, (same _ (by omega)).2]
  · intro _ va old new
    have first : ¬va / pgSize < pages p.sz := fun less => absurd ((page_lt small).mpr less) (by omega)
    have second : va / pgSize < pages sz := (page_lt small').mp new
    rw [held.byteAt within' second, zero _ (by omega) second]
    rfl
  · intro wrong
    cases wrong
  · intro wrong
    cases wrong

theorem reports_failed {n : Int} {m m' g g' : Heap Page} (small : p.sz < 2 ^ 63)
    (before : Held ram p.pagetable (pages p.sz) top entry data m) (within : m.Within g)
    (after : Kept ram p.pagetable (pages p.sz) top (pages p.sz) entry data m') (within' : m'.Within g')
    (others : ∀ a, g a = none → g' a ≠ none → m' a ≠ none) : Reports p n g g' (-1) p := by
  obtain ⟨entry', data', ⟨same, -⟩, held⟩ := after
  have range := userPages_eq
  constructor
  · exact Or.inr rfl
  · rfl
  · intro wrong
    cases wrong
  · intro wrong
    cases wrong
  · intro wrong
    cases wrong
  · intro wrong
    cases wrong
  · intro _
    refine ⟨rfl, fun va below => ?_, fun va below => ?_⟩
    · have inside : va < maxVa := by
        unfold trapframeVa trampolineVa at below
        omega
      have limit : va / pgSize < userPages := by
        unfold trapframeVa trampolineVa maxVa pgSize at below
        unfold pgSize
        omega
      rw [held.lookup within' inside, before.lookup within inside]
      by_cases page : va / pgSize < pages p.sz
      · exact (same _ page).1
      · rw [held.1.1.empty _ limit (Nat.not_lt.mp page), before.1.1.empty _ limit (Nat.not_lt.mp page)]
    · have page := (page_lt small).mp below
      rw [held.byteAt within' page, before.byteAt within page, (same _ page).2]
  · intro _ a absent present
    apply held.tablePage within' _ (others a absent present)
    rintro i below rfl
    rw [(same i below).1, before.page within below] at absent
    cases absent

theorem growproc_wraps {n : Int} (small : p.sz ≤ userPages * pgSize) (low : -2 ^ 31 ≤ n) (negative : p.sz + n < 0) (supply : Supply)
    (g : Heap Page) : Run supply (g, growproc p n) [] (g, .done (0, p)) := by
  have range := userPages_eq
  unfold pgSize at small
  have more : ¬0 < n := by omega
  have less : n < 0 := by omega
  have wraps : p.sz ≤ ((p.sz + n) % 2 ^ 64).toNat := by omega
  rw [growproc, if_neg more, if_pos less, uvmdealloc, if_pos wraps]
  exact .refl _

/-- `growproc` does what it reports if the new size is not negative. Otherwise the sum wraps around, `uvmdealloc` returns the
    old size, and `growproc` reports that it has shrunk the process. -/
theorem growproc_reports_iff {n : Int} {f : Heap Page} (owned : Owned ram p h) (apart : h.Apart f) (low : -2 ^ 31 ≤ n) (high : n < 2 ^ 31) :
    (∀ freed g' r p', Run (ram.supply True) (h.union f, growproc p n) freed (g', .done (r, p')) → Reports p n (h.union f) g' r p') ↔
      0 ≤ (p.sz : Int) + n := by
  have owned_small := owned.small
  have small := owned_small
  have range := userPages_eq
  unfold pgSize at small
  constructor
  · intro always
    by_contra negative
    have size := (always _ _ _ _ (growproc_wraps owned_small low (by omega) _ _)).size rfl
    omega
  · intro fits freed g' r p' run
    obtain ⟨t, m, apart', rfl, trapframe, memory⟩ := owned
    obtain ⟨entry, data, held⟩ := memory.held
    obtain ⟨apart₁, apart₂⟩ := Heap.apart_union.mp apart
    have union : (t.union m).union f = m.union (t.union f) := by
      rw [Heap.union_comm apart', Heap.union_assoc]
    have separate : m.Apart (t.union f) := (Heap.apart_union.mpr ⟨apart', apart₂.symm⟩).symm
    rw [union] at run ⊢
    have spec := @growproc_kept ram True (tops ram p.trapframe) entry data p n owned_small fits high
    obtain ⟨m', rfl, separate', ended, -⟩ := Run.framed separate (spec.run m held) run
    have within := Heap.within_left separate
    have within' := Heap.within_left separate'
    rcases ended with ⟨result, after⟩ | ⟨result, after⟩
    · cases result
      exact reports_zero (by omega) (by omega) (by omega) held within after within'
    cases result
    apply reports_failed (by omega) held within after within'
    intro a absent present
    rcases Heap.union_ne_none.mp present with mine | others
    · exact mine
    · exact absurd (Heap.union_none.mp absent).2 others

theorem firstProc_owned : Owned sixteenPages firstProc (bootWith (granted 7)).1 ∧ firstProc.sz = 4096 := by
  have ended : (bootWith (granted 7)).2.result.isSome = true := by decide +kernel
  obtain ⟨p, result⟩ := Option.isSome_iff_exists.mp ended
  have answered : none ∉ granted 7 := by decide
  obtain ⟨freed, run⟩ := @bootWith_run False _ (fun none => answered none) p result
  have same : firstProc = p := by
    rw [firstProc, result]
    rfl
  refine ⟨?_, by decide +kernel⟩
  rw [same]
  exact run.wp (userinit_spec.run _ rfl)

/-- The first process gives back its page. -/
theorem growproc_reports_shrink : 0 ≤ (firstProc.sz : Int) + -4096 ∧
    ∀ freed g' r p', Run (sixteenPages.supply True) ((bootWith (granted 7)).1.union Heap.empty, growproc firstProc (-4096)) freed (g', .done (r, p')) →
      Reports firstProc (-4096) ((bootWith (granted 7)).1.union Heap.empty) g' r p' := by
  have fits : 0 ≤ (firstProc.sz : Int) + -4096 := by
    rw [firstProc_owned.2]
    decide
  exact ⟨fits, (growproc_reports_iff firstProc_owned.1 (Heap.apart_empty _) (by decide) (by decide)).mpr fits⟩

/-- The first process asks for its memory to shrink by a byte more than it has. -/
theorem growproc_shrinks_nothing : Run (sixteenPages.supply True) ((bootWith (granted 7)).1, growproc firstProc (-4097)) []
      ((bootWith (granted 7)).1, .done (0, firstProc)) ∧
    ¬Reports firstProc (-4097) (bootWith (granted 7)).1 (bootWith (granted 7)).1 0 firstProc := by
  obtain ⟨owned, size⟩ := firstProc_owned
  constructor
  · apply growproc_wraps owned.small (by decide)
    rw [size]
    decide
  · intro reports
    have wrong := reports.size rfl
    omega

end Growproc

end OShard.Space
