import OShard.Space.AllOrNothing
import OShard.Space.Isolation

namespace OShard.Space

open Separation Assertion Prog

variable {ram : Ram} {fails : Prop} {root i n pa perm : Nat} {entry : Nat → Nat} {g h : Heap Page}

section Slots

theorem Cell.put {index k value : Nat} (cell : Cell ram 2 root entry index pa k h) (small : value < 2 ^ 64) :
    ∃ page, h pa = some page ∧ Table ram 2 root (Function.update entry index value) (h.put pa (some (page.setWord k value))) := by
  obtain ⟨page, rest, ⟨word, close⟩, left, right, apart, rfl, rfl, two⟩ := cell
  obtain ⟨here, free⟩ := Heap.union_left apart Heap.single_self
  refine ⟨page, here, ?_⟩
  have closed := close (page.setWord k value) (fun j other => Page.word_setWord_other other)
  rw [Page.word_setWord_self small] at closed
  apply closed
  rw [Heap.put_union free]
  exact ⟨_, right, apart.put free _, rfl, Heap.put_single _, two⟩

end Slots

section Ranges

def fill (i n pa perm : Nat) (entry : Nat → Nat) : Nat → Nat := fun j =>
  if i ≤ j ∧ j < i + n then pa2pte (pa + (j - i) * pgSize) ||| perm ||| pteV else entry j

theorem fill_zero : fill i 0 pa perm entry = entry := by
  funext j
  apply if_neg
  omega

theorem fill_succ : fill (i + 1) n (pa + pgSize) perm (Function.update entry i (pa2pte pa ||| perm ||| pteV)) =
    fill i (n + 1) pa perm entry := by
  funext j
  by_cases first : j = i
  · have before : ¬(i + 1 ≤ i ∧ i < i + 1 + n) := by omega
    have inside : i ≤ i ∧ i < i + (n + 1) := by omega
    rw [first, fill, if_neg before, Function.update_self, fill, if_pos inside, Nat.sub_self, Nat.zero_mul, Nat.add_zero]
  unfold fill
  rw [Function.update_of_ne first]
  by_cases inside : i ≤ j ∧ j < i + (n + 1)
  · have next : i + 1 ≤ j ∧ j < i + 1 + n := by omega
    have address : pa + pgSize + (j - (i + 1)) * pgSize = pa + (j - i) * pgSize := by
      unfold pgSize
      omega
    rw [if_pos inside, if_pos next, address]
  · have next : ¬(i + 1 ≤ j ∧ j < i + 1 + n) := by omega
    rw [if_neg inside, if_neg next]

theorem pte_word (small : perm < 1024) (bounded : pa < 2 ^ 64) : pa2pte pa ||| perm ||| pteV < 2 ^ 64 := by
  have flags : perm ||| pteV < 2 ^ 10 := Nat.or_lt_two_pow small (by decide)
  rw [pte_eq small]
  omega

def Filled (ram : Ram) (fails : Prop) (root i n pa perm : Nat) (entry : Nat → Nat) (r : Int) : Assertion Page :=
  any fun k => given (k ≤ n ∧ i + k ≤ 2 ^ 26 ∧ (r = 0 ∧ k = n ∨ r = -1 ∧ k < n ∧ fails)) (Table ram 2 root (fill i k pa perm entry))

theorem mapFrom_returns (small : perm < 1024) (start : i ≤ 2 ^ 26) (bounded : pa + n * pgSize ≤ 2 ^ 64) :
    Returns (ram.supply fails) (Table ram 2 root entry) (mapFrom root perm n (i * pgSize) pa) (Filled ram fails root i n pa perm entry) := by
  induction n generalizing i pa entry with
  | zero =>
    apply Returns.of
    apply Triple.done
    intro h holds
    refine ⟨0, ⟨Nat.le_refl _, start, Or.inl ⟨rfl, rfl⟩⟩, ?_⟩
    rw [fill_zero]
    exact holds
  | succ n ih =>
    rw [mapFrom]
    by_cases above : maxVa ≤ i * pgSize
    · rw [walk, if_pos above]
      exact Returns.fail
    have below : i < 2 ^ 26 := by
      unfold maxVa pgSize at above
      omega
    apply Returns.bind (Returns.of (walk_spec below))
    intro r
    cases r with
    | none =>
      apply Returns.of
      apply Triple.given
      intro failed
      apply Triple.done
      intro h holds
      refine ⟨0, ⟨Nat.zero_le _, start, Or.inr ⟨rfl, Nat.succ_pos n, failed.2 rfl⟩⟩, ?_⟩
      rw [fill_zero]
      exact holds
    | some found =>
      obtain ⟨t, k⟩ := found
      unfold pgSize at bounded
      have next : i * pgSize + pgSize = (i + 1) * pgSize := (Nat.succ_mul _ _).symm
      apply Returns.bind (Returns.of (Cell.load i))
      intro pte
      by_cases valid : pte &&& pteV ≠ 0
      · rw [if_pos valid]
        exact Returns.fail
      rw [if_neg valid]
      apply Returns.bind (Returns.of (Triple.given fun _ => Cell.store (pte_word small (by omega))))
      intro _
      rw [next]
      apply Returns.post (ih below (by unfold pgSize; omega))
      rintro r h ⟨k, ⟨count, high, how⟩, holds⟩
      rw [fill_succ] at holds
      refine ⟨k + 1, ⟨by omega, by omega, ?_⟩, holds⟩
      rcases how with ⟨zero, all⟩ | ⟨minus, less, failed⟩
      · exact Or.inl ⟨zero, by omega⟩
      · exact Or.inr ⟨minus, by omega, failed⟩

theorem mappages_returns {va size : Nat} (small : perm < 1024) (bounded : pa + size ≤ 2 ^ 64) :
    Returns (ram.supply fails) (Table ram 2 root entry) (mappages root va size pa perm) fun r =>
      given (va % pgSize = 0) (Filled ram fails root (va / pgSize) (size / pgSize) pa perm entry r) := by
  rw [mappages]
  by_cases aligned : va % pgSize ≠ 0
  · rw [if_pos aligned]
    exact Returns.fail
  rw [if_neg aligned]
  by_cases whole : size % pgSize ≠ 0
  · rw [if_pos whole]
    exact Returns.fail
  rw [if_neg whole]
  by_cases none : size = 0
  · rw [if_pos none]
    exact Returns.fail
  rw [if_neg none]
  have address : va / pgSize * pgSize = va := Nat.div_mul_cancel (Nat.dvd_of_mod_eq_zero (not_not.mp aligned))
  by_cases start : va / pgSize ≤ 2 ^ 26
  · have pages := @mapFrom_returns ram fails root (va / pgSize) (size / pgSize) pa perm entry small start
      (by unfold pgSize; omega)
    rw [address] at pages
    exact Returns.post pages fun r h holds => ⟨not_not.mp aligned, holds⟩
  obtain ⟨pages, count⟩ : ∃ pages, size / pgSize = pages + 1 := by
    unfold pgSize at whole
    exact ⟨size / pgSize - 1, by unfold pgSize; omega⟩
  have above : maxVa ≤ va := by
    unfold maxVa
    unfold pgSize at start
    omega
  rw [count, mapFrom, walk, if_pos above]
  exact Returns.fail

def behind (doFree : Bool) (pte : Nat) : Assertion Page := if doFree = true then any (points (pte2pa pte)) else 1

theorem unmapPage_returns {doFree : Bool} :
    Returns (ram.supply fails) (Table ram 2 root entry * behind doFree (entry i)) (unmapPage root (i * pgSize) doFree) fun _ =>
      given (i < 2 ^ 26 ∧ entry i &&& pteV ≠ 0) (Table ram 2 root (Function.update entry i 0)) := by
  rw [unmapPage]
  by_cases above : maxVa ≤ i * pgSize
  · rw [walk, if_pos above]
    exact Returns.fail
  have below : i < 2 ^ 26 := by
    unfold maxVa pgSize at above
    omega
  apply Returns.call (Returns.of (walk_spec below))
  intro r
  cases r with
  | none => exact Returns.fail
  | some found =>
    obtain ⟨t, k⟩ := found
    apply Returns.call (Returns.of (Cell.load i))
    intro pte
    rw [given_mul]
    apply Returns.given
    rintro rfl
    by_cases valid : entry i &&& pteV = 0
    · rw [if_pos valid]
      exact Returns.fail
    rw [if_neg valid]
    by_cases table : pteFlags (entry i) = pteV
    · rw [if_pos table]
      exact Returns.fail
    rw [if_neg table]
    apply Returns.of
    have stored : Triple (ram.supply fails) (Cell ram 2 root entry i t k) (store t k 0) fun _ =>
        given (i < 2 ^ 26 ∧ entry i &&& pteV ≠ 0) (Table ram 2 root (Function.update entry i 0)) :=
      (Cell.store (by decide)).post fun _ h holds => ⟨⟨below, valid⟩, holds⟩
    cases doFree with
    | false =>
      rw [behind, if_neg (by decide), mul_one, if_neg (by decide)]
      exact stored
    | true =>
      rw [behind, if_pos rfl, if_pos rfl, mul_comm, any_mul]
      apply Triple.any
      intro junk
      exact Triple.bindRelease stored

theorem uvmunmap_returns {va npages : Nat} {doFree : Bool} {ptes : Nat → Nat}
    (same : ∀ k, va / pgSize + k < 2 ^ 26 → ptes k = entry (va / pgSize + k)) :
    Returns (ram.supply fails) (Table ram 2 root entry * ∏ k ∈ Finset.range npages, behind doFree (ptes k))
      (uvmunmap root va npages doFree) fun _ =>
        given (va % pgSize = 0 ∧ ∀ k, k < npages → va / pgSize + k < 2 ^ 26 ∧ entry (va / pgSize + k) &&& pteV ≠ 0)
          (Table ram 2 root (clear (va / pgSize) npages entry)) := by
  rw [uvmunmap]
  by_cases aligned : va % pgSize ≠ 0
  · rw [if_pos aligned]
    exact Returns.fail
  rw [if_neg aligned]
  have address : va / pgSize * pgSize = va := Nat.div_mul_cancel (Nat.dvd_of_mod_eq_zero (not_not.mp aligned))
  induction npages with
  | zero =>
    apply Returns.of
    rw [Finset.range_zero, Finset.prod_empty, mul_one, clear_zero]
    exact Triple.done fun h holds => ⟨⟨not_not.mp aligned, fun _ less => absurd less (Nat.not_lt_zero _)⟩, holds⟩
  | succ npages ih =>
    rw [Finset.prod_range_succ, ← mul_assoc]
    apply Returns.call ih
    intro _
    rw [given_mul]
    apply Returns.given
    intro before
    have page : va + npages * pgSize = (va / pgSize + npages) * pgSize := by rw [Nat.add_mul, address]
    change Returns _ _ (unmapPage root (va + npages * pgSize) doFree) _
    rw [page]
    by_cases below : va / pgSize + npages < 2 ^ 26
    · have here : clear (va / pgSize) npages entry (va / pgSize + npages) = entry (va / pgSize + npages) := if_neg (by omega)
      rw [same npages below, ← here]
      apply Returns.post unmapPage_returns
      intro _ h holds
      rw [here, ← clear_succ] at holds
      refine ⟨⟨before.1, fun k less => ?_⟩, holds.2⟩
      rcases Nat.lt_succ_iff_lt_or_eq.mp less with earlier | rfl
      · exact before.2 k earlier
      · exact holds.1
    · have above : maxVa ≤ (va / pgSize + npages) * pgSize := by
        unfold maxVa
        unfold pgSize at below ⊢
        omega
      rw [unmapPage, walk, if_pos above]
      exact Returns.fail

theorem walk_returns {va : Nat} {alloc : Bool} : Returns (ram.supply fails) (Table ram 2 root entry) (walk root va alloc) fun r =>
    match r with
    | none => given (va < maxVa ∧ (alloc = false → entry (va / 4096) = 0)) (Table ram 2 root entry)
    | some (pa, k) => given (va < maxVa) (Cell ram 2 root entry (va / 4096) pa k) := by
  by_cases above : maxVa ≤ va
  · rw [walk, if_pos above]
    exact Returns.fail
  have below := Nat.not_le.mp above
  apply Returns.post (Returns.of (walk_at below))
  intro r h holds
  cases r with
  | none => exact ⟨⟨below, holds.1.1⟩, holds.2⟩
  | some found => exact ⟨below, holds⟩

theorem uvmcreate_spec : Triple (ram.supply fails) 1 uvmcreate fun r =>
    match r with
    | none => given fails 1
    | some root => Table ram 2 root fun _ => 0 := by
  rw [uvmcreate]
  apply Triple.bindAllocate
  · exact fun failed => Triple.done fun h holds => ⟨failed, holds⟩
  intro root inside junk
  apply Triple.bindUpdate
  apply Triple.done
  intro h holds
  rw [mul_one] at holds
  exact table_zero inside (fun _ _ => rfl) holds

end Ranges

section Translations

variable {va : Nat}

def decode (pte : Nat) : Option (Nat × Nat) := if pte &&& pteV = 0 then none else some (pte2pa pte, pteFlags pte)

def translate (g : Heap Page) (root va : Nat) : Option (Nat × Nat) := decode (lookup g va 2 root)

variable {k : Nat} {h' g' : Heap Page}

theorem decode_pte (small : perm < 1024) : decode (pa2pte pa ||| perm ||| pteV) = some (pgrounddown pa, perm ||| pteV) := by
  have flags : perm ||| pteV < 2 ^ 10 := Nat.or_lt_two_pow small (by decide)
  have valid : ¬(pa2pte pa ||| perm ||| pteV) &&& pteV = 0 := by
    rw [Nat.and_or_distrib_right]
    exact fun zero => absurd (Nat.or_eq_zero_iff.mp zero).2 (by decide)
  have page : pte2pa (pa2pte pa ||| perm ||| pteV) = pgrounddown pa := by
    rw [pte_eq small, pte2pa_eq]
    unfold pgrounddown pgSize
    omega
  rw [decode, if_neg valid, page, pteFlags_pte small]

theorem Table.translate (table : Table ram 2 root entry h) (within : h.Within g) (below : va < maxVa) :
    Space.translate g root va = decode (entry (va / 4096)) := by
  rw [Space.translate, table.lookup within, index_top below]

/-- `k` pages from `va` on are mapped to those from `pa` on, and nothing else changes. -/
structure Mapped (g g' : Heap Page) (root va pa perm k : Nat) : Prop where
  range : ∀ i, i < k → translate g' root (va + i * pgSize) = some (pgrounddown (pa + i * pgSize), perm ||| pteV)
  others : ∀ va', va' < maxVa → va' < va ∨ va + k * pgSize ≤ va' → translate g' root va' = translate g root va'

/-- `k` pages from `va` on, which were mapped, are not any more, and nothing else changes. -/
structure Unmapped (g g' : Heap Page) (root va k : Nat) : Prop where
  range : ∀ i, i < k → translate g root (va + i * pgSize) ≠ none ∧ translate g' root (va + i * pgSize) = none
  others : ∀ va', va' < maxVa → va' < va ∨ va + k * pgSize ≤ va' → translate g' root va' = translate g root va'

theorem page_of (aligned : va % pgSize = 0) : (va + k * pgSize) / 4096 = va / pgSize + k := by
  unfold pgSize at aligned ⊢
  omega

theorem page_below (aligned : va % pgSize = 0) (below : va / pgSize + k < 2 ^ 26) : va + k * pgSize < maxVa := by
  unfold maxVa
  unfold pgSize at aligned below ⊢
  omega

theorem page_outside {va' : Nat} (aligned : va % pgSize = 0) (outside : va' < va ∨ va + k * pgSize ≤ va') :
    ¬(va / pgSize ≤ va' / 4096 ∧ va' / 4096 < va / pgSize + k) := by
  unfold pgSize at aligned outside ⊢
  omega

theorem Table.mapped (before : Table ram 2 root entry h) (within : h.Within g)
    (after : Table ram 2 root (fill (va / pgSize) k pa perm entry) h') (within' : h'.Within g') (small : perm < 1024)
    (aligned : va % pgSize = 0) (high : va / pgSize + k ≤ 2 ^ 26) : Mapped g g' root va pa perm k := by
  constructor
  · intro i less
    have inside : va / pgSize ≤ va / pgSize + i ∧ va / pgSize + i < va / pgSize + k := by omega
    rw [after.translate within' (page_below aligned (by omega)), page_of aligned, fill, if_pos inside, decode_pte small,
      Nat.add_sub_cancel_left]
  · intro va' below outside
    rw [after.translate within' below, before.translate within below, fill, if_neg (page_outside aligned outside)]

theorem Table.unmapped (before : Table ram 2 root entry h) (within : h.Within g)
    (after : Table ram 2 root (clear (va / pgSize) k entry) h') (within' : h'.Within g') (aligned : va % pgSize = 0)
    (valid : ∀ i, i < k → va / pgSize + i < 2 ^ 26 ∧ entry (va / pgSize + i) &&& pteV ≠ 0) : Unmapped g g' root va k := by
  constructor
  · intro i less
    have inside : va / pgSize ≤ va / pgSize + i ∧ va / pgSize + i < va / pgSize + k := by omega
    have below := page_below aligned (valid i less).1
    rw [after.translate within' below, before.translate within below, page_of aligned, clear, if_pos inside, decode,
      if_neg (valid i less).2]
    exact ⟨Option.some_ne_none _, rfl⟩
  · intro va' below outside
    rw [after.translate within' below, before.translate within below, clear, if_neg (page_outside aligned outside)]

end Translations

section Built

/-- A page table that these calls have made, in a memory that others use too, whatever `kalloc` returned. The pages that
    `uvmunmap` frees are not those of the table, and each is mapped once. -/
inductive Built (ram : Ram) (root : Nat) : Heap Page → Prop where
  | uvmcreate {h f freed} : h.Apart f →
      Run (ram.supply True) (f, uvmcreate) freed (h.union f, .done (some root)) → Built ram root h
  | walk {h h' f va alloc r freed} : Built ram root h →
      h.Apart f → h'.Apart f → Run (ram.supply True) (h.union f, walk root va alloc) freed (h'.union f, .done r) → Built ram root h'
  | mappages {h h' f va size pa perm r freed} : Built ram root h →
      h.Apart f → h'.Apart f → perm < 1024 → pa + size ≤ 2 ^ 64 →
      Run (ram.supply True) (h.union f, mappages root va size pa perm) freed (h'.union f, .done r) → Built ram root h'
  | uvmunmap {h h' d f va npages doFree freed} : Built ram root h →
      h.Apart d → (h.union d).Apart f → h'.Apart f →
      (∏ k ∈ Finset.range npages, behind doFree (lookup h (va + k * pgSize) 2 root)) d →
      Run (ram.supply True) ((h.union d).union f, uvmunmap root va npages doFree) freed (h'.union f, .done ()) → Built ram root h'

variable {f : Heap Page} {freed : List Nat}

theorem Table.mappages {va size : Nat} {r : Int} (table : Table ram 2 root entry h) (apart : h.Apart f) (small : perm < 1024)
    (bounded : pa + size ≤ 2 ^ 64)
    (run : Run (ram.supply True) (h.union f, mappages root va size pa perm) freed (g, .done r)) :
    ∃ h' k, g = h'.union f ∧ h'.Apart f ∧ (r = 0 ∧ k = size / pgSize ∨ r = -1 ∧ k < size / pgSize) ∧ va % pgSize = 0 ∧
      va / pgSize + k ≤ 2 ^ 26 ∧ Table ram 2 root (fill (va / pgSize) k pa perm entry) h' := by
  obtain ⟨h', rfl, apart', aligned, k, ⟨-, high, how⟩, table'⟩ := (mappages_returns small bounded).run table apart run
  have how' : r = 0 ∧ k = size / pgSize ∨ r = -1 ∧ k < size / pgSize := how.imp_right fun both => ⟨both.1, both.2.1⟩
  exact ⟨h', k, rfl, apart', how', aligned, high, table'⟩

theorem Table.uvmunmap {va npages : Nat} {doFree : Bool} {d : Heap Page} (table : Table ram 2 root entry h) (apart : h.Apart d)
    (others : (h.union d).Apart f) (pages : (∏ k ∈ Finset.range npages, behind doFree (Space.lookup h (va + k * pgSize) 2 root)) d)
    (run : Run (ram.supply True) ((h.union d).union f, uvmunmap root va npages doFree) freed (g, .done ())) :
    ∃ h', g = h'.union f ∧ h'.Apart f ∧ va % pgSize = 0 ∧
      (∀ k, k < npages → va / pgSize + k < 2 ^ 26 ∧ entry (va / pgSize + k) &&& pteV ≠ 0) ∧
      Table ram 2 root (clear (va / pgSize) npages entry) h' := by
  by_cases aligned : va % pgSize = 0
  · have same : ∀ k, va / pgSize + k < 2 ^ 26 → Space.lookup h (va + k * pgSize) 2 root = entry (va / pgSize + k) := by
      intro k below
      rw [table.lookup (Heap.Within.refl h), index_top (page_below aligned below), page_of aligned]
    obtain ⟨h', rfl, apart', facts, table'⟩ := (uvmunmap_returns same).run ⟨h, d, apart, rfl, table, pages⟩ others run
    exact ⟨h', rfl, apart', facts.1, facts.2, table'⟩
  · rw [Space.uvmunmap, if_pos aligned] at run
    rcases run with _ | ⟨step, _⟩
    cases step

theorem Built.table (built : Built ram root h) : ∃ entry, Table ram 2 root entry h := by
  induction built with
  | @uvmcreate h f freed apart run =>
    rw [← Heap.empty_union f] at run
    have start : (1 : Assertion Page) Heap.empty := rfl
    obtain ⟨h', same, apart', table⟩ := (Returns.of uvmcreate_spec).run start (Heap.apart_empty f).symm run
    rw [Heap.empty_union] at same
    cases Heap.union_cancel apart apart' same
    exact ⟨_, table⟩
  | @walk h h' f va alloc r freed _ apart apart' run ih =>
    obtain ⟨entry, table⟩ := ih
    obtain ⟨h'', same, apart'', ended⟩ := walk_returns.run table apart run
    cases Heap.union_cancel apart' apart'' same
    cases r with
    | none => exact ⟨entry, ended.2⟩
    | some found => exact ⟨entry, ended.2.table⟩
  | mappages _ apart apart' small bounded run ih =>
    obtain ⟨entry, table⟩ := ih
    obtain ⟨h'', k, same, apart'', -, -, -, table'⟩ := table.mappages apart small bounded run
    cases Heap.union_cancel apart' apart'' same
    exact ⟨_, table'⟩
  | uvmunmap _ apart others apart' pages run ih =>
    obtain ⟨entry, table⟩ := ih
    obtain ⟨h'', same, apart'', -, -, table'⟩ := table.uvmunmap apart others pages run
    cases Heap.union_cancel apart' apart'' same
    exact ⟨_, table'⟩

def emptyTable : Heap Page := (follow sixteenPages.pool Page.zero 2 (granted 1) Heap.empty uvmcreate).1

theorem emptyTable_run : ∃ freed, Run (sixteenPages.supply True) (Heap.empty, uvmcreate) freed (emptyTable, .done (some 0x80100000)) :=
  follow_done (fun _ => trivial) (by decide +kernel)

end Built

end OShard.Space
