import OShard.Space.Grow

namespace OShard.Space

open Separation Assertion Prog

variable {ram : Ram} {root new sz i j n : Nat} {top top' entry : Nat → Nat} {data : Nat → Page} {g g' h c f : Heap Page}

theorem Held.separate (held : Held ram root n top entry data h) (within : h.Within g) (below : i < n) :
    ¬TablePage g 2 root (pte2pa (entry i)) ∧ (j < n → pte2pa (entry i) = pte2pa (entry j) → i = j) := by
  obtain ⟨shape, left, right, apart, rfl, table, data⟩ := held.backed
  obtain ⟨parts, divided, mine, -⟩ := data_parts shape data
  have here := (mine i _).mpr ⟨below, rfl⟩
  refine ⟨?_, fun below' same => divided.part_unique here ((mine j _).mpr ⟨below', same⟩)⟩
  rw [table.page_iff ((Heap.within_left apart).trans within)]
  exact fun shared => shared ((apart _).resolve_right ((divided.within i).ne_none here))

structure Duplicated (old new sz : Nat) (g g' : Heap Page) : Prop where
  mapped : ∀ va, va < trapframeVa → (lookup g' va 2 new &&& pteV ≠ 0 ↔ va < pgroundup sz)
  flags : ∀ va, va < pgroundup sz → pteFlags (lookup g' va 2 new) = pteFlags (lookup g va 2 old)
  bytes : ∀ va, va < pgroundup sz → byteAt g old va ≠ none ∧ byteAt g' new va = byteAt g old va
  fresh : ∀ va, va < pgroundup sz → g (pte2pa (lookup g' va 2 new)) = none ∧ ¬TablePage g' 2 new (pte2pa (lookup g' va 2 new))
  distinct : ∀ va va', va < pgroundup sz → va' < pgroundup sz →
    pte2pa (lookup g' va 2 new) = pte2pa (lookup g' va' 2 new) → va / pgSize = va' / pgSize

theorem Copies.copied {m : Heap Page} (held : Held ram root (pages sz) top entry data m) (within : m.Within g)
    (copies : Copies ram new (pages sz) top' entry data c) (within' : c.Within g') (apart : g.Apart c) : Duplicated root new sz g g' := by
  obtain ⟨entry', data', same, child⟩ := copies
  have range := userPages_eq
  have bound := held.1.1.bound
  have small : sz < 2 ^ 63 := by
    unfold pages pgSize at bound
    omega
  have inside : ∀ va, va < pgroundup sz → va / pgSize < pages sz ∧ va < maxVa := by
    intro va below
    have page := (page_lt small).mp below
    refine ⟨page, ?_⟩
    unfold pgSize at page
    unfold maxVa
    omega
  constructor
  · intro va below
    rw [page_lt small, child.valid_iff within' below]
  · intro va below
    obtain ⟨page, low⟩ := inside va below
    rw [child.lookup within' low, held.lookup within low, (same _ page).1]
  · intro va below
    obtain ⟨page, -⟩ := inside va below
    rw [child.byteAt within' page, held.byteAt within page, (same _ page).2]
    exact ⟨nofun, rfl⟩
  · intro va below
    obtain ⟨page, low⟩ := inside va below
    rw [child.lookup within' low]
    refine ⟨?_, (child.separate (j := 0) within' page).1⟩
    rcases apart (pte2pa (entry' (va / pgSize))) with absent | absent
    · exact absent
    · rw [child.page (Heap.Within.refl c) page] at absent
      cases absent
  · intro va va' below below'
    obtain ⟨page, low⟩ := inside va below
    obtain ⟨page', low'⟩ := inside va' below'
    rw [child.lookup within' low, child.lookup within' low']
    exact (child.separate within' page).2 page'

/-- `uvmcopy` with any table for the child that has no user pages, and `fork`: the parent's memory is a part of `g`. -/
theorem fork_copies_memory {p : Proc} {registers : Page} (memory : Memory ram p.pagetable (pages p.sz) top anyPte h) (part : h.Within g)
    (frame : g p.trapframe = some registers) (child : Memory ram new 0 top' anyPte c) (apart : g.Apart c) :
    (∀ freed g' q, Run (ram.supply True) (g.union c, uvmcopy p.pagetable new p.sz) freed (g', q) →
      q.Safe g' ∧ Acc (fun after before => Prog.Step (ram.supply True) before after) (g', q) ∧
      ∀ r, q = .done r → g.Within g' ∧ (r = 0 ∧ Duplicated p.pagetable new p.sz g g' ∨
        r = -1 ∧ (∀ va, va < trapframeVa → lookup g' va 2 new &&& pteV = 0) ∧
          ∀ a, g a = none → g' a ≠ none → TablePage g' 2 new a)) ∧
    (∀ freed g' q, Run (ram.supply True) (g, fork ram.trampoline p) freed (g', q) →
      q.Safe g' ∧ Acc (fun after before => Prog.Step (ram.supply True) before after) (g', q) ∧ (q = .done none → g' = g) ∧
      ∀ np, q = .done (some np) → np.sz = p.sz ∧ g.Within g' ∧ Duplicated p.pagetable np.pagetable p.sz g g') := by
  obtain ⟨entry, data, held⟩ := memory.held
  constructor
  · intro freed g' q run
    have holds := run.wp ((uvmcopy_copies held part).run _ ⟨g, c, apart, rfl, rfl, child⟩)
    refine ⟨?_, step_acc g' q, ?_⟩
    · have safe := wp_safe (Heap.apart_empty g') holds
      rw [Heap.union_empty] at safe
      exact safe
    · rintro r rfl
      change (if r = 0 then _ else _ : Assertion Page) g' at holds
      by_cases success : r = 0
      · rw [if_pos success] at holds
        obtain ⟨_, c', apart', rfl, rfl, copies⟩ := holds
        exact ⟨Heap.within_left apart', Or.inl ⟨success, copies.copied held part (Heap.within_right apart') apart'⟩⟩
      rw [if_neg success] at holds
      obtain ⟨failed, _, c', apart', rfl, rfl, memory'⟩ := holds
      obtain ⟨entry', data', held'⟩ := memory'.held
      have within := Heap.within_right apart'
      refine ⟨Heap.within_left apart', Or.inr ⟨failed, fun va below => ?_, fun a absent present => ?_⟩⟩
      · by_contra valid
        exact absurd ((held'.valid_iff within below).mp valid) (Nat.not_lt_zero _)
      · apply held'.tablePage within nofun
        rcases Heap.union_ne_none.mp present with parent | mine
        · exact absurd absent parent
        · exact mine
  · intro freed g' q run
    have holds := run.wp ((fork_copies frame held part).run g rfl)
    refine ⟨?_, step_acc g' q, ?_, ?_⟩
    · have safe := wp_safe (Heap.apart_empty g') holds
      rw [Heap.union_empty] at safe
      exact safe
    · rintro rfl
      exact holds
    · rintro np rfl
      obtain ⟨⟨size, -⟩, _, both, apart', rfl, rfl, t, c', disjoint, rfl, -, copies⟩ := holds
      exact ⟨size, Heap.within_left apart',
        copies.copied held part ((Heap.within_right disjoint).trans (Heap.within_right apart')) (Heap.apart_union.mp apart'.symm).2.symm⟩

/-- The first process and its child. -/
theorem fork_copies_memory_first : ∃ freed g' np, Run (sixteenPages.supply True)
    ((bootWith (granted 7)).1, fork sixteenPages.trampoline firstProc) freed (g', .done (some np)) ∧
      Duplicated firstProc.pagetable np.pagetable firstProc.sz (bootWith (granted 7)).1 g' := by
  obtain ⟨owned, -⟩ := firstProc_owned
  obtain ⟨t, m, apart, whole, ⟨-, registers, rfl⟩, memory⟩ := owned
  have frame := Heap.within_left apart _ _ (@Heap.single_self _ firstProc.trapframe registers)
  have part := Heap.within_right apart
  have free : (bootWith (granted 7)).1 0x80107000 = none := by decide +kernel
  rw [← whole] at frame part
  have child := @memory_zero sixteenPages 0x80107000 _ (by decide) rfl
  have separate : (bootWith (granted 7)).1.Apart (Heap.single 0x80107000 Page.zero) := fun a => by
    by_cases same : a = 0x80107000
    · exact Or.inl (same ▸ free)
    · exact Or.inr (Heap.single_other same)
  have ended : (follow sixteenPages.pool Page.zero 300 ((granted 14).drop 7) (bootWith (granted 7)).1
      (fork sixteenPages.trampoline firstProc)).2.result.join.isSome = true := by decide +kernel
  obtain ⟨np, result⟩ := Option.isSome_iff_exists.mp ended
  obtain ⟨freed, run⟩ := @follow_done _ _ (sixteenPages.supply True) _ _ _ _ _ _ (fun _ => trivial) (Option.join_eq_some_iff.mp result)
  exact ⟨freed, _, np, run, (((fork_copies_memory memory part frame child separate).2 _ _ _ run).2.2.2 np rfl).2.2⟩

end OShard.Space
