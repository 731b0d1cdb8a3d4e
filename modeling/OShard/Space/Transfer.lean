import OShard.Space.Maps

namespace OShard.Space

open Separation Assertion Prog Overlay

variable {ram : Ram} {supply : Supply} {root va : Nat} {entry : Nat → Nat} {g h : Heap Page}

section Confined

def physical (g : Heap Page) (pa off : Nat) : Option Nat := (g pa).map fun page => page off

def Readable (g : Heap Page) (root va : Nat) : Prop := va < maxVa ∧ User (lookup g va 2 root)

def Writable (g : Heap Page) (root va : Nat) : Prop := Readable g root va ∧ lookup g va 2 root &&& pteW ≠ 0

/-- The bytes of `src` are at `va`, and all others of the memory are as they were. -/
structure Copied (root : Nat) (g g' : Heap Page) (va : Nat) (src : List Nat) : Prop where
  bytes : ∀ i (less : i < src.length), physical g' (pte2pa (lookup g' (va + i) 2 root)) ((va + i) % pgSize) = some src[i]
  others : ∀ pa off, off < pgSize → (∀ i, i < src.length → pa = pte2pa (lookup g (va + i) 2 root) → off ≠ (va + i) % pgSize) →
    physical g' pa off = physical g pa off

theorem ReadSpace.physical_byte (space : ReadSpace root entry g) (below : va / pgSize < 2 ^ 26) (user : User (entry (va / pgSize))) :
    physical g (pte2pa (entry (va / pgSize))) (va % pgSize) = some ((userMemory g entry).byte va) := by
  obtain ⟨page, there⟩ := Option.ne_none_iff_exists'.mp (space.page _ below user).1
  change _ = some (if va / pgSize < 2 ^ 26 ∧ User (entry (va / pgSize)) then _ else _)
  rw [if_pos ⟨below, user⟩, physical, there]
  rfl

namespace UserSpace

theorem lookup (space : UserSpace ram root entry h g) (below : va < maxVa) : Space.lookup g va 2 root = entry (va / pgSize) := by
  rw [space.table.lookup space.within, index_top below]
  rfl

theorem below_iff : va < maxVa ↔ va / pgSize < 2 ^ 26 := by
  unfold maxVa pgSize
  omega

theorem readable (space : UserSpace ram root entry h g) : Readable g root va ↔ (userMemory g entry).readable (va / pgSize) = true := by
  rw [readable_iff, Readable, ← below_iff]
  apply and_congr_right
  intro below
  rw [space.lookup below]

theorem writable (space : UserSpace ram root entry h g) : Writable g root va ↔ (userMemory g entry).writable (va / pgSize) = true := by
  rw [writable_iff, Writable, Readable, ← below_iff, and_assoc]
  apply and_congr_right
  intro below
  rw [space.lookup below]

theorem copied {g' : Heap Page} {src : List Nat} (space : UserSpace ram root entry h g) (space' : UserSpace ram root entry h g')
    (stored : userMemory g' entry = (userMemory g entry).write va src) (granted : ∀ i, i < src.length → Readable g root (va + i))
    (stores : Stored entry g g') : Copied root g g' va src := by
  constructor
  · intro i less
    obtain ⟨below, user⟩ := granted i less
    rw [space.lookup below] at user
    rw [space'.lookup below, space'.reads.physical_byte (below_iff.mp below) user, stored]
    exact congrArg some (paste_inside less)
  · intro pa off inside outside
    by_cases mapped : ∃ j, j < 2 ^ 26 ∧ User (entry j) ∧ pa = pte2pa (entry j)
    · obtain ⟨j, below, user, rfl⟩ := mapped
      have page : (j * pgSize + off) / pgSize = j := by
        unfold pgSize at *
        omega
      have offset : (j * pgSize + off) % pgSize = off := by
        unfold pgSize at *
        omega
      have before := @ReadSpace.physical_byte _ (j * pgSize + off) _ _ space.reads (by rw [page]; exact below) (by rw [page]; exact user)
      have after := @ReadSpace.physical_byte _ (j * pgSize + off) _ _ space'.reads (by rw [page]; exact below) (by rw [page]; exact user)
      rw [page, offset] at before after
      rw [before, after, stored]
      apply congrArg some
      apply paste_outside
      by_contra within
      obtain ⟨i, address⟩ := Nat.exists_eq_add_of_le (show va ≤ j * pgSize + off by omega)
      have less : i < src.length := by omega
      apply outside i less
      · rw [space.lookup (granted i less).1, ← address, page]
      · rw [← address, offset]
    · have same : g' pa = g pa := by
        clear stored space'
        induction stores with
        | refl => rfl
        | tail _ last ih =>
          obtain ⟨j, page, below, user, rfl⟩ := last
          rw [Heap.put_other fun equal => mapped ⟨j, below, user, equal⟩, ih]
      rw [physical, same, physical]

end UserSpace

/-- `copyout` and `copyin` end, without a panic, do what they report, and touch nothing else. No address wraps around:
    beyond the page before `MAXVA` both have returned. -/
theorem copies_confined (space : UserSpace ram root entry h g) :
    (∀ (dstva : Nat) (src : List Nat),
      Acc (fun c c' : Heap Page × Prog Page Int => Prog.Step supply c' c) (g, copyout root dstva src) ∧
      ∀ (freed : List Nat) (g' : Heap Page) (p' : Prog Page Int), Run supply (g, copyout root dstva src) freed (g', p') →
        p'.Safe g' ∧ ∀ r, p' = .done r →
          (r = 0 ∨ r = -1) ∧ (r = 0 ↔ ∀ i, i < src.length → Writable g root (dstva + i)) ∧
          ∃ m, m ≤ src.length ∧ (r = 0 → m = src.length) ∧ (∀ i, i < m → Writable g root (dstva + i)) ∧
            (m < src.length → ¬Writable g root (dstva + m)) ∧ Copied root g g' dstva (src.take m)) ∧
    (∀ (srcva len : Nat),
      Acc (fun c c' : Heap Page × Prog Page (Int × List Nat) => Prog.Step supply c' c) (g, copyinUpto root srcva len) ∧
      ∀ (freed : List Nat) (g' : Heap Page) (p' : Prog Page (Int × List Nat)), Run supply (g, copyinUpto root srcva len) freed (g', p') →
        p'.Safe g' ∧ ∀ r dst, p' = .done (r, dst) →
          g' = g ∧ (r = 0 ∨ r = -1) ∧ (r = 0 ↔ ∀ i, i < len → Readable g root (srcva + i)) ∧
          dst.length ≤ len ∧ (r = 0 → dst.length = len) ∧ (dst.length < len → ¬Readable g root (srcva + dst.length)) ∧
          ∀ i (less : i < dst.length), Readable g root (srcva + i) ∧
            physical g (pte2pa (lookup g (srcva + i) 2 root)) ((srcva + i) % pgSize) = some dst[i]) := by
  constructor
  · intro dstva src
    refine ⟨step_acc _ _, ?_⟩
    intro freed g' p' run
    have holds := run.wp (space.copyout dstva src)
    have safe := wp_safe (Heap.apart_empty g') holds
    rw [Heap.union_empty] at safe
    refine ⟨safe, ?_⟩
    rintro r rfl
    obtain ⟨result, space', stores⟩ := holds
    have spans := spans_span (userMemory g entry).writable dstva src.length
    rw [UserMemory.copyout_eq] at result
    obtain ⟨value, stored⟩ := Prod.mk.inj result
    have all := @span_eq_iff (userMemory g entry).writable dstva src.length
    generalize span (userMemory g entry).writable dstva src.length = m at *
    have granted : ∀ i, i < m → Writable g root (dstva + i) := fun i less => space.writable.mpr (spans.before i less)
    refine ⟨?_, ?_, m, spans.within, ?_, granted, ?_, ?_⟩
    · rw [← value]
      split
      · exact Or.inl rfl
      · exact Or.inr rfl
    · rw [← value]
      simp only [space.writable]
      rw [← all]
      by_cases full : m = src.length
      · simp [full]
      · simp [full]
    · rintro rfl
      by_contra short
      rw [if_neg short] at value
      cases value
    · intro less
      rw [space.writable, spans.stop less]
      decide
    · apply space.copied space' stored.symm _ stores
      intro i less
      rw [List.length_take] at less
      exact (granted i (by omega)).1
  · intro srcva len
    refine ⟨step_acc _ _, ?_⟩
    intro freed g' p' run
    have seen : (copyinUpto root srcva len).wp supply
        (fun r g' => (r, g') = ((userMemory g entry).copyin srcva len, g)) g := wp_of_view (space.reads.copyin srcva len) rfl
    have holds := run.wp seen
    have safe := wp_safe (Heap.apart_empty g') holds
    rw [Heap.union_empty] at safe
    refine ⟨safe, ?_⟩
    rintro r dst rfl
    rw [UserMemory.copyin_eq] at holds
    obtain ⟨result, rfl⟩ := Prod.mk.inj holds
    obtain ⟨value, rfl⟩ := Prod.mk.inj result
    have spans := spans_span (userMemory g' entry).readable srcva len
    have all := @span_eq_iff (userMemory g' entry).readable srcva len
    generalize span (userMemory g' entry).readable srcva len = m at *
    have length : (segment (userMemory g' entry).byte srcva m).length = m := segment_length
    refine ⟨rfl, ?_, ?_, Nat.le_trans (Nat.le_of_eq length) spans.within, ?_, ?_, ?_⟩
    · rw [value]
      split
      · exact Or.inl rfl
      · exact Or.inr rfl
    · simp only [space.readable]
      rw [value, ← all]
      by_cases full : m = len
      · simp [full]
      · simp [full]
    · intro zero
      rw [length]
      by_contra short
      rw [zero, if_neg short] at value
      cases value
    · rw [length]
      intro less
      rw [space.readable, spans.stop less]
      decide
    · intro i less
      have granted := space.readable.mpr (spans.before i (length ▸ less))
      obtain ⟨below, user⟩ := id granted
      refine ⟨granted, ?_⟩
      rw [space.lookup below] at user ⊢
      rw [space.reads.physical_byte (UserSpace.below_iff.mp below) user, segment_getElem]

def onePage : Heap Page × Prog Page Int :=
  follow sixteenPages.pool Page.zero 20 ((granted 3).drop 1) emptyTable
    (mappages 0x80100000 0x1000 0x1000 0x80200000 (pteR ||| pteW ||| pteU))

theorem onePage_table : Table sixteenPages 2 0x80100000 (fill 1 1 0x80200000 (pteR ||| pteW ||| pteU) fun _ => 0) onePage.1 := by
  obtain ⟨freed, created⟩ := emptyTable_run
  have empty : Table sixteenPages 2 0x80100000 (fun _ => 0) emptyTable := created.wp (uvmcreate_spec.run Heap.empty rfl)
  obtain ⟨freed', run⟩ : ∃ freed, Run (sixteenPages.supply True)
      (emptyTable, mappages 0x80100000 0x1000 0x1000 0x80200000 (pteR ||| pteW ||| pteU)) freed (onePage.1, .done 0) :=
    follow_done (fun _ => trivial) (by decide +kernel)
  rw [← Heap.union_empty emptyTable] at run
  obtain ⟨h', k, same, -, how, -, -, table⟩ := empty.mappages (Heap.apart_empty _) (by decide) (by decide) run
  rw [Heap.union_empty] at same
  rw [same]
  rcases how with ⟨-, rfl⟩ | ⟨wrong, -⟩
  · exact table
  · cases wrong

theorem onePage_space : UserSpace sixteenPages 0x80100000 (fill 1 1 0x80200000 (pteR ||| pteW ||| pteU) fun _ => 0) onePage.1
    (onePage.1.put 0x80200000 (some Page.zero)) := by
  have outside : onePage.1 0x80200000 = none := by
    by_contra there
    exact absurd (onePage_table.pooled there) (by decide)
  -- The only entry is that of the page `0x1000`.
  have only : ∀ j, User (fill 1 1 0x80200000 (pteR ||| pteW ||| pteU) (fun _ => 0) j) → j = 1 := by
    intro j user
    by_contra other
    have far : ¬(1 ≤ j ∧ j < 1 + 1) := by omega
    rw [fill, if_neg far] at user
    exact user.1 rfl
  have address : pte2pa (fill 1 1 0x80200000 (pteR ||| pteW ||| pteU) (fun _ => 0) 1) = 0x80200000 := by decide
  constructor
  · exact onePage_table
  · intro a x here
    have other : a ≠ 0x80200000 := by
      rintro rfl
      rw [outside] at here
      cases here
    rw [Heap.put_other other]
    exact here
  · intro j _ user
    rw [only j user, address, Heap.put_self]
    exact ⟨Option.some_ne_none _, outside, by decide⟩
  · intro i j _ _ user user' _
    rw [only i user, only j user']

def twoBytes : Heap Page × Prog Page Int :=
  follow sixteenPages.pool Page.zero 20 [] (onePage.1.put 0x80200000 (some Page.zero)) (copyout 0x80100000 0x1FFF [7, 8])

theorem copies_confined_two : ∃ freed g', Run (sixteenPages.supply True) (onePage.1.put 0x80200000 (some Page.zero),
    copyout 0x80100000 0x1FFF [7, 8]) freed (g', .done (-1)) ∧
      ∃ m, m < 2 ∧ Copied 0x80100000 (onePage.1.put 0x80200000 (some Page.zero)) g' 0x1FFF ([7, 8].take m) := by
  obtain ⟨freed, run⟩ : ∃ freed, Run (sixteenPages.supply True) (onePage.1.put 0x80200000 (some Page.zero),
      copyout 0x80100000 0x1FFF [7, 8]) freed (twoBytes.1, .done (-1)) :=
    follow_done (fun _ => trivial) (by decide +kernel)
  refine ⟨freed, twoBytes.1, run, ?_⟩
  obtain ⟨-, zero, m, within, full, granted, -, copied⟩ := (((copies_confined onePage_space).1 _ _).2 _ _ _ run).2 _ rfl
  refine ⟨m, ?_, copied⟩
  rcases Nat.lt_or_eq_of_le within with less | rfl
  · exact less
  · exact absurd (zero.mpr granted) (by decide)

end Confined

end OShard.Space
