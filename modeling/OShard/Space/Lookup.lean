import OShard.Space.Image

namespace OShard.Space

open Separation Assertion Prog

variable {ram : Ram} {level root va : Nat} {entry : Nat → Nat} {g h : Heap Page} {a : Nat}

/-- The entry for `va`, as the processor and `walk` find it; zero if there is no table for it. -/
def lookup (g : Heap Page) (va : Nat) : Nat → Nat → Nat
  | 0, root =>
    match g root with
    | none => 0
    | some page => page.word (px 0 va)
  | level + 1, root =>
    match g root with
    | none => 0
    | some page =>
      let pte := page.word (px (level + 1) va)
      if pte &&& pteV ≠ 0 then lookup g va level (pte2pa pte) else 0

inductive TablePage (g : Heap Page) : Nat → Nat → Nat → Prop where
  | root {level root : Nat} : TablePage g level root root
  | child {level root i a : Nat} {page : Page} : i < 512 → g root = some page → page.word i &&& pteV ≠ 0 →
      TablePage g level (pte2pa (page.word i)) a → TablePage g (level + 1) root a

section Tables

theorem link_valid (child : Nat) : link (some child) &&& pteV ≠ 0 := by
  rw [and_flags (by decide), link_flags]
  decide

theorem kidsOf_parts {table : Nat → (Nat → Nat) → Assertion Page} {size : Nat} {kids : Nat → Option Nat} {slots : Finset Nat} {page : Page}
    (both : (points root page * kidsOf table size kids entry slots) h) : ∃ rest parts, (Heap.single root page).Apart rest ∧
      h = (Heap.single root page).union rest ∧ Parts rest parts ∧
      (∀ i ∈ slots, kid table size (kids i) (fun j => entry (size * i + j)) (parts i)) ∧ ∀ i, i ∉ slots → parts i = Heap.empty := by
  obtain ⟨left, right, apart, union, rfl, lower⟩ := both
  obtain ⟨parts, divided, each, empty⟩ := Parts.of_prod lower
  exact ⟨right, parts, apart, union, divided, each, empty⟩

theorem kid_table {kids : Nat → Option Nat} {parts : Nat → Heap Page} {i : Nat}
    (each : ∀ i ∈ Finset.range 512, kid (Table ram level) (512 ^ (level + 1)) (kids i) (fun j => entry (512 ^ (level + 1) * i + j)) (parts i))
    (empty : ∀ i, i ∉ Finset.range 512 → parts i = Heap.empty) (mine : parts i a ≠ none) :
    i < 512 ∧ ∃ pa, kids i = some pa ∧ Table ram level pa (fun j => entry (512 ^ (level + 1) * i + j)) (parts i) := by
  have slot : i ∈ Finset.range 512 := by
    by_contra out
    rw [empty i out] at mine
    exact mine rfl
  refine ⟨Finset.mem_range.mp slot, ?_⟩
  have kid := each i slot
  cases child : kids i with
  | none =>
    rw [child] at kid
    have nothing : parts i = Heap.empty := kid.2
    rw [nothing] at mine
    exact absurd rfl mine
  | some pa =>
    rw [child] at kid
    exact ⟨pa, rfl, kid⟩

variable (table : Table ram level root entry h)

include table

theorem Table.lookup (within : h.Within g) :
    Space.lookup g va level root = entry (index level va) := by
  induction level generalizing root entry h with
  | zero =>
    obtain ⟨page, ⟨inside, words⟩, rfl⟩ := table
    have here : g root = some page := within _ _ Heap.single_self
    rw [Space.lookup, here, index_zero]
    exact words _ px_lt
  | succ level ih =>
    obtain ⟨page, kids, ⟨inside, words⟩, both⟩ := table
    obtain ⟨rest, parts, apart, rfl, divided, each, -⟩ := kidsOf_parts both
    have here : g root = some page := within _ _ (Heap.within_left apart _ _ Heap.single_self)
    have kid := each _ (Finset.mem_range.mpr (@px_lt (level + 1) va))
    rw [Space.lookup, here, index_succ]
    change (if page.word (px (level + 1) va) &&& pteV ≠ 0 then Space.lookup g va level (pte2pa (page.word (px (level + 1) va))) else 0) = _
    rw [words _ px_lt]
    cases child : kids (px (level + 1) va) with
    | none =>
      rw [child] at kid
      have zero : ¬link none &&& pteV ≠ 0 := by decide
      rw [if_neg zero]
      exact (kid.1 _ index_lt).symm
    | some pa =>
      rw [child] at kid
      have lower : Table ram level pa (fun j => entry (512 ^ (level + 1) * px (level + 1) va + j)) (parts (px (level + 1) va)) := kid
      rw [if_pos (link_valid pa), link_pa (ram.aligned pa lower.inside)]
      exact ih lower (((divided.within _).trans (Heap.within_right apart)).trans within)

theorem Table.page_iff (within : h.Within g) :
    TablePage g level root a ↔ h a ≠ none := by
  induction level generalizing root entry h with
  | zero =>
    obtain ⟨page, -, rfl⟩ := table
    rw [Heap.single_ne_none]
    constructor
    · rintro ⟨⟩
      rfl
    · rintro rfl
      exact .root
  | succ level ih =>
    obtain ⟨page, kids, ⟨inside, words⟩, both⟩ := table
    obtain ⟨rest, parts, apart, rfl, divided, each, empty⟩ := kidsOf_parts both
    have there : g root = some page := within _ _ (Heap.within_left apart _ _ Heap.single_self)
    have within' : ∀ i, (parts i).Within g := fun i => ((divided.within i).trans (Heap.within_right apart)).trans within
    rw [Heap.union_ne_none, Heap.single_ne_none]
    constructor
    · intro reached
      cases reached with
      | root => exact Or.inl rfl
      | @child _ _ i _ page' slot here valid lower =>
        right
        rw [there] at here
        cases here
        rw [words i slot] at valid lower
        have kid := each i (Finset.mem_range.mpr slot)
        cases child : kids i with
        | none =>
          rw [child] at valid
          exact absurd rfl valid
        | some pa =>
          rw [child] at kid lower
          have table : Table ram level pa _ (parts i) := kid
          rw [link_pa (ram.aligned pa table.inside)] at lower
          exact (divided.within i).ne_none ((ih table (within' i)).mp lower)
    · rintro (rfl | here)
      · exact .root
      · obtain ⟨i, mine⟩ := divided.exists_part here
        obtain ⟨below, pa, child, table⟩ := kid_table each empty mine
        apply TablePage.child below there
        · rw [words i below, child]
          exact link_valid pa
        · rw [words i below, child, link_pa (ram.aligned pa table.inside)]
          exact (ih table (within' i)).mpr mine

theorem Table.pooled (here : h a ≠ none) : a ∈ ram.pool := by
  induction level generalizing root entry h with
  | zero =>
    obtain ⟨page, ⟨inside, -⟩, rfl⟩ := table
    rw [Heap.single_ne_none.mp here]
    exact inside
  | succ level ih =>
    obtain ⟨page, kids, ⟨inside, -⟩, both⟩ := table
    obtain ⟨rest, parts, apart, rfl, divided, each, empty⟩ := kidsOf_parts both
    rcases Heap.union_ne_none.mp here with root | lower
    · rw [Heap.single_ne_none.mp root]
      exact inside
    · obtain ⟨i, mine⟩ := divided.exists_part lower
      obtain ⟨-, pa, -, table⟩ := kid_table each empty mine
      exact ih table mine

end Tables

section Roles

variable {top : Nat → Nat} {n k : Nat} {ok : Nat → Prop}

inductive Role where
  | trapframe
  | table
  | user (k : Nat)

def Role.Covers (g : Heap Page) (p : Proc) (a : Nat) : Role → Prop
  | .trapframe => a = p.trapframe
  | .table => TablePage g 2 p.pagetable a
  | .user k => k < pages p.sz ∧ a = pte2pa (lookup g (k * pgSize) 2 p.pagetable)

variable {p : Proc} {role role' : Role}

theorem Owned.lookup (owned : Owned ram p h) (within : h.Within g) : ∃ entry, Shape (pages p.sz) (tops ram p.trapframe) anyPte entry ∧
    ∀ va, va < maxVa → Space.lookup g va 2 p.pagetable = entry (va / 4096) := by
  obtain ⟨frame, memory, apart, rfl, -, entry, shape, table, data, apart', rfl, holds, -⟩ := owned
  refine ⟨entry, shape, fun va below => ?_⟩
  rw [← index_top below]
  exact holds.lookup (((Heap.within_left apart').trans (Heap.within_right apart)).trans within)

theorem Owned.store (owned : Owned ram p h) (within : h.Within g) (below : va < maxVa)
    (user : Space.lookup g va 2 p.pagetable &&& pteU ≠ 0) (page' : Page) : h (pte2pa (Space.lookup g va 2 p.pagetable)) ≠ none ∧
      Owned ram p (h.put (pte2pa (Space.lookup g va 2 p.pagetable)) (some page')) := by
  obtain ⟨frame, memory, apart, rfl, first, entry, shape, both⟩ := owned
  have table : Space.lookup g va 2 p.pagetable = entry (va / 4096) := by
    obtain ⟨left, right, apart', rfl, holds, -⟩ := both
    rw [← index_top below]
    exact holds.lookup (((Heap.within_left apart').trans (Heap.within_right apart)).trans within)
  rw [table] at user ⊢
  have updated := @update_user ram True p.pagetable _ _ _ _ _ shape (fun _ => page') (shape.user hidden_tops user)
  obtain ⟨x, here, kept⟩ := updated.run _ both
  obtain ⟨there, clear⟩ := Heap.union_left apart.symm here
  rw [Heap.union_comm apart, Heap.put_union clear]
  refine ⟨?_, ?_⟩
  · rw [there]
    exact Option.some_ne_none x
  · rw [← Heap.union_comm (apart.symm.put clear _).symm]
    exact ⟨_, _, (apart.symm.put clear _).symm, rfl, first, entry, shape, kept⟩

theorem Owned.trap (owned : Owned ram p h) (page' : Page) : h p.trapframe ≠ none ∧ Owned ram p (h.put p.trapframe (some page')) := by
  obtain ⟨frame, memory, apart, rfl, ⟨inside, junk, rfl⟩, rest⟩ := owned
  obtain ⟨there, clear⟩ := Heap.union_left apart Heap.single_self
  refine ⟨?_, ?_⟩
  · rw [there]
    exact Option.some_ne_none junk
  · rw [Heap.put_union clear]
    have apart' := apart.put clear (some page')
    rw [Heap.put_single] at apart' ⊢
    exact ⟨_, _, apart', rfl, ⟨inside, page', rfl⟩, rest⟩

theorem Role.covers_user (lookups : ∀ va, va < maxVa → Space.lookup g va 2 p.pagetable = entry (va / 4096)) (shape : Shape (pages p.sz) top ok entry) :
    (Role.user k).Covers g p a ↔ k < pages p.sz ∧ a = pte2pa (entry k) := by
  have bound := shape.bound
  have range := userPages_eq
  apply and_congr_right
  intro below
  have low : k * pgSize < maxVa := by
    unfold pgSize maxVa
    omega
  rw [lookups _ low, show k * pgSize / 4096 = k from Nat.mul_div_cancel k (by decide)]

theorem Owned.roles (owned : Owned ram p h) (within : h.Within g) : (h a ≠ none ↔ ∃ role : Role, role.Covers g p a) ∧
    (∀ role role' : Role, role.Covers g p a → role'.Covers g p a → role = role') ∧ (h a ≠ none → a ∈ ram.pool) := by
  obtain ⟨frame, memory, apart, rfl, ⟨inside, junk, rfl⟩, entry, shape, table, data, apart', rfl, holds, user⟩ := owned
  have within' : table.Within g := ((Heap.within_left apart').trans (Heap.within_right apart)).trans within
  have tables : TablePage g 2 p.pagetable a ↔ table a ≠ none := holds.page_iff within'
  have lookups : ∀ va, va < maxVa → Space.lookup g va 2 p.pagetable = entry (va / 4096) := by
    intro va below
    rw [← index_top below]
    exact holds.lookup within'
  obtain ⟨parts, divided, each, pooled⟩ := data_parts shape user
  have users : ∀ k, (Role.user k).Covers g p a ↔ parts k a ≠ none := by
    intro k
    rw [Role.covers_user lookups shape, each]
  have some_user : (∃ k, parts k a ≠ none) ↔ data a ≠ none :=
    ⟨fun ⟨k, here⟩ => (divided.within k).ne_none here, divided.exists_part⟩
  have frame_iff : Heap.single p.trapframe junk a ≠ none ↔ a = p.trapframe := Heap.single_ne_none
  have first : a = p.trapframe → table a ≠ none ∨ data a ≠ none → False := by
    intro frame other
    rcases apart a with none | none
    · exact frame_iff.mpr frame none
    · exact Heap.union_ne_none.mpr other none
  have second : table a ≠ none → data a ≠ none → False := by
    intro one two
    rcases apart' a with none | none
    · exact one none
    · exact two none
  refine ⟨?_, ?_, ?_⟩
  · rw [Heap.union_ne_none, Heap.union_ne_none, frame_iff, ← tables, ← some_user]
    constructor
    · rintro (frame | table | ⟨k, here⟩)
      · exact ⟨.trapframe, frame⟩
      · exact ⟨.table, table⟩
      · exact ⟨.user k, (users k).mpr here⟩
    · rintro ⟨role, covers⟩
      cases role with
      | trapframe => exact Or.inl covers
      | table => exact Or.inr (Or.inl covers)
      | user k => exact Or.inr (Or.inr ⟨k, (users k).mp covers⟩)
  · intro role role' covers covers'
    have mine : ∀ k, (Role.user k).Covers g p a → data a ≠ none := fun k covers => some_user.mp ⟨k, (users k).mp covers⟩
    cases role with
    | trapframe =>
      cases role' with
      | trapframe => rfl
      | table => exact (first covers (Or.inl (tables.mp covers'))).elim
      | user k => exact (first covers (Or.inr (mine k covers'))).elim
    | table =>
      cases role' with
      | trapframe => exact (first covers' (Or.inl (tables.mp covers))).elim
      | table => rfl
      | user k => exact (second (tables.mp covers) (mine k covers')).elim
    | user k =>
      cases role' with
      | trapframe => exact (first covers' (Or.inr (mine k covers))).elim
      | table => exact (second (tables.mp covers') (mine k covers)).elim
      | user k' => rw [divided.part_unique ((users k).mp covers) ((users k').mp covers')]
  · rw [Heap.union_ne_none, Heap.union_ne_none, frame_iff, ← some_user]
    rintro (rfl | here | ⟨k, here⟩)
    · exact inside
    · exact holds.pooled here
    · obtain ⟨below, rfl⟩ := (each k a).mp here
      exact pooled k below

end Roles

end OShard.Space
