import OShard.Space.AllOrNothing
import OShard.Space.System

namespace OShard.Space

open Separation Assertion Prog

section Shape

variable {n : Nat} {ram : Ram} {p : Proc} {g h : Heap Page} {s : State n} {i : Fin n}

/-- The page addresses that a process of the size has: its memory, `TRAPFRAME` and `TRAMPOLINE`. -/
def Assigned (sz va : Nat) : Prop := va < pgroundup sz ∨ va = trapframeVa ∨ va = trampolineVa

theorem Owned.assigned (owned : Owned ram p h) (within : h.Within g) {va : Nat} (below : va < maxVa) (aligned : va % pgSize = 0) :
    (Assigned p.sz va → Leaf (Space.lookup g va 2 p.pagetable)) ∧ (¬Assigned p.sz va → Space.lookup g va 2 p.pagetable = 0) := by
  have small := owned.small
  have range := userPages_eq
  obtain ⟨entry, shape, lookups⟩ := owned.lookup within
  have rounded : pgroundup p.sz = pages p.sz * pgSize := pgroundup_eq (by unfold pgSize at small; omega)
  have bound := shape.bound
  obtain ⟨k, rfl⟩ : ∃ k, va = k * pgSize := ⟨va / pgSize, (Nat.div_mul_cancel (Nat.dvd_of_mod_eq_zero aligned)).symm⟩
  have cancel : k * pgSize / 4096 = k := Nat.mul_div_cancel k (by decide)
  rw [lookups _ below, cancel, Assigned, rounded, trapframeVa_eq, trampolineVa_eq]
  unfold pgSize at *
  unfold maxVa at below
  constructor
  · rintro (low | frame | text)
    · exact (shape.leaf k (by omega)).1
    · have same : k = userPages := by omega
      rw [same, shape.top _ (Nat.le_refl _)]
      exact tops_leaf.1
    · have same : k = userPages + 1 := by omega
      rw [same, shape.top _ (Nat.le_succ _), tops, Function.update_of_ne (Nat.succ_ne_self _)]
      exact (@tops_leaf ram p.trapframe).2
  · intro outside
    by_cases low : k < userPages
    · exact shape.empty k low (by omega)
    · exact absurd (by omega) outside

theorem Owned.freed_once (owned : Owned ram p h) {rest : Heap Page} (apart : h.Apart rest) {freed : List Nat}
    (run : Run (ram.supply True) (h.union rest, procFreepagetable p.pagetable p.sz) freed (g, .done ())) {a : Nat}
    (table : TablePage (h.union rest) 2 p.pagetable a) : freed.count a = 1 := by
  have within := Heap.within_left apart
  obtain ⟨covered, unique, -⟩ := @Owned.roles ram (h.union rest) h a p owned within
  have mine : h a ≠ none := covered.mpr ⟨.table, table⟩
  have other : a ≠ p.trapframe := fun frame => nomatch unique .table .trapframe table frame
  have spec := (@procFreepagetable_spec ram True p.pagetable p.sz p.trapframe anyPte).frame (page ram p.trapframe)
  rw [mul_comm] at spec
  obtain ⟨h', rfl, -, last, -⟩ := run.framed apart (spec.run h owned)
  have left : (1 * page ram p.trapframe) h' := last
  rw [one_mul] at left
  obtain ⟨-, junk, rfl⟩ := left
  have gone : (Heap.single p.trapframe junk).union rest a = none :=
    Heap.union_none.mpr ⟨Heap.single_other other, (apart a).resolve_left mine⟩
  have once := run.once (procFreepagetable_frugal p.pagetable p.sz) a
  rw [if_pos gone, if_neg (within.ne_none mine)] at once
  exact once

theorem Divided.safe {parts : Fin n → Heap Page} (divided : Divided ram s parts) {child : Option (Fin n)} {c : Prog Page Outcome}
    (place : s.slots i = .busy child c) : c.Safe s.memory := by
  have holds := divided.holds i
  rw [place] at holds
  have safe := wp_safe (Parts.rest_apart s.memory (parts i)) holds
  rw [divided.whole.part_union i] at safe
  exact safe

/-- With the pages of the first process granted, no call meets a panic, and between its calls a process has what its
    size says. -/
theorem address_space_shape :
    (∀ freed g c, Run (ram.supply False) (Heap.empty, userinit ram.trampoline) freed (g, c) → c.Safe g) ∧
    ∀ s : State n, Reach ram False s → (∀ i child c, s.slots i = .busy child c → c.Safe s.memory) ∧
      ∀ i p, s.slots i = .idle p ∨ s.slots i = .zombie p →
        (∀ va, va < maxVa → va % pgSize = 0 → (Assigned p.sz va → Leaf (lookup s.memory va 2 p.pagetable)) ∧
          (¬Assigned p.sz va → lookup s.memory va 2 p.pagetable = 0)) ∧
        ∀ freed g, Run (ram.supply True) (s.memory, procFreepagetable p.pagetable p.sz) freed (g, .done ()) →
          ∀ a, TablePage s.memory 2 p.pagetable a → freed.count a = 1 := by
  constructor
  · intro freed g c run
    have safe := wp_safe (Heap.apart_empty g) (run.wp (userinit_spec.run _ rfl))
    rw [Heap.union_empty] at safe
    exact safe
  · intro s reach
    obtain ⟨parts, divided⟩ := divided_of_reach reach
    refine ⟨fun i child c place => divided.safe place, fun i p place => ⟨?_, ?_⟩⟩
    · exact fun va below aligned => (divided.owned place).assigned (divided.whole.within i) below aligned
    · intro freed g run a table
      rw [← divided.whole.part_union i] at run table
      exact (divided.owned place).freed_once (Parts.rest_apart s.memory (parts i)) run table

end Shape

section Boot

def bootState {n : Nat} (answers : List (Option Nat)) (i : Fin n) (p : Proc) : State n :=
  ⟨(bootWith answers).1, Function.update (fun _ => .unused) i (.idle p), ∅⟩

theorem bootState_slot {n : Nat} (answers : List (Option Nat)) (i : Fin n) (p : Proc) : (bootState answers i p).slots i = .idle p := by
  simp [bootState]

theorem bootState_init {n : Nat} {fails : Prop} {answers : List (Option Nat)} (refusable : none ∈ answers → fails) (i : Fin n) {p : Proc}
    (result : (bootWith answers).2.result = some p) : Init sixteenPages fails (bootState answers i p) := by
  obtain ⟨freed, run⟩ := bootWith_run refusable result
  exact ⟨⟨i, p, freed, run, rfl⟩, fun a none => absurd none (Set.notMem_empty a)⟩

/-- `uvmfirst` goes on when there is no page for the table of its mapping: the first process has a size and no memory. -/
theorem userinit_unmapped : ∃ s : State 1, Reach sixteenPages True s ∧ ∃ p, s.slots 0 = .idle p ∧ Assigned p.sz 0 ∧
    lookup s.memory 0 2 p.pagetable = 0 := by
  have ended : (bootWith (granted 5 ++ [none])).2.result.map (fun p => (p.sz, p.pagetable)) = some (4096, 0x80101000) := by decide +kernel
  obtain ⟨p, result, fields⟩ := Option.map_eq_some_iff.mp ended
  obtain ⟨size, table⟩ := Prod.mk.inj fields
  have absent : lookup (bootWith (granted 5 ++ [none])).1 0 2 0x80101000 = 0 := by decide +kernel
  refine ⟨bootState _ 0 p, .start (bootState_init (fun _ => trivial) 0 result), p, bootState_slot _ 0 p, ?_, ?_⟩
  · rw [size]
    exact Or.inl (by decide)
  · rw [table]
    exact absent

theorem userinit_mapped : ∃ s : State 1, Reach sixteenPages False s ∧ ∃ p, s.slots 0 = .idle p ∧ Leaf (lookup s.memory 0 2 p.pagetable) := by
  have ended : (bootWith (granted 7)).2.result.map Proc.sz = some 4096 := by decide +kernel
  obtain ⟨p, result, size⟩ := Option.map_eq_some_iff.mp ended
  have answered : none ∉ granted 7 := by decide
  have reach : Reach sixteenPages False (bootState (granted 7) (0 : Fin 1) p) := .start (bootState_init (fun none => answered none) 0 result)
  have place := bootState_slot (granted 7) (0 : Fin 1) p
  have shape := ((address_space_shape.2 _ reach).2 0 p (Or.inl place)).1 0 (by decide) (by decide)
  refine ⟨_, reach, p, place, shape.1 ?_⟩
  rw [size]
  exact Or.inl (by decide)

end Boot

end OShard.Space
