import OShard.Base.Transition
import OShard.Space.Lookup

namespace OShard.Space

open Separation Assertion Prog Function

section Calls

/-- What is in the two slots of a call when it returns: that of the caller, and the other one of `fork`. -/
structure Outcome where
  self : Option Proc
  child : Option Proc

def sbrkProgram (p : Proc) (n : Int) : Prog Page Outcome := do
  let (_, p) ← growproc p n
  return ⟨some p, none⟩

def execProgram (trampoline : Nat) (namei : List Nat → Option Inode) (p : Proc) : Prog Page Outcome := do
  let (_, p, _) ← sysExec trampoline namei p
  return ⟨some p, none⟩

def forkProgram (trampoline : Nat) (p : Proc) : Prog Page Outcome := do
  let child ← fork trampoline p
  return ⟨some p, child⟩

def reapProgram (pp : Proc) : Prog Page Outcome := do
  freeproc (some pp.trapframe) (some pp.pagetable) pp.sz
  return ⟨none, none⟩

end Calls

section Steps

/-- A slot of the process table. While `fork` makes a child, the child's slot is taken. -/
inductive Slot (n : Nat) where
  | unused
  | taken
  | idle (p : Proc)
  | busy (child : Option (Fin n)) (c : Prog Page Outcome)
  | zombie (p : Proc)

def Slot.of {n : Nat} : Option Proc → Slot n
  | none => .unused
  | some p => .idle p

/-- The memory of the processes, the process table, and the other pages of the kernel. -/
structure State (n : Nat) where
  memory : Heap Page
  slots : Fin n → Slot n
  others : Set Nat

variable {n : Nat}

def State.set (s : State n) (i : Fin n) (slot : Slot n) : State n := { s with slots := update s.slots i slot }

def State.fill (s : State n) (child : Option (Fin n)) (slot : Slot n) : State n :=
  match child with
  | none => s
  | some k => s.set k slot

/-- The steps of the processes. Of the calls, each access to memory is one, and at each `kalloc` may fail. A store to
    user memory is that of the user program, or of a page of a `copyout` that the kernel does for the process: both meet
    the same checks. A trap saves the registers. -/
inductive Step (ram : Ram) : State n → State n → Prop where
  | sbrk {s i p} (k : Int) : s.slots i = .idle p → Step ram s (s.set i (.busy none (sbrkProgram p k)))
  | exec {s i p} (namei : List Nat → Option Inode) : s.slots i = .idle p →
      Step ram s (s.set i (.busy none (execProgram ram.trampoline namei p)))
  | fork {s i k p} : s.slots i = .idle p → s.slots k = .unused →
      Step ram s ((s.set k .taken).set i (.busy (some k) (forkProgram ram.trampoline p)))
  | exit {s i p} : s.slots i = .idle p → Step ram s (s.set i (.zombie p))
  | wait {s i p} : s.slots i = .zombie p → Step ram s (s.set i (.busy none (reapProgram p)))
  | store {s i p va page} (page' : Page) : s.slots i = .idle p → va < maxVa →
      (∀ flag ∈ [pteV, pteU, pteW], lookup s.memory va 2 p.pagetable &&& flag ≠ 0) →
      s.memory (pte2pa (lookup s.memory va 2 p.pagetable)) = some page →
      Step ram s { s with memory := s.memory.put (pte2pa (lookup s.memory va 2 p.pagetable)) (some page') }
  | trap {s i p page} (page' : Page) : s.slots i = .idle p → s.memory p.trapframe = some page →
      Step ram s { s with memory := s.memory.put p.trapframe (some page') }
  | access {s i child c c' g} : s.slots i = .busy child c → Prog.Step (ram.supply True) (s.memory, c) (g, c') →
      (∀ a ∈ s.others, g a = none) → Step ram s { s.set i (.busy child c') with memory := g }
  | finish {s i child out} : s.slots i = .busy child (.done out) →
      Step ram s ((s.fill child (.of out.child)).set i (.of out.self))
  | others {s pages} : (∀ a ∈ pages, s.memory a = none) → Step ram s { s with others := pages }

/-- The first process is there, as `userinit` has made it. -/
structure Init (ram : Ram) (fails : Prop) (s : State n) : Prop where
  boot : ∃ i p freed, Run (ram.supply fails) (Heap.empty, userinit ram.trampoline) freed (s.memory, .done p) ∧
    s.slots = update (fun _ => .unused) i (.idle p)
  others : ∀ a ∈ s.others, s.memory a = none

/-- The states in which the processes may be, with or without failures of `kalloc` in `userinit`. -/
abbrev Reach (ram : Ram) (fails : Prop) : State n → Prop := Transition.Reachable (Init ram fails) (Step ram)

end Steps

section Invariant

variable {n : Nat} {ram : Ram}

def OwnedBy (ram : Ram) : Option Proc → Assertion Page
  | none => 1
  | some p => Owned ram p

def Slot.Holds (ram : Ram) : Slot n → Assertion Page
  | .unused | .taken => 1
  | .idle p | .zombie p => Owned ram p
  | .busy child c => c.wp (ram.supply True) fun out =>
      given (child = none → out.child = none) (OwnedBy ram out.self * OwnedBy ram out.child)

variable {p : Proc} {slot : Slot n} {child : Option (Fin n)} {c : Prog Page Outcome}

theorem sbrkProgram_spec (k : Int) : Triple (ram.supply True) (Owned ram p) (sbrkProgram p k) fun out =>
    given (out.child = none) (OwnedBy ram out.self) := by
  rw [sbrkProgram]
  apply Triple.bind growproc_spec
  rintro ⟨r, p'⟩
  exact Triple.given fun _ => Triple.done fun h holds => ⟨rfl, holds⟩

theorem execProgram_spec (namei : List Nat → Option Inode) :
    Triple (ram.supply True) (Owned ram p) (execProgram ram.trampoline namei p) fun out =>
      given (out.child = none) (OwnedBy ram out.self) := by
  rw [execProgram]
  apply Triple.bind (sysExec_spec namei)
  rintro ⟨r, p', calls⟩
  exact Triple.given fun _ => Triple.done fun h holds => ⟨rfl, holds⟩

theorem forkProgram_spec : Triple (ram.supply True) (Owned ram p) (forkProgram ram.trampoline p) fun out =>
    OwnedBy ram out.self * OwnedBy ram out.child := by
  rw [forkProgram]
  apply Triple.bind fork_spec
  intro r
  cases r with
  | none =>
    apply Triple.done
    intro h holds
    change (Owned ram p * 1) h
    rw [mul_one]
    exact holds
  | some np => exact Triple.given fun _ => Triple.pure rfl

theorem reapProgram_spec : Triple (ram.supply True) (Owned ram p) (reapProgram p) fun out =>
    given (out.child = none) (OwnedBy ram out.self) := by
  rw [reapProgram]
  apply Triple.bind freeproc_spec
  exact fun _ => Triple.done fun h holds => ⟨rfl, holds⟩

def Slot.target : Slot n → Option (Fin n)
  | .busy child _ => child
  | _ => none

structure Targets (slots : Fin n → Slot n) : Prop where
  taken : ∀ i k, (slots i).target = some k → slots k = .taken
  single : ∀ i j k, (slots i).target = some k → (slots j).target = some k → i = j

namespace Targets

variable {slots : Fin n → Slot n} {i k : Fin n} {slot : Slot n}

variable (targets : Targets slots)

include targets

theorem set (free : slots i ≠ .taken) (same : slot.target = none ∨ slot.target = (slots i).target) :
    Targets (update slots i slot) := by
  have before : ∀ j k, (update slots i slot j).target = some k → (slots j).target = some k := by
    intro j k target
    by_cases own : j = i
    · subst own
      rw [update_self] at target
      rcases same with none | same
      · rw [none] at target
        cases target
      · exact same.symm.trans target
    · rw [update_of_ne own] at target
      exact target
  constructor
  · intro j k target
    have taken := targets.taken j k (before j k target)
    have other : k ≠ i := by
      rintro rfl
      exact free taken
    rw [update_of_ne other]
    exact taken
  · intro j l k first second
    exact targets.single j l k (before j k first) (before l k second)

theorem claim (other : k ≠ i) (own : slots i ≠ .taken) (free : slots k ≠ .taken)
    (ended : slot.target = some k) : Targets (update (update slots k .taken) i slot) := by
  have before : ∀ j l, (update (update slots k .taken) i slot j).target = some l →
      (j = i ∧ l = k) ∨ (j ≠ i ∧ (slots j).target = some l) := by
    intro j l target
    by_cases self : j = i
    · subst self
      rw [update_self, ended] at target
      exact Or.inl ⟨rfl, (Option.some.inj target).symm⟩
    rw [update_of_ne self] at target
    by_cases claimed : j = k
    · subst claimed
      rw [update_self] at target
      cases target
    · rw [update_of_ne claimed] at target
      exact Or.inr ⟨self, target⟩
  constructor
  · intro j l target
    rcases before j l target with ⟨rfl, rfl⟩ | ⟨-, target⟩
    · rw [update_of_ne other, update_self]
    have taken := targets.taken j l target
    have apart : l ≠ i := by
      rintro rfl
      exact own taken
    rw [update_of_ne apart]
    by_cases claimed : l = k
    · rw [claimed, update_self]
    · rw [update_of_ne claimed]
      exact taken
  · intro j m l first second
    rcases before j l first with ⟨one, claimed⟩ | ⟨-, one⟩
    · rcases before m l second with ⟨two, -⟩ | ⟨-, two⟩
      · exact one.trans two.symm
      · exact absurd (targets.taken m l two) (claimed ▸ free)
    · rcases before m l second with ⟨-, claimed⟩ | ⟨-, two⟩
      · exact absurd (targets.taken j l one) (claimed ▸ free)
      · exact targets.single j m l one two

theorem drop {child : Slot n} (ended : (slots i).target = some k) (quiet : slot.target = none)
    (quiet' : child.target = none) : Targets (update (update slots k child) i slot) := by
  have before : ∀ j l, (update (update slots k child) i slot j).target = some l →
      j ≠ i ∧ (slots j).target = some l := by
    intro j l target
    by_cases self : j = i
    · rw [self, update_self, quiet] at target
      cases target
    rw [update_of_ne self] at target
    by_cases claimed : j = k
    · rw [claimed, update_self, quiet'] at target
      cases target
    · rw [update_of_ne claimed] at target
      exact ⟨self, target⟩
  constructor
  · intro j l target
    obtain ⟨self, old⟩ := before j l target
    have taken := targets.taken j l old
    have apart : l ≠ i := by
      rintro rfl
      rw [taken] at ended
      cases ended
    have other : l ≠ k := by
      rintro rfl
      exact self (targets.single j i l old ended)
    rw [update_of_ne apart, update_of_ne other]
    exact taken
  · intro j m l first second
    exact targets.single j m l (before j l first).2 (before m l second).2

end Targets

structure Divided (ram : Ram) (s : State n) (parts : Fin n → Heap Page) : Prop where
  whole : Parts s.memory parts
  holds : ∀ i, (s.slots i).Holds ram (parts i)
  targets : Targets s.slots
  others : ∀ a ∈ s.others, s.memory a = none

variable {s t : State n} {parts : Fin n → Heap Page} {i k : Fin n}

section

variable (divided : Divided ram s parts)

include divided

theorem Divided.set (free : s.slots i ≠ .taken) (quiet : slot.target = none)
    (holds : (s.slots i).Holds ram (parts i) → slot.Holds ram (parts i)) : Divided ram (s.set i slot) parts := by
  refine ⟨divided.whole, fun j => ?_, divided.targets.set free (Or.inl quiet), divided.others⟩
  change (update s.slots i slot j).Holds ram (parts j)
  by_cases own : j = i
  · rw [own, update_self]
    exact holds (divided.holds i)
  · rw [update_of_ne own]
    exact divided.holds j

theorem Divided.claim (own : s.slots i ≠ .taken) (other : k ≠ i)
    (free : s.slots k = .unused) (ended : slot.target = some k) (holds : slot.Holds ram (parts i)) :
    Divided ram ((s.set k .taken).set i slot) parts := by
  have untaken : s.slots k ≠ .taken := by
    rw [free]
    exact nofun
  refine ⟨divided.whole, fun j => ?_, divided.targets.claim other own untaken ended, divided.others⟩
  change (update (update s.slots k .taken) i slot j).Holds ram (parts j)
  by_cases self : j = i
  · rw [self, update_self]
    exact holds
  rw [update_of_ne self]
  by_cases claimed : j = k
  · have nothing := divided.holds k
    rw [free] at nothing
    rw [claimed, update_self]
    exact nothing
  · rw [update_of_ne claimed]
    exact divided.holds j

theorem Divided.put {pa : Nat} {page' : Page} (mine : parts i pa ≠ none)
    (holds : (s.slots i).Holds ram ((parts i).put pa (some page'))) :
    ∃ parts', Divided ram { s with memory := s.memory.put pa (some page') } parts' := by
  have clear : Parts.rest s.memory (parts i) pa = none := (Parts.rest_apart s.memory (parts i) pa).resolve_left mine
  have replaced := divided.whole.replace ((Parts.rest_apart s.memory (parts i)).put clear (some page'))
  rw [← Heap.put_union clear, divided.whole.part_union i] at replaced
  refine ⟨_, replaced, fun j => ?_, divided.targets, fun a other => ?_⟩
  · change (s.slots j).Holds ram _
    by_cases own : j = i
    · rw [own, update_self]
      exact holds
    · rw [update_of_ne own]
      exact divided.holds j
  · have apart : a ≠ pa := by
      rintro rfl
      exact (divided.whole.within i).ne_none mine (divided.others a other)
    change s.memory.put pa (some page') a = none
    rw [Heap.put_other apart]
    exact divided.others a other

end

theorem Slot.of_holds (p : Option Proc) : (Slot.of p : Slot n).Holds ram = OwnedBy ram p := by
  cases p <;> rfl

theorem Slot.of_target (p : Option Proc) : (Slot.of p : Slot n).target = none := by
  cases p <;> rfl

section Divided

variable (divided : Divided ram s parts)

include divided

theorem Divided.access {c' : Prog Page Outcome} {g : Heap Page}
    (place : s.slots i = .busy child c) (step : Prog.Step (ram.supply True) (s.memory, c) (g, c')) (fresh : ∀ a ∈ s.others, g a = none) :
    ∃ parts', Divided ram { s.set i (.busy child c') with memory := g } parts' := by
  have holds := divided.holds i
  rw [place] at holds
  have apart := Parts.rest_apart s.memory (parts i)
  have whole := divided.whole.part_union i
  rw [← whole] at step
  obtain ⟨h, rfl, apart', holds'⟩ := wp_step apart holds step
  have free : s.slots i ≠ .taken := by
    rw [place]
    exact nofun
  have same : (Slot.busy child c' : Slot n).target = (s.slots i).target := by
    rw [place]
    rfl
  refine ⟨_, divided.whole.replace apart', fun j => ?_, divided.targets.set free (Or.inr same), fresh⟩
  change (update s.slots i _ j).Holds ram _
  by_cases own : j = i
  · rw [own, update_self, update_self]
    exact holds'
  · rw [update_of_ne own, update_of_ne own]
    exact divided.holds j

theorem Divided.finish {out : Outcome} (place : s.slots i = .busy child (.done out)) :
    ∃ parts', Divided ram ((s.fill child (.of out.child)).set i (.of out.self)) parts' := by
  have holds := divided.holds i
  rw [place] at holds
  obtain ⟨alone, holds⟩ := holds
  have free : s.slots i ≠ .taken := by
    rw [place]
    exact nofun
  cases child with
  | none =>
    refine ⟨parts, divided.set free (Slot.of_target _) fun _ => ?_⟩
    rw [alone rfl, OwnedBy, mul_one] at holds
    rw [Slot.of_holds]
    exact holds
  | some k =>
    have ended : (s.slots i).target = some k := by
      rw [place]
      rfl
    have taken := divided.targets.taken i k ended
    have other : k ≠ i := by
      rintro rfl
      exact free taken
    have empty : parts k = Heap.empty := by
      have none := divided.holds k
      rw [taken] at none
      exact none
    obtain ⟨left, right, apart, whole, mine, its⟩ := holds
    refine ⟨_, divided.whole.split other empty apart whole, fun j => ?_,
      divided.targets.drop ended (Slot.of_target _) (Slot.of_target _), divided.others⟩
    change (update (update s.slots k (.of out.child)) i (.of out.self) j).Holds ram _
    by_cases self : j = i
    · rw [self, update_self, update_self, Slot.of_holds]
      exact mine
    rw [update_of_ne self, update_of_ne self]
    by_cases claimed : j = k
    · rw [claimed, update_self, update_self, Slot.of_holds]
      exact its
    · rw [update_of_ne claimed, update_of_ne claimed]
      exact divided.holds j

theorem Divided.owned (place : s.slots i = .idle p ∨ s.slots i = .zombie p) : Owned ram p (parts i) := by
  have holds := divided.holds i
  rcases place with place | place
  · rw [place] at holds
    exact holds
  · rw [place] at holds
    exact holds

theorem Divided.call (place : s.slots i = .idle p ∨ s.slots i = .zombie p)
    (spec : Triple (ram.supply True) (Owned ram p) c fun out => given (out.child = none) (OwnedBy ram out.self)) :
    Divided ram (s.set i (.busy none c)) parts := by
  apply divided.set _ rfl
  · intro _
    apply wp_mono _ (spec.run _ (divided.owned place))
    rintro out h ⟨gone, owned⟩
    refine ⟨fun _ => gone, ?_⟩
    rw [gone, OwnedBy, mul_one]
    exact owned
  · rcases place with place | place
    · rw [place]
      exact nofun
    · rw [place]
      exact nofun

theorem Divided.step (step : Step ram s t) : ∃ parts', Divided ram t parts' := by
  cases step with
  | sbrk k place => exact ⟨parts, divided.call (Or.inl place) (sbrkProgram_spec k)⟩
  | exec namei place => exact ⟨parts, divided.call (Or.inl place) (execProgram_spec namei)⟩
  | @fork i k p place free =>
    have other : k ≠ i := by
      rintro rfl
      rw [place] at free
      cases free
    have own : s.slots i ≠ .taken := by
      rw [place]
      exact nofun
    refine ⟨parts, divided.claim own other free rfl ?_⟩
    apply wp_mono _ (forkProgram_spec.run _ (divided.owned (Or.inl place)))
    exact fun out h both => ⟨nofun, both⟩
  | @exit i p place =>
    refine ⟨parts, divided.set (by rw [place]; exact nofun) rfl fun holds => ?_⟩
    rw [place] at holds
    exact holds
  | wait place => exact ⟨parts, divided.call (Or.inr place) reapProgram_spec⟩
  | @store i p va page page' place below flags there =>
    have owned := divided.owned (Or.inl place)
    obtain ⟨mine, kept⟩ := owned.store (divided.whole.within i) below (flags pteU (by simp)) page'
    apply divided.put mine
    rw [place]
    exact kept
  | @trap i p page page' place there =>
    obtain ⟨mine, kept⟩ := (divided.owned (Or.inl place)).trap page'
    apply divided.put mine
    rw [place]
    exact kept
  | access place step fresh => exact divided.access place step fresh
  | finish place => exact divided.finish place
  | others fresh => exact ⟨parts, divided.whole, divided.holds, divided.targets, fresh⟩

end Divided

theorem Divided.init (init : Init ram False s) : ∃ parts, Divided ram s parts := by
  obtain ⟨⟨i, p, freed, run, slots⟩, others⟩ := init
  have owned : Owned ram p s.memory := run.wp (userinit_spec.run _ rfl)
  refine ⟨update (fun _ => Heap.empty) i s.memory, ?_, fun j => ?_, ?_, others⟩
  · apply Parts.iff_point.mpr
    intro a
    cases there : s.memory a with
    | none =>
      refine Or.inl ⟨rfl, fun j => ?_⟩
      by_cases own : j = i
      · rw [own, update_self]
        exact there
      · rw [update_of_ne own]
        rfl
    | some x =>
      refine Or.inr ⟨i, Option.some_ne_none x, ?_, fun j other => ?_⟩
      · rw [update_self]
        exact there
      · rw [update_of_ne other]
        rfl
  · rw [slots]
    by_cases own : j = i
    · rw [own, update_self, update_self]
      exact owned
    · rw [update_of_ne own, update_of_ne own]
      rfl
  · have none : ∀ j, (s.slots j).target = none := by
      intro j
      rw [slots]
      by_cases own : j = i
      · rw [own, update_self]
        rfl
      · rw [update_of_ne own]
        rfl
    constructor
    · intro j k target
      rw [none j] at target
      cases target
    · intro j l k target
      rw [none j] at target
      cases target

theorem divided_of_reach (reach : Reach ram False s) : ∃ parts, Divided ram s parts := by
  induction reach with
  | start init => exact Divided.init init
  | next _ step ih =>
    obtain ⟨parts, divided⟩ := ih
    exact divided.step step

end Invariant

end OShard.Space
