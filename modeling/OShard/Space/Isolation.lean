import OShard.Space.AddressSpace

namespace OShard.Space

open Separation Assertion Prog

section Isolation

variable {n : Nat} {ram : Ram} {p q : Proc} {g h : Heap Page} {s : State n} {i j : Fin n}

/-- At `va`, a process has the page at `pa` as user memory. -/
structure UserPage (g : Heap Page) (pagetable va pa : Nat) : Prop where
  below : va < maxVa
  aligned : va % pgSize = 0
  valid : lookup g va 2 pagetable &&& pteV ≠ 0
  user : lookup g va 2 pagetable &&& pteU ≠ 0
  address : pte2pa (lookup g va 2 pagetable) = pa

theorem UserPage.role {va pa : Nat} (user : UserPage g p.pagetable va pa) (owned : Owned ram p h) (within : h.Within g) :
    va = va / pgSize * pgSize ∧ (Role.user (va / pgSize)).Covers g p pa := by
  obtain ⟨entry, shape, lookups⟩ := owned.lookup within
  have whole : va = va / pgSize * pgSize := (Nat.div_mul_cancel (Nat.dvd_of_mod_eq_zero user.aligned)).symm
  have some := user.user
  rw [lookups va user.below] at some
  refine ⟨whole, shape.user hidden_tops some, ?_⟩
  rw [← whole]
  exact user.address.symm

structure SameView (g g' : Heap Page) (q : Proc) : Prop where
  walkaddr : ∀ va, ∃ pa, (Space.walkaddr q.pagetable va).view g = some pa ∧ (Space.walkaddr q.pagetable va).view g' = some pa
  copyin : ∀ srcva len, ∃ bytes, (Space.copyin q.pagetable srcva len).view g = some bytes ∧
    (Space.copyin q.pagetable srcva len).view g' = some bytes
  copyinstr : ∀ srcva max, ∃ string, (Space.copyinstr q.pagetable srcva max).view g = some string ∧
    (Space.copyinstr q.pagetable srcva max).view g' = some string

theorem Owned.sameView {g' : Heap Page} (owned : Owned ram q h) (within : h.Within g) (within' : h.Within g') : SameView g g' q := by
  obtain ⟨frame, _, apart, rfl, -, entry, shape, t, d, apart', rfl, table, data⟩ := owned
  have space := (shape.userSpace hidden_tops apart' table data (Heap.Within.refl _)).reads
  have same : ∀ {σ : Type} {c : Prog Page σ}, (∃ r, c.view (t.union d) = some r) → ∃ r, c.view g = some r ∧ c.view g' = some r := by
    rintro σ c ⟨r, seen⟩
    have part := @Heap.within_right _ _ _ apart
    exact ⟨r, view_within seen (part.trans within), view_within seen (part.trans within')⟩
  exact ⟨fun va => same ⟨_, space.walkaddr va⟩, fun srcva len => same (space.copyin_view srcva len),
    fun srcva max => same ⟨_, space.copyinstr srcva max⟩⟩

/-- Between its calls, a process shares no page of user memory with another, nor with the kernel. -/
theorem processes_isolated (reach : Reach ram False s) (place : s.slots i = .idle p ∨ s.slots i = .zombie p)
    (place' : s.slots j = .idle q ∨ s.slots j = .zombie q) :
    (∀ va va' pa, UserPage s.memory p.pagetable va pa → UserPage s.memory q.pagetable va' pa → i = j ∧ va = va') ∧
    (∀ va pa, UserPage s.memory p.pagetable va pa →
      ¬TablePage s.memory 2 q.pagetable pa ∧ pa ≠ q.trapframe ∧ pa ≠ ram.trampoline ∧ pa ∉ s.others) ∧
    (i ≠ j → ∀ dstva src freed g c, Run (ram.supply True) (s.memory, copyout p.pagetable dstva src) freed (g, c) →
      SameView s.memory g q) := by
  obtain ⟨parts, divided⟩ := divided_of_reach reach
  have owned := divided.owned place
  have owned' := divided.owned place'
  have within := divided.whole.within i
  have within' := divided.whole.within j
  have same : i = j → p = q := by
    rintro rfl
    rcases place with one | one <;> rcases place' with two | two <;> rw [one] at two <;> cases two
    · rfl
    · rfl
  -- a page that the first process has for one purpose and the second for another
  have clash : ∀ pa (role role' : Role), role.Covers s.memory p pa → role'.Covers s.memory q pa → i = j ∧ role = role' := by
    intro pa role role' covers covers'
    obtain ⟨covered, unique, -⟩ := @Owned.roles ram s.memory (parts i) pa p owned within
    obtain ⟨covered', -⟩ := @Owned.roles ram s.memory (parts j) pa q owned' within'
    have one := divided.whole.part_unique (covered.mpr ⟨role, covers⟩) (covered'.mpr ⟨role', covers'⟩)
    rw [← same one] at covers'
    exact ⟨one, unique role role' covers covers'⟩
  refine ⟨?_, ?_, ?_⟩
  · intro va va' pa user user'
    obtain ⟨whole, covers⟩ := user.role owned within
    obtain ⟨whole', covers'⟩ := user'.role owned' within'
    obtain ⟨one, roles⟩ := clash pa _ _ covers covers'
    refine ⟨one, ?_⟩
    rw [whole, whole', Role.user.inj roles]
  · intro va pa user
    obtain ⟨-, covers⟩ := user.role owned within
    obtain ⟨covered, -, pooled⟩ := @Owned.roles ram s.memory (parts i) pa p owned within
    have mine := covered.mpr ⟨_, covers⟩
    refine ⟨fun table => ?_, fun frame => ?_, fun text => ?_, fun other => ?_⟩
    · cases (clash pa _ .table covers table).2
    · cases (clash pa _ .trapframe covers frame).2
    · exact ram.text (text ▸ pooled mine)
    · exact within.ne_none mine (divided.others pa other)
  · intro different dstva src freed g c run
    have keeps := @owned_keeps ram True p _ _ (@copyout_memory ram True p.pagetable _ _ anyPte hidden_tops dstva src)
    rw [← divided.whole.part_union i] at run
    obtain ⟨h, rfl, apart, -⟩ := run.framed (Parts.rest_apart s.memory (parts i)) (keeps.run _ owned)
    have there : (parts j).Within (Parts.rest s.memory (parts i)) :=
      fun a x here => (divided.whole.rest_iff i x).mpr ⟨j, Ne.symm different, here⟩
    exact owned'.sameView within' (there.trans (Heap.within_right apart))

end Isolation

section Window

variable {n : Nat} {ram : Ram} {fails : Prop} {s : State n} {i : Fin n}

theorem Reach.run {child : Option (Fin n)} {c c' : Prog Page Outcome} {g : Heap Page} {freed : List Nat} (reach : Reach ram fails s)
    (place : s.slots i = .busy child c) (alone : s.others = ∅) (run : Run (ram.supply True) (s.memory, c) freed (g, c')) :
    Reach ram fails { s.set i (.busy child c') with memory := g } := by
  generalize start : (s.memory, c) = first at run
  generalize finish : (g, c') = last at run
  induction run generalizing s c with
  | refl =>
    cases start
    cases finish
    have same : s.set i (.busy child c') = s := by
      rw [State.set, ← place, Function.update_eq_self]
    rw [same]
    exact reach
  | @step g₁ c₁ next last freed step rest ih =>
    cases start
    obtain ⟨g₂, c₂⟩ := next
    have moved := reach.next (.access place step fun a other => absurd (alone ▸ other) (Set.notMem_empty a))
    have later := ih moved (Function.update_self i _ s.slots) alone rfl finish
    simp only [State.set, Function.update_idem] at later ⊢
    exact later

def callWith (k : Nat) (answers : List (Option Nat)) (g : Heap Page) (c : Prog Page Outcome) : Heap Page × Prog Page Outcome :=
  follow sixteenPages.pool Page.zero k answers g c

theorem Reach.callWith (k : Nat) (answers : List (Option Nat)) {child : Option (Fin n)} {c : Prog Page Outcome}
    (reach : Reach sixteenPages fails s) (place : s.slots i = .busy child c) (alone : s.others = ∅) :
    Reach sixteenPages fails { s.set i (.busy child (Space.callWith k answers s.memory c).2) with
      memory := (Space.callWith k answers s.memory c).1 } := by
  obtain ⟨freed, run⟩ := @follow_run _ _ (sixteenPages.supply True) Page.zero k answers s.memory c fun _ => trivial
  exact reach.run place alone run

def two (g : Heap Page) (a b : Slot 2) : State 2 :=
  ⟨g, fun i => match i with
    | 0 => a
    | 1 => b, ∅⟩

section Two

variable {g : Heap Page} {a b c : Slot 2} {out : Outcome}

theorem two_set_zero : (two g a b).set 0 c = two g c b := by
  simp only [two, State.set, State.mk.injEq, true_and, and_true]
  funext i
  match i with
  | 0 => rfl
  | 1 => rfl

theorem two_set_one : (two g a b).set 1 c = two g a c := by
  simp only [two, State.set, State.mk.injEq, true_and, and_true]
  funext i
  match i with
  | 0 => rfl
  | 1 => rfl

def outcomeOf (c : Prog Page Outcome) : Outcome := c.result.getD ⟨none, none⟩

theorem outcomeOf_done {c : Prog Page Outcome} (ended : c.result.isSome = true) : c = .done (outcomeOf c) := by
  obtain ⟨out, result⟩ := Option.isSome_iff_exists.mp ended
  rw [outcomeOf, result]
  exact result_eq.mp result

def procOf (p : Option Proc) : Proc := p.getD ⟨0, 0, 0, fun _ => none, []⟩

theorem of_procOf {p : Option Proc} (there : p.isSome = true) : (Slot.of p : Slot 2) = .idle (procOf p) := by
  obtain ⟨q, rfl⟩ := Option.isSome_iff_exists.mp there
  rfl

theorem Reach.sbrkFirst {fails : Prop} {p : Proc} (reach : Reach sixteenPages fails (two g (.idle p) b)) (k : Nat)
    (answers : List (Option Nat)) (amount : Int) : Reach sixteenPages fails (two (Space.callWith k answers g (sbrkProgram p amount)).1
      (.busy none (Space.callWith k answers g (sbrkProgram p amount)).2) b) := by
  have started : Reach sixteenPages fails _ := reach.next (.sbrk amount (i := 0) rfl)
  rw [two_set_zero] at started
  have later := started.callWith (i := 0) k answers rfl rfl
  rw [two_set_zero] at later
  exact later

theorem Reach.finishFirst {fails : Prop} {c : Prog Page Outcome} (reach : Reach sixteenPages fails (two g (.busy none c) b))
    (ended : c.result.isSome = true) (alive : (outcomeOf c).self.isSome = true) :
    Reach sixteenPages fails (two g (.idle (procOf (outcomeOf c).self)) b) := by
  rw [outcomeOf_done ended] at reach
  have finished : Reach sixteenPages fails _ := reach.next (.finish (i := 0) rfl)
  change Reach _ _ ((two g _ b).set 0 _) at finished
  rw [two_set_zero, of_procOf alive] at finished
  exact finished

end Two

def firstProc : Proc := procOf (bootWith (granted 7)).2.result

def forked : Heap Page × Prog Page Outcome :=
  callWith 300 ((granted 14).drop 7) (bootWith (granted 7)).1 (forkProgram sixteenPages.trampoline firstProc)

def secondProc : Proc := procOf (outcomeOf forked.2).child

theorem forked_reach : Reach sixteenPages False (two forked.1 (.idle (procOf (outcomeOf forked.2).self)) (.idle secondProc)) := by
  have answered : none ∉ granted 7 := by decide
  have booted : (bootWith (granted 7)).2.result = some firstProc := by
    have ended : (bootWith (granted 7)).2.result.isSome = true := by decide +kernel
    obtain ⟨p, result⟩ := Option.isSome_iff_exists.mp ended
    rw [firstProc, result]
    rfl
  have start : Reach sixteenPages False (bootState (granted 7) (0 : Fin 2) firstProc) :=
    .start (bootState_init (fun none => answered none) 0 booted)
  have same : bootState (granted 7) (0 : Fin 2) firstProc = two (bootWith (granted 7)).1 (.idle firstProc) .unused := by
    simp only [bootState, two, State.mk.injEq, true_and, and_true]
    exact funext (Fin.forall_fin_two.mpr ⟨rfl, rfl⟩)
  rw [same] at start
  have forking : Reach sixteenPages False _ := start.next (.fork (i := 0) (k := 1) rfl rfl)
  rw [two_set_one, two_set_zero] at forking
  have later := forking.callWith (i := 0) 300 ((granted 14).drop 7) rfl rfl
  rw [two_set_zero] at later
  change Reach _ _ (two forked.1 (.busy _ forked.2) _) at later
  rw [outcomeOf_done (c := forked.2) (by decide +kernel)] at later
  have finished : Reach sixteenPages False _ := later.next (.finish (i := 0) rfl)
  change Reach _ _ (((two _ _ _).set 1 _).set 0 _) at finished
  rw [two_set_one, two_set_zero, of_procOf (by decide +kernel), of_procOf (by decide +kernel)] at finished
  exact finished

/-- After a `fork`, parent and child have their first pages at different addresses. -/
theorem fork_shares_nothing : ∃ s : State 2, Reach sixteenPages False s ∧ ∃ p q, s.slots 0 = .idle p ∧ s.slots 1 = .idle q ∧
    ∃ pa, UserPage s.memory p.pagetable 0 pa ∧ ¬UserPage s.memory q.pagetable 0 pa := by
  have mapped : UserPage forked.1 (procOf (outcomeOf forked.2).self).pagetable 0 0x80104000 :=
    ⟨by decide, by decide, by decide +kernel, by decide +kernel, by decide +kernel⟩
  refine ⟨_, forked_reach, _, _, rfl, rfl, 0x80104000, mapped, fun shared => ?_⟩
  cases ((processes_isolated (i := 0) (j := 1) forked_reach (Or.inl rfl) (Or.inl rfl)).1 _ _ _ mapped shared).1

def grown : Heap Page × Prog Page Outcome := callWith 100 ((granted 15).drop 14) forked.1 (sbrkProgram (procOf (outcomeOf forked.2).self) 4096)

def shrinking : Heap Page × Prog Page Outcome := callWith 4 [] grown.1 (sbrkProgram (procOf (outcomeOf grown.2).self) (-4096))

def reused : Heap Page × Prog Page Outcome := callWith 100 ((granted 15).drop 14) shrinking.1 (sbrkProgram secondProc 4096)

/-- `uvmunmap` frees a page before it clears the entry, so that for a moment two processes have it. -/
theorem page_shared_while_unmapped : ∃ s : State 2, Reach sixteenPages False s ∧ ∃ p q c g g' freed, s.slots 0 = .busy none c ∧
    Run (sixteenPages.supply True) (g, sbrkProgram p (-4096)) freed (g', c) ∧ s.slots 1 = .idle q ∧ p.pagetable ≠ q.pagetable ∧
      ∃ pa, UserPage s.memory p.pagetable 4096 pa ∧ UserPage s.memory q.pagetable 4096 pa := by
  have larger := (forked_reach.sbrkFirst 100 ((granted 15).drop 14) 4096).finishFirst (by decide +kernel) (by decide +kernel)
  have window := larger.sbrkFirst 4 [] (-4096)
  change Reach _ _ (two shrinking.1 (.busy none shrinking.2) _) at window
  have taking : Reach sixteenPages False _ := window.next (.sbrk 4096 (i := 1) rfl)
  rw [two_set_one] at taking
  have taken := taking.callWith (i := 1) 100 ((granted 15).drop 14) rfl rfl
  rw [two_set_one] at taken
  change Reach _ _ (two reused.1 _ (.busy none reused.2)) at taken
  rw [outcomeOf_done (c := reused.2) (by decide +kernel)] at taken
  have shared : Reach sixteenPages False _ := taken.next (.finish (i := 1) rfl)
  change Reach _ _ ((two _ _ _).set 1 _) at shared
  rw [two_set_one, of_procOf (by decide +kernel)] at shared
  obtain ⟨freed, run⟩ := @follow_run _ _ (sixteenPages.supply True) Page.zero 4 [] grown.1
    (sbrkProgram (procOf (outcomeOf grown.2).self) (-4096)) nofun
  refine ⟨_, shared, _, _, _, _, _, freed, rfl, run, rfl, by decide +kernel, 0x8010E000, ?_, ?_⟩
  · exact ⟨by decide, by decide, by decide +kernel, by decide +kernel, by decide +kernel⟩
  · exact ⟨by decide, by decide, by decide +kernel, by decide +kernel, by decide +kernel⟩

end Window

section Accounts

variable {n : Nat} {ram : Ram} {s : State n}

def Owner (s : State n) (a : Nat) (owner : Fin n × Role) : Prop :=
  ∃ p, (s.slots owner.1 = .idle p ∨ s.slots owner.1 = .zombie p) ∧ owner.2.Covers s.memory p a

theorem Divided.place {parts : Fin n → Heap Page} {i : Fin n} {a : Nat} (divided : Divided ram s parts)
    (calm : ∀ i child c, s.slots i ≠ .busy child c) (mine : parts i a ≠ none) :
    ∃ p, s.slots i = .idle p ∨ s.slots i = .zombie p := by
  have holds := divided.holds i
  cases slot : s.slots i with
  | unused | taken =>
    rw [slot] at holds
    rw [show parts i = Heap.empty from holds] at mine
    exact absurd rfl mine
  | idle p => exact ⟨p, .inl rfl⟩
  | busy child c => exact absurd slot (calm i child c)
  | zombie p => exact ⟨p, .inr rfl⟩

/-- While no call is in progress, the pages that `kalloc` has given out are those that one process has for one purpose:
    none is lost, whatever failed before, and none has two owners. -/
theorem pages_have_one_owner (reach : Reach ram False s) (calm : ∀ i child c, s.slots i ≠ .busy child c) (a : Nat) :
    s.memory a ≠ none ↔ ∃! owner, Owner s a owner := by
  obtain ⟨parts, divided⟩ := divided_of_reach reach
  have roles : ∀ {i p}, s.slots i = .idle p ∨ s.slots i = .zombie p → _ :=
    fun {i} {p} place => @Owned.roles ram s.memory (parts i) a p (divided.owned place) (divided.whole.within i)
  constructor
  · intro there
    obtain ⟨i, mine⟩ := divided.whole.exists_part there
    obtain ⟨p, place⟩ := divided.place calm mine
    obtain ⟨role, covers⟩ := (roles place).1.mp mine
    refine ⟨(i, role), ⟨p, place, covers⟩, ?_⟩
    rintro ⟨j, role'⟩ ⟨q, place', covers'⟩
    cases divided.whole.part_unique mine ((roles place').1.mpr ⟨role', covers'⟩)
    have same : q = p := by
      rcases place with one | one <;> rcases place' with two | two <;> cases one.symm.trans two <;> rfl
    subst same
    rw [(roles place).2.1 role' role covers' covers]
  · rintro ⟨⟨i, role⟩, ⟨p, place, covers⟩, -⟩
    exact (divided.whole.within i).ne_none ((roles place).1.mpr ⟨role, covers⟩)

/-- After a `fork`, the page of the parent. -/
theorem pages_have_one_owner_forked : ∃ s : State 2, Reach sixteenPages False s ∧ s.memory 0x80104000 ≠ none ∧
    ∃! owner, Owner s 0x80104000 owner := by
  have there : forked.1 0x80104000 ≠ none := by
    apply Option.isSome_iff_ne_none.mp
    decide +kernel
  refine ⟨_, forked_reach, there, (pages_have_one_owner forked_reach ?_ _).mp there⟩
  intro i child c
  match i with
  | 0 => exact nofun
  | 1 => exact nofun

end Accounts

end OShard.Space
