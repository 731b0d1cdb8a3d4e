import OShard.Space.Fork

namespace OShard.Space

open Separation Assertion Prog

variable {ram : Ram} {fails : Prop} {root i n pa perm sz trapframe : Nat} {entry : Nat → Nat} {top : Nat → Nat}
  {ok : Nat → Prop} {h : Heap Page}

def trampolineTop (ram : Ram) : Nat → Nat :=
  Function.update (fun _ => 0) (userPages + 1) (pa2pte ram.trampoline ||| (pteR ||| pteX) ||| pteV)

def tops (ram : Ram) (trapframe : Nat) : Nat → Nat :=
  Function.update (trampolineTop ram) userPages (pa2pte trapframe ||| (pteR ||| pteW) ||| pteV)

theorem trampolineVa_eq : trampolineVa = (userPages + 1) * pgSize := by
  rw [userPages_eq]
  decide

theorem trapframeVa_eq : trapframeVa = userPages * pgSize := by
  rw [userPages_eq]
  decide

theorem hidden_tops : Hidden (tops ram trapframe) := by
  have no_user : ∀ pa perm, perm < 1024 → (perm ||| pteV) &&& pteU = 0 → (pa2pte pa ||| perm ||| pteV) &&& pteU = 0 := by
    intro pa perm small none
    rw [and_flags (by decide), pteFlags_pte small]
    exact none
  intro i
  unfold tops trampolineTop
  by_cases low : i = userPages
  · rw [low, Function.update_self]
    exact no_user _ _ (by decide) (by decide)
  rw [Function.update_of_ne low]
  by_cases high : i = userPages + 1
  · rw [high, Function.update_self]
    exact no_user _ _ (by decide) (by decide)
  · rw [Function.update_of_ne high]
    rfl

section Top

theorem Shape.setTop (shape : Shape n top ok entry) (above : userPages ≤ i) (pte : Nat) :
    Shape n (Function.update top i pte) ok (Function.update entry i pte) := by
  have bound := shape.bound
  constructor
  · exact bound
  · intro x below
    rw [Function.update_of_ne (by omega)]
    exact shape.empty x below
  · intro x below
    rw [Function.update_of_ne (by omega)]
    exact shape.leaf x below
  · intro x above'
    by_cases same : x = i
    · rw [same, Function.update_self, Function.update_self]
    · rw [Function.update_of_ne same, Function.update_of_ne same]
      exact shape.top x above'

theorem mappages_top (above : userPages ≤ i) (below : i < 2 ^ 26) (fresh : top i = 0) (bounded : pa < 2 ^ 56) (small : perm < 1024) :
    Triple (ram.supply fails) (Memory ram root n top ok) (mappages root (i * pgSize) pgSize pa perm) fun r =>
      if r = 0 then Memory ram root n (Function.update top i (pa2pte pa ||| perm ||| pteV)) ok
      else given (r = -1 ∧ fails) (Memory ram root n top ok) := by
  apply Triple.any
  intro entry
  apply Triple.given
  intro shape
  have mapped := @mappages_spec ram fails root i entry pa perm below ((shape.top i above).trans fresh) bounded small
  apply (mapped.frame _).post
  intro r h holds
  by_cases success : r = 0
  · rw [if_pos success] at holds ⊢
    refine ⟨_, shape.setTop above _, ?_⟩
    rw [Data.above above]
    exact holds
  · rw [if_neg success] at holds ⊢
    rw [given_mul] at holds
    exact ⟨holds.1, entry, shape, holds.2⟩

theorem uvmunmap_top (above : userPages ≤ i) (below : i < 2 ^ 26) (leaf : Leaf (top i)) :
    Triple (ram.supply fails) (Memory ram root n top ok) (uvmunmap root (i * pgSize) 1 false) fun _ =>
      Memory ram root n (Function.update top i 0) ok := by
  apply Triple.any
  intro entry
  apply Triple.given
  intro shape
  have leaf' : Leaf (entry i) := by
    rw [shape.top i above]
    exact leaf
  have aligned : ¬i * pgSize % pgSize ≠ 0 := not_not.mpr (Nat.mul_mod_left _ _)
  rw [uvmunmap, if_neg aligned]
  change Triple _ _ (unmapPage root (i * pgSize + 0 * pgSize) false) _
  rw [Nat.zero_mul, Nat.add_zero]
  apply ((unmapPage_keep below leaf').frame _).post
  intro _ h holds
  refine ⟨_, shape.setTop above 0, ?_⟩
  rw [Data.above above]
  exact holds

end Top

section Tables

theorem pages_le : pages sz ≤ userPages ↔ sz ≤ userPages * pgSize := by
  unfold pages pgSize
  omega

theorem Memory.small (memory : Memory ram root (pages sz) top ok h) : sz ≤ userPages * pgSize := by
  obtain ⟨entry, shape, -⟩ := memory
  exact pages_le.mp shape.bound

theorem Memory.none {ok' : Nat → Prop} (memory : Memory ram root 0 top ok h) : Memory ram root 0 top ok' h := by
  obtain ⟨entry, shape, holds⟩ := memory
  exact ⟨entry, ⟨shape.bound, shape.empty, nofun, shape.top⟩, holds⟩

theorem freewalk_memory : Triple (ram.supply fails) (Memory ram root 0 (fun _ => 0) ok) (freewalk 3 root) fun _ => 1 := by
  apply Triple.any
  intro entry
  apply Triple.given
  intro shape
  have empty : ∀ j, entry j = 0 := by
    intro j
    by_cases below : j < userPages
    · exact shape.empty j below (Nat.zero_le j)
    · exact shape.top j (Nat.not_lt.mp below)
  have data : Data ram entry = 1 := by
    apply Finset.prod_eq_one
    intro x _
    exact if_pos (empty x)
  rw [data, mul_one]
  exact freewalk_spec fun j _ => empty j

theorem uvmfree_spec : Triple (ram.supply fails) (Memory ram root (pages sz) (fun _ => 0) ok) (uvmfree root sz) fun _ => 1 := by
  apply Triple.fact fun h memory => Memory.small memory
  intro small
  have range := userPages_eq
  unfold pgSize at small
  rw [uvmfree]
  by_cases some : 0 < sz
  · rw [if_pos some, pgroundup_eq (by omega), Nat.mul_div_cancel _ (by decide)]
    have unmapped := @uvmunmap_memory ram fails root (pages sz) (fun _ => 0) ok 0 (Nat.zero_le _)
    rw [Nat.zero_mul, Nat.sub_zero] at unmapped
    apply Triple.bind unmapped
    exact fun _ => freewalk_memory
  · have none : pages sz = 0 := by
      unfold pages pgSize
      omega
    rw [if_neg some, none]
    exact freewalk_memory

theorem tops_leaf : Leaf (tops ram trapframe userPages) ∧ Leaf (trampolineTop ram (userPages + 1)) := by
  unfold tops trampolineTop
  rw [Function.update_self, Function.update_self]
  exact ⟨leaf_pte (by decide) (by decide), leaf_pte (by decide) (by decide)⟩

theorem clear_trampoline : Function.update (trampolineTop ram) (userPages + 1) 0 = fun _ => 0 := by
  unfold trampolineTop
  rw [Function.update_idem, Function.update_eq_self_iff]

theorem procFreepagetable_spec : Triple (ram.supply fails) (Memory ram root (pages sz) (tops ram trapframe) ok)
    (procFreepagetable root sz) fun _ => 1 := by
  have range := userPages_eq
  have leaf : Leaf (tops ram trapframe (userPages + 1)) := by
    rw [tops, Function.update_of_ne (by omega)]
    exact (@tops_leaf ram trapframe).2
  have leaf' : Leaf (Function.update (tops ram trapframe) (userPages + 1) 0 userPages) := by
    rw [Function.update_of_ne (by omega)]
    exact tops_leaf.1
  have cleared : Function.update (Function.update (tops ram trapframe) (userPages + 1) 0) userPages 0 = fun _ => 0 := by
    rw [tops, Function.update_comm (by omega), Function.update_idem, Function.update_comm (by omega), clear_trampoline,
      Function.update_eq_self_iff]
  rw [procFreepagetable, trampolineVa_eq, trapframeVa_eq]
  apply Triple.bind (uvmunmap_top (by omega) (by omega) leaf)
  intro _
  apply Triple.bind (uvmunmap_top (Nat.le_refl _) (by omega) leaf')
  intro _
  rw [cleared]
  exact uvmfree_spec

theorem memory_zero (inside : root ∈ ram.pool) (zero : points root Page.zero h) : Memory ram root 0 (fun _ => 0) anyPte h := by
  refine ⟨fun _ => 0, ⟨Nat.zero_le _, fun _ _ _ => rfl, nofun, fun _ _ => rfl⟩, ?_⟩
  have data : Data ram (fun _ => 0) = 1 := Finset.prod_eq_one fun _ _ => if_pos rfl
  rw [data, mul_one]
  exact table_zero inside (fun _ _ => rfl) zero

theorem procPagetable_spec (inside : trapframe ∈ ram.pool) :
    Triple (ram.supply fails) 1 (procPagetable ram.trampoline trapframe) fun r =>
      match r with
      | none => given fails 1
      | some root => Memory ram root 0 (tops ram trapframe) anyPte := by
  have range := userPages_eq
  rw [procPagetable, trampolineVa_eq, trapframeVa_eq, uvmcreate]
  apply Triple.bind (Q := fun r => match r with
    | none => given fails 1
    | some root => Memory ram root 0 (fun _ => 0) anyPte)
  · apply Triple.bindAllocate
    · exact fun failed => Triple.done fun h holds => ⟨failed, holds⟩
    intro root inside' junk
    apply Triple.bindUpdate
    apply Triple.done
    rw [mul_one]
    exact fun h => memory_zero inside'
  · intro r
    cases r with
    | none => exact Triple.pure rfl
    | some root =>
      have empty : pages 0 = 0 := by decide
      apply Triple.bind (mappages_top (by omega) (by omega) rfl ram.textBounded (by decide))
      intro r
      by_cases success : r = 0
      · rw [if_pos success, if_neg (by omega)]
        have fresh : trampolineTop ram userPages = 0 := by
          rw [trampolineTop, Function.update_of_ne (by omega)]
        apply Triple.bind (mappages_top (Nat.le_refl _) (by omega) fresh (ram.bounded _ inside) (by decide))
        intro r'
        by_cases success' : r' = 0
        · rw [if_pos success', if_neg (by omega)]
          exact Triple.pure rfl
        rw [if_neg success']
        apply Triple.given
        rintro ⟨rfl, failed⟩
        rw [if_pos (by decide)]
        apply Triple.bind (uvmunmap_top (by omega) (by omega) (@tops_leaf ram trapframe).2)
        intro _
        rw [clear_trampoline, ← empty]
        apply Triple.bind uvmfree_spec
        exact fun _ => Triple.done fun h holds => ⟨failed, holds⟩
      · rw [if_neg success]
        apply Triple.given
        rintro ⟨rfl, failed⟩
        rw [if_pos (by decide), ← empty]
        apply Triple.bind uvmfree_spec
        exact fun _ => Triple.done fun h holds => ⟨failed, holds⟩

end Tables

section Processes

variable {σ : Type} {f : Unit → Prog Page σ} {F : Assertion Page} {R : σ → Assertion Page}

def Owned (ram : Ram) (p : Proc) : Assertion Page :=
  page ram p.trapframe * Memory ram p.pagetable (pages p.sz) (tops ram p.trapframe) anyPte

variable {p : Proc}

theorem kfree_page
    (rest : Triple (ram.supply fails) F (f ()) R) : Triple (ram.supply fails) (page ram pa * F) (kfree pa >>= f) R := by
  rw [page, given_mul, any_mul]
  apply Triple.given
  intro _
  apply Triple.any
  intro junk
  exact Triple.bindRelease rest

theorem freeproc_spec : Triple (ram.supply fails) (Owned ram p) (freeproc (some p.trapframe) (some p.pagetable) p.sz) fun _ => 1 := by
  rw [Owned]
  apply kfree_page
  exact procFreepagetable_spec

theorem allocproc_spec : Triple (ram.supply fails) 1 (allocproc ram.trampoline) fun r =>
    match r with
    | none => given fails 1
    | some np => given (np.sz = 0) (Owned ram np) := by
  rw [allocproc]
  apply Triple.bindAllocate
  · exact fun failed => Triple.done fun h holds => ⟨failed, holds⟩
  intro trapframe inside junk
  rw [mul_one]
  apply Triple.fresh (procPagetable_spec inside)
  intro r
  cases r with
  | none =>
    rw [given_mul, one_mul]
    apply Triple.given
    intro failed
    rw [← mul_one (points trapframe junk)]
    apply Triple.bindRelease
    exact Triple.done fun h holds => ⟨failed, holds⟩
  | some root =>
    apply Triple.done
    intro h holds
    rw [mul_comm] at holds
    refine ⟨rfl, ?_⟩
    rw [Owned, show pages 0 = 0 by decide]
    exact mul_mono (fun _ here => ⟨inside, junk, here⟩) (fun _ memory => memory) holds

theorem Owned.small (owned : Owned ram p h) : p.sz ≤ userPages * pgSize := by
  obtain ⟨left, right, -, -, -, memory⟩ := owned
  exact Memory.small memory

theorem growproc_spec {n : Int} : Triple (ram.supply fails) (Owned ram p) (growproc p n) fun r =>
    given (r.2 = { p with sz := r.2.sz } ∧ (r.1 ≠ 0 → r.1 = -1 ∧ r.2 = p)) (Owned ram r.2) := by
  apply Triple.fact fun h owned => Owned.small owned
  intro small
  have again : ∀ {sz h}, (Memory ram p.pagetable (pages sz) (tops ram p.trapframe) anyPte * page ram p.trapframe) h →
      Owned ram { p with sz := sz } h := by
    intro sz h holds
    rw [mul_comm] at holds
    exact holds
  rw [growproc]
  by_cases more : 0 < n
  · rw [if_pos more, Owned, mul_comm]
    apply Triple.call (uvmalloc_spec small (by decide) fun _ _ => trivial)
    intro sz
    rw [either_mul, given_mul, given_mul]
    apply Triple.either
    · apply Triple.given
      rintro rfl
      by_cases zero : max p.sz ((p.sz + n) % 2 ^ 64).toNat = 0
      · rw [if_pos zero]
        apply Triple.done
        intro h holds
        have same : p.sz = 0 := by omega
        rw [zero, ← same] at holds
        exact ⟨⟨rfl, fun _ => ⟨rfl, rfl⟩⟩, again holds⟩
      · rw [if_neg zero]
        exact Triple.done fun h holds => ⟨⟨rfl, fun bad => absurd rfl bad⟩, again holds⟩
    · apply Triple.given
      rintro rfl
      rw [if_pos rfl]
      exact Triple.done fun h holds => ⟨⟨rfl, fun _ => ⟨rfl, rfl⟩⟩, again holds⟩
  · rw [if_neg more]
    by_cases less : n < 0
    · rw [if_pos less, Owned, mul_comm]
      apply Triple.call (uvmdealloc_spec small)
      intro sz
      rw [given_mul]
      apply Triple.given
      rintro rfl
      exact Triple.done fun h holds => ⟨⟨rfl, fun bad => absurd rfl bad⟩, again holds⟩
    · rw [if_neg less]
      exact Triple.done fun h holds => ⟨⟨rfl, fun bad => absurd rfl bad⟩, holds⟩

theorem page_update {change : Page → Page} (rest : Triple (ram.supply fails) (page ram pa * F) (f ()) R) :
    Triple (ram.supply fails) (page ram pa * F) (update pa change >>= f) R := by
  rw [page, given_mul, any_mul]
  apply Triple.given
  intro inside
  apply Triple.any
  intro junk
  apply Triple.bindUpdate
  apply rest.pre
  intro h holds
  exact mul_mono (fun _ here => ⟨inside, _, here⟩) (fun _ frame => frame) holds

theorem page_get {f : Page → Prog Page σ} (rest : ∀ junk, Triple (ram.supply fails) (page ram pa * F) (f junk) R) :
    Triple (ram.supply fails) (page ram pa * F) (get pa >>= f) R := by
  rw [page, given_mul, any_mul]
  apply Triple.given
  intro inside
  apply Triple.any
  intro junk
  apply Triple.bindGet
  apply (rest junk).pre
  intro h holds
  exact mul_mono (fun _ here => ⟨inside, _, here⟩) (fun _ frame => frame) holds

theorem fork_copies {g m : Heap Page} {data : Nat → Page} {registers : Page} (frame : g p.trapframe = some registers)
    (held : Held ram p.pagetable (pages p.sz) top entry data m) (part : m.Within g) :
    Triple (ram.supply fails) (exactly g) (fork ram.trampoline p) fun r =>
      match r with
      | none => exactly g
      | some np => given (np.sz = p.sz ∧ np.ofile = p.ofile ∧ np.name = p.name)
          (exactly g * (page ram np.trapframe * Copies ram np.pagetable (pages p.sz) (tops ram np.trapframe) entry data)) := by
  rw [fork]
  apply Triple.fresh allocproc_spec
  intro r
  cases r with
  | none =>
    rw [given_mul, one_mul]
    exact Triple.given fun _ => Triple.pure rfl
  | some np =>
    rw [given_mul]
    apply Triple.given
    intro empty
    have none : pages np.sz = 0 := by
      rw [empty]
      decide
    rw [Owned, none, mul_assoc, mul_comm (Memory _ _ _ _ _), mul_comm]
    apply Triple.call (uvmcopy_copies held part)
    intro r
    by_cases success : r = 0
    · rw [if_pos success, if_neg (by omega), mul_assoc]
      apply Triple.look fun h whole => get_view (whole _ _ frame)
      rw [← mul_assoc, mul_comm]
      apply page_update
      apply page_update
      apply Triple.done
      intro h holds
      rw [mul_left_comm] at holds
      exact ⟨⟨rfl, rfl, rfl⟩, holds⟩
    · rw [if_neg success, given_mul]
      apply Triple.given
      rintro rfl
      rw [if_pos (by decide), ← none, mul_assoc, mul_comm, mul_comm (Memory _ _ _ _ _)]
      apply Triple.call freeproc_spec
      intro _
      rw [one_mul]
      exact Triple.pure rfl

theorem fork_spec : Triple (ram.supply fails) (Owned ram p) (fork ram.trampoline p) fun r =>
    match r with
    | none => Owned ram p
    | some np => given (np.sz = p.sz ∧ np.ofile = p.ofile ∧ np.name = p.name) (Owned ram p * Owned ram np) := by
  constructor
  intro h owned
  have again := owned
  obtain ⟨t, m, apart, rfl, ⟨-, registers, rfl⟩, memory⟩ := owned
  obtain ⟨entry, data, held⟩ := memory.held
  have frame := (Heap.within_left apart) p.trapframe registers Heap.single_self
  apply wp_mono _ ((fork_copies frame held (Heap.within_right apart)).run _ rfl)
  intro r h holds
  cases r with
  | none =>
    cases holds
    exact again
  | some np =>
    obtain ⟨⟨size, rest⟩, both⟩ := holds
    refine ⟨⟨size, rest⟩, mul_mono ?_ ?_ both⟩
    · rintro _ rfl
      exact again
    · intro h child
      rw [Owned, size]
      exact mul_mono (fun _ page => page) (fun _ copies => copies.memory) child

theorem uvmfirst_spec {src : List Nat} (short : src.length < pgSize) :
    Triple (ram.supply False) (Memory ram root 0 top anyPte) (uvmfirst root src) fun _ => Memory ram root 1 top anyPte := by
  rw [uvmfirst, if_neg (Nat.not_le.mpr short)]
  apply Triple.bindAllocate
  · exact False.elim
  intro mem inside junk
  apply Triple.bindUpdate
  -- the entry is told from others, as its page is written next
  have here : pte2pa (pa2pte mem ||| (pteW ||| pteR ||| pteX ||| pteU) ||| pteV) = mem :=
    pte2pa_pte (by decide) (ram.aligned mem inside)
  have mapped := @mappages_push ram False root 0 top (fun pte => pte2pa pte = mem) (pteW ||| pteR ||| pteX ||| pteU) mem Page.zero
    inside (by decide) (by decide) here
  rw [Nat.zero_mul] at mapped
  apply Triple.bind (mapped.pre _)
  · intro r
    by_cases success : r = 0
    · rw [if_pos success]
      apply Triple.any
      intro entry
      apply Triple.given
      intro shape
      obtain ⟨leaf, small, here⟩ := shape.leaf 0 Nat.zero_lt_one
      apply page_bind shape Nat.zero_lt_one
      intro inside' junk'
      rw [here]
      apply ((Triple.update _).frame _).post
      intro _ h holds
      have shape' : Shape 1 top anyPte entry :=
        ⟨shape.bound, shape.empty, fun i below => ⟨(shape.leaf i below).1, (shape.leaf i below).2.1, trivial⟩, shape.top⟩
      rw [← here] at holds
      exact ⟨entry, shape', page_return shape' Nat.zero_lt_one inside' holds⟩
    · rw [if_neg success]
      exact Triple.given fun failed => False.elim failed.2
  · intro h holds
    exact mul_mono (fun _ here => here) (fun _ memory => Memory.none memory) holds

theorem userinit_spec : Triple (ram.supply False) 1 (userinit ram.trampoline) fun p => Owned ram p := by
  rw [userinit]
  apply Triple.bind allocproc_spec
  intro r
  cases r with
  | none => exact Triple.given False.elim
  | some p =>
    apply Triple.given
    intro empty
    have none : pages p.sz = 0 := by
      rw [empty]
      decide
    rw [Owned, none, mul_comm]
    apply Triple.call (uvmfirst_spec (by decide))
    intro _
    rw [mul_comm]
    apply page_update
    apply page_update
    apply Triple.done
    intro h holds
    rw [Owned, show pages pgSize = 1 by decide]
    exact holds

end Processes

end OShard.Space
