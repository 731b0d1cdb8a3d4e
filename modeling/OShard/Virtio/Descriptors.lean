import OShard.Virtio.Model

namespace OShard.Virtio

open Function

variable {m : Nat} {disk disk' : Disk m}

section Allocation

def mark (free : Fin num → Bool) (descs : List (Fin num)) (value : Bool) : Fin num → Bool :=
  fun i => if i ∈ descs then value else free i

theorem mark_nil (free : Fin num → Bool) (value : Bool) : mark free [] value = free := by
  funext i
  exact if_neg List.not_mem_nil

theorem mark_append (free : Fin num → Bool) (descs more : List (Fin num)) (value : Bool) :
    mark free (descs ++ more) value = mark (mark free descs value) more value := by
  funext i
  unfold mark
  by_cases new : i ∈ more
  · rw [if_pos new, if_pos (List.mem_append_right _ new)]
  · rw [if_neg new]
    by_cases old : i ∈ descs
    · rw [if_pos old, if_pos (List.mem_append_left _ old)]
    · rw [if_neg old, if_neg fun member => (List.mem_append.mp member).elim old new]

theorem mark_singleton (free : Fin num → Bool) (i : Fin num) (value : Bool) :
    mark free [i] value = update free i value := by
  funext j
  unfold mark
  by_cases same : j = i
  · rw [same, update_self, if_pos (List.mem_singleton_self i)]
  · rw [update_of_ne same, if_neg fun member => same (List.mem_singleton.mp member)]

theorem mark_back {free : Fin num → Bool} {descs : List (Fin num)} {value : Bool}
    (before : ∀ i ∈ descs, free i = value) (other : Bool) : mark (mark free descs other) descs value = free := by
  funext i
  unfold mark
  by_cases member : i ∈ descs
  · rw [if_pos member, before i member]
  · rw [if_neg member, if_neg member]

theorem allocDesc_some {i : Fin num} (found : allocDesc disk = (some i, disk')) :
    disk.free i = true ∧ disk' = { disk with free := mark disk.free [i] false } := by
  unfold allocDesc at found
  cases first : (List.finRange num).find? fun i => disk.free i with
  | none =>
    rw [first] at found
    cases found
  | some j =>
    rw [first] at found
    cases found
    refine ⟨by simpa using List.find?_some first, ?_⟩
    rw [mark_singleton]

theorem allocDesc_none (full : allocDesc disk = (none, disk')) : disk' = disk := by
  unfold allocDesc at full
  cases first : (List.finRange num).find? fun i => disk.free i with
  | none =>
    rw [first] at full
    cases full
    rfl
  | some j =>
    rw [first] at full
    cases full

theorem freeDesc_ok {i : Fin num} (taken : disk.free i = false) :
    freeDesc disk i = .ok { disk with desc := update disk.desc i Desc.zero, free := mark disk.free [i] true } := by
  unfold freeDesc
  rw [dif_pos i.isLt, if_neg (by rw [taken]; decide), mark_singleton]

theorem freeAll (descs : List (Fin num)) : ∀ (disk : Disk m), descs.Nodup → (∀ i ∈ descs, disk.free i = false) →
    ∃ desc, (∀ i, i ∉ descs → desc i = disk.desc i) ∧
      descs.foldlM (fun disk (j : Fin num) => freeDesc disk j) disk =
        .ok { disk with desc := desc, free := mark disk.free descs true } := by
  induction descs with
  | nil =>
    intro disk _ _
    refine ⟨disk.desc, fun _ _ => rfl, ?_⟩
    rw [mark_nil]
    rfl
  | cons i descs ih =>
    intro disk distinct taken
    obtain ⟨fresh, distinct⟩ := List.nodup_cons.mp distinct
    let next : Disk m := { disk with desc := update disk.desc i Desc.zero, free := mark disk.free [i] true }
    have still : ∀ j ∈ descs, next.free j = false := by
      intro j member
      have other : j ∉ [i] := fun same => fresh (List.mem_singleton.mp same ▸ member)
      exact (if_neg other).trans (taken j (List.mem_cons_of_mem i member))
    obtain ⟨desc, kept, freed⟩ := ih next distinct still
    refine ⟨desc, ?_, ?_⟩
    · intro j outside
      rw [List.mem_cons, not_or] at outside
      obtain ⟨other, outside⟩ := outside
      rw [kept j outside]
      exact update_of_ne other _ _
    · rw [List.foldlM_cons, freeDesc_ok (taken i List.mem_cons_self)]
      have all : mark disk.free (i :: descs) true = mark next.free descs true := mark_append disk.free [i] descs true
      rw [all]
      exact freed

inductive Allocated (disk : Disk m) : Disk m × Option (List (Fin num)) → Prop where
  | some (descs : List (Fin num)) : descs.length = 3 → descs.Nodup → (∀ i ∈ descs, disk.free i = true) →
      Allocated disk ({ disk with free := mark disk.free descs false }, some descs)
  | none (desc : Fin num → Desc m) : (∀ i, disk.free i = false → desc i = disk.desc i) →
      Allocated disk ({ disk with desc := desc }, none)

theorem allocMore_spec (n : Nat) : ∀ (idx : List (Fin num)), n + idx.length = 3 → idx.Nodup →
    (∀ i ∈ idx, disk.free i = true) →
    ∃ result, allocMore n { disk with free := mark disk.free idx false } idx = .ok result ∧ Allocated disk result := by
  induction n with
  | zero =>
    intro idx size distinct before
    exact ⟨_, rfl, .some idx (by omega) distinct before⟩
  | succ n ih =>
    intro idx size distinct before
    rcases found : allocDesc { disk with free := mark disk.free idx false } with ⟨choice, after⟩
    unfold allocMore
    rw [found]
    cases choice with
    | none =>
      rw [allocDesc_none found]
      have taken : ∀ i ∈ idx, mark disk.free idx false i = false := fun i member => if_pos member
      obtain ⟨desc, kept, freed⟩ := freeAll idx { disk with free := mark disk.free idx false } distinct taken
      refine ⟨({ disk with desc := desc }, none), ?_, .none desc ?_⟩
      · change Except.map _ (idx.foldlM (fun disk (j : Fin num) => freeDesc disk j) _) = _
        rw [freed]
        change Except.ok (({ disk with desc := desc, free := mark (mark disk.free idx false) idx true } : Disk m), none) = _
        rw [mark_back before false]
      · intro i busy
        apply kept
        intro member
        rw [before i member] at busy
        exact nomatch busy
    | some i =>
      obtain ⟨available, shape⟩ := allocDesc_some found
      have fresh : i ∉ idx := by
        intro member
        have marked : mark disk.free idx false i = false := if_pos member
        exact absurd (marked.symm.trans available) (by decide)
      have free : disk.free i = true := by
        have same : mark disk.free idx false i = disk.free i := if_neg fresh
        exact same.symm.trans available
      have more := ih (idx ++ [i]) (by rw [List.length_append, List.length_singleton]; omega)
        (List.nodup_append.mpr ⟨distinct, List.pairwise_singleton _ _, fun a left b right same =>
          fresh (List.mem_singleton.mp right ▸ same ▸ left)⟩)
        (fun j member => (List.mem_append.mp member).elim (before j)
          fun new => (List.mem_singleton.mp new).symm ▸ free)
      rw [mark_append] at more
      rw [shape]
      exact more

theorem alloc3Desc_spec (disk : Disk m) : ∃ result, alloc3Desc disk = .ok result ∧ Allocated disk result := by
  have run : ∃ result, allocMore 3 { disk with free := mark disk.free [] false } [] = .ok result ∧ Allocated disk result :=
    allocMore_spec 3 [] rfl List.nodup_nil nofun
  rw [mark_nil] at run
  exact run

end Allocation

section Chains

variable {i : Fin num} {d : Desc m}

structure Wired (disk : Disk m) (blockno : Fin m → BitVec 32) (job : Job m) : Prop where
  desc0 : disk.desc job.idx0 = job.desc0
  desc1 : disk.desc job.idx1 = job.desc1
  desc2 : disk.desc job.idx2 = job.desc2
  req : disk.ops job.idx0 = job.req blockno
  info : (disk.info job.idx0).b = some job.b

variable {blockno : Fin m → BitVec 32} {job : Job m}

theorem freeChain_more (fuel : Nat) (taken : disk.free i = false) (here : disk.desc i = d)
    (more : d.flags &&& flagNext ≠ 0) :
    freeChain (fuel + 1) disk i =
      freeChain fuel { disk with desc := update disk.desc i Desc.zero, free := mark disk.free [i] true } d.next := by
  subst here
  rw [freeChain, dif_pos i.isLt, freeDesc_ok taken]
  exact if_pos more

theorem freeChain_last (fuel : Nat) (taken : disk.free i = false) (here : disk.desc i = d)
    (last : ¬(d.flags &&& flagNext ≠ 0)) :
    freeChain (fuel + 1) disk i =
      .ok { disk with desc := update disk.desc i Desc.zero, free := mark disk.free [i] true } := by
  subst here
  rw [freeChain, dif_pos i.isLt, freeDesc_ok taken]
  exact if_neg last

def Job.cleared (job : Job m) (desc : Fin num → Desc m) : Fin num → Desc m :=
  update (update (update desc job.idx0 Desc.zero) job.idx1 Desc.zero) job.idx2 Desc.zero

theorem Job.cleared_other (job : Job m) (desc : Fin num → Desc m) (outside : i ∉ job.descs) :
    job.cleared desc i = desc i := by
  unfold Job.descs at outside
  rw [List.mem_cons, List.mem_cons, List.mem_singleton, not_or, not_or] at outside
  obtain ⟨other0, other1, other2⟩ := outside
  unfold Job.cleared
  rw [update_of_ne other2, update_of_ne other1, update_of_ne other0]

theorem Job.distinct (nodup : job.descs.Nodup) : job.idx1 ≠ job.idx0 ∧ job.idx2 ≠ job.idx0 ∧ job.idx2 ≠ job.idx1 := by
  unfold Job.descs at nodup
  rw [List.nodup_cons, List.nodup_cons, List.mem_cons, List.mem_singleton, List.mem_singleton, not_or] at nodup
  exact ⟨nodup.1.1 ∘ Eq.symm, nodup.1.2 ∘ Eq.symm, nodup.2.1 ∘ Eq.symm⟩

theorem Job.next0 (job : Job m) : job.desc0.flags &&& flagNext ≠ 0 := by
  change flagNext &&& flagNext ≠ 0
  decide

theorem Job.next1 (job : Job m) : job.desc1.flags &&& flagNext ≠ 0 := by
  change ((if job.write then 0 else flagWrite) ||| flagNext) &&& flagNext ≠ 0
  cases job.write <;> decide

theorem Job.next2 (job : Job m) : ¬(job.desc2.flags &&& flagNext ≠ 0) := by
  change ¬(flagWrite &&& flagNext ≠ 0)
  decide

theorem freeChain_ok (fuel : Nat) (desc0 : disk.desc job.idx0 = job.desc0) (desc1 : disk.desc job.idx1 = job.desc1)
    (desc2 : disk.desc job.idx2 = job.desc2) (nodup : job.descs.Nodup) (taken : ∀ i ∈ job.descs, disk.free i = false) :
    freeChain (fuel + 3) disk job.idx0 =
      .ok { disk with desc := job.cleared disk.desc, free := mark disk.free job.descs true } := by
  obtain ⟨other10, other20, other21⟩ := Job.distinct nodup
  have taken0 : disk.free job.idx0 = false := taken _ List.mem_cons_self
  have taken1 : mark disk.free [job.idx0] true job.idx1 = false :=
    (if_neg fun member => other10 (List.mem_singleton.mp member)).trans
      (taken _ (List.mem_cons_of_mem _ List.mem_cons_self))
  have taken2 : mark (mark disk.free [job.idx0] true) [job.idx1] true job.idx2 = false :=
    ((if_neg fun member => other21 (List.mem_singleton.mp member)).trans
      (if_neg fun member => other20 (List.mem_singleton.mp member))).trans
      (taken _ (List.mem_cons_of_mem _ (List.mem_cons_of_mem _ List.mem_cons_self)))
  have all : mark disk.free job.descs true = mark (mark (mark disk.free [job.idx0] true) [job.idx1] true) [job.idx2] true := by
    rw [← mark_append, ← mark_append]
    rfl
  have next1 : update disk.desc job.idx0 Desc.zero job.idx1 = job.desc1 := by
    rw [update_of_ne other10, desc1]
  have next2 : update (update disk.desc job.idx0 Desc.zero) job.idx1 Desc.zero job.idx2 = job.desc2 := by
    rw [update_of_ne other21, update_of_ne other20, desc2]
  rw [freeChain_more (fuel + 2) taken0 desc0 job.next0]
  change freeChain (fuel + 1 + 1) _ (job.idx1 : Nat) = _
  rw [freeChain_more (fuel + 1) taken1 next1 job.next1]
  change freeChain (fuel + 1) _ (job.idx2 : Nat) = _
  rw [freeChain_last fuel taken2 next2 job.next2, all]
  rfl

section

variable (wired : Wired disk blockno job)

include wired

theorem finish_ok (nodup : job.descs.Nodup)
    (taken : ∀ i ∈ job.descs, disk.free i = false) :
    disk.finish job = .ok { disk with
      info := update disk.info job.idx0 { disk.info job.idx0 with b := none }
      desc := job.cleared disk.desc
      free := mark disk.free job.descs true } :=
  freeChain_ok (num - 2) wired.desc0 wired.desc1 wired.desc2 nodup taken

theorem serve_wired :
    disk.serve job.idx0 = { disk with info := update disk.info job.idx0 { disk.info job.idx0 with status := 0 } } := by
  have found : ∀ i : Fin num, disk.descAt i = disk.desc i := fun i => dif_pos i.isLt
  have first : (disk.desc job.idx0).next = job.idx1 := by rw [wired.desc0]; rfl
  have second : (disk.desc job.idx1).next = job.idx2 := by rw [wired.desc1]; rfl
  have last : (disk.desc job.idx2).addr = .status job.idx0 := by rw [wired.desc2]; rfl
  unfold Disk.serve
  rw [found, first, found, second, found, last]

theorem Wired.congr (desc : ∀ i ∈ job.descs, disk'.desc i = disk.desc i)
    (req : disk'.ops job.idx0 = disk.ops job.idx0) (info : (disk'.info job.idx0).b = (disk.info job.idx0).b) :
    Wired disk' blockno job := by
  refine ⟨?_, ?_, ?_, req.trans wired.req, info.trans wired.info⟩
  · exact (desc _ List.mem_cons_self).trans wired.desc0
  · exact (desc _ (List.mem_cons_of_mem _ List.mem_cons_self)).trans wired.desc1
  · exact (desc _ (List.mem_cons_of_mem _ (List.mem_cons_of_mem _ List.mem_cons_self))).trans wired.desc2

end

theorem format_wired (disk : Disk m) (blockno : Fin m → BitVec 32) (nodup : job.descs.Nodup) :
    Wired (disk.format blockno job) blockno job := by
  obtain ⟨other10, other20, other21⟩ := Job.distinct nodup
  unfold Disk.format
  refine ⟨?_, ?_, update_self _ _ _, update_self _ _ _, ?_⟩
  · dsimp only
    rw [update_of_ne other20.symm, update_of_ne other10.symm, update_self]
  · dsimp only
    rw [update_of_ne other21.symm, update_self]
  · dsimp only
    rw [update_self]

theorem format_other (disk : Disk m) (blockno : Fin m → BitVec 32) (outside : i ∉ job.descs) :
    (disk.format blockno job).desc i = disk.desc i ∧ (disk.format blockno job).ops i = disk.ops i ∧
      (disk.format blockno job).info i = disk.info i := by
  unfold Job.descs at outside
  rw [List.mem_cons, List.mem_cons, List.mem_singleton, not_or, not_or] at outside
  obtain ⟨other0, other1, other2⟩ := outside
  unfold Disk.format
  dsimp only
  rw [update_of_ne other2, update_of_ne other1, update_of_ne other0,
    update_of_ne other0, update_of_ne other0]
  exact ⟨rfl, rfl, rfl⟩

end Chains

end OShard.Virtio
