import OShard.Virtio.Descriptors

namespace OShard.Virtio

open RingBuffer Transition
open Function (update update_self update_of_ne)

variable {k m : Nat}

theorem lookup_update {ι α : Type} [DecidableEq ι] {f : ι → Option α} {i j : ι} {v : Option α} {x : α}
    (found : update f i v j = some x) : j = i ∧ v = some x ∨ j ≠ i ∧ f j = some x := by
  by_cases same : j = i
  · subst same
    rw [update_self] at found
    exact .inl ⟨rfl, found⟩
  · rw [update_of_ne same] at found
    exact .inr ⟨same, found⟩

section Ownership

structure Chains (jobs : Fin k → Option (Job m)) (free : Fin num → Bool) : Prop where
  nodup : ∀ p job, jobs p = some job → job.descs.Nodup
  taken : ∀ p job, jobs p = some job → ∀ i ∈ job.descs, free i = false
  apart : ∀ p q job other i, jobs p = some job → jobs q = some other → i ∈ job.descs → i ∈ other.descs → p = q
  owned : ∀ i, free i = false → ∃ p job, jobs p = some job ∧ i ∈ job.descs

variable {jobs : Fin k → Option (Job m)} {free : Fin num → Bool} {p : Fin k} {job : Job m}

theorem Chains.claim (chains : Chains jobs free) (idle : jobs p = none) (nodup : job.descs.Nodup)
    (available : ∀ i ∈ job.descs, free i = true) : Chains (update jobs p (some job)) (mark free job.descs false) := by
  have old : ∀ q other, jobs q = some other → ∀ i ∈ other.descs, i ∉ job.descs := by
    intro q other found i member mine
    exact absurd ((chains.taken q other found i member).symm.trans (available i mine)) (by decide)
  refine ⟨?_, ?_, ?_, ?_⟩
  · intro q other found
    rcases lookup_update found with ⟨_, new⟩ | ⟨_, found⟩
    · cases new
      exact nodup
    · exact chains.nodup q other found
  · intro q other found i member
    rcases lookup_update found with ⟨_, new⟩ | ⟨_, found⟩
    · cases new
      exact if_pos member
    · exact (if_neg (old q other found i member)).trans (chains.taken q other found i member)
  · intro q r first second i found found' member member'
    rcases lookup_update found with ⟨here, new⟩ | ⟨_, found⟩
    · rcases lookup_update found' with ⟨there, _⟩ | ⟨_, found'⟩
      · exact here.trans there.symm
      · cases new
        exact absurd member (old r second found' i member')
    · rcases lookup_update found' with ⟨_, new⟩ | ⟨_, found'⟩
      · cases new
        exact absurd member' (old q first found i member)
      · exact chains.apart q r first second i found found' member member'
  · intro i busy
    by_cases mine : i ∈ job.descs
    · exact ⟨p, job, update_self _ _ _, mine⟩
    obtain ⟨q, other, found, member⟩ := chains.owned i ((if_neg mine).symm.trans busy)
    have different : q ≠ p := by
      intro same
      rw [same, idle] at found
      exact nomatch found
    exact ⟨q, other, (update_of_ne different _ _).trans found, member⟩

theorem Chains.release (chains : Chains jobs free) (mine : jobs p = some job) :
    Chains (update jobs p none) (mark free job.descs true) := by
  have other : ∀ q x, update jobs p none q = some x → q ≠ p ∧ jobs q = some x := by
    intro q x found
    rcases lookup_update found with ⟨_, new⟩ | old
    · exact nomatch new
    · exact old
  refine ⟨?_, ?_, ?_, ?_⟩
  · intro q x found
    exact chains.nodup q x (other q x found).2
  · intro q x found i member
    obtain ⟨different, found⟩ := other q x found
    have outside : i ∉ job.descs := fun inside => different (chains.apart q p x job i found mine member inside)
    exact (if_neg outside).trans (chains.taken q x found i member)
  · intro q r x y i found found'
    exact chains.apart q r x y i (other q x found).2 (other r y found').2
  · intro i busy
    have outside : i ∉ job.descs := by
      intro inside
      have marked : mark free job.descs true i = true := if_pos inside
      exact absurd (marked.symm.trans busy) (by decide)
    obtain ⟨q, x, found, member⟩ := chains.owned i ((if_neg outside).symm.trans busy)
    have different : q ≠ p := by
      intro same
      rw [same, mine] at found
      cases found
      exact outside member
    exact ⟨q, x, (update_of_ne different _ _).trans found, member⟩

end Ownership

section Rings

theorem divides : num ∣ 2 ^ 16 := by decide

theorem wide : num < 2 ^ 16 := by decide

def unconsumed (disk : Disk m) (dev : Device) : List Nat := contents disk.avail.ring dev.lastAvail disk.avail.idx

def unread (disk : Disk m) : List Nat := contents disk.used.ring disk.usedIdx disk.used.idx

def waiting (disk : Disk m) (dev : Device) (head : Nat) : Nat :=
  (unconsumed disk dev).count head + dev.pending.count head + dev.served.count head

def load (disk : Disk m) (dev : Device) (head : Nat) : Nat := waiting disk dev head + (unread disk).count head

/-- A head is on its way exactly if it is that of a request whose buffer is the disk's, and it is in one place.
    A request that was posted after `since` completions is with the device or is one of the later completions. -/
structure Traffic (flights : Fin k → Option (Job m × Nat)) (busy : Fin m → Bool) (disk : Disk m) (dev : Device)
    (completions : List Nat) : Prop where
  flying : ∀ head, 0 < load disk dev head ↔
    ∃ p job since, flights p = some (job, since) ∧ (job.idx0 : Nat) = head ∧ busy job.b = true
  single : ∀ head, load disk dev head ≤ 1
  status : ∀ p job since, flights p = some (job, since) → (job.idx0 : Nat) ∈ dev.served ∨ (job.idx0 : Nat) ∈ unread disk →
    (disk.info job.idx0).status = 0
  since : ∀ p job since, flights p = some (job, since) → since ≤ completions.length ∧
    (completions.drop since).count (job.idx0 : Nat) + waiting disk dev job.idx0 = 1

variable {flights : Fin k → Option (Job m × Nat)} {busy : Fin m → Bool} {disk : Disk m} {dev : Device}
  {completions : List Nat} {p : Fin k} {job : Job m} {since head : Nat}

theorem room_of_single {heads : List Nat} (bounded : ∀ head ∈ heads, head < num) (single : ∀ head, heads.count head ≤ 1)
    (bound : head < num) (fresh : head ∉ heads) : heads.length < num := by
  have nodup : (head :: heads).Nodup := List.nodup_cons.mpr ⟨fresh, List.nodup_iff_count_le_one.mpr single⟩
  have within : head :: heads ⊆ List.range num := by
    intro x member
    rcases List.mem_cons.mp member with rfl | member
    · exact List.mem_range.mpr bound
    · exact List.mem_range.mpr (bounded x member)
  have short := (nodup.subperm within).length_le
  rw [List.length_cons, List.length_range] at short
  omega

section Traffic

variable (traffic : Traffic flights busy disk dev completions)

include traffic

theorem Traffic.bounded (moves : 0 < load disk dev head) : head < num := by
  obtain ⟨_, job, _, _, rfl, _⟩ := (traffic.flying head).mp moves
  exact job.idx0.isLt

theorem Traffic.roomAvail (bound : head < num)
    (fresh : load disk dev head = 0) : (disk.avail.idx - dev.lastAvail).toNat < num := by
  rw [← length_contents disk.avail.ring]
  have counts : ∀ x, (unconsumed disk dev).count x ≤ load disk dev x := by
    intro x
    unfold load waiting
    omega
  apply room_of_single _ (fun x => (counts x).trans (traffic.single x)) bound
  · intro member
    have positive : 0 < (unconsumed disk dev).count head := List.count_pos_iff.mpr member
    have less := counts head
    omega
  · intro x member
    have positive := List.count_pos_iff.mpr member
    exact traffic.bounded (Nat.lt_of_lt_of_le positive (counts x))

theorem Traffic.roomUsed (served : head ∈ dev.served) : (disk.used.idx - disk.usedIdx).toNat < num := by
  rw [← length_contents disk.used.ring]
  have here := List.count_pos_iff.mpr served
  have counts : ∀ x, (unread disk).count x ≤ load disk dev x := by
    intro x
    unfold load
    omega
  have moves : 0 < load disk dev head := by
    unfold load waiting
    omega
  apply room_of_single _ (fun x => (counts x).trans (traffic.single x)) (traffic.bounded moves)
  · intro member
    have positive : 0 < (unread disk).count head := List.count_pos_iff.mpr member
    have once := traffic.single head
    unfold load waiting at once
    omega
  · intro x member
    have positive := List.count_pos_iff.mpr member
    exact traffic.bounded (Nat.lt_of_lt_of_le positive (counts x))

theorem Traffic.fresh (other : ∀ q x n, flights q = some (x, n) → x.idx0 ≠ job.idx0) : load disk dev job.idx0 = 0 := by
  by_contra moves
  obtain ⟨q, x, n, found, same, _⟩ := (traffic.flying job.idx0).mp (Nat.pos_of_ne_zero moves)
  exact other q x n found (Fin.ext same)

theorem Traffic.format (blockno : Fin m → BitVec 32)
    (other : ∀ q x n, flights q = some (x, n) → x.b ≠ job.b ∧ x.idx0 ≠ job.idx0) :
    Traffic flights (update busy job.b true) (disk.format blockno job) dev completions := by
  have fresh := traffic.fresh fun q x n found => (other q x n found).2
  have same : unconsumed (disk.format blockno job) dev = unconsumed disk dev :=
    contents_update divides (Nat.le_refl _) (traffic.roomAvail job.idx0.isLt fresh) _
  have waits : ∀ x, waiting (disk.format blockno job) dev x = waiting disk dev x := by
    intro x
    unfold waiting
    rw [same]
  have loads : ∀ x, load (disk.format blockno job) dev x = load disk dev x := by
    intro x
    unfold load
    rw [waits]
    rfl
  refine ⟨?_, ?_, ?_, ?_⟩
  · intro x
    rw [loads, traffic.flying]
    constructor
    · intro ⟨q, y, n, found, head, on⟩
      exact ⟨q, y, n, found, head, (update_of_ne (other q y n found).1 _ _).trans on⟩
    · intro ⟨q, y, n, found, head, on⟩
      rw [update_of_ne (other q y n found).1] at on
      exact ⟨q, y, n, found, head, on⟩
  · intro x
    rw [loads]
    exact traffic.single x
  · intro q x n found place
    unfold Disk.format
    dsimp only
    rw [update_of_ne (other q x n found).2]
    exact traffic.status q x n found place
  · intro q x n found
    rw [waits]
    exact traffic.since q x n found

theorem Traffic.post (idle : flights p = none)
    (staged : disk.avail.ring (cell disk.avail.idx) = job.idx0) (mine : busy job.b = true)
    (other : ∀ q x n, flights q = some (x, n) → x.idx0 ≠ job.idx0) :
    Traffic (update flights p (some (job, completions.length))) busy disk.post dev completions := by
  have fresh := traffic.fresh other
  have entry : unconsumed disk.post dev = unconsumed disk dev ++ [(job.idx0 : Nat)] := by
    rw [← staged]
    exact contents_snoc divides wide (traffic.roomAvail job.idx0.isLt fresh)
  have waits : ∀ x, waiting disk.post dev x = waiting disk dev x + [(job.idx0 : Nat)].count x := by
    intro x
    unfold waiting
    rw [entry, List.count_append]
    omega
  have loads : ∀ x, load disk.post dev x = load disk dev x + [(job.idx0 : Nat)].count x := by
    intro x
    have less := waits x
    change waiting disk.post dev x + (unread disk).count x = _
    unfold load
    omega
  have hit : [(job.idx0 : Nat)].count (job.idx0 : Nat) = 1 := List.count_singleton_self
  have miss : ∀ x, (job.idx0 : Nat) ≠ x → [(job.idx0 : Nat)].count x = 0 := by
    intro x different
    exact List.count_eq_zero.mpr fun member => different (List.mem_singleton.mp member).symm
  refine ⟨?_, ?_, ?_, ?_⟩
  · intro x
    rw [loads]
    by_cases same : (job.idx0 : Nat) = x
    · constructor
      · intro _
        exact ⟨p, job, _, update_self _ _ _, same, mine⟩
      · intro _
        rw [← same, hit]
        omega
    rw [miss x same, Nat.add_zero, traffic.flying]
    constructor
    · intro ⟨q, y, n, found, head, b⟩
      have different : q ≠ p := by
        intro eq
        rw [eq, idle] at found
        exact nomatch found
      exact ⟨q, y, n, (update_of_ne different _ _).trans found, head, b⟩
    · intro ⟨q, y, n, found, head, b⟩
      rcases lookup_update found with ⟨_, new⟩ | ⟨_, found⟩
      · cases new
        exact absurd head same
      · exact ⟨q, y, n, found, head, b⟩
  · intro x
    rw [loads]
    have once := traffic.single x
    by_cases same : (job.idx0 : Nat) = x
    · rw [← same, fresh, hit]
    · rw [miss x same]
      exact once
  · intro q x n found place
    rcases lookup_update found with ⟨_, new⟩ | ⟨_, found⟩
    · cases new
      -- The head of a request that is new is nowhere yet.
      unfold load waiting at fresh
      rcases place with here | here
      · have positive := List.count_pos_iff.mpr here
        omega
      · have positive := List.count_pos_iff.mpr here
        change 0 < (unread disk).count _ at positive
        omega
    · exact traffic.status q x n found place
  · intro q x n found
    rw [waits]
    rcases lookup_update found with ⟨_, new⟩ | ⟨_, found⟩
    · cases new
      refine ⟨Nat.le_refl _, ?_⟩
      unfold load at fresh
      rw [List.drop_length, List.count_nil, hit]
      omega
    · rw [miss x.idx0 fun same => other q x n found (Fin.ext same).symm]
      exact traffic.since q x n found

theorem Traffic.move {disk' : Disk m} {dev' : Device}
    (waits : ∀ x, waiting disk' dev' x = waiting disk dev x) (reads : unread disk' = unread disk)
    (status : ∀ p job since, flights p = some (job, since) →
      (job.idx0 : Nat) ∈ dev'.served ∨ (job.idx0 : Nat) ∈ unread disk' → (disk'.info job.idx0).status = 0) :
    Traffic flights busy disk' dev' completions := by
  have loads : ∀ x, load disk' dev' x = load disk dev x := by
    intro x
    unfold load
    rw [waits, reads]
  refine ⟨?_, ?_, status, ?_⟩
  · intro x
    rw [loads]
    exact traffic.flying x
  · intro x
    rw [loads]
    exact traffic.single x
  · intro q x n found
    rw [waits]
    exact traffic.since q x n found

theorem Traffic.consume (ready : dev.lastAvail ≠ disk.avail.idx) :
    Traffic flights busy disk { dev with
      lastAvail := dev.lastAvail + 1, pending := dev.pending ++ [disk.avail.ring (cell dev.lastAvail)] } completions := by
  refine traffic.move ?_ rfl traffic.status
  intro x
  have all : unconsumed disk dev = [disk.avail.ring (cell dev.lastAvail)] ++
      contents disk.avail.ring (dev.lastAvail + 1) disk.avail.idx := contents_pop ready
  unfold waiting
  rw [all, List.count_append, List.count_append]
  unfold unconsumed
  dsimp only
  omega

theorem Traffic.serve {blockno : Fin m → BitVec 32}
    (wired : ∀ p job since, flights p = some (job, since) → Wired disk blockno job) (pending : head ∈ dev.pending) :
    Traffic flights busy (disk.serve head) { dev with
      pending := dev.pending.erase head, served := dev.served ++ [head] } completions ∧
      ∃ job : Job m, disk.serve head =
        { disk with info := update disk.info job.idx0 { disk.info job.idx0 with status := 0 } } := by
  have here := List.count_pos_iff.mpr pending
  have moves : 0 < load disk dev head := by
    unfold load waiting
    omega
  obtain ⟨p, job, since, found, rfl, _⟩ := (traffic.flying head).mp moves
  have served := serve_wired (wired p job since found)
  refine ⟨?_, job, served⟩
  rw [served]
  apply traffic.move
  · intro x
    have moved := (List.perm_cons_erase pending).count_eq x
    rw [List.count_cons] at moved
    unfold waiting
    dsimp only
    rw [List.count_append, List.count_singleton]
    unfold unconsumed
    dsimp only
    omega
  · rfl
  · intro q x n flies place
    by_cases same : x.idx0 = job.idx0
    · rw [same]
      dsimp only
      rw [update_self]
    dsimp only
    rw [update_of_ne same]
    apply traffic.status q x n flies
    rcases place with new | old
    · rcases List.mem_append.mp new with old | last
      · exact .inl old
      · exact absurd (Fin.ext (List.mem_singleton.mp last)) same
    · exact .inr old

theorem Traffic.publish (served : head ∈ dev.served) :
    Traffic flights busy (disk.publish head) { dev with served := dev.served.erase head } (completions ++ [head]) := by
  have entry : unread (disk.publish head) = unread disk ++ [head] :=
    contents_push divides wide (traffic.roomUsed served) head
  have waits : ∀ x, waiting (disk.publish head) { dev with served := dev.served.erase head } x + [head].count x =
      waiting disk dev x := by
    intro x
    have moved := (List.perm_cons_erase served).count_eq x
    rw [List.count_cons] at moved
    change (unconsumed disk dev).count x + dev.pending.count x + (dev.served.erase head).count x + _ = _
    rw [List.count_singleton]
    unfold waiting
    omega
  have loads : ∀ x, load (disk.publish head) { dev with served := dev.served.erase head } x = load disk dev x := by
    intro x
    have less := waits x
    unfold load
    rw [entry, List.count_append]
    omega
  refine ⟨?_, ?_, ?_, ?_⟩
  · intro x
    rw [loads]
    exact traffic.flying x
  · intro x
    rw [loads]
    exact traffic.single x
  · intro q x n found place
    apply traffic.status q x n found
    rcases place with old | new
    · exact .inl (List.mem_of_mem_erase old)
    rw [entry] at new
    rcases List.mem_append.mp new with old | last
    · exact .inr old
    · rw [List.mem_singleton.mp last]
      exact .inl served
  · intro q x n found
    obtain ⟨bound, once⟩ := traffic.since q x n found
    have less := waits x.idx0
    refine ⟨?_, ?_⟩
    · rw [List.length_append]
      omega
    · rw [List.drop_append_of_le_length bound, List.count_append]
      omega

theorem Traffic.handle (ready : disk.usedIdx ≠ disk.used.idx)
    (mine : flights p = some (job, since)) (entry : disk.used.ring (cell disk.usedIdx) = job.idx0)
    (other : ∀ q x n, flights q = some (x, n) → x.b = job.b ∨ x.idx0 = job.idx0 → q = p) :
    Traffic flights (update busy job.b false) { disk with usedIdx := disk.usedIdx + 1 } dev completions := by
  have all : unread disk = [(job.idx0 : Nat)] ++ contents disk.used.ring (disk.usedIdx + 1) disk.used.idx := by
    rw [← entry]
    exact contents_pop ready
  have loads : ∀ x, load { disk with usedIdx := disk.usedIdx + 1 } dev x + [(job.idx0 : Nat)].count x = load disk dev x := by
    intro x
    unfold load
    rw [all, List.count_append]
    change waiting disk dev x + (contents disk.used.ring (disk.usedIdx + 1) disk.used.idx).count x + _ = _
    omega
  have hit : [(job.idx0 : Nat)].count (job.idx0 : Nat) = 1 := List.count_singleton_self
  refine ⟨?_, ?_, ?_, traffic.since⟩
  · intro x
    have less := loads x
    by_cases same : (job.idx0 : Nat) = x
    · have once := traffic.single x
      rw [← same] at less once ⊢
      constructor
      · intro positive
        omega
      · intro ⟨q, y, n, found, head, on⟩
        have q_eq := other q y n found (.inr (Fin.ext head))
        rw [q_eq, mine] at found
        cases found
        rw [update_self] at on
        exact nomatch on
    · have miss : [(job.idx0 : Nat)].count x = 0 :=
        List.count_eq_zero.mpr fun member => same (List.mem_singleton.mp member).symm
      have unchanged : load { disk with usedIdx := disk.usedIdx + 1 } dev x = load disk dev x := by omega
      rw [unchanged, traffic.flying]
      -- Another head is that of another buffer.
      have buffers : ∀ q y n, flights q = some (y, n) → (y.idx0 : Nat) = x → y.b ≠ job.b := by
        intro q y n found head b
        have q_eq := other q y n found (.inl b)
        rw [q_eq, mine] at found
        cases found
        exact same head
      constructor
      · intro ⟨q, y, n, found, head, on⟩
        exact ⟨q, y, n, found, head, (update_of_ne (buffers q y n found head) _ _).trans on⟩
      · intro ⟨q, y, n, found, head, on⟩
        rw [update_of_ne (buffers q y n found head)] at on
        exact ⟨q, y, n, found, head, on⟩
  · intro x
    have less := loads x
    have once := traffic.single x
    omega
  · intro q x n found place
    apply traffic.status q x n found
    rcases place with old | new
    · exact .inl old
    · right
      rw [all]
      exact List.mem_append_right _ new

theorem Traffic.land (mine : flights p = some (job, since))
    (back : busy job.b = false) : Traffic (update flights p none) busy disk dev completions := by
  have old : ∀ q x n, update flights p none q = some (x, n) → flights q = some (x, n) := by
    intro q x n found
    rcases lookup_update found with ⟨_, new⟩ | ⟨_, found⟩
    · exact nomatch new
    · exact found
  refine ⟨?_, traffic.single, fun q x n found => traffic.status q x n (old q x n found),
    fun q x n found => traffic.since q x n (old q x n found)⟩
  intro head
  rw [traffic.flying]
  constructor
  · intro ⟨q, x, n, found, same, on⟩
    have different : q ≠ p := by
      intro eq
      rw [eq, mine] at found
      cases found
      exact absurd (back.symm.trans on) (by decide)
    exact ⟨q, x, n, (update_of_ne different _ _).trans found, same, on⟩
  · intro ⟨q, x, n, found, same, on⟩
    exact ⟨q, x, n, old q x n found, same, on⟩

end Traffic

end Rings

end OShard.Virtio
