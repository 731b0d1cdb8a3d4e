import OShard.Virtio.Protocol

namespace OShard.Virtio

open RingBuffer Transition
open Function (update update_self update_of_ne update_eq_self comp_update comp_apply)

variable {k m : Nat}

section Projections

def Pc.staged : Pc m → Option (Job m)
  | .formatted job => some job
  | _ => none

variable {pc : Pc m} {job : Job m} {since : Nat}

theorem Pc.wired_of_flight (flies : pc.flight = some (job, since)) : pc.wired = some job := by
  cases pc <;> cases flies <;> rfl

theorem Pc.holds_of_staged (staged : pc.staged = some job) : pc.holds = true := by
  cases pc <;> cases staged
  rfl

theorem Pc.job_of_wired (wired : pc.wired = some job) : pc.job = some job := by
  cases pc <;> cases wired <;> rfl

theorem Pc.buf_of_job (has : pc.job = some job) : pc.buf = some job.b := by
  cases pc <;> cases has <;> rfl

variable {β : Type} {procs : Fin k → Pc m} {p : Fin k}

theorem comp_update_same (f : Pc m → β) (same : f pc = f (procs p)) : f ∘ update procs p pc = f ∘ procs := by
  rw [comp_update, same]
  exact update_eq_self p (f ∘ procs)

theorem comp_moved {pc' : Pc m} (here : procs p = pc') (f : Pc m → β) (same : f pc = f pc') : f ∘ update procs p pc = f ∘ procs :=
  comp_update_same f (here ▸ same)

end Projections

structure Invariant (blockno : Fin m → BitVec 32) (s : State k m) : Prop where
  sound : s.fault = none
  apart : ∀ p q b, (Pc.buf ∘ s.procs) p = some b → (Pc.buf ∘ s.procs) q = some b → p = q
  held : ∀ p, (Pc.holds ∘ s.procs) p = true → s.lock = some (.proc p)
  chains : Chains (Pc.job ∘ s.procs) s.disk.free
  wired : ∀ p job, (Pc.wired ∘ s.procs) p = some job → Wired s.disk blockno job
  staged : ∀ p job, (Pc.staged ∘ s.procs) p = some job →
    s.disk.avail.ring (cell s.disk.avail.idx) = job.idx0 ∧ s.busy job.b = true
  traffic : Traffic (Pc.flight ∘ s.procs) s.busy s.disk s.dev s.completions

variable {blockno : Fin m → BitVec 32} {s : State k m} {p q : Fin k} {b : Fin m} {write : Bool} {job other : Job m}
  {since n : Nat} {disk : Disk m}

namespace Invariant

theorem alone (inv : Invariant blockno s) (mine : (s.procs p).holds = true) (yours : (s.procs q).holds = true) : q = p := by
  have first := inv.held p mine
  rw [inv.held q yours] at first
  cases first
  rfl

theorem same_job (inv : Invariant blockno s) (mine : (s.procs p).job = some job) (yours : (s.procs q).job = some other)
    {i : Fin num} (inside : i ∈ job.descs) (inside' : i ∈ other.descs) : q = p :=
  (inv.chains.apart p q job other i mine yours inside inside').symm

theorem same_head (inv : Invariant blockno s) (mine : (s.procs p).job = some job) (yours : (s.procs q).job = some other)
    (same : other.idx0 = job.idx0) : q = p :=
  inv.same_job mine yours List.mem_cons_self (same ▸ List.mem_cons_self)

theorem job_of_flight (flies : (s.procs p).flight = some (job, since)) : (s.procs p).job = some job :=
  Pc.job_of_wired (Pc.wired_of_flight flies)

section Invariant

variable (inv : Invariant blockno s)

include inv

theorem call (idle : s.procs p = .idle) (unused : ∀ q, (s.procs q).buf ≠ some b) :
    Invariant blockno (s.go p (.want b write)) := by
  have jobs : Pc.job ∘ update s.procs p (.want b write) = _ := comp_moved idle _ rfl
  have holds : Pc.holds ∘ update s.procs p (.want b write) = _ := comp_moved idle _ rfl
  have wires : Pc.wired ∘ update s.procs p (.want b write) = _ := comp_moved idle _ rfl
  have stages : Pc.staged ∘ update s.procs p (.want b write) = _ := comp_moved idle _ rfl
  have flights : Pc.flight ∘ update s.procs p (.want b write) = _ := comp_moved idle _ rfl
  unfold State.go
  refine ⟨inv.sound, ?_, holds ▸ inv.held, jobs ▸ inv.chains, wires ▸ inv.wired, stages ▸ inv.staged,
    flights ▸ inv.traffic⟩
  intro q r x first second
  rw [comp_update] at first second
  rcases lookup_update first with ⟨here, new⟩ | ⟨_, first⟩
  · rcases lookup_update second with ⟨there, _⟩ | ⟨_, second⟩
    · exact here.trans there.symm
    · cases new
      exact absurd second (unused r)
  · rcases lookup_update second with ⟨_, new⟩ | ⟨_, second⟩
    · cases new
      exact absurd first (unused q)
    · exact inv.apart q r x first second

theorem alloc {i j l : Fin num} (wants : s.procs p = .want b write) (unlocked : s.lock = none)
    (took : alloc3Desc s.disk = .ok (disk, some [i, j, l])) :
    Invariant blockno { s.go p (.chosen ⟨b, write, i, j, l⟩) with disk := disk, lock := some (.proc p) } := by
  obtain ⟨result, ran, allocated⟩ := alloc3Desc_spec s.disk
  rw [took] at ran
  cases ran
  cases allocated with
  | some _ size nodup available =>
    have bufs : Pc.buf ∘ update s.procs p (.chosen ⟨b, write, i, j, l⟩) = _ := comp_moved wants _ rfl
    have wires : Pc.wired ∘ update s.procs p (.chosen ⟨b, write, i, j, l⟩) = _ := comp_moved wants _ rfl
    have stages : Pc.staged ∘ update s.procs p (.chosen ⟨b, write, i, j, l⟩) = _ := comp_moved wants _ rfl
    have flights : Pc.flight ∘ update s.procs p (.chosen ⟨b, write, i, j, l⟩) = _ := comp_moved wants _ rfl
    unfold State.go
    refine ⟨inv.sound, bufs ▸ inv.apart, ?_, ?_, ?_, stages ▸ inv.staged, ?_⟩
    · intro q holds
      by_cases same : q = p
      · rw [same]
      have before : (s.procs q).holds = true := by
        change (update s.procs p _ q).holds = true at holds
        rw [update_of_ne same] at holds
        exact holds
      exact nomatch unlocked.symm.trans (inv.held q before)
    · rw [comp_update]
      have none : (Pc.job ∘ s.procs) p = none := by
        rw [comp_apply, wants]
        rfl
      exact inv.chains.claim none nodup available
    · intro q x found
      rw [wires] at found
      exact (inv.wired q x found).congr (fun _ _ => rfl) rfl rfl
    · rw [flights]
      exact ⟨inv.traffic.flying, inv.traffic.single, inv.traffic.status, inv.traffic.since⟩

theorem full (failed : alloc3Desc s.disk = .ok (disk, none)) : Invariant blockno { s with disk := disk } := by
  obtain ⟨result, ran, allocated⟩ := alloc3Desc_spec s.disk
  rw [failed] at ran
  cases ran
  cases allocated with
  | none desc kept =>
    refine ⟨inv.sound, inv.apart, inv.held, inv.chains, ?_, inv.staged, ?_⟩
    · intro q x found
      have mine := inv.chains.taken q x (Pc.job_of_wired found)
      exact (inv.wired q x found).congr (fun i member => kept i (mine i member)) rfl rfl
    · exact ⟨inv.traffic.flying, inv.traffic.single, inv.traffic.status, inv.traffic.since⟩

theorem format (chose : s.procs p = .chosen job) :
    Invariant blockno { s.go p (.formatted job) with
      disk := s.disk.format blockno job, busy := update s.busy job.b true } := by
  have mine : (s.procs p).job = some job := by rw [chose]; rfl
  have holds : (s.procs p).holds = true := by rw [chose]; rfl
  have bufs : Pc.buf ∘ update s.procs p (.formatted job) = _ := comp_moved chose _ rfl
  have holders : Pc.holds ∘ update s.procs p (.formatted job) = _ := comp_moved chose _ rfl
  have jobs : Pc.job ∘ update s.procs p (.formatted job) = _ := comp_moved chose _ rfl
  have flights : Pc.flight ∘ update s.procs p (.formatted job) = _ := comp_moved chose _ rfl
  have outside : ∀ q x, q ≠ p → (s.procs q).job = some x → ∀ i ∈ x.descs, i ∉ job.descs :=
    fun q x different found i inside inside' => different (inv.same_job mine found inside' inside)
  unfold State.go
  refine ⟨inv.sound, bufs ▸ inv.apart, holders ▸ inv.held, ?_, ?_, ?_, ?_⟩
  · rw [jobs]
    exact inv.chains
  · intro q x found
    rw [comp_update] at found
    rcases lookup_update found with ⟨_, new⟩ | ⟨different, found⟩
    · cases new
      exact format_wired _ _ (inv.chains.nodup p job mine)
    · have away := outside q x different (Pc.job_of_wired found)
      have frame := format_other s.disk blockno (away x.idx0 List.mem_cons_self)
      apply (inv.wired q x found).congr (fun i member => (format_other s.disk blockno (away i member)).1) frame.2.1
      rw [frame.2.2]
  · intro q x found
    rw [comp_update] at found
    rcases lookup_update found with ⟨_, new⟩ | ⟨different, found⟩
    · cases new
      exact ⟨update_self _ _ _, update_self _ _ _⟩
    · exact absurd (inv.alone holds (Pc.holds_of_staged found)) different
  · rw [flights]
    apply inv.traffic.format
    intro q x n found
    have different : q ≠ p := by
      intro same
      rw [same, comp_apply, chose] at found
      exact nomatch found
    have theirs := job_of_flight found
    refine ⟨fun same => different ?_, fun same => different (inv.same_head mine theirs same)⟩
    exact inv.apart q p job.b (same ▸ Pc.buf_of_job theirs) (Pc.buf_of_job mine)

theorem post (ready : s.procs p = .formatted job) :
    Invariant blockno { s.go p (.posted job s.completions.length) with disk := s.disk.post } := by
  have mine : (s.procs p).job = some job := by rw [ready]; rfl
  have holds : (s.procs p).holds = true := by rw [ready]; rfl
  have staged := inv.staged p job (by rw [comp_apply, ready]; rfl)
  have bufs : Pc.buf ∘ update s.procs p (.posted job s.completions.length) = _ := comp_moved ready _ rfl
  have holders : Pc.holds ∘ update s.procs p (.posted job s.completions.length) = _ := comp_moved ready _ rfl
  have jobs : Pc.job ∘ update s.procs p (.posted job s.completions.length) = _ := comp_moved ready _ rfl
  have wires : Pc.wired ∘ update s.procs p (.posted job s.completions.length) = _ := comp_moved ready _ rfl
  unfold State.go
  refine ⟨inv.sound, bufs ▸ inv.apart, holders ▸ inv.held, ?_, ?_, ?_, ?_⟩
  · rw [jobs]
    exact inv.chains
  · intro q x found
    rw [wires] at found
    exact (inv.wired q x found).congr (fun _ _ => rfl) rfl rfl
  · intro q x found
    rw [comp_update] at found
    rcases lookup_update found with ⟨_, new⟩ | ⟨different, found⟩
    · exact nomatch new
    · exact absurd (inv.alone holds (Pc.holds_of_staged found)) different
  · rw [comp_update]
    apply inv.traffic.post _ staged.1 staged.2
    · intro q x n found same
      rw [inv.same_head mine (job_of_flight found) same, comp_apply, ready] at found
      exact nomatch found
    · rw [comp_apply, ready]
      rfl

theorem pause {pc : Pc m} {lock : Option (Holder k)} (bufs : pc.buf = (s.procs p).buf)
    (jobs : pc.job = (s.procs p).job) (wires : pc.wired = (s.procs p).wired) (stages : pc.staged = (s.procs p).staged)
    (flights : pc.flight = (s.procs p).flight) (mine : pc.holds = true → lock = some (.proc p))
    (others : ∀ q, q ≠ p → (s.procs q).holds = false) : Invariant blockno { s.go p pc with lock := lock } := by
  unfold State.go
  refine ⟨inv.sound, comp_update_same _ bufs ▸ inv.apart, ?_, comp_update_same _ jobs ▸ inv.chains,
    comp_update_same _ wires ▸ inv.wired, comp_update_same _ stages ▸ inv.staged,
    comp_update_same _ flights ▸ inv.traffic⟩
  intro q holds
  change (update s.procs p pc q).holds = true at holds
  by_cases same : q = p
  · subst same
    rw [update_self] at holds
    exact mine holds
  · rw [update_of_ne same, others q same] at holds
    exact nomatch holds

theorem wait (waits : s.procs p = .posted job since) :
    Invariant blockno { s.go p (.asleep job since) with lock := none } := by
  have holds : (s.procs p).holds = true := by rw [waits]; rfl
  apply inv.pause
  case mine => exact nofun
  case others =>
    intro q different
    exact Bool.eq_false_iff.mpr fun yours => different (inv.alone holds yours)
  all_goals rw [waits]; rfl

theorem wake (sleeps : s.procs p = .asleep job since) (unlocked : s.lock = none) :
    Invariant blockno { s.go p (.posted job since) with lock := some (.proc p) } := by
  apply inv.pause
  case mine => exact fun _ => rfl
  case others =>
    intro q _
    exact Bool.eq_false_iff.mpr fun holds => nomatch unlocked.symm.trans (inv.held q holds)
  all_goals rw [sleeps]; rfl

theorem finish_returns (waits : s.procs p = .posted job since) :
    s.disk.finish job = .ok { s.disk with
      info := update s.disk.info job.idx0 { s.disk.info job.idx0 with b := none }
      desc := job.cleared s.disk.desc
      free := mark s.disk.free job.descs true } := by
  have mine : (Pc.job ∘ s.procs) p = some job := by rw [comp_apply, waits]; rfl
  apply finish_ok (inv.wired p job _) (inv.chains.nodup p job mine) (inv.chains.taken p job mine)
  rw [comp_apply, waits]
  rfl

theorem finish (waits : s.procs p = .posted job since) (back : s.busy job.b = false)
    (freed : s.disk.finish job = .ok disk) : Invariant blockno { s.go p .idle with disk := disk, lock := none } := by
  rw [inv.finish_returns waits] at freed
  cases freed
  have mine : (s.procs p).job = some job := by rw [waits]; rfl
  have holds : (s.procs p).holds = true := by rw [waits]; rfl
  have stages : Pc.staged ∘ update s.procs p .idle = _ := comp_moved waits _ rfl
  unfold State.go
  refine ⟨inv.sound, ?_, ?_, ?_, ?_, stages ▸ inv.staged, ?_⟩
  · intro q r x first second
    rw [comp_update] at first second
    rcases lookup_update first with ⟨_, new⟩ | ⟨_, first⟩
    · exact nomatch new
    rcases lookup_update second with ⟨_, new⟩ | ⟨_, second⟩
    · exact nomatch new
    exact inv.apart q r x first second
  · intro q yours
    change (update s.procs p .idle q).holds = true at yours
    by_cases same : q = p
    · rw [same, update_self] at yours
      exact nomatch yours
    · rw [update_of_ne same] at yours
      exact absurd (inv.alone holds yours) same
  · rw [comp_update]
    exact inv.chains.release mine
  · intro q x found
    rw [comp_update] at found
    rcases lookup_update found with ⟨_, new⟩ | ⟨different, found⟩
    · exact nomatch new
    have outside : ∀ i ∈ x.descs, i ∉ job.descs := fun i inside inside' =>
      different (inv.same_job mine (Pc.job_of_wired found) inside' inside)
    have head : x.idx0 ≠ job.idx0 := fun same => different (inv.same_head mine (Pc.job_of_wired found) same)
    refine (inv.wired q x found).congr ?_ rfl ?_
    · exact fun i member => job.cleared_other _ (outside i member)
    · dsimp only
      rw [update_of_ne head]
  · rw [comp_update]
    have flies : (Pc.flight ∘ s.procs) p = some (job, since) := by rw [comp_apply, waits]; rfl
    have landed := inv.traffic.land flies back
    refine ⟨landed.flying, landed.single, ?_, landed.since⟩
    intro q x n found place
    have zero := landed.status q x n found place
    by_cases same : x.idx0 = job.idx0
    · simpa [same] using same ▸ zero
    · simpa [same] using zero

theorem intr_returns (ready : s.disk.usedIdx ≠ s.disk.used.idx) :
    ∃ p job since, (s.procs p).flight = some (job, since) ∧ s.disk.used.ring (cell s.disk.usedIdx) = job.idx0 ∧
      (s.disk.info job.idx0).b = some job.b ∧
      s.disk.intr = .ok (job.b, { s.disk with usedIdx := s.disk.usedIdx + 1 }) := by
  have all : unread s.disk = s.disk.used.ring (cell s.disk.usedIdx) ::
      contents s.disk.used.ring (s.disk.usedIdx + 1) s.disk.used.idx := contents_pop ready
  have member : s.disk.used.ring (cell s.disk.usedIdx) ∈ unread s.disk := by
    rw [all]
    exact List.mem_cons_self
  have moves : 0 < load s.disk s.dev (s.disk.used.ring (cell s.disk.usedIdx)) := by
    have positive := List.count_pos_iff.mpr member
    unfold load
    omega
  obtain ⟨p, job, since, found, head, _⟩ := (inv.traffic.flying _).mp moves
  have info := (inv.wired p job (Pc.wired_of_flight found)).info
  have status := inv.traffic.status p job since found (.inr (head ▸ member))
  refine ⟨p, job, since, found, head.symm, info, ?_⟩
  unfold Disk.intr
  rw [← head]
  dsimp only
  rw [dif_pos job.idx0.isLt, if_neg (not_not.mpr status)]
  rw [show (s.disk.info ⟨job.idx0, job.idx0.isLt⟩).b = some job.b from info]

theorem handle (locked : s.lock = some .intr) (ready : s.disk.usedIdx ≠ s.disk.used.idx)
    (handled : s.disk.intr = .ok (b, disk)) :
    Invariant blockno { s with disk := disk, busy := update s.busy b false } := by
  obtain ⟨p, job, since, found, entry, _, runs⟩ := inv.intr_returns ready
  rw [runs] at handled
  cases handled
  refine ⟨inv.sound, inv.apart, inv.held, inv.chains, ?_, ?_, ?_⟩
  · intro q x wired
    exact (inv.wired q x wired).congr (fun _ _ => rfl) rfl rfl
  · intro q x staged
    exact nomatch locked.symm.trans (inv.held q (Pc.holds_of_staged staged))
  · apply inv.traffic.handle ready found entry
    intro q x n flies same
    have mine := job_of_flight found
    have theirs := job_of_flight flies
    rcases same with same | same
    · exact inv.apart q p job.b (same ▸ Pc.buf_of_job theirs) (Pc.buf_of_job mine)
    · exact inv.same_head mine theirs same

theorem serve {head : Nat} (pending : head ∈ s.dev.pending) :
    Invariant blockno { s with
      disk := s.disk.serve head
      dev := { s.dev with pending := s.dev.pending.erase head, served := s.dev.served ++ [head] } } := by
  have wires : ∀ p job since, (Pc.flight ∘ s.procs) p = some (job, since) → Wired s.disk blockno job :=
    fun p job since found => inv.wired p job (Pc.wired_of_flight found)
  obtain ⟨traffic, job, served⟩ := inv.traffic.serve wires pending
  rw [served] at traffic ⊢
  refine ⟨inv.sound, inv.apart, inv.held, inv.chains, ?_, inv.staged, traffic⟩
  intro q x found
  refine (inv.wired q x found).congr (fun _ _ => rfl) rfl ?_
  by_cases same : x.idx0 = job.idx0
  · simp [same]
  · simp [same]

theorem step {t : State k m} (step : Step blockno s t) : Invariant blockno t := by
  cases step with
  | call p b write idle unused => exact inv.call idle unused
  | alloc wants unlocked took => exact inv.alloc wants unlocked took
  | full wants unlocked failed => exact inv.full failed
  | allocFault wants unlocked failed =>
    obtain ⟨result, ran, _⟩ := alloc3Desc_spec s.disk
    rw [failed] at ran
    exact nomatch ran
  | format chose => exact inv.format chose
  | post ready => exact inv.post ready
  | wait waits _ => exact inv.wait waits
  | wake sleeps unlocked => exact inv.wake sleeps unlocked
  | finish waits back freed => exact inv.finish waits back freed
  | finishFault waits back failed =>
    rw [inv.finish_returns waits] at failed
    exact nomatch failed
  | intr unlocked =>
    exact ⟨inv.sound, inv.apart, fun q holds => (nomatch unlocked.symm.trans (inv.held q holds)), inv.chains, inv.wired, inv.staged, inv.traffic⟩
  | handle locked ready handled => exact inv.handle locked ready handled
  | handleFault locked ready failed =>
    obtain ⟨_, _, _, _, _, _, runs⟩ := inv.intr_returns ready
    rw [runs] at failed
    exact nomatch failed
  | intrDone locked _ =>
    exact ⟨inv.sound, inv.apart, fun q holds => (nomatch locked.symm.trans (inv.held q holds)), inv.chains, inv.wired, inv.staged, inv.traffic⟩
  | consume ready =>
    exact ⟨inv.sound, inv.apart, inv.held, inv.chains, inv.wired, inv.staged, inv.traffic.consume ready⟩
  | serve head pending => exact inv.serve pending
  | publish head served =>
    refine ⟨inv.sound, inv.apart, inv.held, inv.chains, ?_, inv.staged, inv.traffic.publish served⟩
    intro q x found
    exact (inv.wired q x found).congr (fun _ _ => rfl) rfl rfl

end Invariant

theorem init : Invariant blockno (init k m) := by
  have none := contents_self (fun _ : Fin num => 0) (0 : BitVec 16)
  have loads : ∀ head, load (Virtio.init k m).disk (Virtio.init k m).dev head = 0 := by
    intro head
    change (contents (fun _ => 0) 0 0).count head + 0 + 0 + (contents (fun _ => 0) 0 0).count head = 0
    rw [none]
    rfl
  refine ⟨rfl, nofun, nofun, ⟨nofun, nofun, nofun, nofun⟩, nofun, nofun, ?_, ?_, nofun, nofun⟩
  · intro head
    rw [loads]
    exact ⟨nofun, fun ⟨_, _, _, found, _⟩ => nomatch found⟩
  · intro head
    rw [loads]
    exact Nat.zero_le 1

theorem completed (inv : Invariant blockno s) (flies : (s.procs p).flight = some (job, since))
    (back : s.busy job.b = false) : (s.completions.drop since).count (job.idx0 : Nat) = 1 := by
  obtain ⟨_, once⟩ := inv.traffic.since p job since flies
  have landed : load s.disk s.dev job.idx0 = 0 := by
    by_contra moves
    obtain ⟨q, x, n, found, same, on⟩ := (inv.traffic.flying job.idx0).mp (Nat.pos_of_ne_zero moves)
    rw [inv.same_head (job_of_flight flies) (job_of_flight found) (Fin.ext same), comp_apply, flies] at found
    cases found
    exact absurd (back.symm.trans on) (by decide)
  unfold load at landed
  omega

theorem intact {t : State k m} (inv : Invariant blockno s) (step : Step blockno s t) {entry : BitVec 16}
    (unread : (entry - s.dev.lastAvail).toNat < (s.disk.avail.idx - s.dev.lastAvail).toNat) :
    t.disk.avail.ring (cell entry) = s.disk.avail.ring (cell entry) := by
  cases step with
  | alloc wants unlocked took =>
    obtain ⟨result, ran, allocated⟩ := alloc3Desc_spec s.disk
    rw [took] at ran
    cases ran
    cases allocated
    rfl
  | full wants unlocked failed =>
    obtain ⟨result, ran, allocated⟩ := alloc3Desc_spec s.disk
    rw [failed] at ran
    cases ran
    cases allocated
    rfl
  | @format p job chose =>
    -- The entry that is written is behind those that the device has not read, and less than a round away.
    have fresh : load s.disk s.dev job.idx0 = 0 := by
      apply inv.traffic.fresh
      intro q x n found same
      have mine : (s.procs p).job = some job := by rw [chose]; rfl
      rw [inv.same_head mine (job_of_flight found) same, comp_apply, chose] at found
      exact nomatch found
    have room := inv.traffic.roomAvail job.idx0.isLt fresh
    exact update_of_ne (cell_ne_of_lt divides unread room) _ _
  | finish waits back freed =>
    rw [inv.finish_returns waits] at freed
    cases freed
    rfl
  | handle locked ready handled =>
    obtain ⟨_, _, _, _, _, _, runs⟩ := inv.intr_returns ready
    rw [runs] at handled
    cases handled
    rfl
  | serve head pending =>
    have wires : ∀ p job since, (Pc.flight ∘ s.procs) p = some (job, since) → Wired s.disk blockno job :=
      fun p job since found => inv.wired p job (Pc.wired_of_flight found)
    obtain ⟨_, job, served⟩ := inv.traffic.serve wires pending
    dsimp only
    rw [served]
  | _ => rfl

end Invariant

theorem Step.returns {t : State k m} (step : Step blockno s t) (inside : s.procs p ≠ .idle) (returned : t.procs p = .idle) :
    ∃ job since, s.procs p = .posted job since ∧ s.busy job.b = false := by
  have moved : ∀ (q : Fin k) (pc : Pc m), pc ≠ .idle → update s.procs q pc p ≠ .idle := by
    intro q pc busy
    by_cases same : p = q
    · rw [same, update_self]
      exact busy
    · rw [update_of_ne same]
      exact inside
  cases step with
  | call q b write _ _ => exact absurd returned (moved q _ nofun)
  | alloc | format | post | wait | wake => exact absurd returned (moved _ _ nofun)
  | @finish q job since _ waits back _ =>
    by_cases same : p = q
    · rw [same]
      exact ⟨job, since, waits, back⟩
    · exact absurd ((update_of_ne same _ _).symm.trans returned) inside
  | _ => exact absurd returned inside

/-- The driver and the device, from `virtio_disk_init` on: nothing panics; a descriptor is in one chain or free; the
    buffer of a completion is that of its request; a call returns after its request has completed, once; an entry
    of the avail ring stays until the device has read it; and all descriptors come back. -/
theorem disk_protocol (reached : Reached blockno s) :
    s.fault = none ∧
    (∀ p q job other i, (s.procs p).job = some job → (s.procs q).job = some other → i ∈ job.descs → i ∈ other.descs →
      p = q) ∧
    (∀ p job, (s.procs p).job = some job → job.descs.Nodup ∧ ∀ i ∈ job.descs, s.disk.free i = false) ∧
    (s.disk.usedIdx ≠ s.disk.used.idx → ∃ p job since, (s.procs p).flight = some (job, since) ∧
      s.disk.used.ring (cell s.disk.usedIdx) = job.idx0 ∧ (s.disk.info job.idx0).b = some job.b) ∧
    (∀ t p, Step blockno s t → s.procs p ≠ .idle → t.procs p = .idle →
      ∃ job since, s.procs p = .posted job since ∧ (s.completions.drop since).count (job.idx0 : Nat) = 1) ∧
    (∀ t entry, Step blockno s t → (entry - s.dev.lastAvail).toNat < (s.disk.avail.idx - s.dev.lastAvail).toNat →
      t.disk.avail.ring (cell entry) = s.disk.avail.ring (cell entry)) ∧
    ((∀ p, (s.procs p).job = none) → ∀ i, s.disk.free i = true) := by
  have inv : Invariant blockno s := by
    apply Reachable.invariant reached
    · intro _ first
      rw [first]
      exact Invariant.init
    · intro s t inv step
      exact inv.step step
  refine ⟨inv.sound, inv.chains.apart, ?_, ?_, ?_, fun t entry step => inv.intact step, ?_⟩
  · intro p job mine
    exact ⟨inv.chains.nodup p job mine, inv.chains.taken p job mine⟩
  · intro ready
    obtain ⟨p, job, since, found, head, info, _⟩ := inv.intr_returns ready
    exact ⟨p, job, since, found, head, info⟩
  · intro t p step inside returned
    obtain ⟨job, since, waits, back⟩ := step.returns inside returned
    refine ⟨job, since, waits, inv.completed (p := p) ?_ back⟩
    rw [waits]
    rfl
  · intro idle i
    by_contra busy
    obtain ⟨p, job, mine, _⟩ := inv.chains.owned i (Bool.eq_false_iff.mpr busy)
    rw [comp_apply, idle p] at mine
    exact nomatch mine

theorem disk_protocol_one : ∃ s : State 1 1, Reached (fun _ => 7) s ∧ s.fault = none ∧
    ∃ t, Step (fun _ => 7) s t ∧ ∃ job since, s.procs 0 = .posted job since ∧
      (s.completions.drop since).count (job.idx0 : Nat) = 1 := by
  have start : Reached (fun _ => 7) (init 1 1) := .start rfl
  have called := start.next (.call 0 0 true rfl fun _ => nofun)
  have chosen := called.next (.alloc (p := 0) rfl rfl rfl)
  have formatted := chosen.next (.format (p := 0) rfl)
  have posted := formatted.next (.post (p := 0) rfl)
  have asleep := posted.next (.wait (p := 0) rfl rfl)
  have consumed := asleep.next (.consume (by decide))
  have served := consumed.next (.serve 0 (by decide))
  have published := served.next (.publish 0 (by decide))
  have locked := published.next (.intr rfl)
  have handled := locked.next (.handle rfl (by decide) rfl)
  have unlocked := handled.next (.intrDone rfl rfl)
  have woken := unlocked.next (.wake (p := 0) rfl rfl)
  exact ⟨_, woken, (disk_protocol woken).1, _, .finish (p := 0) rfl rfl rfl,
    (disk_protocol woken).2.2.2.2.1 _ 0 (.finish (p := 0) rfl rfl rfl) nofun rfl⟩

end OShard.Virtio
