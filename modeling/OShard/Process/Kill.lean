import OShard.Process.Handover

namespace OShard.Process

open Function (update update_self update_of_ne update_apply)

variable {n : Nat}

/-- No free slot and no process that `fork` has just made is marked as killed. -/
structure Unharmed (s : State n) : Prop where
  unused : ∀ q, (s.procs q).state = .unused → (s.procs q).killed = false
  created : ∀ p np, (s.procs p).pc = .forkFound np → (s.procs np).killed = false

/-- `kill(0)` comes to a free slot and takes its pid field for a process. -/
def Stray (s t : State n) : Prop :=
  ∃ p q : Fin n, (s.procs p).pc = .killScan 0 q ∧ (s.procs q).state = .unused ∧ t = (s.kill q).ret p 0

/-- The call `kill(pid)` of `p` returns 0 in this step. -/
def Returns (s t : State n) (p : Fin n) (pid : BitVec 32) : Prop :=
  (∃ i, (s.procs p).pc = .killScan pid i) ∧ (t.procs p).pc = .user ∧ (t.procs p).a0 = 0

abbrev ReachKilling : State n → Prop := Transition.Reachable Init fun s t => Step s t ∧ ¬Stray s t

structure Clean (procs : Fin n → Proc n) : Prop where
  unused : ∀ q, (procs q).state = .unused → (procs q).killed = false ∧ (procs q).pid = 0
  created : ∀ p np, (procs p).pc = .forkFound np → (procs np).killed = false

section Update

variable {procs procs' : Fin n → Proc n} {p q : Fin n} {after : Proc n}

variable (clean : Clean procs)

include clean

theorem Clean.assign (moved : procs' = update procs q after)
    (unused : after.state = .unused → after.killed = false ∧ after.pid = 0)
    (created : ∀ np, after.pc = .forkFound np → (update procs q after np).killed = false)
    (kept : ∀ p, p ≠ q → (procs p).pc = .forkFound q → after.killed = false) : Clean procs' := by
  obtain ⟨unused', created'⟩ := clean
  subst moved
  constructor
  all_goals grind [update_apply]

theorem Clean.one (moved : procs' = update procs q after)
    (killed : after.killed = (procs q).killed)
    (state : after.state ≠ .unused ∨ after.state = (procs q).state ∧ after.pid = (procs q).pid)
    (pc : after.pc = (procs q).pc ∨ ∀ np, after.pc ≠ .forkFound np) : Clean procs' := by
  obtain ⟨unused', created'⟩ := clean
  subst moved
  constructor
  all_goals grind [update_apply]

theorem Clean.go {pc : Pc n} {a0 : BitVec 32}
    (moved : procs' = update procs p { procs p with pc := pc, a0 := a0 }) (other : ∀ np, pc ≠ .forkFound np) :
    Clean procs' :=
  clean.one moved rfl (Or.inr ⟨rfl, rfl⟩) (Or.inr other)

theorem Clean.freeproc : Clean (update procs q (Process.freeproc (procs q))) :=
  clean.assign rfl (fun _ => ⟨rfl, rfl⟩) nofun fun _ _ _ => rfl

end Update

section Steps

variable {s t : State n} {p q : Fin n}

theorem Clean.wakeup (clean : Clean s.procs) (chan : Option (Chan n)) : Clean (s.wakeup chan q).procs := by
  unfold State.wakeup wake
  split
  · exact clean.one rfl rfl (Or.inl nofun) (Or.inl rfl)
  · exact clean.one rfl rfl (Or.inr ⟨rfl, rfl⟩) (Or.inl rfl)

theorem Clean.mark (control : Control s.procs s.waitLock) (clean : Clean s.procs) {after : Proc n}
    (free : (s.procs q).lock = none) (state : after.state ≠ .unused) (pc : after.pc = (s.procs q).pc) :
    Clean (s.set q after).procs := by
  have unclaimed : ∀ r, (s.procs r).pc ≠ .forkFound q := by
    intro r place
    apply control.unclaimed free r
    rw [place]
    rfl
  have created := clean.created
  apply clean.assign rfl
  all_goals grind [update_apply]

theorem Clean.step (all : Invariant s) (clean : Clean s.procs) (step : Step s t) (kept : ¬Stray s t) : Clean t.procs := by
  have control := all.control
  cases step with
  | dispatch free runnable =>
    rename_i p
    refine clean.one rfl rfl (Or.inl nofun) (Or.inr fun np place => ?_)
    change (s.procs p).pc.resumed = .forkFound np at place
    have parked := control.fits p
    unfold Fits at parked
    rw [runnable] at parked
    cases pc : (s.procs p).pc with
    | forkFound np' =>
      rw [pc] at parked
      rcases parked.2 with preemptible | asleep
      · cases preemptible
      · cases asleep
    | _ =>
      rw [pc] at place
      cases place
  | yield on place free => exact clean.one rfl rfl (Or.inl nofun) (Or.inl rfl)
  | sleep | exitZombie | waitDoze => exact clean.one rfl rfl (Or.inl nofun) (Or.inr nofun)
  | wakeup addr free => exact clean.wakeup _
  | setkilled on place free =>
    exact clean.mark control free (by simp [control.running on place rfl]) rfl
  | forkFound on place free unused =>
    rename_i p q
    have other : p ≠ q := ne_of_state (control.running on place rfl) unused nofun
    have taken : Clean (s.allocproc p q).procs := clean.one rfl rfl (Or.inl nofun) (Or.inr nofun)
    have slot : ((s.allocproc p q).procs q).killed = false := by
      rw [show (s.allocproc p q).procs q = _ from update_self _ _ _]
      exact (clean.unused q unused).1
    have self : (s.allocproc p q).procs p = s.procs p := update_of_ne other _ _
    refine taken.assign rfl (fun free => ?_) (fun np place => ?_) fun r _ place => ?_
    · exact taken.unused p free
    · cases place
      rw [update_of_ne other.symm]
      exact slot
    · exact taken.created r p place
  | forkFail on place => exact clean.freeproc.go rfl nofun
  | forkCopy on place =>
    rename_i p np
    have unlocked : Clean (s.set np { s.procs np with lock := none }).procs :=
      clean.one rfl rfl (Or.inr ⟨rfl, rfl⟩) (Or.inl rfl)
    exact unlocked.go rfl nofun
  | forkParent on place =>
    rename_i p np pid
    have linked : Clean (s.set np { s.procs np with parent := some p, creator := some (s.id p) }).procs :=
      clean.one rfl rfl (Or.inr ⟨rfl, rfl⟩) (Or.inl rfl)
    exact linked.go rfl nofun
  | forkStart on place free =>
    rename_i p np pid
    have started : Clean (s.set np { s.procs np with state := .runnable }).procs :=
      clean.one rfl rfl (Or.inl nofun) (Or.inl rfl)
    exact started.go rfl nofun
  | exitChild on place child =>
    rename_i p q status
    have given : Clean (s.set q { s.procs q with parent := some s.initproc }).procs :=
      clean.one rfl rfl (Or.inr ⟨rfl, rfl⟩) (Or.inl rfl)
    exact given.go rfl nofun
  | exitWakeInit | exitWakeParent => exact (clean.wakeup _).go rfl nofun
  | exitSched | waitSleep => exact clean.one rfl rfl (Or.inr ⟨rfl, rfl⟩) (Or.inr nofun)
  | waitZombie copied on place child free dead =>
    rename_i p q addr havekids
    unfold State.waitZombie
    split
    · exact clean.go rfl nofun
    · exact clean.freeproc.go rfl nofun
  | killHit on place free hit =>
    rename_i p q pid
    have used : (s.procs q).state ≠ .unused := by
      intro unused
      apply kept
      have zero := (clean.unused q unused).2
      rw [hit] at zero
      rw [zero] at place
      exact ⟨p, q, place, unused, rfl⟩
    have marked : Clean (s.kill q).procs := by
      refine clean.mark control free ?_ rfl
      unfold Process.kill
      split <;> simp_all
    exact marked.go rfl nofun
  | _ => exact clean.go rfl nofun

end Steps

section Runs

variable {s t : State n} {p q : Fin n} {after before : Proc n} {pc : Pc n}

theorem Clean.init (init : Init s) : Clean s.procs := by
  constructor
  · intro q unused
    have other : q ≠ s.initproc := by
      rintro rfl
      rw [init.first] at unused
      cases unused
    exact ⟨init.killed q, (init.others q other).2⟩
  · intro _ np _
    exact init.killed np

theorem clean_of_reach (reach : ReachKilling s) : Invariant s ∧ Clean s.procs := by
  apply reach.invariant
  · intro s init
    exact ⟨.init init, .init init⟩
  · intro s t both step
    exact ⟨both.1.step step.1, both.2.step both.1 step.1 step.2⟩

theorem wake_pc (chan : Option (Chan n)) (proc : Proc n) : (wake chan proc).pc = proc.pc := by
  unfold wake
  split <;> rfl

def Scans (before after : Proc n) : Prop := ∀ pid i, before.pc = .killScan pid i → after.pc = .killScan pid i

theorem Scans.one {procs procs' : Fin n → Proc n} (moved : procs' = update procs p after)
    (scans : Scans (procs p) after) (q : Fin n) : Scans (procs q) (procs' q) := by
  rw [moved]
  by_cases same : q = p
  · rw [same, update_self]
    exact scans
  · rw [update_of_ne same]
    exact fun _ _ => id

theorem Scans.of_pc (pc : after.pc = before.pc) : Scans before after :=
  fun _ _ place => pc.trans place

theorem Scans.of_place (place : before.pc = pc) (other : ∀ pid i, pc ≠ .killScan pid i) : Scans before after :=
  fun pid i scanning => absurd (place.symm.trans scanning) (other pid i)

theorem Scans.two {m : State n} {own : Proc n} (wrote : m.procs = update s.procs q after)
    (kept : Scans (s.procs q) after) (place : (s.procs p).pc = pc) (other : ∀ pid i, pc ≠ .killScan pid i) (r : Fin n) :
    Scans (s.procs r) ((m.set p own).procs r) := by
  intro pid i scanning
  have differ : r ≠ p := by
    rintro rfl
    exact other pid i (place.symm.trans scanning)
  rw [State.set_other m differ, wrote]
  grind [update_apply, Scans]

theorem Returns.slot {pid : BitVec 32} (control : Control s.procs s.waitLock) (step : Step s t)
    (returns : Returns s t p pid) :
    ∃ q : Fin n, (s.procs p).pc = .killScan pid q ∧ (s.procs q).pid = pid ∧ t = (s.kill q).ret p 0 := by
  obtain ⟨⟨i, place⟩, back, value⟩ := returns
  have scans : (∀ q, Scans (s.procs q) (t.procs q)) →
      ∃ q : Fin n, (s.procs p).pc = .killScan pid q ∧ (s.procs q).pid = pid ∧ t = (s.kill q).ret p 0 := by
    intro scans
    rw [scans p pid i place] at back
    cases back
  cases step with
  | killHit on here free hit =>
    rename_i p' q pid'
    by_cases same : p = p'
    · subst same
      rw [here] at place
      cases place
      exact ⟨q, here, hit, rfl⟩
    · have elsewhere : (((s.kill q).ret p' 0).procs p).pc = (s.procs p).pc := by
        rw [show ((s.kill q).ret p' 0).procs p = _ from State.set_other _ same _]
        exact s.set_field Proc.pc rfl
      rw [elsewhere, place] at back
      cases back
  | killMiss on here free miss =>
    rename_i p' q pid'
    by_cases same : p = p'
    · subst same
      rw [State.go_self] at back
      cases back
    · rw [show (s.go p' _).procs p = _ from State.set_other _ same _, place] at back
      cases back
  | killEnd on here =>
    rename_i p' pid'
    by_cases same : p = p'
    · subst same
      rw [State.ret_self] at value
      cases value
    · rw [show (s.ret p' _).procs p = _ from State.set_other _ same _, place] at back
      cases back
  | dispatch free runnable =>
    refine scans (.one rfl fun pid i scanning => ?_)
    change (s.procs _).pc.resumed = .killScan pid i
    rw [scanning]
    rfl
  | yield on here free => exact scans (.one rfl (.of_pc rfl))
  | wakeup addr free => exact scans (.one rfl (.of_pc (wake_pc _ _)))
  | setkilled on here free => exact scans (.one rfl (.of_pc rfl))
  | forkFound on here free unused =>
    rename_i p' q
    have idle := control.fits q
    unfold Fits at idle
    rw [unused] at idle
    exact scans (.two rfl (.of_place idle.2 nofun) here nofun)
  | forkFail on here =>
    obtain ⟨-, -, -, user⟩ := control.child on here rfl rfl
    exact scans (.two rfl (.of_place user nofun) here nofun)
  | forkCopy _ here | forkParent _ here | forkStart _ here | exitChild _ here =>
    exact scans (.two rfl (.of_pc rfl) here nofun)
  | exitWakeInit _ here | exitWakeParent _ here => exact scans (.two rfl (.of_pc (wake_pc _ _)) here nofun)
  | waitZombie copied on here child free dead =>
    rename_i p' q addr havekids
    apply scans
    unfold State.waitZombie
    split
    · exact .one rfl (.of_place here nofun)
    have gone := control.fits q
    unfold Fits at gone
    rw [dead] at gone
    refine .two rfl (fun pid i scanning => ?_) here nofun
    rw [scanning] at gone
    cases gone.1
  | sleep _ _ here _ | fork _ here | forkTaken _ here _ _ | forkFull _ here | forkAcquire _ here _ | forkRelease _ here
  | exit _ _ here _ | exitAcquire _ here _ | exitOther _ here _ | exitSkipInit _ here | exitWokenInit _ here
  | exitReparented _ here | exitSkipParent _ here | exitWokenParent _ here | exitZombie _ here _ | exitRelease _ here
  | exitSched _ here | wait _ _ here | waitAcquire _ here _ | waitOther _ here _ | waitAlive _ here _ _ _ | waitNone _ here
  | waitSome _ here | waitKilled _ here _ _ | waitGo _ here _ _ | waitSleep _ here _ | waitRelease _ here
  | waitDoze _ here | kill _ _ here => exact scans (.one rfl (.of_place here nofun))

/-- Exactly the calls of `kill(0)` that come to a free slot do harm. -/
theorem kill_unharmed_iff :
    (∀ s : State n, ReachKilling s → Unharmed s) ∧
      (∀ (s t : State n) (p : Fin n) (pid : BitVec 32), ReachKilling s → Step s t → ¬Stray s t → Returns s t p pid →
        ∃ q, (s.procs q).state ≠ .unused ∧ (s.procs q).pid = pid) ∧
      ∀ s t : State n, Reach s → Step s t → Stray s t → ¬Unharmed t := by
  refine ⟨fun s reach => ?_, fun s t p pid reach step kept returns => ?_, fun s t reach _ stray unharmed => ?_⟩
  · obtain ⟨-, clean⟩ := clean_of_reach reach
    exact ⟨fun q unused => (clean.unused q unused).1, clean.created⟩
  · obtain ⟨all, clean⟩ := clean_of_reach reach
    obtain ⟨q, place, hit, left⟩ := returns.slot all.control step
    refine ⟨q, fun unused => ?_, hit⟩
    have zero := (clean.unused q unused).2
    rw [hit] at zero
    rw [zero] at place
    exact kept ⟨p, q, place, unused, left⟩
  · have all := invariant_of_reach reach
    obtain ⟨p, q, place, unused, left⟩ := stray
    have idle := all.control.fits q
    unfold Fits at idle
    rw [unused] at idle
    have other : q ≠ p := by
      rintro rfl
      rw [idle.2] at place
      cases place
    have slot : t.procs q = Process.kill (s.procs q) := by
      rw [left]
      exact ((s.kill q).set_other other _).trans (s.set_self q _)
    have free : (t.procs q).state = .unused := by
      rw [slot, Process.kill, unused]
      rfl
    have alive := unharmed.unused q free
    rw [slot] at alive
    cases alive

/-- The first process calls `kill(0)` while the slot 1 is free. -/
theorem kill_zero_marks_free_slot : ∃ s : State 2, Reach s ∧ ¬Unharmed s := by
  have begin : Reach (booted 1) := .start (booted_init 1)
  have scanning := (begin.next (.dispatch (p := 0) rfl rfl)).next (.kill (p := 0) 0 rfl rfl)
  have passed := scanning.next (.killMiss (p := 0) (q := 0) rfl rfl rfl (by decide))
  have marked := passed.next (.killHit (p := 0) (q := 1) rfl rfl rfl rfl)
  exact ⟨_, marked, fun unharmed => absurd (unharmed.unused 1 rfl) (by decide)⟩

end Runs

end OShard.Process
