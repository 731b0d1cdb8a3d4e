import OShard.Process.Watch

namespace OShard.Process

open Function (update update_self update_of_ne update_apply)

variable {n : Nat}

def Pc.status : Pc n → Option (BitVec 32)
  | .exitClose status | .exitReparent status _ | .exitWakeInit status _ _ | .exitWakeParent status _ _
  | .exitLock status => some status
  | _ => none

/-- The status of a process that has called `exit` and has not been freed. -/
def Proc.exiting (proc : Proc n) : Option (BitVec 32) :=
  if proc.state = .zombie then some proc.xstate else proc.pc.status

def Pending (procs : Fin n → Proc n) (e : Exit n) : Prop :=
  (procs e.who.1).gen = e.who.2 ∧ (procs e.who.1).pid = e.pid ∧ (procs e.who.1).exiting = some e.status

/-- What a call of `wait` has reported is the exit `e`. -/
def Reports (r : Reap n) (e : Exit n) : Prop :=
  e.who = r.who ∧ r.returned = e.pid ∧ r.delivered = if r.addr ≠ 0 then some e.status else none

/-- `parent` is the process that made this one, or the first process if that one has exited. -/
def Rightful (initproc : Fin n) (exits : List (Exit n)) (creator : Option (Id n)) (parent : Id n) : Prop :=
  creator = some parent ∨ parent.1 = initproc ∧ ∃ e ∈ exits, creator = some e.who

/-- The exits and reaps of a run agree with each other and with the process table. -/
structure Accounts (procs : Fin n → Proc n) (initproc : Fin n) (exits : List (Exit n)) (reaps : List (Reap n)) : Prop where
  exitOnce : (exits.map Exit.who).Nodup
  reapOnce : (reaps.map Reap.who).Nodup
  known : ∀ e ∈ exits, Pending procs e ∨ ∃ r ∈ reaps, Reports r e
  exiting : ∀ q, (procs q).exiting ≠ none → ∃ e ∈ exits, e.who = (q, (procs q).gen)
  reaped : ∀ r ∈ reaps, r.who.2 < (procs r.who.1).gen ∧ (∃ e ∈ exits, Reports r e) ∧
    Rightful initproc exits r.creator r.reaper
  creator : ∀ q r, (procs q).parent = some r → Rightful initproc exits (procs q).creator (r, (procs r).gen)

structure Unseen (before after : Proc n) : Prop where
  gen : after.gen = before.gen
  exiting : after.exiting = before.exiting
  pid : after.exiting ≠ none → after.pid = before.pid
  parent : ∀ r, after.parent = some r → before.parent = some r ∧ after.creator = before.creator

section Update

variable {procs procs' : Fin n → Proc n} {initproc p q : Fin n} {exits : List (Exit n)} {reaps : List (Reap n)}
  {before after : Proc n}

theorem Unseen.refl (proc : Proc n) : Unseen proc proc := ⟨rfl, rfl, fun _ => rfl, fun _ child => ⟨child, rfl⟩⟩

theorem Unseen.alive (state : before.state ≠ .zombie) (state' : after.state ≠ .zombie)
    (status : after.pc.status = before.pc.status) (gen : after.gen = before.gen) (pid : after.pid = before.pid)
    (parent : after.parent = before.parent) (creator : after.creator = before.creator) : Unseen before after := by
  refine ⟨gen, ?_, fun _ => pid, fun r child => ⟨?_, creator⟩⟩
  · rw [Proc.exiting, Proc.exiting, if_neg state, if_neg state', status]
  · rw [← parent]
    exact child

theorem gen_freeproc (r : Fin n) : (procs r).gen ≤ (update procs q (freeproc (procs q)) r).gen := by
  by_cases same : r = q
  · rw [same, update_self]
    exact Nat.le_succ _
  · simp only [update_of_ne same, Nat.le_refl]

theorem nodup_snoc {α β : Type*} {key : α → β} {list : List α} {last : α} (nodup : (list.map key).Nodup)
    (fresh : ∀ item ∈ list, key item ≠ key last) : ((list ++ [last]).map key).Nodup := by
  rw [List.map_append, List.nodup_append]
  refine ⟨nodup, List.nodup_singleton _, fun first member second single => ?_⟩
  obtain ⟨item, here, rfl⟩ := List.mem_map.mp member
  rw [List.map_singleton, List.mem_singleton] at single
  rw [single]
  exact fresh item here

section Accounts

variable (accounts : Accounts procs initproc exits reaps)

include accounts

theorem Accounts.unseen (unseen : ∀ r, Unseen (procs r) (procs' r)) : Accounts procs' initproc exits reaps := by
  obtain ⟨exitOnce, reapOnce, known, exiting, reaped, creator⟩ := accounts
  refine ⟨exitOnce, reapOnce, ?_, ?_, ?_, ?_⟩
  all_goals grind [Unseen, Pending]

theorem Accounts.one (moved : procs' = update procs p after)
    (unseen : Unseen (procs p) after) : Accounts procs' initproc exits reaps := by
  apply accounts.unseen
  intro r
  rw [moved]
  by_cases same : r = p
  · rw [same, update_self]
    exact unseen
  · rw [update_of_ne same]
    exact .refl _

theorem Accounts.go {pc pc' : Pc n} {a0 : BitVec 32}
    (place : (procs p).pc = pc) (moved : procs' = update procs p { procs p with pc := pc', a0 := a0 })
    (status : pc'.status = pc.status) : Accounts procs' initproc exits reaps := by
  apply accounts.one moved
  refine ⟨rfl, ?_, fun _ => rfl, fun _ child => ⟨child, rfl⟩⟩
  unfold Proc.exiting
  rw [place, ← status]

theorem Accounts.free (childless : ∀ r, (procs r).parent ≠ some q)
    (idle : (procs q).exiting = none) : Accounts (update procs q (freeproc (procs q))) initproc exits reaps := by
  obtain ⟨exitOnce, reapOnce, known, exiting, reaped, creator⟩ := accounts
  have still : (freeproc (procs q)).exiting = none := rfl
  refine ⟨exitOnce, reapOnce, ?_, ?_, fun r member => ?_, ?_⟩
  case refine_3 => exact ⟨Nat.lt_of_lt_of_le (reaped r member).1 (gen_freeproc _), (reaped r member).2⟩
  all_goals grind [update_apply, Pending, freeproc]

theorem Accounts.exit {status : BitVec 32} (idle : (procs p).exiting = none)
    (gen : after.gen = (procs p).gen) (exiting : after.exiting = some status) (pid : after.pid = (procs p).pid)
    (parent : after.parent = (procs p).parent) (creator : after.creator = (procs p).creator) :
    Accounts (update procs p after) initproc (exits ++ [⟨(p, (procs p).gen), (procs p).pid, status⟩]) reaps := by
  have fresh : ∀ e ∈ exits, e.who ≠ (p, (procs p).gen) := by
    intro e here same
    rcases accounts.known e here with pending | ⟨r, reported, report⟩
    · grind [Pending]
    · have old := (accounts.reaped r reported).1
      rw [← report.1, same] at old
      exact Nat.lt_irrefl _ old
  obtain ⟨exitOnce, reapOnce, known, exiting', reaped, creator'⟩ := accounts
  refine ⟨nodup_snoc exitOnce fresh, reapOnce, ?_, fun r status' => ?_, ?_, ?_⟩
  case refine_2 =>
    by_cases same : r = p
    · exact ⟨_, List.mem_append_right _ (List.mem_singleton_self _), by simp [same, gen]⟩
    · grind [update_apply]
  all_goals grind [update_apply, Pending, Rightful]

theorem Accounts.reap (addr : BitVec 64)
    (childless : ∀ r, (procs r).parent ≠ some q) (zombie : (procs q).state = .zombie) (child : (procs q).parent = some p) :
    Accounts (update procs q (freeproc (procs q))) initproc exits (reaps ++ [⟨(q, (procs q).gen), addr,
      (procs q).pid, if addr ≠ 0 then some (procs q).xstate else none, (p, (procs p).gen), (procs q).creator⟩]) := by
  have status : (procs q).exiting = some (procs q).xstate := if_pos zombie
  have report : ∀ e, Pending procs e → e.who.1 = q → Reports ⟨(q, (procs q).gen), addr, (procs q).pid,
      if addr ≠ 0 then some (procs q).xstate else none, (p, (procs p).gen), (procs q).creator⟩ e := by
    grind [Pending, Reports]
  have still : (freeproc (procs q)).exiting = none := rfl
  obtain ⟨exitOnce, reapOnce, known, exiting, reaped, creator⟩ := accounts
  refine ⟨exitOnce, ?_, ?_, ?_, fun r member => ?_, ?_⟩
  · apply nodup_snoc reapOnce
    intro r here same
    have old := (reaped r here).1
    rw [same] at old
    exact Nat.lt_irrefl _ old
  · grind [update_apply, Pending]
  · grind [update_apply]
  · rcases List.mem_append.mp member with old | new
    · exact ⟨Nat.lt_of_lt_of_le (reaped r old).1 (gen_freeproc _), (reaped r old).2⟩
    rw [List.mem_singleton] at new
    rw [new]
    refine ⟨by simp [freeproc], ?_, creator q p child⟩
    obtain ⟨e, here, who⟩ := exiting q (by simp [status])
    refine ⟨e, here, ?_⟩
    rcases known e here with pending | ⟨r', here', reported⟩
    · exact report e pending (congrArg Prod.fst who)
    · have old := (reaped r' here').1
      rw [← reported.1, who] at old
      exact absurd old (Nat.lt_irrefl _)
  · grind [update_apply, freeproc]

theorem Accounts.adopt {r : Fin n} (gen : after.gen = (procs q).gen)
    (exiting : after.exiting = (procs q).exiting) (pid : after.pid = (procs q).pid) (parent : after.parent = some r)
    (rightful : Rightful initproc exits after.creator (r, (procs r).gen)) :
    Accounts (update procs q after) initproc exits reaps := by
  obtain ⟨exitOnce, reapOnce, known, exiting', reaped, creator⟩ := accounts
  refine ⟨exitOnce, reapOnce, ?_, ?_, ?_, ?_⟩
  all_goals grind [update_apply, Pending]

end Accounts

end Update

section Steps

variable {s t : State n} {p q : Fin n} {initproc : Fin n} {exits : List (Exit n)} {reaps : List (Reap n)}

theorem Accounts.wakeup (accounts : Accounts s.procs initproc exits reaps) (chan : Option (Chan n)) :
    Accounts (s.wakeup chan q).procs initproc exits reaps := by
  apply accounts.one rfl
  unfold wake
  split
  · refine ⟨rfl, ?_, fun _ => rfl, fun _ child => ⟨child, rfl⟩⟩
    simp_all [Proc.exiting]
  · exact .refl _

theorem Accounts.kill
    (accounts : Accounts s.procs initproc exits reaps) : Accounts (s.kill q).procs initproc exits reaps := by
  apply accounts.one rfl
  refine ⟨rfl, ?_, fun _ => rfl, fun _ child => ⟨child, rfl⟩⟩
  unfold Process.kill Proc.exiting
  split <;> simp_all

theorem Pc.resumed_status (pc : Pc n) : pc.resumed.status = pc.status := by
  cases pc <;> rfl

theorem Control.not_exiting (control : Control s.procs s.waitLock)
    (idle : (s.procs q).state = .unused ∨ (s.procs q).state = .used) : (s.procs q).exiting = none := by
  have fits := control.fits q
  rcases idle with idle | idle
  all_goals
    rw [Fits, idle] at fits
    simp [Proc.exiting, idle, fits.2, Pc.status]

theorem Accounts.step (control : Control s.procs s.waitLock) (family : Family s.procs s.initproc)
    (accounts : Accounts s.procs s.initproc s.exits s.reaps) (step : Step s t) :
    Accounts t.procs t.initproc t.exits t.reaps := by
  cases step with
  | dispatch free runnable =>
    exact accounts.one rfl (.alive (by simp [runnable]) nofun (Pc.resumed_status _) rfl rfl rfl rfl)
  | yield on place free =>
    exact accounts.one rfl (.alive (by simp [control.preempted on place]) nofun rfl rfl rfl rfl rfl)
  | sleep _ on place | waitDoze on place =>
    have running := control.running on place rfl
    exact accounts.one rfl (.alive (by simp [running]) nofun (by rw [place]; rfl) rfl rfl rfl rfl)
  | wakeup addr free => exact accounts.wakeup _
  | setkilled on place free => exact accounts.one rfl ⟨rfl, rfl, fun _ => rfl, fun _ child => ⟨child, rfl⟩⟩
  | fork on place | forkTaken on place | forkFull on place | forkAcquire on place | forkRelease on place
  | exitAcquire on place | exitOther on place | exitSkipInit on place | exitWokenInit on place
  | exitReparented on place | exitSkipParent on place | exitWokenParent on place | exitRelease on place
  | wait _ on place | waitAcquire on place | waitOther on place | waitAlive on place | waitNone on place
  | waitSome on place | waitKilled on place | waitGo on place | waitRelease on place | kill _ on place
  | killMiss on place | killEnd on place => exact accounts.go place rfl rfl
  | forkFound on place free unused =>
    rename_i p q
    have other : p ≠ q := ne_of_state (control.running on place rfl) unused nofun
    have idle : (s.procs q).exiting = none := control.not_exiting (Or.inl unused)
    have taken : Accounts (s.allocproc p q).procs s.initproc s.exits s.reaps :=
      accounts.one rfl ⟨rfl, idle.symm, fun exiting => absurd rfl exiting, fun _ child => ⟨child, rfl⟩⟩
    have self : (s.allocproc p q).procs p = s.procs p := update_of_ne other _ _
    rw [← self] at place
    exact taken.go place rfl rfl
  | forkFail on place =>
    rename_i p np
    obtain ⟨other, used, -⟩ := control.child on place rfl rfl
    have freed : Accounts (s.freeproc np).procs s.initproc s.exits s.reaps :=
      accounts.free (family.childless (by rw [used]; rfl)) (control.not_exiting (Or.inr used))
    rw [← s.set_other other (Process.freeproc (s.procs np))] at place
    exact freed.go place rfl rfl
  | forkCopy on place =>
    rename_i p np
    obtain ⟨other, -⟩ := control.child on place rfl rfl
    have unlocked : Accounts (s.set np { s.procs np with lock := none }).procs s.initproc s.exits s.reaps :=
      accounts.one rfl ⟨rfl, rfl, fun _ => rfl, fun _ child => ⟨child, rfl⟩⟩
    rw [← s.set_other other { s.procs np with lock := none }] at place
    exact unlocked.go place rfl rfl
  | forkParent on place =>
    rename_i p np pid
    obtain ⟨other, -⟩ := control.child on place rfl rfl
    have linked : Accounts (s.set np { s.procs np with parent := some p, creator := some (s.id p) }).procs s.initproc
        s.exits s.reaps :=
      accounts.adopt rfl rfl rfl rfl (Or.inl rfl)
    rw [← s.set_other other { s.procs np with parent := some p, creator := some (s.id p) }] at place
    exact linked.go place rfl rfl
  | forkStart on place free =>
    rename_i p np pid
    obtain ⟨other, used, -⟩ := control.child on place rfl rfl
    have started : Accounts (s.set np { s.procs np with state := .runnable }).procs s.initproc s.exits s.reaps :=
      accounts.one rfl (.alive (by simp [used]) nofun rfl rfl rfl rfl rfl)
    rw [← s.set_other other { s.procs np with state := .runnable }] at place
    exact started.go place rfl rfl
  | exit status on place other =>
    rename_i p
    have running := control.running on place rfl
    apply accounts.exit
    all_goals simp [Proc.exiting, running, place, Pc.status]
  | exitChild on place child =>
    rename_i p q status
    have other : p ≠ q := (family.parent q p child).1
    have late : p ≠ s.initproc := family.not_leaving place rfl
    have leaving : (s.procs p).exiting ≠ none := by
      simp [Proc.exiting, control.running on place rfl, place, Pc.status]
    have rightful : Rightful s.initproc s.exits (s.procs q).creator (s.initproc, (s.procs s.initproc).gen) := by
      rcases accounts.creator q p child with made | ⟨first, -⟩
      · obtain ⟨e, member, who⟩ := accounts.exiting p leaving
        exact Or.inr ⟨rfl, e, member, by rw [made, who]⟩
      · exact absurd first late
    have given : Accounts (s.set q { s.procs q with parent := some s.initproc }).procs s.initproc s.exits s.reaps :=
      accounts.adopt rfl rfl rfl rfl rightful
    rw [← s.set_other other { s.procs q with parent := some s.initproc }] at place
    exact given.go place rfl rfl
  | exitWakeInit on place other | exitWakeParent on place other =>
    rw [← s.set_other other.symm] at place
    exact (accounts.wakeup _).go place rfl rfl
  | exitZombie on place free =>
    refine accounts.one rfl ⟨rfl, ?_, fun _ => rfl, fun _ child => ⟨child, rfl⟩⟩
    simp [Proc.exiting, control.running on place rfl, place, Pc.status]
  | exitSched on place | waitSleep on place =>
    refine accounts.one rfl ⟨rfl, ?_, fun _ => rfl, fun _ child => ⟨child, rfl⟩⟩
    rw [Proc.exiting, Proc.exiting, place]
    rfl
  | waitZombie copied on place child free zombie =>
    rename_i p q addr havekids
    unfold State.waitZombie
    split
    · exact accounts.go place rfl rfl
    · have other : p ≠ q := (family.parent q p child).1
      have freed := accounts.reap addr (family.childless (by rw [zombie]; rfl)) zombie child
      rw [← s.set_other other (Process.freeproc (s.procs q))] at place
      exact freed.go place rfl rfl
  | killHit on place free hit =>
    rename_i p q pid
    rw [← s.set_field Proc.pc (rfl : (Process.kill (s.procs q)).pc = (s.procs q).pc)] at place
    exact accounts.kill.go place rfl rfl

end Steps

section Runs

variable {s t : State n}

structure Invariant (s : State n) : Prop where
  control : Control s.procs s.waitLock
  family : Family s.procs s.initproc
  watch : Watch s.procs s.initproc
  accounts : Accounts s.procs s.initproc s.exits s.reaps

variable {after : Proc n} {procs procs' : Fin n → Proc n} {p : Fin n}

theorem Invariant.init (init : Init s) : Invariant s := by
  have state : ∀ q, (s.procs q).state = .runnable ∨ (s.procs q).state = .unused := by
    intro q
    by_cases first : q = s.initproc
    · rw [first]
      exact Or.inl init.first
    · exact Or.inr (init.others q first).1
  have exiting : ∀ q, (s.procs q).exiting = none := by
    intro q
    rcases state q with here | here <;> simp [Proc.exiting, here, init.pc, Pc.status]
  refine ⟨?_, ?_, ?_, ?_⟩
  · constructor
    case fits =>
      intro q
      rcases state q with here | here <;> simp [Fits, here, init.pc, init.onCpu, Pc.preemptible]
    all_goals simp [init.pc, Pc.holdsWait, Pc.locks, Pc.makes]
  · constructor
    case orphan => exact fun q other _ => Or.inl (init.others q other).1
    all_goals simp [init.first, init.parent, init.pc, ProcState.live, Pc.leaving, Pc.left]
  · constructor
    all_goals simp [init.pc, init.parent, Pc.scanned, Pc.told]
  · rw [init.exits, init.reaps]
    constructor
    all_goals simp [exiting, init.parent]

theorem Invariant.step (all : Invariant s) (step : Step s t) : Invariant t :=
  ⟨all.control.step step, all.family.step all.control step, all.watch.step all.control all.family step,
    all.accounts.step all.control all.family step⟩

theorem invariant_of_reach (reach : Reach s) : Invariant s :=
  reach.invariant (fun _ => .init) fun _ _ all step => all.step step

def Steady (before after : Proc n) : Prop :=
  before.state = .zombie → after.state = .zombie ∧ after.pid = before.pid ∧ after.xstate = before.xstate

theorem Steady.refl (proc : Proc n) : Steady proc proc := fun zombie => ⟨zombie, rfl, rfl⟩

theorem Steady.of_ne {before : Proc n} {state : ProcState} (is : before.state = state) (other : state ≠ .zombie) :
    Steady before after :=
  fun zombie => absurd (is.symm.trans zombie) other

theorem Steady.one (moved : procs' = update procs p after) (steady : Steady (procs p) after) (q : Fin n) :
    Steady (procs q) (procs' q) := by
  rw [moved]
  by_cases same : q = p
  · rw [same, update_self]
    exact steady
  · rw [update_of_ne same]
    exact .refl _

theorem Steady.go {pc : Pc n} {a0 : BitVec 32}
    (moved : procs' = update procs p { procs p with pc := pc, a0 := a0 }) (q : Fin n) :
    Steady (procs q) (procs' q) :=
  .one moved (fun zombie => ⟨zombie, rfl, rfl⟩) q

theorem Steady.set (s : State n) {q : Fin n} (state : after.state = (s.procs p).state)
    (pid : after.pid = (s.procs p).pid) (xstate : after.xstate = (s.procs p).xstate) :
    Steady (s.procs q) ((s.set p after).procs q) :=
  .one rfl (fun zombie => ⟨state.trans zombie, pid, xstate⟩) q

theorem Steady.two {procs₁ : Fin n → Proc n} (first : ∀ q, Steady (procs q) (procs₁ q))
    (second : ∀ q, Steady (procs₁ q) (procs' q)) (q : Fin n) : Steady (procs q) (procs' q) := by
  intro zombie
  obtain ⟨zombie₁, pid₁, xstate₁⟩ := first q zombie
  obtain ⟨zombie', pid', xstate'⟩ := second q zombie₁
  exact ⟨zombie', pid'.trans pid₁, xstate'.trans xstate₁⟩

theorem Steady.wakeup (s : State n) (chan : Option (Chan n)) (p q : Fin n) :
    Steady (s.procs q) ((s.wakeup chan p).procs q) := by
  apply Steady.one rfl
  unfold wake
  by_cases asleep : (s.procs p).state = .sleeping ∧ (s.procs p).chan = chan
  · exact .of_ne asleep.1 nofun
  · rw [if_neg asleep]
    exact .refl _

theorem Steady.kill (s : State n) (p q : Fin n) : Steady (s.procs q) ((s.kill p).procs q) := by
  apply Steady.one rfl
  intro zombie
  unfold Process.kill
  rw [zombie]
  exact ⟨rfl, rfl, rfl⟩

def Reaped (s t : State n) (q : Fin n) : Prop :=
  ∃ p r, (s.procs q).parent = some p ∧ t.reaps = s.reaps ++ [r] ∧ r.who = s.id q ∧ r.reaper = s.id p ∧
    (t.procs p).pc = .user ∧ (t.procs p).a0 = r.returned

theorem Invariant.zombie (all : Invariant s) (step : Step s t) (q : Fin n) :
    Steady (s.procs q) (t.procs q) ∨ Reaped s t q := by
  have control := all.control
  cases step with
  | dispatch free runnable => exact Or.inl (.one rfl (.of_ne runnable nofun) q)
  | yield on place free => exact Or.inl (.one rfl (.of_ne (control.preempted on place) nofun) q)
  | sleep _ on place | exitZombie on place | waitDoze on place =>
    exact Or.inl (.one rfl (.of_ne (control.running on place rfl) nofun) q)
  | wakeup addr free => exact Or.inl (.wakeup s _ _ q)
  | setkilled | exitSched | waitSleep => exact Or.inl (.set s rfl rfl rfl)
  | forkFound on place free unused => exact Or.inl (.two (.one rfl (.of_ne unused nofun)) (.go rfl) q)
  | forkFail on place | forkCopy on place | forkParent on place | forkStart on place =>
    exact Or.inl (.two (.one rfl (.of_ne (control.made place rfl) nofun)) (.go rfl) q)
  | exitChild on place child =>
    rename_i p c status
    have given : ∀ q, Steady (s.procs q) ((s.set c { s.procs c with parent := some s.initproc }).procs q) :=
      fun q => .set s rfl rfl rfl
    exact Or.inl (.two given (.go rfl) q)
  | exitWakeInit | exitWakeParent => exact Or.inl (.two (.wakeup s _ _) (.go rfl) q)
  | waitZombie copied on place child free dead =>
    rename_i p c addr havekids
    unfold State.waitZombie
    split
    · exact Or.inl (.go rfl q)
    by_cases same : q = c
    · right
      rw [same]
      exact ⟨p, _, child, rfl, rfl, rfl, congrArg Proc.pc (State.ret_self _ p _), congrArg Proc.a0 (State.ret_self _ p _)⟩
    left
    have kept : (s.freeproc c).procs q = s.procs q := s.set_other same _
    have onward : Steady ((s.freeproc c).procs q) (((s.freeproc c).ret p (s.procs c).pid).procs q) := .go rfl q
    rw [kept] at onward
    exact onward
  | killHit on place free hit => exact Or.inl (.two (.kill s _) (.go rfl) q)
  | _ => exact Or.inl (.go rfl q)

/-- The handover of children, as seen in one state of a run and in the steps from it. -/
structure HandedOver (s : State n) : Prop where
  parent : s.waitLock = none → ∀ q, q ≠ s.initproc → (s.procs q).state ≠ .unused → (s.procs q).state ≠ .used →
    ∃ r, (s.procs q).parent = some r ∧ r ≠ q ∧ (s.procs r).state ≠ .unused ∧ (s.procs r).state ≠ .zombie
  awake : s.waitLock = none → ∀ p c addr, (s.procs p).pc = .waitAsleep addr → (s.procs p).state = .sleeping →
    (s.procs c).parent = some p → (s.procs c).state ≠ .zombie
  once : (s.exits.map Exit.who).Nodup ∧ (s.reaps.map Reap.who).Nodup
  exits : ∀ e ∈ s.exits, Pending s.procs e ∨ ∃ r ∈ s.reaps, Reports r e
  reaps : ∀ r ∈ s.reaps, (∃ e ∈ s.exits, Reports r e) ∧ Rightful s.initproc s.exits r.creator r.reaper
  zombie : ∀ t q, Step s t → Steady (s.procs q) (t.procs q) ∨ Reaped s t q
  fault : ∀ (p c : Fin n) addr havekids, (s.procs p).pc = .waitScan addr c havekids → (s.procs c).parent = some p → addr ≠ 0 →
    ((s.waitZombie p c addr false).procs p).a0 = -1 ∧ (s.waitZombie p c addr false).procs c = s.procs c ∧
      (s.waitZombie p c addr false).reaps = s.reaps

/-- Every child is handed over to its parent, or to the first process, exactly once. -/
theorem children_handed_over (reach : Reach s) : HandedOver s := by
  have all := invariant_of_reach reach
  constructor
  · intro _ q other unused used
    cases parent : (s.procs q).parent with
    | none =>
      rcases all.family.orphan q other parent with free | making
      · exact absurd free unused
      · exact absurd making used
    | some r =>
      obtain ⟨differ, live⟩ := all.family.parent q r parent
      refine ⟨r, rfl, differ, ?_, ?_⟩
      · intro free
        rw [free] at live
        cases live
      · intro zombie
        rw [zombie] at live
        cases live
  · intro free p c addr place sleeping child zombie
    have dozing : (s.procs p).dozing = true := by
      rw [Proc.dozing, place]
      exact decide_eq_true sleeping
    obtain ⟨-, q, status, i, j, waking, -⟩ := all.watch.zombie c p zombie child dozing
    have held := all.control.held waking rfl
    rw [free] at held
    cases held
  · exact ⟨all.accounts.exitOnce, all.accounts.reapOnce⟩
  · exact all.accounts.known
  · intro r member
    exact (all.accounts.reaped r member).2
  · intro t q step
    exact all.zombie step q
  · intro p c addr havekids place child copy
    have other : c ≠ p := (all.family.parent c p child).1.symm
    have fault : addr ≠ 0 ∧ false = false := ⟨copy, rfl⟩
    unfold State.waitZombie
    rw [if_pos fault]
    exact ⟨congrArg Proc.a0 (State.ret_self s p (-1)), s.set_other other _, rfl⟩

/-- The first process forks, the child exits with status 7, and `wait` reaps it. -/
theorem children_handed_over_seven : ∃ s : State 2, Reach s ∧ (s.reaps.map Reap.delivered) = [some 7] ∧ HandedOver s := by
  have begin : Reach (booted 1) := .start (booted_init 1)
  have found := (((begin.next (.dispatch (p := 0) rfl rfl)).next (.fork (p := 0) rfl rfl)).next
    (.forkTaken (p := 0) (q := 0) rfl rfl rfl nofun)).next (.forkFound (p := 0) (q := 1) rfl rfl rfl rfl)
  have started := ((((found.next (.forkCopy (p := 0) rfl rfl)).next (.forkAcquire (p := 0) rfl rfl rfl)).next
    (.forkParent (p := 0) rfl rfl)).next (.forkRelease (p := 0) rfl rfl)).next (.forkStart (p := 0) rfl rfl rfl)
  have left := ((((started.next (.dispatch (p := 1) rfl rfl)).next (.exit (p := 1) 7 rfl rfl nofun)).next
    (.exitAcquire (p := 1) rfl rfl rfl)).next (.exitOther (p := 1) (q := 0) rfl rfl nofun)).next
    (.exitOther (p := 1) (q := 1) rfl rfl nofun)
  have told := (((left.next (.exitReparented (p := 1) rfl rfl)).next
    (.exitWakeParent (p := 1) (q := 0) rfl rfl nofun rfl)).next (.exitSkipParent (p := 1) rfl rfl)).next
    (.exitWokenParent (p := 1) rfl rfl)
  have gone := ((told.next (.exitZombie (p := 1) rfl rfl rfl)).next (.exitRelease (p := 1) rfl rfl)).next
    (.exitSched (p := 1) rfl rfl)
  have reaped := (((gone.next (.wait (p := 0) 4096 rfl rfl)).next (.waitAcquire (p := 0) rfl rfl rfl)).next
    (.waitOther (p := 0) (q := 0) rfl rfl nofun)).next (.waitZombie (p := 0) (q := 1) true rfl rfl rfl rfl rfl)
  exact ⟨_, reaped, rfl, children_handed_over reaped⟩

end Runs

end OShard.Process
