import OShard.Process.Control

namespace OShard.Process

open Function (update update_of_ne update_apply)

variable {n : Nat}

def ProcState.live : ProcState → Bool
  | .sleeping | .runnable | .running => true
  | _ => false

def Pc.leaving : Pc n → Bool
  | .exitClose _ | .exitReparent _ _ | .exitWakeInit _ _ _ | .exitWakeParent _ _ _ | .exitLock _ | .exitRelease | .exitSched
  | .exited => true
  | _ => false

def Pc.left (q : Fin n) : Pc n → Bool
  | .exitReparent _ i => q < i
  | .exitWakeInit _ i _ => q ≤ i
  | .exitWakeParent _ _ _ | .exitLock _ | .exitRelease | .exitSched | .exited => true
  | _ => false

theorem Pc.resumed_leaving (pc : Pc n) : pc.resumed.leaving = pc.leaving := by
  cases pc <;> rfl

theorem Pc.resumed_left (pc : Pc n) (q : Fin n) : pc.resumed.left q = pc.left q := by
  cases pc <;> rfl

theorem Pc.leaving_of_left {pc : Pc n} {q : Fin n} (passed : pc.left q = true) : pc.leaving = true := by
  cases pc <;> simp_all [Pc.left, Pc.leaving]

structure Family (procs : Fin n → Proc n) (initproc : Fin n) : Prop where
  live : (procs initproc).state.live = true
  root : (procs initproc).parent = none
  stays : (procs initproc).pc.leaving = false
  parent : ∀ q r, (procs q).parent = some r → r ≠ q ∧ (procs r).state.live = true
  orphan : ∀ q, q ≠ initproc → (procs q).parent = none → (procs q).state = .unused ∨ (procs q).state = .used
  left : ∀ p q, (procs p).pc.left q = true → (procs q).parent ≠ some p

section Update

variable {procs procs' : Fin n → Proc n} {initproc p q : Fin n} {proc : Proc n}

variable (family : Family procs initproc)

include family

theorem Family.assign
    (first : q = initproc → proc.state.live = true ∧ proc.parent = none ∧ proc.pc.leaving = false)
    (parent : ∀ r, proc.parent = some r → r ≠ q ∧ (procs r).state.live = true)
    (kept : proc.state.live = true ∨ ∀ r, r ≠ q → (procs r).parent ≠ some q)
    (orphan : q ≠ initproc → proc.parent = none → proc.state = .unused ∨ proc.state = .used)
    (own : ∀ r, r ≠ q → proc.pc.left r = true → (procs r).parent ≠ some q)
    (others : ∀ r, r ≠ q → (procs r).pc.left q = true → proc.parent ≠ some r) :
    Family (update procs q proc) initproc := by
  obtain ⟨live, root, stays, parent', orphan', left⟩ := family
  constructor
  all_goals grind [update_apply]

theorem Family.keep (parent : proc.parent = (procs q).parent)
    (state : proc.state = (procs q).state ∨ (procs q).state.live = true ∧ proc.state.live = true)
    (leaving : q = initproc → proc.pc.leaving = true → (procs q).pc.leaving = true)
    (left : ∀ r, r ≠ q → proc.pc.left r = true → (procs q).pc.left r = true ∨ (procs r).parent ≠ some q) :
    Family (update procs q proc) initproc := by
  obtain ⟨live, root, stays, parent', orphan, left'⟩ := family
  have idle : ∀ state : ProcState, state = .unused ∨ state = .used → state.live = false := by
    rintro state (rfl | rfl) <;> rfl
  constructor
  all_goals grind [update_apply]

theorem Family.go {pc pc' : Pc n} {a0 : BitVec 32} (place : (procs p).pc = pc)
    (moved : procs' = update procs p { procs p with pc := pc', a0 := a0 })
    (leaving : pc'.leaving = true → pc.leaving = true) (left : ∀ r, pc'.left r = true → pc.left r = true) :
    Family procs' initproc := by
  rw [moved]
  subst place
  exact family.keep rfl (Or.inl rfl) (fun _ => leaving) fun r _ passed => Or.inl (left r passed)

end Update

section Steps

variable {s t : State n} {p q : Fin n}

theorem live_of_running {state : ProcState} (running : state = .running) : state.live = true := by
  rw [running]
  rfl

section Family

variable (family : Family s.procs s.initproc)

include family

theorem Family.rouse {proc : Proc n} (pc : proc.pc = (s.procs q).pc) (parent : proc.parent = (s.procs q).parent)
    (state : proc.state = (s.procs q).state ∨ (s.procs q).state = .sleeping ∧ proc.state = .runnable) :
    Family (s.set q proc).procs s.initproc := by
  apply family.keep parent
  · rcases state with same | ⟨sleeping, runnable⟩
    · exact Or.inl same
    · simp [sleeping, runnable, ProcState.live]
  · simp [pc]
  · intro r _ passed
    exact Or.inl (pc ▸ passed)

theorem Family.wakeup (chan : Option (Chan n)) : Family (s.wakeup chan q).procs s.initproc := by
  unfold State.wakeup wake
  split
  · exact family.rouse rfl rfl (Or.inr ⟨by simp_all, rfl⟩)
  · exact family.rouse rfl rfl (Or.inl rfl)

theorem Family.kill : Family (s.kill q).procs s.initproc := by
  unfold State.kill Process.kill
  split
  · exact family.rouse rfl rfl (Or.inr ⟨by assumption, rfl⟩)
  · exact family.rouse rfl rfl (Or.inl rfl)

section

variable (dead : (s.procs q).state.live = false)

include dead

theorem Family.childless (r : Fin n) : (s.procs r).parent ≠ some q :=
  fun child => nomatch dead.symm.trans (family.parent r q child).2

theorem Family.not_first : q ≠ s.initproc := by
  rintro rfl
  exact nomatch dead.symm.trans family.live

theorem Family.freeproc : Family (s.freeproc q).procs s.initproc :=
  family.assign (fun same => absurd same (family.not_first dead)) nofun (Or.inr fun r _ => family.childless dead r)
    (fun _ _ => Or.inl rfl) (fun r _ _ => family.childless dead r) nofun

end

theorem Family.not_leaving {pc : Pc n} (place : (s.procs p).pc = pc)
    (leaving : pc.leaving = true) : p ≠ s.initproc := by
  rintro rfl
  rw [← place, family.stays] at leaving
  cases leaving

end Family

theorem Family.step (control : Control s.procs s.waitLock) (family : Family s.procs s.initproc) (step : Step s t) :
    Family t.procs t.initproc := by
  cases step with
  | dispatch free runnable =>
    refine family.keep rfl (Or.inr ⟨by rw [runnable]; rfl, rfl⟩) (fun _ leaving => ?_) fun r _ passed => Or.inl ?_
    · rw [← Pc.resumed_leaving]
      exact leaving
    · rw [← Pc.resumed_left]
      exact passed
  | yield on place free =>
    have running := control.preempted on place
    exact family.keep rfl (Or.inr ⟨live_of_running running, rfl⟩) (fun _ => id) fun _ _ => Or.inl
  | sleep _ on place | waitDoze on place =>
    have running := control.running on place rfl
    exact family.keep rfl (Or.inr ⟨live_of_running running, rfl⟩) nofun nofun
  | wakeup addr free => exact family.wakeup _
  | setkilled on place free => exact family.rouse rfl rfl (Or.inl rfl)
  | fork on place | forkTaken on place | forkFull on place | forkAcquire on place | forkRelease on place
  | wait _ on place | waitAcquire on place | waitOther on place | waitAlive on place | waitNone on place
  | waitSome on place | waitKilled on place | waitGo on place | waitRelease on place | kill _ on place
  | killMiss on place | killEnd on place => exact family.go place rfl nofun nofun
  | exitSkipInit on place | exitSkipParent on place | exitWokenParent on place | exitRelease on place =>
    exact family.go place rfl id fun _ => id
  | forkFound on place free unused =>
    rename_i p q
    have other : p ≠ q := ne_of_state (control.running on place rfl) unused nofun
    have dead : (s.procs q).state.live = false := by
      rw [unused]
      rfl
    have taken : Family (s.allocproc p q).procs s.initproc :=
      family.assign (fun same => absurd same (family.not_first dead)) (family.parent q)
        (Or.inr fun r _ => family.childless dead r) (fun _ _ => Or.inr rfl) nofun fun r _ => family.left r q
    have self : (s.allocproc p q).procs p = s.procs p := update_of_ne other _ _
    rw [← self] at place
    exact taken.go place rfl nofun nofun
  | forkFail on place =>
    rename_i p np
    obtain ⟨other, used, -⟩ := control.child on place rfl rfl
    have freed : Family (s.freeproc np).procs s.initproc := family.freeproc (by rw [used]; rfl)
    rw [← s.set_other other (Process.freeproc (s.procs np))] at place
    exact freed.go place rfl nofun nofun
  | forkCopy on place =>
    rename_i p np
    obtain ⟨other, -⟩ := control.child on place rfl rfl
    have unlocked : Family (s.set np { s.procs np with lock := none }).procs s.initproc :=
      family.keep rfl (Or.inl rfl) (fun _ => id) fun _ _ => Or.inl
    rw [← s.set_other other { s.procs np with lock := none }] at place
    exact unlocked.go place rfl nofun nofun
  | forkParent on place =>
    rename_i p np pid
    obtain ⟨other, used, -⟩ := control.child on place rfl rfl
    have dead : (s.procs np).state.live = false := by
      rw [used]
      rfl
    have linked : Family (s.set np { s.procs np with parent := some p, creator := some (s.id p) }).procs s.initproc := by
      refine family.assign (fun same => absurd same (family.not_first dead)) (fun r child => ?_)
        (Or.inr fun r _ => family.childless dead r) nofun (fun r _ _ => family.childless dead r) fun r _ passed child => ?_
      · cases child
        exact ⟨other, live_of_running (control.running on place rfl)⟩
      · cases child
        rw [place] at passed
        cases passed
    rw [← s.set_other other { s.procs np with parent := some p, creator := some (s.id p) }] at place
    exact linked.go place rfl nofun nofun
  | forkStart on place free =>
    rename_i p np pid
    obtain ⟨other, used, -⟩ := control.child on place rfl rfl
    have dead : (s.procs np).state.live = false := by
      rw [used]
      rfl
    have child := control.linked p np (by rw [place]; rfl) (by rw [place]; rfl)
    have started : Family (s.set np { s.procs np with state := .runnable }).procs s.initproc :=
      family.assign (fun same => absurd same (family.not_first dead)) (family.parent np) (Or.inl rfl)
        (fun _ lost => nomatch child.symm.trans lost) (fun r _ _ => family.childless dead r) fun r _ => family.left r np
    rw [← s.set_other other { s.procs np with state := .runnable }] at place
    exact started.go place rfl nofun nofun
  | exit status on place other => exact family.keep rfl (Or.inl rfl) (fun same => absurd same other) nofun
  | exitAcquire on place free => exact family.go place rfl (fun _ => rfl) nofun
  | exitChild on place child =>
    rename_i p q status
    have other : p ≠ q := (family.parent q p child).1
    have late : p ≠ s.initproc := family.not_leaving place rfl
    have younger : q ≠ s.initproc := by
      rintro rfl
      exact nomatch child.symm.trans family.root
    have given : Family (s.set q { s.procs q with parent := some s.initproc }).procs s.initproc := by
      refine family.assign (fun same => absurd same younger) (fun r parent => ?_) ?_ nofun (fun r _ => family.left q r)
        fun r _ passed parent => ?_
      · cases parent
        exact ⟨younger.symm, family.live⟩
      · by_cases live : (s.procs q).state.live = true
        · exact Or.inl live
        · exact Or.inr fun r _ => family.childless (Bool.not_eq_true _ ▸ live) r
      · cases parent
        exact family.not_leaving rfl (Pc.leaving_of_left passed) rfl
    refine given.keep rfl (Or.inl rfl) (fun same => absurd same late) fun r _ passed => ?_
    rw [s.set_other other, place]
    by_cases target : r = q
    · subst target
      simp [late.symm]
    · have behind : r.val ≠ q.val := fun same => target (Fin.ext same)
      have passed' : r.val ≤ q.val := of_decide_eq_true passed
      exact Or.inl (decide_eq_true (Nat.lt_of_le_of_ne passed' behind))
  | exitOther on place child =>
    rename_i p q status
    refine family.keep rfl (Or.inl rfl) (fun _ _ => by rw [place]; rfl) fun r _ passed => ?_
    rw [place]
    by_cases target : r = q
    · rw [target]
      exact Or.inr child
    · have behind : r.val ≠ q.val := fun same => target (Fin.ext same)
      have passed' : r.val < q.val + 1 := of_decide_eq_true passed
      exact Or.inl (decide_eq_true (by omega))
  | exitWakeInit on place other | exitWakeParent on place other =>
    rw [← s.set_other other.symm] at place
    exact (family.wakeup _).go place rfl id fun _ => id
  | exitWokenInit on place =>
    refine family.go place rfl id fun r passed => ?_
    exact decide_eq_true (Nat.le_of_lt_succ (of_decide_eq_true passed))
  | exitReparented on place => exact family.go place rfl id fun r _ => decide_eq_true r.isLt
  | exitZombie on place free =>
    rename_i p status
    have late : p ≠ s.initproc := family.not_leaving place rfl
    have passed : ∀ r, (s.procs r).parent ≠ some p := fun r => family.left p r (by rw [place]; rfl)
    refine family.assign (fun same => absurd same late) (family.parent p) (Or.inr fun r _ => passed r) (fun _ none => ?_)
      (fun r _ _ => passed r) fun r _ => family.left r p
    rcases family.orphan p late none with idle | idle
    all_goals exact nomatch idle.symm.trans (control.running on place rfl)
  | exitSched on place =>
    exact family.keep rfl (Or.inl rfl) (fun _ _ => by rw [place]; rfl) fun _ _ _ => Or.inl (by rw [place]; rfl)
  | waitZombie copied on place child free zombie =>
    rename_i p q addr havekids
    unfold State.waitZombie
    split
    · exact family.go place rfl nofun nofun
    · have other : p ≠ q := (family.parent q p child).1
      have freed : Family (s.freeproc q).procs s.initproc := family.freeproc (by rw [zombie]; rfl)
      rw [← s.set_other other (Process.freeproc (s.procs q))] at place
      exact freed.go place rfl nofun nofun
  | waitSleep on place free => exact family.keep rfl (Or.inl rfl) nofun nofun
  | killHit on place free hit =>
    rename_i p q pid
    rw [← s.set_field Proc.pc (rfl : (Process.kill (s.procs q)).pc = (s.procs q).pc)] at place
    exact family.kill.go place rfl nofun nofun

end Steps

end OShard.Process
