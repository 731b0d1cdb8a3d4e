import OShard.Process.Model

namespace OShard.Process

open Function (update update_self update_of_ne update_comm update_apply)

variable {n : Nat}

def Pc.holdsWait : Pc n → Bool
  | .forkParent _ _ | .forkRelease _ _ | .exitReparent _ _ | .exitWakeInit _ _ _ | .exitWakeParent _ _ _ | .exitLock _
  | .exitRelease | .waitScan _ _ _ | .waitKilled _ | .waitSleep _ | .waitRelease _ => true
  | _ => false

def Pc.locks (p : Fin n) : Pc n → Option (Fin n)
  | .forkFound np => some np
  | .exitRelease | .exitSched | .waitRelease _ | .waitDoze _ => some p
  | _ => none

def Pc.makes : Pc n → Option (Fin n)
  | .forkFound np | .forkLink np _ | .forkParent np _ | .forkRelease np _ | .forkStart np _ => some np
  | _ => none

def Pc.linked : Pc n → Bool
  | .forkRelease _ _ | .forkStart _ _ => true
  | _ => false

def Pc.asleep : Pc n → Bool
  | .otherAsleep | .waitAsleep _ => true
  | _ => false

def Pc.gone : Pc n → Bool
  | .exitRelease | .exitSched | .exited => true
  | _ => false

def Fits (p : Fin n) (proc : Proc n) : Prop :=
  match proc.state with
  | .unused | .used => proc.onCpu = false ∧ proc.pc = .user
  | .runnable => proc.onCpu = false ∧ (proc.pc.preemptible = true ∨ proc.pc.asleep = true)
  | .sleeping => proc.onCpu = false ∧ proc.pc.asleep = true ∧ ∀ addr, proc.pc = .waitAsleep addr → proc.chan = some (.proc p)
  | .running => proc.onCpu = true ∧ proc.pc.asleep = false ∧ proc.pc.gone = false
  | .zombie => proc.pc.gone = true ∧ (proc.onCpu = true → proc.pc ≠ .exited)

structure Control (procs : Fin n → Proc n) (waitLock : Option (Fin n)) : Prop where
  fits : ∀ p, Fits p (procs p)
  wait : ∀ p, (procs p).pc.holdsWait = true → waitLock = some p
  lock : ∀ p q, (procs p).pc.locks p = some q → (procs q).lock = some p
  makes : ∀ p q, (procs p).pc.makes = some q → (procs q).state = .used
  once : ∀ p p' q, (procs p).pc.makes = some q → (procs p').pc.makes = some q → p = p'
  linked : ∀ p q, (procs p).pc.makes = some q → (procs p).pc.linked = true → (procs q).parent = some p

section Reading

variable {procs : Fin n → Proc n} {waitLock : Option (Fin n)} {p q : Fin n} {pc : Pc n}

theorem Fits.of_running {proc : Proc n} (running : proc.state = .running) (on : proc.onCpu = true)
    (here : proc.pc.asleep = false ∧ proc.pc.gone = false) : Fits p proc := by
  rw [Fits, running]
  exact ⟨on, here⟩

theorem Fits.running {proc : Proc n} (fits : Fits p proc) (on : proc.onCpu = true) (here : proc.pc.gone = false) :
    proc.state = .running := by
  unfold Fits at fits
  cases state : proc.state with
  | running => rfl
  | zombie =>
    rw [state] at fits
    rw [fits.1] at here
    cases here
  | _ =>
    rw [state] at fits
    rw [fits.1] at on
    cases on

theorem Control.running (control : Control procs waitLock) (on : (procs p).onCpu = true) (place : (procs p).pc = pc)
    (here : pc.gone = false) : (procs p).state = .running := by
  apply (control.fits p).running on
  rw [place]
  exact here

theorem Control.preempted (control : Control procs waitLock) (on : (procs p).onCpu = true)
    (place : (procs p).pc.preemptible = true) : (procs p).state = .running := by
  apply (control.fits p).running on
  cases pc : (procs p).pc <;> simp_all [Pc.preemptible, Pc.gone]

theorem ne_of_state {a b : ProcState} (first : (procs p).state = a) (second : (procs q).state = b) (differ : a ≠ b) : p ≠ q := by
  rintro rfl
  exact differ (first.symm.trans second)

end Reading

section Update

variable {procs : Fin n → Proc n} {waitLock : Option (Fin n)} {p q : Fin n} {proc : Proc n}
  {pc pc' : Pc n} {procs' : Fin n → Proc n}

section

variable (control : Control procs waitLock)

include control

theorem Control.assign (fits : Fits q proc)
    (wait : proc.pc.holdsWait = true → waitLock = some q)
    (lock : ∀ r, proc.pc.locks q = some r → (update procs q proc r).lock = some q)
    (locked : ∀ r, r ≠ q → (procs r).pc.locks r = some q → proc.lock = some r)
    (makes : ∀ r, proc.pc.makes = some r → r ≠ q ∧ (procs r).state = .used ∧
      (proc.pc.linked = true → (procs r).parent = some q) ∧ ∀ r', r' ≠ q → (procs r').pc.makes ≠ some r)
    (made : ∀ r, r ≠ q → (procs r).pc.makes = some q →
      proc.state = .used ∧ ((procs r).pc.linked = true → proc.parent = some r)) :
    Control (update procs q proc) waitLock := by
  obtain ⟨fits', wait', lock', makes', once', linked'⟩ := control
  constructor
  all_goals grind [update_apply]

theorem Control.data (fits : Fits q proc) (pc : proc.pc = (procs q).pc)
    (lock : proc.lock = (procs q).lock) (used : (procs q).state = .used → proc.state = .used)
    (parent : ∀ r, (procs r).pc.makes = some q → (procs r).pc.linked = true → proc.parent = some r) :
    Control (update procs q proc) waitLock := by
  obtain ⟨fits', wait', lock', makes', once', linked'⟩ := control
  constructor
  all_goals grind [update_apply]

theorem Control.setWaitLock {waitLock' : Option (Fin n)}
    (holds : ∀ p, (procs p).pc.holdsWait = true → waitLock' = some p) : Control procs waitLock' :=
  ⟨control.fits, holds, control.lock, control.makes, control.once, control.linked⟩

end

structure Pc.Within (procs : Fin n → Proc n) (p : Fin n) (pc pc' : Pc n) : Prop where
  locks : ∀ q, pc'.locks p = some q → pc.locks p = some q
  makes : ∀ q, pc'.makes = some q → pc.makes = some q
  linked : ∀ q, pc'.makes = some q → pc'.linked = true → (procs q).parent = some p

theorem Pc.Within.idle (locks : pc'.locks p = none) (makes : pc'.makes = none) : Pc.Within procs p pc pc' :=
  ⟨by simp [locks], by simp [makes], by simp [makes]⟩

section

variable (control : Control procs waitLock)

include control

theorem Control.thread
    (moved : procs' = update procs p proc) (fits : Fits p proc) (lock : proc.lock = (procs p).lock)
    (unmade : (procs p).state ≠ .used) (within : Pc.Within procs p (procs p).pc proc.pc)
    (wait : proc.pc.holdsWait = true → waitLock = some p) : Control procs' waitLock := by
  obtain ⟨locks, makes, linked⟩ := within
  have ⟨_, _, lock', makes', once', _⟩ := control
  rw [moved]
  apply control.assign fits wait
  all_goals grind [update_apply]

theorem Control.go {a0 : BitVec 32}
    (on : (procs p).onCpu = true) (place : (procs p).pc = pc)
    (moved : procs' = update procs p { procs p with pc := pc', a0 := a0 })
    (here : pc.gone = false) (here' : pc'.asleep = false ∧ pc'.gone = false)
    (within : Pc.Within procs p pc pc') (wait : pc'.holdsWait = true → waitLock = some p) : Control procs' waitLock := by
  have running := control.running on place here
  subst place
  apply control.thread moved (Fits.of_running running on here') rfl _ within wait
  rw [running]
  exact nofun

theorem Control.own (moved : procs' = update procs p proc) (fits : Fits p proc)
    (before : (procs p).lock = none ∨ (procs p).lock = some p)
    (after : proc.pc.locks p = none ∨ proc.pc.locks p = some p ∧ proc.lock = some p)
    (unmade : (procs p).state ≠ .used) (makes : proc.pc.makes = none)
    (wait : proc.pc.holdsWait = true → waitLock = some p) : Control procs' waitLock := by
  have ⟨_, _, lock', makes', _, _⟩ := control
  rw [moved]
  apply control.assign fits wait
  all_goals grind [update_apply]

theorem Control.pair {thread : Proc n} (other : p ≠ q)
    (moved : procs' = update (update procs p thread) q proc) (fits : Fits q proc) (user : proc.pc = .user)
    (fits' : Fits p thread) (lock : thread.lock = (procs p).lock) (unmade : (procs p).state ≠ .used)
    (wait : thread.pc.holdsWait = true → waitLock = some p)
    (locks : ∀ r, thread.pc.locks p = some r → r = q ∧ proc.lock = some p)
    (locked : ∀ r, r ≠ p → (procs r).pc.locks r = some q → proc.lock = some r) (makes : ∀ r, thread.pc.makes = some r →
      r = q ∧ proc.state = .used ∧ (thread.pc.linked = true → proc.parent = some p))
    (made : ∀ r, r ≠ p → (procs r).pc.makes ≠ some q) : Control procs' waitLock := by
  have idle : proc.pc.holdsWait = false ∧ proc.pc.locks q = none ∧ proc.pc.makes = none := by
    rw [user]
    exact ⟨rfl, rfl, rfl⟩
  obtain ⟨fits', wait', lock', makes', once', linked'⟩ := control
  subst moved
  constructor
  all_goals grind [update_apply]

end

theorem Control.acquire (control : Control procs none) : Control procs (some p) := by
  apply control.setWaitLock
  intro r holds
  cases control.wait r holds

theorem Control.release (control : Control procs (some p)) (leaves : (procs p).pc.holdsWait = false) :
    Control procs none := by
  apply control.setWaitLock
  intro r holds
  have same := Option.some.inj (control.wait r holds)
  rw [← same, leaves] at holds
  cases holds

end Update

section Steps

variable {s t : State n} {p q : Fin n} {pc : Pc n} {proc : Proc n}

theorem Control.held (control : Control s.procs s.waitLock) (place : (s.procs p).pc = pc)
    (holds : pc.holdsWait = true) : s.waitLock = some p := by
  apply control.wait p
  rw [place]
  exact holds

theorem Pc.Within.refl (control : Control s.procs s.waitLock) : Pc.Within s.procs p (s.procs p).pc (s.procs p).pc :=
  ⟨fun _ => id, fun _ => id, control.linked p⟩

theorem Pc.resumed_running (parked : pc.preemptible = true ∨ pc.asleep = true) :
    pc.resumed.asleep = false ∧ pc.resumed.gone = false ∧ pc.resumed.holdsWait = false := by
  cases pc <;> simp_all [Pc.preemptible, Pc.asleep, Pc.resumed, Pc.gone, Pc.holdsWait]

section Control

variable (control : Control s.procs s.waitLock)

include control

theorem Control.resumed : Pc.Within s.procs p (s.procs p).pc (s.procs p).pc.resumed := by
  have self := Pc.Within.refl (p := p) control
  cases place : (s.procs p).pc with
  | otherAsleep => exact .idle rfl rfl
  | waitAsleep addr => exact .idle rfl rfl
  | _ =>
    rw [place] at self
    exact self

theorem Control.rouse (pc : proc.pc = (s.procs q).pc)
    (lock : proc.lock = (s.procs q).lock) (parent : proc.parent = (s.procs q).parent)
    (onCpu : proc.onCpu = (s.procs q).onCpu) (chan : proc.chan = (s.procs q).chan)
    (state : proc.state = (s.procs q).state ∨ (s.procs q).state = .sleeping ∧ proc.state = .runnable) :
    Control (update s.procs q proc) s.waitLock := by
  have before := control.fits q
  apply control.data _ pc lock _
  · intro r fills linked
    rw [parent]
    exact control.linked r q fills linked
  · rcases state with same | ⟨sleeping, runnable⟩
    · unfold Fits at before ⊢
      rw [same, pc, onCpu, chan]
      exact before
    · unfold Fits at before ⊢
      rw [sleeping] at before
      rw [runnable, pc, onCpu]
      exact ⟨before.1, Or.inr before.2.1⟩
  · intro used
    rcases state with same | ⟨sleeping, -⟩
    · rw [same, used]
    · rw [sleeping] at used
      cases used

theorem Control.wakeup (chan : Option (Chan n)) : Control (s.wakeup chan q).procs s.waitLock := by
  unfold State.wakeup wake
  by_cases asleep : (s.procs q).state = .sleeping ∧ (s.procs q).chan = chan
  · rw [if_pos asleep]
    exact control.rouse rfl rfl rfl rfl rfl (Or.inr ⟨asleep.1, rfl⟩)
  · rw [if_neg asleep]
    exact control.rouse rfl rfl rfl rfl rfl (Or.inl rfl)

theorem Control.kill : Control (s.kill q).procs s.waitLock := by
  unfold State.kill Process.kill
  by_cases asleep : (s.procs q).state = .sleeping
  · rw [if_pos asleep]
    exact control.rouse rfl rfl rfl rfl rfl (Or.inr ⟨asleep, rfl⟩)
  · rw [if_neg asleep]
    exact control.rouse rfl rfl rfl rfl rfl (Or.inl rfl)

theorem Control.unclaimed (free : (s.procs q).lock = none) (r : Fin n) : (s.procs r).pc.locks r ≠ some q := by
  intro holds
  have held := control.lock r q holds
  rw [free] at held
  cases held

section

variable (place : (s.procs p).pc = pc)

include place

theorem Control.alone
    (makes : pc.makes = some q) (r : Fin n) (differ : r ≠ p) : (s.procs r).pc.makes ≠ some q := by
  intro fills
  apply differ
  apply control.once r p q fills
  rw [place]
  exact makes

theorem Control.locked_alone
    (locks : pc.locks p = some q) (r : Fin n) (differ : r ≠ p) : (s.procs r).pc.locks r ≠ some q := by
  intro holds
  have mine := control.lock p q (by rw [place]; exact locks)
  rw [control.lock r q holds] at mine
  exact differ (Option.some.inj mine)

theorem Control.made (makes : pc.makes = some q) : (s.procs q).state = .used := by
  apply control.makes p q
  rw [place]
  exact makes

end

theorem Control.child (on : (s.procs p).onCpu = true)
    (place : (s.procs p).pc = pc) (here : pc.gone = false) (makes : pc.makes = some q) :
    p ≠ q ∧ (s.procs q).state = .used ∧ (s.procs q).onCpu = false ∧ (s.procs q).pc = .user := by
  have used := control.made place makes
  have idle := control.fits q
  rw [Fits, used] at idle
  exact ⟨ne_of_state (control.running on place here) used nofun, used, idle⟩

theorem Control.zombie (place : (s.procs p).pc = pc) (gone : pc.gone = true) : (s.procs p).state = .zombie := by
  have fits := control.fits p
  unfold Fits at fits
  cases state : (s.procs p).state with
  | zombie => rfl
  | unused | used =>
    rw [state] at fits
    rw [place] at fits
    rw [fits.2] at gone
    cases gone
  | runnable | sleeping | running =>
    rw [state, place] at fits
    cases pc <;> simp_all [Pc.gone, Pc.preemptible, Pc.asleep]

end Control

@[simp]
theorem State.set_self (s : State n) (q : Fin n) (proc : Proc n) : (s.set q proc).procs q = proc :=
  update_self _ _ _

@[simp]
theorem State.set_other (s : State n) (other : p ≠ q) (proc : Proc n) : (s.set q proc).procs p = s.procs p :=
  update_of_ne other _ _

theorem State.set_field {α : Type*} (field : Proc n → α) (s : State n)
    (same : field proc = field (s.procs q)) : field ((s.set q proc).procs p) = field (s.procs p) := by
  by_cases slot : p = q
  · subst slot
    rw [State.set_self, same]
  · rw [State.set_other s slot]

theorem State.set_go (s : State n) (other : p ≠ q) (proc : Proc n) (pc : Pc n) :
    (s.set q proc).go p pc = (s.go p pc).set q proc := by
  unfold State.go
  rw [State.set_other s other]
  unfold State.set
  rw [update_comm other.symm]

theorem State.set_ret (s : State n) (other : p ≠ q) (proc : Proc n) (value : BitVec 32) :
    (s.set q proc).ret p value = (s.ret p value).set q proc := by
  unfold State.ret
  rw [State.set_other s other]
  unfold State.set
  rw [update_comm other.symm]

@[simp]
theorem State.go_self (s : State n) (p : Fin n) (pc : Pc n) : (s.go p pc).procs p = { s.procs p with pc := pc } :=
  update_self _ _ _

@[simp]
theorem State.ret_self (s : State n) (p : Fin n) (value : BitVec 32) :
    (s.ret p value).procs p = { s.procs p with pc := .user, a0 := value } :=
  update_self _ _ _

section Control

variable (control : Control s.procs s.waitLock)

include control

theorem Control.back {value : BitVec 32} (on : (s.procs p).onCpu = true)
    (place : (s.procs p).pc = pc) (here : pc.gone = false) (holds : pc.holdsWait = true) :
    Control (s.ret p value).procs none := by
  have back : Control (s.ret p value).procs s.waitLock := control.go on place rfl here ⟨rfl, rfl⟩ (.idle rfl rfl) nofun
  rw [control.held place holds] at back
  apply back.release
  rw [State.ret_self]
  rfl

theorem Control.reap (free : (s.procs q).lock = none)
    (zombie : (s.procs q).state = .zombie) : Control (s.freeproc q).procs s.waitLock := by
  have dead := control.fits q
  rw [Fits, zombie] at dead
  have off : (s.procs q).onCpu = false := by
    rw [← Bool.not_eq_true]
    intro on
    have unlocked := control.unclaimed free q
    cases place : (s.procs q).pc with
    | exited => exact dead.2 on place
    | exitRelease | exitSched =>
      rw [place] at unlocked
      exact unlocked rfl
    | _ =>
      rw [place] at dead
      cases dead.1
  have fits : Fits q (freeproc (s.procs q)) := ⟨off, rfl⟩
  apply control.assign fits nofun nofun _ nofun
  · intro r _ fills
    have used := control.makes r q fills
    rw [zombie] at used
    cases used
  · intro r _ holds
    exact absurd holds (control.unclaimed free r)

theorem Control.unmade (on : (s.procs p).onCpu = true)
    (place : (s.procs p).pc = pc) (here : pc.gone = false) : (s.procs p).state ≠ .used := by
  simp [control.running on place here]

theorem Control.step (step : Step s t) : Control t.procs t.waitLock := by
  cases step with
  | dispatch free runnable =>
    rename_i p
    have parked := control.fits p
    rw [Fits, runnable] at parked
    obtain ⟨asleep, gone, released⟩ := Pc.resumed_running parked.2
    have fits : Fits p (dispatch (s.procs p)) := .of_running rfl rfl ⟨asleep, gone⟩
    apply control.thread rfl fits rfl (by simp [runnable]) control.resumed
    intro holds
    exact nomatch released.symm.trans holds
  | yield on place free =>
    rename_i p
    have fits : Fits p { s.procs p with state := .runnable, onCpu := false } := ⟨rfl, Or.inl place⟩
    exact control.thread rfl fits rfl (by simp [control.preempted on place]) (.refl control) (control.wait p)
  | sleep addr on place free =>
    rename_i p
    have fits : Fits p { s.procs p with
        chan := some (.other addr), state := .sleeping, onCpu := false, pc := .otherAsleep } := ⟨rfl, rfl, nofun⟩
    exact control.thread rfl fits rfl (control.unmade on place rfl) (.idle rfl rfl) nofun
  | wakeup addr free => exact control.wakeup _
  | setkilled on place free => exact control.rouse rfl rfl rfl rfl rfl (Or.inl rfl)
  | fork on place | forkTaken on place | forkFull on place | exit status on place | wait addr on place | kill pid on place
  | killMiss on place | killEnd on place =>
    exact control.go on place rfl rfl ⟨rfl, rfl⟩ (.idle rfl rfl) nofun
  | exitOther on place | exitSkipInit on place | exitWokenInit on place | exitReparented on place
  | exitSkipParent on place | exitWokenParent on place | waitOther on place | waitAlive on place | waitSome on place
  | waitGo on place =>
    exact control.go on place rfl rfl ⟨rfl, rfl⟩ (.idle rfl rfl) fun _ => control.held place rfl
  | exitAcquire on place free | waitAcquire on place free =>
    rw [free] at control
    exact control.acquire.go on place rfl rfl ⟨rfl, rfl⟩ (.idle rfl rfl) fun _ => rfl
  | waitNone on place | waitKilled on place => exact control.back on place rfl rfl
  | forkFound on place free unused =>
    rename_i p q
    have running := control.running on place rfl
    have other : p ≠ q := ne_of_state running unused nofun
    have idle := control.fits q
    rw [Fits, unused] at idle
    have fits : Fits q { s.procs q with lock := some p, pid := s.nextpid, state := .used, pc := .user } := ⟨idle.1, rfl⟩
    apply control.pair other (congrArg State.procs (s.set_go other _ (.forkFound q))) fits rfl (.of_running running on ⟨rfl, rfl⟩) rfl
      (control.unmade on place rfl) nofun
    · intro r holds
      exact ⟨(Option.some.inj holds).symm, rfl⟩
    · intro r _ holds
      exact absurd holds (control.unclaimed free r)
    · intro r fills
      exact ⟨(Option.some.inj fills).symm, rfl, nofun⟩
    · intro r _ fills
      exact nomatch unused.symm.trans (control.makes r q fills)
  | forkFail on place =>
    rename_i p np
    obtain ⟨other, used, off, user⟩ := control.child on place rfl rfl
    have fits : Fits np (freeproc (s.procs np)) := ⟨off, rfl⟩
    apply control.pair other (congrArg State.procs (s.set_ret other _ _)) fits rfl
      (.of_running (control.running on place rfl) on ⟨rfl, rfl⟩) rfl (control.unmade on place rfl) nofun nofun _ nofun
    · exact control.alone place rfl
    · intro r differ holds
      exact absurd holds (control.locked_alone place rfl r differ)
  | forkCopy on place =>
    rename_i p np
    obtain ⟨other, used, off, user⟩ := control.child on place rfl rfl
    have fits : Fits np { s.procs np with lock := none } := control.fits np
    apply control.pair other (congrArg State.procs (s.set_go other _ (.forkLink np _))) fits user
      (.of_running (control.running on place rfl) on ⟨rfl, rfl⟩) rfl (control.unmade on place rfl) nofun nofun
    · intro r differ holds
      exact absurd holds (control.locked_alone place rfl r differ)
    · intro r fills
      exact ⟨(Option.some.inj fills).symm, used, nofun⟩
    · exact control.alone place rfl
  | forkAcquire on place free =>
    rw [free] at control
    exact control.acquire.go on place rfl rfl ⟨rfl, rfl⟩ ⟨nofun, fun _ => id, nofun⟩ fun _ => rfl
  | forkParent on place =>
    rename_i p np pid
    obtain ⟨other, used, off, user⟩ := control.child on place rfl rfl
    have fits : Fits np { s.procs np with parent := some p, creator := some (s.id p) } := control.fits np
    apply control.pair other (congrArg State.procs (s.set_go other _ (.forkRelease np pid))) fits user
      (.of_running (control.running on place rfl) on ⟨rfl, rfl⟩) rfl (control.unmade on place rfl)
      (fun _ => control.held place rfl) nofun
    · intro r _ holds
      exact control.lock r np holds
    · intro r fills
      exact ⟨(Option.some.inj fills).symm, used, fun _ => rfl⟩
    · exact control.alone place rfl
  | forkRelease on place =>
    rename_i p np pid
    have onward : Control (s.go p (.forkStart np pid)).procs s.waitLock := by
      refine control.go on place rfl rfl ⟨rfl, rfl⟩ ⟨nofun, fun _ => id, fun q fills _ => ?_⟩ nofun
      exact control.linked p q (by rw [place]; exact fills) (by rw [place]; rfl)
    rw [control.held place rfl] at onward
    exact onward.release (by simp [Pc.holdsWait])
  | forkStart on place free =>
    rename_i p np pid
    obtain ⟨other, used, off, user⟩ := control.child on place rfl rfl
    have fits : Fits np { s.procs np with state := .runnable } := ⟨off, Or.inl (by rw [user]; rfl)⟩
    apply control.pair other (congrArg State.procs (s.set_ret other _ _)) fits user
      (.of_running (control.running on place rfl) on ⟨rfl, rfl⟩) rfl (control.unmade on place rfl) nofun nofun _ nofun
    · exact control.alone place rfl
    · intro r _ holds
      exact absurd holds (control.unclaimed free r)
  | exitChild on place child =>
    rename_i p q status
    have given : Control (s.set q { s.procs q with parent := some s.initproc }).procs s.waitLock := by
      have fits : Fits q { s.procs q with parent := some s.initproc } := control.fits q
      apply control.data fits rfl rfl id
      intro r fills linked
      cases child.symm.trans (control.linked r q fills linked)
      rw [place] at fills
      cases fills
    have same := s.set_field (p := p) (fun proc => (proc.onCpu, proc.pc))
      (rfl : _ = (({ s.procs q with parent := some s.initproc } : Proc n).onCpu, (s.procs q).pc))
    rw [← (Prod.mk.inj same).1] at on
    rw [← (Prod.mk.inj same).2] at place
    exact given.go on place rfl rfl ⟨rfl, rfl⟩ (.idle rfl rfl) fun _ => given.held place rfl
  | exitWakeInit on place other free | exitWakeParent on place other free =>
    rw [← s.set_other other.symm] at on place
    exact (control.wakeup _).go on place rfl rfl ⟨rfl, rfl⟩ (.idle rfl rfl) fun _ => (control.wakeup _).held place rfl
  | exitZombie on place free =>
    rename_i p status
    have fits : Fits p { s.procs p with lock := some p, xstate := status, state := .zombie, pc := .exitRelease } :=
      ⟨rfl, nofun⟩
    exact control.own rfl fits (Or.inl free) (Or.inr ⟨rfl, rfl⟩) (control.unmade on place rfl) rfl
      fun _ => control.held place rfl
  | exitRelease on place =>
    rename_i p
    have zombie := control.zombie place rfl
    have fits : Fits p { s.procs p with pc := .exitSched } := by
      rw [Fits, zombie]
      exact ⟨rfl, nofun⟩
    have mine := control.lock p p (by rw [place]; rfl)
    have onward : Control (s.go p .exitSched).procs s.waitLock :=
      control.own rfl fits (Or.inr mine) (Or.inr ⟨rfl, mine⟩) (by simp [zombie]) rfl nofun
    rw [control.held place rfl] at onward
    exact onward.release (by simp [Pc.holdsWait])
  | exitSched on place =>
    rename_i p
    have zombie := control.zombie place rfl
    have fits : Fits p { s.procs p with lock := none, onCpu := false, pc := .exited } := by
      rw [Fits, zombie]
      exact ⟨rfl, nofun⟩
    have mine := control.lock p p (by rw [place]; rfl)
    exact control.own rfl fits (Or.inr mine) (Or.inl rfl) (by simp [zombie]) rfl nofun
  | waitZombie copied on place child free zombie =>
    rename_i p q addr havekids
    unfold State.waitZombie
    by_cases fault : addr ≠ 0 ∧ copied = false
    · rw [if_pos fault]
      exact control.back on place rfl rfl
    · rw [if_neg fault]
      have other : p ≠ q := ne_of_state (control.running on place rfl) zombie nofun
      rw [← s.set_other other (freeproc (s.procs q))] at on place
      exact (control.reap free zombie).back on place rfl rfl
  | waitSleep on place free =>
    rename_i p addr
    have fits : Fits p { s.procs p with lock := some p, pc := .waitRelease addr } :=
      .of_running (control.running on place rfl) on ⟨rfl, rfl⟩
    exact control.own rfl fits (Or.inl free) (Or.inr ⟨rfl, rfl⟩) (control.unmade on place rfl) rfl
      fun _ => control.held place rfl
  | waitRelease on place =>
    rename_i p addr
    have onward : Control (s.go p (.waitDoze addr)).procs s.waitLock :=
      control.go on place rfl rfl ⟨rfl, rfl⟩ ⟨fun _ => id, nofun, nofun⟩ nofun
    rw [control.held place rfl] at onward
    exact onward.release (by simp [Pc.holdsWait])
  | waitDoze on place =>
    rename_i p addr
    have fits : Fits p { s.procs p with
        lock := none, chan := some (.proc p), state := .sleeping, onCpu := false, pc := .waitAsleep addr } :=
      ⟨rfl, rfl, fun _ _ => rfl⟩
    have mine := control.lock p p (by rw [place]; rfl)
    exact control.own rfl fits (Or.inr mine) (Or.inl rfl) (control.unmade on place rfl) rfl nofun
  | killHit on place free hit =>
    rename_i p q pid
    rw [← s.set_field Proc.onCpu (rfl : (Process.kill (s.procs q)).onCpu = (s.procs q).onCpu)] at on
    rw [← s.set_field Proc.pc (rfl : (Process.kill (s.procs q)).pc = (s.procs q).pc)] at place
    exact control.kill.go on place rfl rfl ⟨rfl, rfl⟩ (.idle rfl rfl) nofun

end Control

end Steps

end OShard.Process
