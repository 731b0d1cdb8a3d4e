import OShard.Process.Family

namespace OShard.Process

open Function (update update_self update_of_ne update_apply)

variable {n : Nat}

def Pc.scanned (c : Fin n) : Pc n → Bool
  | .waitScan _ i _ => c < i
  | .waitKilled _ | .waitSleep _ | .waitRelease _ => true
  | _ => false

def Pc.told (r : Fin n) : Pc n → Bool
  | .exitWakeParent _ _ j => r < j
  | .exitLock _ => true
  | _ => false

/-- Asleep in `wait`, or about to be: `wait_lock` has been given back already. -/
def Proc.dozing (proc : Proc n) : Bool :=
  match proc.pc with
  | .waitDoze _ => true
  | .waitAsleep _ => proc.state = .sleeping
  | _ => false

/-- Nobody dozes in `wait` beside a zombie child, unless `initproc` is just being woken for it. -/
structure Watch (procs : Fin n → Proc n) (initproc : Fin n) : Prop where
  scanned : ∀ p c, (procs p).pc.scanned c = true → (procs c).parent = some p → (procs c).state ≠ .zombie
  chan : ∀ p status chan j, (procs p).pc = .exitWakeParent status chan j → chan = (procs p).parent
  told : ∀ c r, (procs c).pc.told r = true → (procs c).parent = some r → (procs r).dozing = false
  zombie : ∀ c r, (procs c).state = .zombie → (procs c).parent = some r → (procs r).dozing = true →
    r = initproc ∧ ∃ p status i j, (procs p).pc = .exitWakeInit status i j ∧ j ≤ r.val

structure Quiet (before after : Proc n) : Prop where
  parent : ∀ r, after.parent = some r → before.parent = some r
  zombie : after.state = .zombie → before.state = .zombie
  dozing : after.dozing = true → before.dozing = true
  scanned : ∀ c, after.pc.scanned c = true → before.pc.scanned c = true
  told : ∀ r, after.pc.told r = true → before.pc.told r = true
  chan : ∀ status chan j, after.pc = .exitWakeParent status chan j →
    before.pc = .exitWakeParent status chan j ∧ after.parent = before.parent
  waking : ∀ status i j, before.pc = .exitWakeInit status i j → after.pc = .exitWakeInit status i j

section Update

variable {procs procs' : Fin n → Proc n} {initproc p q : Fin n} {before after : Proc n}

theorem Quiet.refl (proc : Proc n) : Quiet proc proc :=
  ⟨fun _ => id, id, id, fun _ => id, fun _ => id, fun _ _ _ place => ⟨place, rfl⟩, fun _ _ _ => id⟩

theorem Quiet.of_pc (pc : after.pc = before.pc) (parent : after.parent = before.parent)
    (zombie : after.state = .zombie → before.state = .zombie)
    (sleeping : after.state = .sleeping → before.state = .sleeping) : Quiet before after := by
  constructor
  case dozing =>
    unfold Proc.dozing
    rw [pc]
    cases before.pc with
    | waitAsleep addr =>
      intro dozing
      exact decide_eq_true (sleeping (of_decide_eq_true dozing))
    | _ => exact id
  all_goals simp_all

theorem Quiet.go {pc : Pc n} (place : before.pc = pc) (parent : ∀ r, after.parent = some r → before.parent = some r)
    (zombie : after.state = .zombie → before.state = .zombie) (dozing : after.dozing = false)
    (scanned : ∀ c, after.pc.scanned c = true → pc.scanned c = true)
    (told : ∀ r, after.pc.told r = false) (waking : ∀ status i j, pc ≠ .exitWakeInit status i j)
    (chan : ∀ status chan j, after.pc ≠ .exitWakeParent status chan j) : Quiet before after := by
  subst place
  constructor
  all_goals simp_all

section

variable (watch : Watch procs initproc)

include watch

theorem Watch.actor (others : ∀ r, r ≠ p → Quiet (procs r) (procs' r))
    (parent : (procs' p).parent = (procs p).parent)
    (scanned : ∀ c, (procs' p).pc.scanned c = true → (procs' c).parent = some p → (procs' c).state ≠ .zombie)
    (chan : ∀ status chan j, (procs' p).pc = .exitWakeParent status chan j → chan = (procs' p).parent)
    (told : ∀ r, (procs' p).pc.told r = true → (procs' p).parent = some r → (procs' r).dozing = false)
    (dozing : (procs' p).dozing = true → (procs p).dozing = true ∨
      ∀ c, (procs' c).parent = some p → (procs' c).state ≠ .zombie ∧ (procs' c).pc.told p = false)
    (zombie : (procs' p).state = .zombie → (procs p).state = .zombie ∨
      ∀ r, (procs' p).parent = some r → (procs' r).dozing = false ∧ (procs' r).pc.scanned p = false)
    (waking : ∀ status i j, (procs p).pc = .exitWakeInit status i j → j ≤ initproc.val →
      (procs' initproc).dozing = true → ∃ status' i' j', (procs' p).pc = .exitWakeInit status' i' j' ∧ j' ≤ initproc.val) :
    Watch procs' initproc := by
  obtain ⟨scanned', chan', told', zombie'⟩ := watch
  have oldParent : ∀ c r, (procs' c).parent = some r → (procs c).parent = some r := by
    grind [Quiet]
  constructor
  all_goals grind [Quiet]

theorem Watch.quiet (quiet : ∀ r, Quiet (procs r) (procs' r)) : Watch procs' initproc := by
  obtain ⟨scanned', chan', told', zombie'⟩ := watch
  constructor
  all_goals grind [Quiet]

theorem Watch.adopt {r : Fin n} (pc : after.pc = (procs q).pc)
    (state : after.state = (procs q).state) (parent : after.parent = some r) (unseen : (procs r).pc.scanned q = false)
    (untold : ∀ r, (procs q).pc.told r = false) (chan : ∀ status chan j, (procs q).pc ≠ .exitWakeParent status chan j)
    (zombie : (procs q).state = .zombie → (procs r).dozing = true →
      r = initproc ∧ ∃ p status i j, (procs p).pc = .exitWakeInit status i j ∧ j ≤ r.val) :
    Watch (update procs q after) initproc := by
  obtain ⟨scanned', chan', told', zombie'⟩ := watch
  have same : ∀ r', (update procs q after r').pc = (procs r').pc ∧
      (update procs q after r').state = (procs r').state := by
    grind [update_apply]
  have doze : ∀ r', (update procs q after r').dozing = (procs r').dozing := by
    intro r'
    unfold Proc.dozing
    rw [(same r').1, (same r').2]
  constructor
  all_goals grind [update_apply]

theorem Watch.one (moved : procs' = update procs p after)
    (quiet : Quiet (procs p) after) : Watch procs' initproc := by
  apply watch.quiet
  intro r
  rw [moved]
  by_cases same : r = p
  · rw [same, update_self]
    exact quiet
  · rw [update_of_ne same]
    exact .refl _

end


end Update

section Steps

variable {s t : State n} {p q : Fin n} {procs' : Fin n → Proc n} {pc pc' : Pc n} {a0 : BitVec 32} {c : Fin n}

section Watch

variable (watch : Watch s.procs s.initproc) (place : (s.procs p).pc = pc) (moved : procs' = update s.procs p { s.procs p with pc := pc', a0 := a0 }) (dozing : ({ s.procs p with pc := pc', a0 := a0 } : Proc n).dozing = false)

include watch place moved dozing

theorem Watch.go (scanned : ∀ c, pc'.scanned c = true → pc.scanned c = true) (told : ∀ r, pc'.told r = false)
    (waking : ∀ status i j, pc ≠ .exitWakeInit status i j)
    (chan : ∀ status chan j, pc' ≠ .exitWakeParent status chan j) : Watch procs' s.initproc :=
  watch.one moved (.go place (fun _ => id) id dozing scanned told waking chan)

theorem Watch.goTo (scanned : ∀ c, pc'.scanned c = true → (s.procs c).parent = some p → (s.procs c).state ≠ .zombie)
    (chan : ∀ status chan j, pc' = .exitWakeParent status chan j → chan = (s.procs p).parent)
    (told : ∀ r, pc'.told r = true → (s.procs p).parent = some r → (s.procs r).dozing = false)
    (waking : ∀ status i j, pc = .exitWakeInit status i j → j ≤ s.initproc.val → (s.procs s.initproc).dozing = true →
      ∃ status' i' j', pc' = .exitWakeInit status' i' j' ∧ j' ≤ s.initproc.val) : Watch procs' s.initproc := by
  subst moved
  apply watch.actor (p := p)
  · intro r differ
    rw [update_of_ne differ]
    exact .refl _
  all_goals grind [update_apply]

end Watch

theorem Pc.holdsWait_of_scanned (passed : pc.scanned c = true) : pc.holdsWait = true := by
  cases pc <;> simp_all [Pc.scanned, Pc.holdsWait]

theorem Pc.holdsWait_of_told (passed : pc.told c = true) : pc.holdsWait = true := by
  cases pc <;> simp_all [Pc.told, Pc.holdsWait]

theorem Control.excluded (control : Control s.procs s.waitLock) (place : (s.procs p).pc = pc)
    (holds : pc.holdsWait = true) (other : q ≠ p) : (s.procs q).pc.holdsWait = false := by
  rw [← Bool.not_eq_true]
  intro holds'
  exact other (Option.some.inj ((control.wait q holds').symm.trans (control.held place holds)))

theorem Control.alone_waiting (control : Control s.procs s.waitLock) (place : (s.procs p).pc = pc)
    (holds : pc.holdsWait = true) (other : q ≠ p) (c : Fin n) :
    (s.procs q).pc.scanned c = false ∧ (s.procs q).pc.told c = false := by
  have free := control.excluded place holds other
  constructor
  · rw [← Bool.not_eq_true]
    exact fun passed => nomatch free.symm.trans (Pc.holdsWait_of_scanned passed)
  · rw [← Bool.not_eq_true]
    exact fun passed => nomatch free.symm.trans (Pc.holdsWait_of_told passed)

theorem Pc.parked (parked : pc.preemptible = true ∨ pc.asleep = true) :
    (∀ c, pc.resumed.scanned c = false) ∧ (∀ r, pc.resumed.told r = false) ∧
      (∀ status i j, pc ≠ .exitWakeInit status i j) ∧ ∀ status chan j, pc.resumed ≠ .exitWakeParent status chan j := by
  cases pc <;> simp_all [Pc.preemptible, Pc.asleep, Pc.resumed, Pc.scanned, Pc.told]

theorem Proc.dozing_dispatch {proc : Proc n} (parked : proc.pc.preemptible = true ∨ proc.pc.asleep = true) :
    (dispatch proc).dozing = false := by
  have pc : (dispatch proc).pc = proc.pc.resumed := rfl
  unfold Proc.dozing
  rw [pc]
  cases place : proc.pc <;> simp_all [Pc.preemptible, Pc.asleep, Pc.resumed]

theorem Control.woken (control : Control s.procs s.waitLock) (free : (s.procs q).lock = none) :
    (wake (some (.proc q)) (s.procs q)).dozing = false := by
  have unlocked := control.unclaimed free q
  have fits := control.fits q
  unfold wake
  by_cases asleep : (s.procs q).state = .sleeping ∧ (s.procs q).chan = some (.proc q)
  · rw [if_pos asleep]
    unfold Fits at fits
    rw [asleep.1] at fits
    unfold Proc.dozing
    cases place : (s.procs q).pc with
    | waitDoze addr =>
      rw [place] at fits
      cases fits.2.1
    | _ => rfl
  · rw [if_neg asleep]
    unfold Proc.dozing
    cases place : (s.procs q).pc with
    | waitDoze addr =>
      rw [place] at unlocked
      exact absurd rfl unlocked
    | waitAsleep addr =>
      apply decide_eq_false
      intro sleeping
      unfold Fits at fits
      rw [sleeping] at fits
      exact asleep ⟨sleeping, fits.2.2 addr place⟩
    | _ => rfl

section

variable (watch : Watch s.procs s.initproc)

include watch

theorem Watch.wakeup (chan : Option (Chan n)) :
    Watch (s.wakeup chan q).procs s.initproc := by
  apply watch.one rfl
  unfold wake
  split
  · exact .of_pc rfl rfl nofun nofun
  · exact .refl _

theorem Watch.kill : Watch (s.kill q).procs s.initproc := by
  apply watch.one rfl
  unfold Process.kill
  split
  · exact .of_pc rfl rfl nofun nofun
  · exact .of_pc rfl rfl id id

theorem Watch.freeproc (place : (s.procs q).pc = pc)
    (still : ∀ status i j, pc ≠ .exitWakeInit status i j) : Watch (s.freeproc q).procs s.initproc :=
  watch.one rfl (.go place nofun nofun rfl nofun (fun _ => rfl) still nofun)

end

theorem Watch.step (control : Control s.procs s.waitLock) (family : Family s.procs s.initproc)
    (watch : Watch s.procs s.initproc) (step : Step s t) : Watch t.procs t.initproc := by
  cases step with
  | dispatch free runnable =>
    rename_i p
    have parked := control.fits p
    unfold Fits at parked
    rw [runnable] at parked
    obtain ⟨scanned, told, waking, chan⟩ := Pc.parked parked.2
    refine watch.one rfl (.go rfl (fun _ => id) nofun (Proc.dozing_dispatch parked.2) (fun c passed => ?_) told waking chan)
    exact absurd ((scanned c).symm.trans passed) nofun
  | yield on place free => exact watch.one rfl (.of_pc rfl rfl nofun nofun)
  | sleep addr on place free => exact watch.one rfl (.go place (fun _ => id) nofun rfl nofun (fun _ => rfl) nofun nofun)
  | wakeup addr free => exact watch.wakeup _
  | setkilled on place free => exact watch.one rfl (.of_pc rfl rfl id id)
  | fork on place | forkTaken on place | forkFull on place | forkAcquire on place | forkRelease on place | exit _ on place
  | exitAcquire on place | exitOther on place | exitRelease on place | wait _ on place | waitAcquire on place
  | waitNone on place | waitKilled on place | kill _ on place | killMiss on place | killEnd on place =>
    exact watch.go place rfl rfl nofun (fun _ => rfl) nofun nofun
  | forkFound on place free unused =>
    rename_i p q
    have other : p ≠ q := ne_of_state (control.running on place rfl) unused nofun
    have idle := control.fits q
    unfold Fits at idle
    rw [unused] at idle
    have taken : Watch (s.allocproc p q).procs s.initproc :=
      watch.one rfl (.go idle.2 (fun _ => id) nofun rfl nofun (fun _ => rfl) nofun nofun)
    have self : (s.allocproc p q).procs p = s.procs p := update_of_ne other _ _
    rw [← self] at place
    exact taken.go place rfl rfl nofun (fun _ => rfl) nofun nofun
  | forkFail on place =>
    rename_i p np
    obtain ⟨other, -, -, user⟩ := control.child on place rfl rfl
    have freed := watch.freeproc user nofun
    rw [← s.set_other other (Process.freeproc (s.procs np))] at place
    exact freed.go place rfl rfl nofun (fun _ => rfl) nofun nofun
  | forkCopy on place =>
    rename_i p np
    obtain ⟨other, -⟩ := control.child on place rfl rfl
    have unlocked : Watch (s.set np { s.procs np with lock := none }).procs s.initproc :=
      watch.one rfl (.of_pc rfl rfl id id)
    rw [← State.set_other s other { s.procs np with lock := none }] at place
    exact unlocked.go place rfl rfl nofun (fun _ => rfl) nofun nofun
  | forkParent on place =>
    rename_i p np pid
    obtain ⟨other, used, -, user⟩ := control.child on place rfl rfl
    have linked : Watch (s.set np { s.procs np with parent := some p, creator := some (s.id p) }).procs s.initproc :=
      watch.adopt rfl rfl rfl (by simp [place, Pc.scanned]) (by simp [user, Pc.told]) (by simp [user]) (by simp [used])
    rw [← State.set_other s other { s.procs np with parent := some p, creator := some (s.id p) }] at place
    exact linked.go place rfl rfl nofun (fun _ => rfl) nofun nofun
  | forkStart on place free =>
    rename_i p np pid
    obtain ⟨other, -⟩ := control.child on place rfl rfl
    have started : Watch (s.set np { s.procs np with state := .runnable }).procs s.initproc :=
      watch.one rfl (.of_pc rfl rfl nofun nofun)
    rw [← State.set_other s other { s.procs np with state := .runnable }] at place
    exact started.go place rfl rfl nofun (fun _ => rfl) nofun nofun
  | exitChild on place child =>
    rename_i p q status
    have other : p ≠ q := (family.parent q p child).1
    have late : s.initproc ≠ p := (family.not_leaving place rfl).symm
    have onward : Watch (s.go p (.exitWakeInit status q 0)).procs s.initproc :=
      watch.go place rfl rfl nofun (fun _ => rfl) nofun nofun
    have others : ∀ r, r ≠ p → (s.go p (.exitWakeInit status q 0)).procs r = s.procs r := fun r differ => s.set_other differ _
    rw [s.set_go other]
    apply onward.adopt
    · rw [others q other.symm]
    · rw [others q other.symm]
    · rfl
    · rw [others _ late]
      exact (control.alone_waiting place rfl late q).1
    · intro r
      rw [others q other.symm]
      exact (control.alone_waiting place rfl other.symm r).2
    · intro status' chan j here
      have free := control.excluded place rfl other.symm
      rw [others q other.symm] at here
      rw [here] at free
      cases free
    · exact fun _ _ => ⟨rfl, p, status, q, 0, by simp, Nat.zero_le _⟩
  | exitWakeInit on place other free =>
    rename_i p q status i
    rw [← s.set_other other.symm (wake (some (.proc s.initproc)) (s.procs q))] at place
    refine (watch.wakeup _).goTo place rfl rfl nofun nofun nofun fun _ _ _ here ahead doze => ⟨_, _, _, rfl, ?_⟩
    cases here
    have behind : q.val ≠ s.initproc.val := by
      intro same
      cases (Fin.ext same : q = s.initproc)
      change ((s.set _ _).procs s.initproc).dozing = true at doze
      rw [State.set_self, control.woken free] at doze
      cases doze
    have ahead' : q.val ≤ s.initproc.val := ahead
    change q.val + 1 ≤ s.initproc.val
    omega
  | exitSkipInit on place =>
    rename_i p status i
    have late : p.val ≠ s.initproc.val := fun same => family.not_leaving place rfl (Fin.ext same)
    refine watch.goTo place rfl rfl nofun nofun nofun fun _ _ _ here ahead _ => ⟨_, _, _, rfl, ?_⟩
    cases here
    omega
  | exitWokenInit on place =>
    refine watch.goTo place rfl rfl nofun nofun nofun fun _ _ _ here ahead _ => ?_
    cases here
    exact absurd s.initproc.isLt (Nat.not_lt.mpr ahead)
  | exitReparented on place =>
    refine watch.goTo place rfl rfl nofun (fun _ _ _ here => ?_) nofun nofun
    cases here
    rfl
  | exitWakeParent on place other free =>
    rename_i p q status chan
    have woken := State.set_self s q (wake (chan.map .proc) (s.procs q))
    have own := State.set_other s other.symm (wake (chan.map .proc) (s.procs q))
    have parent := watch.chan p status chan q place
    rw [← own] at place
    refine (watch.wakeup _).goTo place rfl rfl nofun (fun _ _ _ here => ?_) (fun r passed child => ?_) nofun
    · cases here
      rw [show (s.wakeup (chan.map .proc) q).procs p = s.procs p from own]
      exact parent
    · by_cases target : r = q
      · subst target
        rw [show (s.wakeup (chan.map .proc) r).procs p = s.procs p from own, ← parent] at child
        rw [show (s.wakeup (chan.map .proc) r).procs r = _ from woken, child]
        exact control.woken free
      · have behind : r.val ≠ q.val := fun same => target (Fin.ext same)
        have passed' : r.val < q.val + 1 := of_decide_eq_true passed
        apply (watch.wakeup _).told p r _ child
        rw [show ((s.wakeup (chan.map .proc) q).procs p).pc = _ from place]
        exact decide_eq_true (by omega)
  | exitSkipParent on place =>
    rename_i p status chan
    refine watch.goTo place rfl rfl nofun (fun _ _ _ here => ?_) (fun r passed child => ?_) nofun
    · cases here
      exact watch.chan p status chan p place
    · have other : r.val ≠ p.val := fun same => (family.parent p r child).1 (Fin.ext same)
      have passed' : r.val < p.val + 1 := of_decide_eq_true passed
      apply watch.told p r _ child
      rw [place]
      exact decide_eq_true (by omega)
  | exitWokenParent on place =>
    rename_i p status chan
    refine watch.goTo place rfl rfl nofun nofun (fun r _ child => ?_) nofun
    apply watch.told p r _ child
    rw [place]
    exact decide_eq_true r.isLt
  | exitZombie on place free =>
    rename_i p status
    apply watch.actor (p := p)
    case others =>
      intro r differ
      rw [s.set_other differ]
      exact .refl _
    case zombie =>
      refine fun _ => Or.inr fun r child => ?_
      rw [State.set_self] at child
      have differ := (family.parent p r child).1
      rw [s.set_other differ]
      exact ⟨watch.told p r (by rw [place]; rfl) child, (control.alone_waiting place rfl differ p).1⟩
    all_goals simp [place, Pc.scanned, Pc.told, Proc.dozing]
  | exitSched on place => exact watch.one rfl (.go place (fun _ => id) id rfl nofun (fun _ => rfl) nofun nofun)
  | waitOther on place other =>
    rename_i p q addr havekids
    refine watch.goTo place rfl rfl (fun c passed child => ?_) nofun nofun nofun
    apply watch.scanned p c _ child
    have behind : c.val ≠ q.val := by
      intro same
      rw [Fin.ext same] at child
      exact other child
    have passed' : c.val < q.val + 1 := of_decide_eq_true passed
    rw [place]
    exact decide_eq_true (by omega)
  | waitAlive on place child free alive =>
    rename_i p q addr havekids
    refine watch.goTo place rfl rfl (fun c passed child' => ?_) nofun nofun nofun
    by_cases target : c = q
    · rw [target]
      exact alive
    have behind : c.val ≠ q.val := fun same => target (Fin.ext same)
    have passed' : c.val < q.val + 1 := of_decide_eq_true passed
    apply watch.scanned p c _ child'
    rw [place]
    exact decide_eq_true (by omega)
  | waitZombie copied on place child free zombie =>
    rename_i p q addr havekids
    unfold State.waitZombie
    split
    · exact watch.go place rfl rfl nofun (fun _ => rfl) nofun nofun
    have other : p ≠ q := (family.parent q p child).1
    have dead := control.fits q
    unfold Fits at dead
    rw [zombie] at dead
    have freed : Watch (s.freeproc q).procs s.initproc := by
      apply watch.freeproc rfl
      intro status i j here
      rw [here] at dead
      cases dead.1
    rw [← s.set_other other (Process.freeproc (s.procs q))] at place
    exact freed.go place rfl rfl nofun (fun _ => rfl) nofun nofun
  | waitSome on place => exact watch.go place rfl rfl (fun c _ => decide_eq_true c.isLt) (fun _ => rfl) nofun nofun
  | waitGo on place free alive => exact watch.go place rfl rfl (fun _ => id) (fun _ => rfl) nofun nofun
  | waitSleep on place free =>
    exact watch.one rfl (.go place (fun _ => id) id rfl (fun _ => id) (fun _ => rfl) nofun nofun)
  | waitRelease on place =>
    rename_i p addr
    have others : ∀ r, r ≠ p → (s.go p (.waitDoze addr)).procs r = s.procs r := fun r differ => s.set_other differ _
    apply watch.actor (p := p)
    case others =>
      intro r differ
      rw [others r differ]
      exact .refl _
    case dozing =>
      refine fun _ => Or.inr fun c child => ?_
      have differ : c ≠ p := by
        rintro rfl
        rw [State.go_self] at child
        exact (family.parent c c child).1 rfl
      rw [others c differ] at child ⊢
      exact ⟨watch.scanned p c (by rw [place]; rfl) child, (control.alone_waiting place rfl differ p).2⟩
    case zombie =>
      rw [State.go_self]
      exact Or.inl
    all_goals simp [place, Pc.scanned, Pc.told]
  | waitDoze on place =>
    rename_i p addr
    have dozing : (s.procs p).dozing = true := by
      unfold Proc.dozing
      rw [place]
    apply watch.one rfl
    refine ⟨fun _ => id, nofun, fun _ => dozing, nofun, nofun, nofun, fun status i j here => ?_⟩
    rw [place] at here
    cases here
  | killHit on place free hit =>
    rename_i p q pid
    rw [← s.set_field Proc.pc (rfl : (Process.kill (s.procs q)).pc = (s.procs q).pc)] at place
    exact watch.kill.go place rfl rfl nofun (fun _ => rfl) nofun nofun

end Steps

end OShard.Process
