import OShard.Scheduler.Model

namespace OShard.Scheduler

open Function

open Process (ProcState)
open Transition

variable {n m : Nat}

section Invariant

def Op.makes : Op n → Option (Fin n)
  | .forkFound np | .forkLink np => some np
  | _ => none

def Pc.makes : Pc n → Option (Fin n)
  | .run op | .yieldSched op | .yielded op => op.makes
  | _ => none

def ThreadOk (s : State n m) (c : Fin m) (p : Fin n) : Pc n → Prop
  | .forkret | .awake _ | .sleepLocked | .dozing _ => (s.procs p).lock = some c ∧ (s.procs p).state = .running
  | .yielded op => ((s.procs p).lock = some c ∧ (s.procs p).state = .running) ∧ op.preemptible = true
  | .run op => (s.procs p).state = .running ∧
      ∀ np, op = .forkFound np → np ≠ p ∧ (s.procs np).lock = some c ∧ (s.procs np).state = .used
  | .yieldSched op => ((s.procs p).lock = some c ∧ (s.procs p).state = .runnable) ∧ op.preemptible = true
  | .sleepSched _ => (s.procs p).lock = some c ∧ (s.procs p).state = .sleeping
  | .exitSched => (s.procs p).lock = some c ∧ (s.procs p).state = .zombie
  | .exited => False

def left (state : ProcState) : Prop := state = .runnable ∨ state = .sleeping ∨ state = .zombie

def SchedOk (s : State n m) (c : Fin m) : SchedPc n → Prop
  | .scan _ => (s.cpus c).proc = none
  | .picked i | .releasing i => (s.cpus c).proc = none ∧ (s.procs i).lock = some c
  | .switching i => (s.cpus c).proc = some i ∧ (s.procs i).lock = some c ∧ (s.procs i).state = .running ∧
      (s.procs i).saved = true
  | .switched i => (s.cpus c).proc = some i ∧ (s.procs i).lock = some c ∧ left (s.procs i).state ∧
      (s.procs i).saved = true

structure CpuOk (s : State n m) (c : Fin m) : Prop where
  idle : (s.cpus c).running = none → SchedOk s c (s.cpus c).sched
  busy : ∀ p, (s.cpus c).running = some p → (s.cpus c).proc = some p ∧ (s.cpus c).sched = .switched p ∧
    (s.procs p).saved = false ∧ ThreadOk s c p (s.procs p).pc

def resumable (state : ProcState) : Pc n → Prop
  | .forkret | .awake _ => True
  | .yielded op => op.preemptible = true
  | .exited => state = .zombie
  | _ => False

structure SlotOk (s : State n m) (p : Fin n) : Prop where
  current : (s.procs p).state = .running → ∃ c, (s.cpus c).proc = some p
  unsaved : (s.procs p).saved = false → (s.procs p).state = .unused ∨ ∃ c, (s.cpus c).running = some p
  resting : (s.procs p).saved = true → (s.procs p).state ≠ .unused → resumable (s.procs p).state (s.procs p).pc

structure Making (s : State n m) : Prop where
  used : ∀ p np, (s.procs p).pc.makes = some np → (s.procs np).state = .used
  maker : ∀ p q np, (s.procs p).pc.makes = some np → (s.procs q).pc.makes = some np → p = q

structure Invariant (s : State n m) : Prop where
  cpu : ∀ c, CpuOk s c
  apart : ∀ c d p, (s.cpus c).proc = some p → (s.cpus d).proc = some p → c = d
  slot : ∀ p, SlotOk s p
  making : Making s

end Invariant

section Frames

variable {s t : State n m} {c d : Fin m} {p q : Fin n}

/-- A step leaves a CPU as it is, and what the CPU knows of the slots that it has locked and of its own thread. -/
structure Unaffected (d : Fin m) (s t : State n m) : Prop where
  cpu : t.cpus d = s.cpus d
  lock : ∀ q, (s.procs q).lock = some d →
    (t.procs q).lock = some d ∧ (t.procs q).state = (s.procs q).state ∧ (t.procs q).saved = (s.procs q).saved
  run : ∀ q, (s.cpus d).running = some q → (t.procs q).pc = (s.procs q).pc ∧
    (t.procs q).saved = (s.procs q).saved ∧ ((s.procs q).state = .running → (t.procs q).state = .running)

theorem Unaffected.threadOk (same : Unaffected d s t) (runs : (s.cpus d).running = some q) {pc : Pc n}
    (ok : ThreadOk s d q pc) : ThreadOk t d q pc := by
  have locked : ∀ {state}, (s.procs q).lock = some d ∧ (s.procs q).state = state →
      (t.procs q).lock = some d ∧ (t.procs q).state = state := by
    intro state both
    obtain ⟨lock, state, _⟩ := same.lock q both.1
    exact ⟨lock, state.trans both.2⟩
  cases pc with
  | run op =>
    refine ⟨(same.run q runs).2.2 ok.1, ?_⟩
    intro np found
    obtain ⟨different, held, used⟩ := ok.2 np found
    obtain ⟨lock, state, _⟩ := same.lock np held
    exact ⟨different, lock, state.trans used⟩
  | yieldSched | yielded => exact ⟨locked ok.1, ok.2⟩
  | exited => exact ok
  | _ => exact locked ok

theorem Unaffected.schedOk (same : Unaffected d s t) {pc : SchedPc n} (ok : SchedOk s d pc) : SchedOk t d pc := by
  have proc : (t.cpus d).proc = (s.cpus d).proc := congrArg Cpu.proc same.cpu
  cases pc with
  | scan i => exact proc.trans ok
  | picked i | releasing i => exact ⟨proc.trans ok.1, (same.lock i ok.2).1⟩
  | switching i =>
    obtain ⟨lock, state, saved⟩ := same.lock i ok.2.1
    exact ⟨proc.trans ok.1, lock, state.trans ok.2.2.1, saved.trans ok.2.2.2⟩
  | switched i =>
    obtain ⟨lock, state, saved⟩ := same.lock i ok.2.1
    refine ⟨proc.trans ok.1, lock, ?_, saved.trans ok.2.2.2⟩
    rw [state]
    exact ok.2.2.1

theorem Unaffected.cpuOk (same : Unaffected d s t) (ok : CpuOk s d) : CpuOk t d := by
  refine ⟨?_, ?_⟩
  · intro idle
    rw [same.cpu] at idle ⊢
    exact same.schedOk (ok.idle idle)
  · intro q runs
    rw [same.cpu] at runs ⊢
    obtain ⟨proc, sched, saved, thread⟩ := ok.busy q runs
    obtain ⟨pc, saved', _⟩ := same.run q runs
    refine ⟨proc, sched, saved'.trans saved, ?_⟩
    rw [pc]
    exact same.threadOk runs thread

theorem Invariant.change (inv : Invariant s) (others : ∀ d, d ≠ c → Unaffected d s t)
    (procs : ∀ q, q ≠ p → t.procs q = s.procs q) (own : CpuOk t c)
    (single : ∀ d q, d ≠ c → (t.cpus c).proc = some q → (s.cpus d).proc ≠ some q)
    (proc : ∀ q, q ≠ p → (s.cpus c).proc = some q → (s.procs q).state = .running → (t.cpus c).proc = some q)
    (running : ∀ q, q ≠ p → (s.cpus c).running = some q → (t.cpus c).running = some q)
    (slot : SlotOk t p) (making : Making t) : Invariant t := by
  have cpus := fun d other => (others d other).cpu
  refine ⟨fun d => ?_, fun d e q first second => ?_, fun q => ?_, making⟩
  · by_cases same : d = c
    · exact same ▸ own
    · exact (others d same).cpuOk (inv.cpu d)
  · have before := inv.apart d e q
    grind
  by_cases same : q = p
  · exact same ▸ slot
  obtain ⟨current, unsaved, resting⟩ := inv.slot q
  rw [← procs q same] at current unsaved resting
  refine ⟨fun state => ?_, fun away => (unsaved away).imp_right ?_, resting⟩
  · obtain ⟨d, found⟩ := current state
    grind
  · rintro ⟨d, found⟩
    grind

theorem Making.change (making : Making s) (procs : ∀ q, q ≠ p → t.procs q = s.procs q)
    (makes : ∀ np, (t.procs p).pc.makes = some np → (s.procs p).pc.makes = some np)
    (used : (s.procs p).state = .used → (t.procs p).state = .used ∨ ∀ q, (t.procs q).pc.makes ≠ some p) : Making t := by
  have old : ∀ q np, (t.procs q).pc.makes = some np → (s.procs q).pc.makes = some np := by
    intro q np found
    by_cases same : q = p
    · exact same ▸ makes np (same ▸ found)
    · exact procs q same ▸ found
  refine ⟨fun q np found => ?_, fun q r np first second => making.maker q r np (old q np first) (old r np second)⟩
  have before := making.used q np (old q np found)
  by_cases same : np = p
  · subst same
    exact (used before).resolve_right fun unmade => unmade q found
  · rw [procs np same]
    exact before

theorem Making.setProc (making : Making s) {x : Proc n m} (makes : ∀ np, x.pc.makes = some np → (s.procs p).pc.makes = some np)
    (used : (s.procs p).state = .used → x.state = .used ∨ ∀ q, ((s.setProc p x).procs q).pc.makes ≠ some p) : Making (s.setProc p x) :=
  making.change (p := p) (fun _ other => s.setProc_other other x) (by simpa using makes) (by simpa using used)

end Frames

section Facts

variable {s t : State n m} {c d : Fin m} {p q : Fin n}

theorem resumable_of {state state' : ProcState} {pc : Pc n} (rest : resumable state pc) (alive : state ≠ .zombie) :
    resumable state' pc := by
  cases pc with
  | exited => exact absurd rest alive
  | _ => exact rest

theorem ThreadOk.cases {pc : Pc n} (ok : ThreadOk s c p pc) :
    ((s.procs p).lock = some c ∨ (s.procs p).state = .running) ∧ (s.procs p).state ≠ .unused ∧
      (s.procs p).state ≠ .used := by
  cases pc with
  | run op => exact ⟨.inr ok.1, by rw [ok.1]; decide, by rw [ok.1]; decide⟩
  | yieldSched | yielded => exact ⟨.inl ok.1.1, by rw [ok.1.2]; decide, by rw [ok.1.2]; decide⟩
  | exited => exact ok.elim
  | _ => exact ⟨.inl ok.1, by rw [ok.2]; decide, by rw [ok.2]; decide⟩

variable (inv : Invariant s)

include inv

theorem Invariant.proc_cases (current : (s.cpus c).proc = some p) :
    ((s.procs p).lock = some c ∨ (s.procs p).state = .running) ∧ (s.procs p).state ≠ .unused ∧
      (s.procs p).state ≠ .used := by
  cases thread : (s.cpus c).running with
  | some q =>
    obtain ⟨proc, _, _, ok⟩ := (inv.cpu c).busy q thread
    cases proc.symm.trans current
    exact ok.cases
  | none =>
    have ok := (inv.cpu c).idle thread
    cases position : (s.cpus c).sched with
    | switching i =>
      rw [position] at ok
      cases ok.1.symm.trans current
      simp [ok.2.2.1]
    | switched i =>
      rw [position] at ok
      cases ok.1.symm.trans current
      rcases ok.2.2.1 with state | state | state <;> simp [ok.2.1, state]
    | _ => simp_all [SchedOk]

theorem Invariant.nobody (unlocked : (s.procs p).lock = none) (off : (s.procs p).state ≠ .running)
    (c : Fin m) : (s.cpus c).proc ≠ some p := by
  intro current
  rcases (inv.proc_cases current).1 with locked | running
  · rw [unlocked] at locked
    exact nomatch locked
  · exact off running

theorem Invariant.proc_of_running (runs : (s.cpus c).running = some p) : (s.cpus c).proc = some p :=
  ((inv.cpu c).busy p runs).1

theorem Invariant.myproc (runs : (s.cpus c).running = some p) (mine : (s.cpus c).proc = some q) :
    q = p := by
  rw [inv.proc_of_running runs] at mine
  cases mine
  rfl

theorem Invariant.alone (runs : (s.cpus c).running = some p) (other : d ≠ c) :
    (s.cpus d).proc ≠ some p :=
  fun current => other (inv.apart d c p current (inv.proc_of_running runs))

theorem Invariant.relabel (lk : Option (Fin m)) (cond : Bool) :
    Invariant { s with lk := lk, cond := cond } := by
  refine ⟨?_, inv.apart, ?_, ⟨inv.making.used, inv.making.maker⟩⟩
  · intro c
    have same : Unaffected c s { s with lk := lk, cond := cond } :=
      ⟨rfl, fun _ held => ⟨held, rfl, rfl⟩, fun _ _ => ⟨rfl, rfl, id⟩⟩
    exact same.cpuOk (inv.cpu c)
  · intro p
    exact ⟨(inv.slot p).current, (inv.slot p).unsaved, (inv.slot p).resting⟩

end Facts

section Threads

variable {s t : State n m} {c d : Fin m} {p q : Fin n} {pc : Pc n} {op op' : Op n}

variable (inv : Invariant s)

include inv

theorem Invariant.thread (runs : (s.cpus c).running = some p) (x : Proc n m)
    (quiet : ∀ d, d ≠ c → (s.procs p).lock = some d →
      x.lock = some d ∧ x.state = (s.procs p).state ∧ x.saved = (s.procs p).saved)
    (unsaved : x.saved = false) (ok : ThreadOk (s.setProc p x) c p x.pc) (making : Making (s.setProc p x)) :
    Invariant (s.setProc p x) := by
  obtain ⟨proc, sched, _, _⟩ := (inv.cpu c).busy p runs
  have procs : ∀ q, q ≠ p → (s.setProc p x).procs q = s.procs q := fun q other => s.setProc_other other x
  apply inv.change (c := c) (p := p) _ procs _ _ (fun _ _ found _ => found) (fun _ _ found => found) _ making
  · intro d other
    refine ⟨rfl, fun q held => ?_, fun q found => ?_⟩
    · by_cases same : q = p
      · subst same
        simpa using quiet d other held
      · simp [same, held]
    · have different : q ≠ p := fun same => inv.alone runs other (inv.proc_of_running (same ▸ found))
      simp [different]
  · refine ⟨by simp [runs], fun q found => ?_⟩
    cases found.symm.trans runs
    simpa [proc, sched, unsaved] using ok
  · intro d q other mine
    cases proc.symm.trans mine
    exact inv.alone runs other
  · exact ⟨fun _ => ⟨c, proc⟩, fun _ => .inr ⟨c, runs⟩, by simp [unsaved]⟩

theorem Invariant.goThread (runs : s.Runs c p (.run op))
    (makes : ∀ np, op'.makes = some np → op.makes = some np) (found : ∀ np, op' ≠ .forkFound np) :
    Invariant (s.goThread p (.run op')) := by
  obtain ⟨_, _, unsaved, ok⟩ := (inv.cpu c).busy p runs.running
  rw [runs.pc] at ok
  apply inv.thread runs.running { s.procs p with pc := .run op' } (fun _ _ held => ⟨held, rfl, rfl⟩) unsaved
  · exact ⟨by simpa using ok.1, fun np same => absurd same (found np)⟩
  · exact inv.making.setProc (by simpa [runs.pc, Pc.makes] using makes) .inl

theorem Invariant.own (runs : s.Runs c p pc) (x : Proc n m)
    (mine : (s.procs p).lock = none ∨ (s.procs p).lock = some c) (unsaved : x.saved = (s.procs p).saved)
    (ok : ThreadOk (s.setProc p x) c p x.pc) (makes : ∀ np, x.pc.makes = some np → pc.makes = some np) :
    Invariant (s.setProc p x) := by
  obtain ⟨_, _, away, before⟩ := (inv.cpu c).busy p runs.running
  apply inv.thread runs.running x _ (unsaved.trans away) ok
  · exact inv.making.setProc (by simpa [runs.pc] using makes) fun used => absurd used before.cases.2.2
  intro d other held
  rcases mine with free | own
  · exact nomatch free.symm.trans held
  · cases own.symm.trans held
    exact absurd rfl other

theorem Invariant.away (runs : s.Runs c p pc) (locked : (s.procs p).lock = some c)
    (off : left (s.procs p).state) {pc' : Pc n} (resumes : resumable (s.procs p).state pc')
    (makes : ∀ np, pc'.makes = some np → pc.makes = some np) :
    Invariant ((s.setProc p { s.procs p with saved := true, pc := pc' }).setCpu c { s.cpus c with running := none }) := by
  obtain ⟨proc, sched, away, before⟩ := (inv.cpu c).busy p runs.running
  have procs : ∀ q, q ≠ p → ((s.setProc p { s.procs p with saved := true, pc := pc' }).setCpu c
      { s.cpus c with running := none }).procs q = s.procs q := fun q other => s.setProc_other other _
  apply inv.change (c := c) (p := p) _ procs
  · exact ⟨by simp [sched, SchedOk, proc, locked, off], by simp⟩
  · intro d q other mine
    cases proc.symm.trans (by simpa using mine)
    exact inv.alone runs.running other
  · intro q _ found _
    simpa using found
  · intro q other found
    cases found.symm.trans runs.running
    exact absurd rfl other
  · exact ⟨fun _ => ⟨c, by simp [proc]⟩, by simp, by simp [resumes]⟩
  · apply inv.making.change (p := p) procs
    · simpa [runs.pc] using makes
    · exact fun used => absurd used before.cases.2.2
  · intro d other
    refine ⟨by simp [other], fun q held => ?_, fun q found => ?_⟩
    · have different : q ≠ p := by
        rintro rfl
        cases locked.symm.trans held
        exact other rfl
      simp [different, held]
    · have different : q ≠ p := fun same => inv.alone runs.running other (inv.proc_of_running (same ▸ found))
      simp [different]

end Threads

section Others

variable {s : State n m} {c d : Fin m} {p j : Fin n}

section

variable (inv : Invariant s)

include inv

theorem Invariant.foreign (nobody : ∀ d, (s.cpus d).proc ≠ some j) (x : Proc n m)
    (locker : ∀ d, (s.procs j).lock = some d → CpuOk (s.setProc j x) d) (off : x.state ≠ .running)
    (unsaved : x.saved = false → x.state = .unused)
    (rest : x.saved = true → x.state ≠ .unused → resumable x.state x.pc) (making : Making (s.setProc j x)) :
    Invariant (s.setProc j x) := by
  refine ⟨fun d => ?_, inv.apart, fun q => ?_, making⟩
  · by_cases held : (s.procs j).lock = some d
    · exact locker d held
    have same : Unaffected d s (s.setProc j x) := by
      refine ⟨rfl, fun q mine => ?_, fun q runs => ?_⟩
      · have other : q ≠ j := fun same => held (same ▸ mine)
        simp [other, mine]
      · have other : q ≠ j := fun same => nobody d (same ▸ inv.proc_of_running runs)
        simp [other]
    exact same.cpuOk (inv.cpu d)
  · by_cases same : q = j
    · subst same
      exact ⟨by simp [off], by simpa using fun away => Or.inl (unsaved away), by simpa using rest⟩
    · obtain ⟨current, unsaved, resting⟩ := inv.slot q
      exact ⟨by simpa [same] using current, by simpa [same] using unsaved, by simpa [same] using resting⟩

theorem Invariant.saved (nobody : ∀ d, (s.cpus d).proc ≠ some j)
    (taken : (s.procs j).state ≠ .unused) : (s.procs j).saved = true := by
  by_contra away
  rcases (inv.slot j).unsaved (Bool.eq_false_iff.mpr away) with unused | ⟨d, runs⟩
  · exact taken unused
  · exact nobody d (inv.proc_of_running runs)

theorem Invariant.rouse (unlocked : (s.procs j).lock = none) (asleep : (s.procs j).state = .sleeping) :
    Invariant (s.setProc j { s.procs j with state := .runnable }) := by
  have nobody := inv.nobody unlocked (by simp [asleep])
  have saved := inv.saved nobody (by simp [asleep])
  have rest := (inv.slot j).resting saved (by simp [asleep])
  apply inv.foreign nobody
  · simp [unlocked]
  · exact nofun
  · simp [saved]
  · exact fun _ _ => resumable_of rest (by simp [asleep])
  · exact inv.making.setProc (fun _ => id) (by simp [asleep])

theorem Invariant.wake (unlocked : (s.procs j).lock = none) (chan : Chan) :
    Invariant (s.setProc j (wake chan (s.procs j))) := by
  unfold Scheduler.wake
  split
  · rename_i hit
    exact inv.rouse unlocked hit.1
  · unfold State.setProc
    rw [update_eq_self]
    exact inv

theorem Invariant.kill (unlocked : (s.procs j).lock = none) :
    Invariant (s.setProc j (kill (s.procs j))) := by
  unfold Scheduler.kill
  by_cases asleep : (s.procs j).state = .sleeping
  · rw [if_pos asleep]
    exact inv.rouse unlocked asleep
  · rw [if_neg asleep]
    unfold State.setProc
    rw [update_eq_self]
    exact inv

theorem Invariant.reap (unlocked : (s.procs j).lock = none) (zombie : (s.procs j).state = .zombie) :
    Invariant (s.setProc j (freeproc (s.procs j))) := by
  apply inv.foreign (inv.nobody unlocked (by simp [zombie]))
  · simp [unlocked]
  · exact nofun
  · exact fun _ => rfl
  · exact fun _ taken => absurd rfl taken
  · exact inv.making.setProc (fun _ => id) (by simp [zombie])

end

theorem Making.unmade (making : Making s) (free : (s.procs j).state ≠ .used) (q : Fin n) :
    (s.procs q).pc.makes ≠ some j :=
  fun made => free (making.used q j made)

theorem Invariant.allocproc (inv : Invariant s) (unlocked : (s.procs j).lock = none)
    (unused : (s.procs j).state = .unused) (pid : BitVec 32) (c : Fin m) :
    Invariant (s.setProc j (allocproc pid c (s.procs j))) := by
  apply inv.foreign (inv.nobody unlocked (by simp [unused]))
  · simp [unlocked]
  · exact nofun
  · exact nofun
  · exact fun _ _ => trivial
  · exact inv.making.setProc nofun (by simp [unused])

theorem Invariant.claim {op : Op n} (inv : Invariant s) (runs : s.Runs c p (.run op)) (locked : (s.procs j).lock = some c)
    (used : (s.procs j).state = .used) (unmade : ∀ q, (s.procs q).pc.makes ≠ some j) :
    Invariant (s.goThread p (.run (.forkFound j))) := by
  obtain ⟨_, _, away, ok⟩ := (inv.cpu c).busy p runs.running
  rw [runs.pc] at ok
  have other : j ≠ p := by
    rintro rfl
    exact nomatch used.symm.trans ok.1
  have state : ∀ q, ((s.goThread p (.run (.forkFound j))).procs q).state = (s.procs q).state := by
    intro q
    by_cases same : q = p
    · simp [same]
    · simp [same]
  apply inv.thread runs.running { s.procs p with pc := .run (.forkFound j) } (fun _ _ held => ⟨held, rfl, rfl⟩) away
  · refine ⟨(state p).trans ok.1, fun np same => ?_⟩
    cases same
    simp [other, locked, used]
  have old : ∀ q np, ((s.goThread p (.run (.forkFound j))).procs q).pc.makes = some np →
      q = p ∧ np = j ∨ q ≠ p ∧ (s.procs q).pc.makes = some np := by
    intro q np made
    by_cases same : q = p
    · subst same
      simp only [State.goThread_self] at made
      cases made
      exact .inl ⟨rfl, rfl⟩
    · exact .inr ⟨same, by simpa [same] using made⟩
  refine ⟨fun q np made => (state np).trans ?_, fun q r np first second => ?_⟩
  · rcases old q np made with ⟨_, rfl⟩ | ⟨_, before⟩
    · exact used
    · exact inv.making.used q np before
  · rcases old q np first with ⟨mine, rfl⟩ | ⟨_, before⟩
    · rcases old r np second with ⟨yours, _⟩ | ⟨_, after⟩
      · exact mine.trans yours.symm
      · exact absurd after (unmade r)
    · rcases old r np second with ⟨_, rfl⟩ | ⟨_, after⟩
      · exact absurd before (unmade q)
      · exact inv.making.maker q r np before after

theorem Invariant.forkFound (inv : Invariant s) (runs : s.Runs c p (.run (.forkScan j)))
    (unlocked : (s.procs j).lock = none) (unused : (s.procs j).state = .unused) (pid : BitVec 32) :
    Invariant ((s.setProc j (Scheduler.allocproc pid c (s.procs j))).goThread p (.run (.forkFound j))) := by
  have allocated := inv.allocproc unlocked unused pid c
  obtain ⟨_, _, _, ok⟩ := (inv.cpu c).busy p runs.running
  rw [runs.pc] at ok
  have other : p ≠ j := by
    rintro rfl
    exact nomatch unused.symm.trans ok.1
  apply allocated.claim ⟨runs.base, runs.running, by simpa [other] using runs.pc⟩
  · simp [Scheduler.allocproc]
  · simp [Scheduler.allocproc]
  · intro q made
    by_cases same : q = j
    · subst same
      simp [Scheduler.allocproc, Pc.makes] at made
    · have free : (s.procs j).state ≠ .used := by simp [unused]
      exact inv.making.unmade free q (by simpa [same] using made)

theorem Invariant.unmade_after {op : Op n} (inv : Invariant s) (makes : (s.procs p).pc.makes = some j)
    (dropped : op.makes = none) (q : Fin n) : ((s.goThread p (.run op)).procs q).pc.makes ≠ some j := by
  intro made
  by_cases same : q = p
  · subst same
    simp [Pc.makes, dropped] at made
  · exact same (inv.making.maker q p j (by simpa [same] using made) makes)

theorem Invariant.runs_foreign {op : Op n} (inv : Invariant s) (runs : s.Runs c p (.run op)) (other : j ≠ p)
    (found : ∀ np, op ≠ .forkFound np) (x : Proc n m) : CpuOk (s.setProc j x) c := by
  obtain ⟨proc, sched, away, ok⟩ := (inv.cpu c).busy p runs.running
  rw [runs.pc] at ok
  refine ⟨by simp [runs.running], fun q thread => ?_⟩
  cases thread.symm.trans runs.running
  simp only [State.setProc_other _ other.symm, State.setProc_cpus, runs.pc]
  exact ⟨proc, sched, away, by simpa [other.symm] using ok.1, fun np same => absurd same (found np)⟩

theorem Runs.goThread {pc pc' : Pc n} (runs : s.Runs c p pc) : (s.goThread p pc').Runs c p pc' :=
  ⟨runs.base, runs.running, congrArg Proc.pc (s.goThread_self p pc')⟩

variable (inv : Invariant s)

include inv

theorem Invariant.found_facts (runs : s.Runs c p (.run (.forkFound j))) :
    j ≠ p ∧ (s.procs j).lock = some c ∧ (s.procs j).state = .used := by
  obtain ⟨_, _, _, ok⟩ := (inv.cpu c).busy p runs.running
  rw [runs.pc] at ok
  exact ok.2 j rfl

theorem Invariant.used_nobody (used : (s.procs j).state = .used) (d : Fin m) :
    (s.cpus d).proc ≠ some j :=
  fun current => (inv.proc_cases current).2.2 used

theorem Invariant.unmade_free (other : j ≠ p) (makes : (s.procs p).pc.makes = some j) {op : Op n} (dropped : op.makes = none)
    {x : Proc n m} (pc : x.pc = (s.procs j).pc) (q : Fin n) : (((s.goThread p (.run op)).setProc j x).procs q).pc.makes ≠ some j := by
  by_cases same : q = j
  · subst same
    simpa [pc] using fun made => other (inv.making.maker q p q made makes)
  · simpa [same] using inv.unmade_after makes dropped q

theorem Invariant.forkFail (runs : s.Runs c p (.run (.forkFound j))) :
    Invariant ((s.goThread p (.run .idle)).setProc j (freeproc (s.procs j))) := by
  obtain ⟨other, locked, used⟩ := inv.found_facts runs
  have makes : (s.procs p).pc.makes = some j := by rw [runs.pc]; rfl
  have gone : Invariant (s.goThread p (.run .idle)) := inv.goThread runs nofun nofun
  apply gone.foreign (inv.used_nobody used)
  · intro d held
    cases locked.symm.trans (by simpa [other] using held)
    exact gone.runs_foreign (Runs.goThread runs) other nofun _
  · exact nofun
  · exact fun _ => rfl
  · exact fun _ taken => absurd rfl taken
  · exact gone.making.setProc (by simp [other, freeproc]) fun _ => .inr (inv.unmade_free other makes rfl rfl)

theorem Invariant.forkCopy (runs : s.Runs c p (.run (.forkFound j))) :
    Invariant ((s.goThread p (.run (.forkLink j))).unlock j) := by
  obtain ⟨other, locked, used⟩ := inv.found_facts runs
  have gone : Invariant (s.goThread p (.run (.forkLink j))) := inv.goThread runs (fun np same => same) nofun
  have slot : (s.goThread p (.run (.forkLink j))).procs j = s.procs j := s.goThread_other other _
  have nobody := inv.used_nobody used
  have saved := inv.saved nobody (by simp [used])
  apply gone.foreign nobody
  · intro d held
    cases locked.symm.trans (slot ▸ held)
    exact gone.runs_foreign (Runs.goThread runs) other nofun _
  · simp [slot, used]
  · simp [slot, saved]
  · simpa [slot] using (inv.slot j).resting
  · exact gone.making.setProc (fun _ => id) .inl

theorem Invariant.forkStart (runs : s.Runs c p (.run (.forkLink j)))
    (unlocked : (s.procs j).lock = none) :
    Invariant ((s.goThread p (.run .idle)).setProc j { s.procs j with state := .runnable }) := by
  have makes : (s.procs p).pc.makes = some j := by rw [runs.pc]; rfl
  have used := inv.making.used p j makes
  obtain ⟨_, _, _, ok⟩ := (inv.cpu c).busy p runs.running
  rw [runs.pc] at ok
  have other : j ≠ p := by
    rintro rfl
    exact nomatch used.symm.trans ok.1
  have gone : Invariant (s.goThread p (.run .idle)) := inv.goThread runs nofun nofun
  have nobody := inv.used_nobody used
  have saved := inv.saved nobody (by simp [used])
  have rest := (inv.slot j).resting saved (by simp [used])
  apply gone.foreign nobody
  · simp [other, unlocked]
  · exact nofun
  · simp [saved]
  · exact fun _ _ => resumable_of rest (by simp [used])
  · exact gone.making.setProc (by simp [other]) fun _ => .inr (inv.unmade_free other makes rfl rfl)

end Others

section Scheduling

variable {s : State n m} {c d : Fin m} {i : Fin n} {cpu : Cpu n}

theorem Invariant.sched (inv : Invariant s) (idle : (s.cpus c).running = none) (x : Proc n m)
    (held : (s.procs i).lock = none ∨ (s.procs i).lock = some c) (gentle : ∀ d, d ≠ c → (s.cpus d).running = some i →
      x.pc = (s.procs i).pc ∧ x.saved = (s.procs i).saved ∧ ((s.procs i).state = .running → x.state = .running))
    (own : CpuOk ((s.setProc i x).setCpu c cpu) c) (before : ∀ q, (s.cpus c).proc = some q → q = i)
    (single : ∀ q, cpu.proc = some q → ∀ d, d ≠ c → (s.cpus d).proc ≠ some q)
    (slot : SlotOk ((s.setProc i x).setCpu c cpu) i) (makes : x.pc = (s.procs i).pc)
    (used : (s.procs i).state = .used → x.state = .used) : Invariant ((s.setProc i x).setCpu c cpu) := by
  have procs : ∀ q, q ≠ i → ((s.setProc i x).setCpu c cpu).procs q = s.procs q := fun q other => s.setProc_other other x
  apply inv.change (c := c) (p := i) _ procs own
  · intro d q other found
    exact single q (by simpa using found) d other
  · exact fun q other found => absurd (before q found) other
  · simp [idle]
  · exact slot
  · apply inv.making.change (p := i) procs
    · simp [makes]
    · simpa using fun state => Or.inl (used state)
  · intro d other
    refine ⟨by simp [other], fun q locked => ?_, fun q runs => ?_⟩
    · have different : q ≠ i := by
        rintro rfl
        rcases held with free | taken
        · exact nomatch free.symm.trans locked
        · cases taken.symm.trans locked
          exact other rfl
      simp [different, locked]
    · by_cases same : q = i
      · subst same
        simpa using gentle d other runs
      · simp [same]

theorem SlotOk.keep {t : State n m} (ok : SlotOk s i) (state : (t.procs i).state = (s.procs i).state)
    (saved : (t.procs i).saved = (s.procs i).saved) (pc : (t.procs i).pc = (s.procs i).pc)
    (proc : ∀ d, (s.cpus d).proc = some i → (s.procs i).state = .running → (t.cpus d).proc = some i)
    (running : ∀ d, (s.cpus d).running = some i → (t.cpus d).running = some i) : SlotOk t i := by
  obtain ⟨current, unsaved, resting⟩ := ok
  refine ⟨?_, ?_, ?_⟩
  · intro runs
    rw [state] at runs
    obtain ⟨d, found⟩ := current runs
    exact ⟨d, proc d found runs⟩
  · rw [state, saved]
    exact fun away => (unsaved away).imp_right fun ⟨d, found⟩ => ⟨d, running d found⟩
  · rw [state, saved, pc]
    exact resting

theorem setProc_same (s : State n m) (i : Fin n) : s.setProc i (s.procs i) = s := by
  unfold State.setProc
  rw [update_eq_self]

theorem Invariant.sched_facts (inv : Invariant s) (idle : (s.cpus c).running = none) {pc : SchedPc n}
    (position : (s.cpus c).sched = pc) : SchedOk s c pc := by
  rw [← position]
  exact (inv.cpu c).idle idle

theorem CpuOk.of_sched {t : State n m} (mine : t.cpus c = cpu) (idle : cpu.running = none) (ok : SchedOk t c cpu.sched) :
    CpuOk t c :=
  ⟨fun _ => mine ▸ ok, by simp [mine, idle]⟩

section Invariant

variable (inv : Invariant s)

include inv

theorem Invariant.move (proc : cpu.proc = (s.cpus c).proc) (running : cpu.running = (s.cpus c).running)
    (own : CpuOk (s.setCpu c cpu) c) : Invariant (s.setCpu c cpu) := by
  have procs : ∀ d, ((s.setCpu c cpu).cpus d).proc = (s.cpus d).proc := by
    intro d
    by_cases here : d = c
    · simp [here, proc]
    · simp [here]
  have threads : ∀ d, ((s.setCpu c cpu).cpus d).running = (s.cpus d).running := by
    intro d
    by_cases here : d = c
    · simp [here, running]
    · simp [here]
  refine ⟨fun d => ?_, ?_, fun p => ?_, inv.making.used, inv.making.maker⟩
  · by_cases here : d = c
    · exact here ▸ own
    · have same : Unaffected d s (s.setCpu c cpu) :=
        ⟨s.setCpu_other here cpu, fun _ held => ⟨held, rfl, rfl⟩, fun _ _ => ⟨rfl, rfl, id⟩⟩
      exact same.cpuOk (inv.cpu d)
  · simpa only [procs] using inv.apart
  · exact (inv.slot p).keep (t := s.setCpu c cpu) rfl rfl rfl (fun d found _ => (procs d).trans found) fun d found => (threads d).trans found

theorem Invariant.handler (handler : Option (Op n)) : Invariant (s.setCpu c { s.cpus c with handler := handler }) := by
  obtain ⟨idle, busy⟩ := inv.cpu c
  refine inv.move rfl rfl ⟨fun here => ?_, ?_⟩
  · have before := idle (by simpa using here)
    simp only [State.setCpu_self]
    cases position : (s.cpus c).sched with
    | _ => simpa [SchedOk, position] using before
  · simp only [State.setCpu_self, State.setCpu_procs]
    exact busy

theorem Invariant.slot_keep {x : Proc n m} (vacant : (s.cpus c).proc = none) (state : x.state = (s.procs i).state)
    (saved : x.saved = (s.procs i).saved) (pc : x.pc = (s.procs i).pc) : SlotOk ((s.setProc i x).setCpu c cpu) i := by
  have other : ∀ d, (s.cpus d).proc = some i → d ≠ c := by
    rintro d found rfl
    exact nomatch vacant.symm.trans found
  apply (inv.slot i).keep
  · simpa using state
  · simpa using saved
  · simpa using pc
  · intro d found _
    simpa [other d found] using found
  · intro d found
    simpa [other d (inv.proc_of_running found)] using found

variable (idle : (s.cpus c).running = none)

include idle

theorem Invariant.acquire {k : Nat}
    (position : (s.cpus c).sched = .scan k) (unlocked : (s.procs i).lock = none) :
    Invariant ((s.lock i c).setCpu c { s.cpus c with sched := .picked i }) := by
  have vacant : (s.cpus c).proc = none := inv.sched_facts idle position
  apply inv.sched idle { s.procs i with lock := some c } (.inl unlocked) (fun _ _ _ => ⟨rfl, rfl, id⟩)
  · exact CpuOk.of_sched (State.setCpu_self _ _ _) idle ⟨by simpa using vacant, by simp⟩
  · simp [vacant]
  · simp [vacant]
  · exact inv.slot_keep vacant rfl rfl rfl
  · rfl
  · exact id

theorem Invariant.picked (position : (s.cpus c).sched = .picked i)
    (runnable : (s.procs i).state = .runnable) :
    (∀ d, (s.cpus d).proc ≠ some i) ∧ (s.procs i).saved = true ∧ resumable .runnable (s.procs i).pc := by
  obtain ⟨vacant, locked⟩ := inv.sched_facts idle position
  have nobody : ∀ d, (s.cpus d).proc ≠ some i := by
    intro d current
    rcases (inv.proc_cases current).1 with held | running
    · cases locked.symm.trans held
      exact nomatch vacant.symm.trans current
    · exact nomatch runnable.symm.trans running
  have saved := inv.saved nobody (by simp [runnable])
  have rest := (inv.slot i).resting saved (by simp [runnable])
  exact ⟨nobody, saved, runnable ▸ rest⟩

theorem Invariant.pick (position : (s.cpus c).sched = .picked i)
    (runnable : (s.procs i).state = .runnable) : Invariant ((s.setProc i { s.procs i with state := .running }).setCpu c
      { s.cpus c with proc := some i, sched := .switching i }) := by
  obtain ⟨vacant, locked⟩ := inv.sched_facts idle position
  obtain ⟨nobody, saved, rest⟩ := inv.picked idle position runnable
  apply inv.sched idle _ (.inr locked)
  · exact fun d _ runs => absurd (inv.proc_of_running runs) (nobody d)
  · exact CpuOk.of_sched (State.setCpu_self _ _ _) idle (by simp [SchedOk, locked, saved])
  · simp [vacant]
  · rintro q ⟨⟩ d _
    exact nobody d
  · exact ⟨fun _ => ⟨c, by simp⟩, by simp [saved], fun _ _ => by simpa using resumable_of rest (by decide)⟩
  · rfl
  · simp [runnable]

theorem Invariant.swtch (position : (s.cpus c).sched = .switching i) :
    Invariant ((s.setProc i { s.procs i with saved := false }).setCpu c
      { s.cpus c with sched := .switched i, running := some i }) := by
  obtain ⟨current, locked, running, saved⟩ := inv.sched_facts idle position
  have rest := (inv.slot i).resting saved (by simp [running])
  have other : ∀ d, d ≠ c → (s.cpus d).proc ≠ some i := fun d different found => different (inv.apart d c i found current)
  apply inv.sched idle _ (.inr locked)
  · exact fun d different runs => absurd (inv.proc_of_running runs) (other d different)
  · refine ⟨by simp, fun q runs => ?_⟩
    cases (show some i = some q by simpa using runs)
    simp only [State.setCpu_self, State.setCpu_procs, State.setProc_self]
    refine ⟨current, trivial, trivial, ?_⟩
    cases pc : (s.procs i).pc with
    | exited => simp [pc, running, resumable] at rest
    | yielded op =>
      rw [pc] at rest
      simpa [ThreadOk, resumable, locked, running] using rest
    | forkret | awake => simp [ThreadOk, locked, running]
    | _ =>
      rw [pc] at rest
      exact rest.elim
  · intro q found
    cases current.symm.trans found
    rfl
  · intro q found d different
    cases current.symm.trans found
    exact other d different
  · exact ⟨fun _ => ⟨c, by simp [current]⟩, fun _ => .inr ⟨c, by simp⟩, by simp⟩
  · rfl
  · exact id

theorem Invariant.back (position : (s.cpus c).sched = .switched i) :
    Invariant (s.setCpu c { s.cpus c with proc := none, sched := .releasing i }) := by
  obtain ⟨current, locked, off, saved⟩ := inv.sched_facts idle position
  have stopped : (s.procs i).state ≠ .running := by
    rcases off with state | state | state <;> rw [state] <;> decide
  have mine := s.setCpu_self c { s.cpus c with proc := none, sched := .releasing i }
  have kept := @Invariant.sched n m s c i { s.cpus c with proc := none, sched := .releasing i } inv idle (s.procs i)
    (.inr locked)
  rw [setProc_same] at kept
  apply kept (fun _ _ _ => ⟨rfl, rfl, id⟩)
  · apply CpuOk.of_sched mine idle
    exact ⟨congrArg Cpu.proc mine, locked⟩
  · intro q found
    cases current.symm.trans found
    rfl
  · exact nofun
  · refine ⟨fun running => absurd running stopped, ?_, (inv.slot i).resting⟩
    intro away
    exact nomatch saved.symm.trans away
  · rfl
  · exact id

theorem Invariant.release (position : (s.cpus c).sched = .releasing i) :
    Invariant ((s.unlock i).setCpu c { s.cpus c with sched := .scan (i + 1) }) := by
  obtain ⟨vacant, locked⟩ := inv.sched_facts idle position
  apply inv.sched idle { s.procs i with lock := none } (.inr locked) (fun _ _ _ => ⟨rfl, rfl, id⟩)
  · exact CpuOk.of_sched (State.setCpu_self _ _ _) idle (by simpa [SchedOk] using vacant)
  · simp [vacant]
  · simp [vacant]
  · exact inv.slot_keep vacant rfl rfl rfl
  · rfl
  · exact id

end Invariant

end Scheduling

section Runs

variable {s t : State n m} {c d : Fin m} {p q : Fin n} {op op' : Op n}

theorem setProc_twice (s : State n m) (p : Fin n) (x : Proc n m) (pc : Pc n) :
    (s.setProc p x).goThread p pc = s.setProc p { x with pc := pc } := by
  unfold State.goThread
  rw [State.setProc_self]
  unfold State.setProc
  dsimp only
  rw [update_idem]

theorem Invariant.go (inv : Invariant s) (does : s.Does c op) (makes : op'.makes = none) : Invariant (s.go c op') := by
  cases does with
  | handler found =>
    have here : s.go c op' = s.setCpu c { s.cpus c with handler := some op' } := by
      unfold State.go
      rw [found]
    rw [here]
    exact inv.handler _
  | @thread p runs =>
    have here : s.go c op' = s.goThread p (.run op') := by
      unfold State.go
      rw [runs.base, runs.running]
    rw [here]
    apply inv.goThread runs
    · intro np found
      exact nomatch makes.symm.trans found
    · intro np found
      rw [found] at makes
      exact nomatch makes

theorem Op.woken_makes (chan : Chan) (sec : Option (Bool × Bool)) : (Op.woken chan sec : Op n).makes = none := by
  cases sec <;> rfl

theorem Op.slept_makes (chan : Chan) : (Op.slept chan : Op n).makes = none := by
  cases chan <;> rfl

theorem Runs.setProc {pc : Pc n} (runs : s.Runs c p pc) {x : Proc n m} (same : x.pc = (s.procs q).pc) :
    (s.setProc q x).Runs c p pc := by
  refine ⟨runs.base, runs.running, ?_⟩
  by_cases here : p = q
  · subst here
    simpa [same] using runs.pc
  · simpa [here] using runs.pc

theorem Does.setProc (does : s.Does c op) {x : Proc n m} (pc : x.pc = (s.procs q).pc) : (s.setProc q x).Does c op := by
  cases does with
  | handler found => exact .handler found
  | thread runs => exact .thread (Runs.setProc runs pc)

theorem wake_pc (chan : Chan) (proc : Proc n m) : (wake chan proc).pc = proc.pc := by
  unfold wake
  split
  · rfl
  · rfl

theorem Invariant.thread_facts {pc : Pc n} (inv : Invariant s) (runs : s.Runs c p pc) :
    (s.procs p).saved = false ∧ ThreadOk s c p pc := by
  obtain ⟨_, _, away, ok⟩ := (inv.cpu c).busy p runs.running
  rw [runs.pc] at ok
  exact ⟨away, ok⟩

theorem Invariant.step (inv : Invariant s) (step : Step s t) : Invariant t := by
  cases step with
  | @scanEnd c base idle position =>
    have mine := s.setCpu_self c { s.cpus c with sched := .scan 0 }
    refine inv.move rfl rfl (CpuOk.of_sched mine idle ?_)
    exact (congrArg Cpu.proc mine).trans (inv.sched_facts idle position)
  | acquire base idle position unlocked => exact inv.acquire idle position unlocked
  | pick base idle position runnable => exact inv.pick idle position runnable
  | @pass c i base idle position _ =>
    have mine := s.setCpu_self c { s.cpus c with sched := .releasing i }
    obtain ⟨vacant, locked⟩ := inv.sched_facts idle position
    refine inv.move rfl rfl (CpuOk.of_sched mine idle ?_)
    exact ⟨(congrArg Cpu.proc mine).trans vacant, locked⟩
  | swtch base idle position => exact inv.swtch idle position
  | back base idle position => exact inv.back idle position
  | release base idle position => exact inv.release idle position
  | intrIdle | intr | iret => exact inv.handler _
  | @yield c p q op runs preemptible mine unlocked =>
    cases inv.myproc runs.running mine
    rw [setProc_twice]
    exact inv.own runs _ (.inl unlocked) rfl ⟨by simp, preemptible⟩ fun _ => id
  | @yieldSwtch c p q op runs mine =>
    cases inv.myproc runs.running mine
    obtain ⟨away, ok⟩ := inv.thread_facts runs
    rw [setProc_twice]
    exact inv.away runs ok.1.1 (.inl ok.1.2) ok.2 fun _ => id
  | @yielded c p q op runs mine =>
    cases inv.myproc runs.running mine
    obtain ⟨away, ok⟩ := inv.thread_facts runs
    unfold State.unlock
    rw [setProc_twice]
    refine inv.own runs _ (.inr ok.1.1) rfl ⟨by simpa using ok.1.2, fun np found => ?_⟩ fun _ => id
    rw [found] at ok
    exact nomatch ok.2
  | @forkret c p q runs mine =>
    cases inv.myproc runs.running mine
    obtain ⟨away, ok⟩ := inv.thread_facts runs
    unfold State.unlock
    rw [setProc_twice]
    exact inv.own runs _ (.inr ok.1) rfl ⟨by simpa using ok.2, nofun⟩ nofun
  | @sleepOther _ _ _ _ runs mine unlocked | @sleep _ _ _ _ _ runs _ mine unlocked =>
    cases inv.myproc runs.running mine
    obtain ⟨away, ok⟩ := inv.thread_facts runs
    unfold State.lock
    rw [setProc_twice]
    exact inv.own runs _ (.inl unlocked) rfl (by simpa [ThreadOk] using ok.1) nofun
  | @sleepRelease c p runs =>
    obtain ⟨away, ok⟩ := inv.thread_facts runs
    apply Invariant.relabel (s := s.goThread p (.dozing .ours))
    exact inv.own runs _ (.inr ok.1) rfl (by simpa [ThreadOk] using ok) nofun
  | @doze c p q chan runs mine =>
    cases inv.myproc runs.running mine
    obtain ⟨away, ok⟩ := inv.thread_facts runs
    rw [setProc_twice]
    exact inv.own runs _ (.inr ok.1) rfl (by simpa [ThreadOk] using ok.1) nofun
  | @sleepSwtch c p q chan runs mine =>
    cases inv.myproc runs.running mine
    obtain ⟨away, ok⟩ := inv.thread_facts runs
    rw [setProc_twice]
    exact inv.away runs ok.1 (.inr (.inl ok.2)) trivial nofun
  | @awake c p q chan runs mine =>
    cases inv.myproc runs.running mine
    obtain ⟨away, ok⟩ := inv.thread_facts runs
    have none := Op.slept_makes (n := n) chan
    rw [setProc_twice]
    refine inv.own runs _ (.inr ok.1) rfl ⟨by simpa using ok.2, fun np found => ?_⟩ fun np made => nomatch none.symm.trans made
    rw [found] at none
    exact nomatch none
  | @relock c p runs _ =>
    apply Invariant.relabel (s := s.goThread p (.run (.inside false false)))
    exact inv.goThread runs nofun nofun
  | @exit c p q runs mine unlocked =>
    cases inv.myproc runs.running mine
    rw [setProc_twice]
    exact inv.own runs _ (.inl unlocked) rfl (by simp [ThreadOk]) nofun
  | @exitSwtch c p q runs mine =>
    cases inv.myproc runs.running mine
    obtain ⟨away, ok⟩ := inv.thread_facts runs
    rw [setProc_twice]
    exact inv.away runs ok.1 (.inr (.inr ok.2)) ok.2 nofun
  | wakeup _ does | wakeupSelf does | enter does | wakeupInside _ does => exact inv.go does rfl
  | @wakeupSlot c j chan sec does _ unlocked =>
    exact (inv.wake unlocked chan).go (Does.setProc does (wake_pc chan _)) rfl
  | @wakeupEnd c chan sec does => exact inv.go does (Op.woken_makes chan sec)
  | kill _ runs | killMiss runs | killEnd runs | fork runs | forkTaken runs | forkFull runs | wait runs
  | waitOther runs | waitReturn runs =>
    exact inv.goThread runs nofun nofun
  | killHit runs unlocked _ => exact (inv.kill unlocked).goThread (Runs.setProc runs rfl) nofun nofun
  | forkFound pid runs unlocked unused => exact inv.forkFound runs unlocked unused pid
  | forkFail runs => exact inv.forkFail runs
  | forkCopy runs => exact inv.forkCopy runs
  | forkStart runs unlocked => exact inv.forkStart runs unlocked
  | waitReap runs unlocked zombie => exact (inv.reap unlocked zombie).goThread (Runs.setProc runs rfl) nofun nofun
  | @entered c does _ =>
    have gone : Invariant (s.go c (.inside false false)) := inv.go does rfl
    exact gone.relabel _ _
  | @make c made woken does =>
    have gone : Invariant (s.go c (.inside true woken)) := inv.go does rfl
    exact gone.relabel _ _
  | unmake => exact inv.relabel _ _
  | @leave c made woken does _ =>
    have gone : Invariant (s.go c .idle) := inv.go does rfl
    exact gone.relabel _ _

theorem Invariant.init (first : Init s) : Invariant s := by
  refine ⟨fun c => ?_, ?_, fun p => ?_, ?_, ?_⟩
  · exact CpuOk.of_sched (first.cpus c) rfl (congrArg Cpu.proc (first.cpus c))
  · simp [first.cpus]
  · have pc := first.pc p
    rcases first.state p with unused | ⟨runnable, saved⟩
    · exact ⟨by simp [unused], fun _ => .inl unused, by simp [unused]⟩
    · exact ⟨by simp [runnable], by simp [saved], by simp [pc, resumable]⟩
  · simp [first.pc, Pc.makes]
  · simp [first.pc, Pc.makes]

theorem Reached.invariant (reached : Reached s) : Invariant s :=
  Reachable.invariant reached (fun _ first => Invariant.init first) fun _ _ inv step => inv.step step

/-- A process runs on one CPU at most, from boot on. -/
theorem at_most_one_cpu (reached : Reached s) :
    (∀ c d p, (s.cpus c).proc = some p → (s.cpus d).proc = some p → c = d) ∧
    (∀ c p, (s.cpus c).proc = some p → (s.procs p).lock ≠ some c → (s.procs p).state = .running) ∧
    (∀ p, (s.procs p).state = .running → ∃ c, (s.cpus c).proc = some p) ∧
    (∀ c i, (s.cpus c).running = none → (s.cpus c).sched = .switching i → (s.procs i).saved = true) ∧
    (∀ p, (s.procs p).state = .unused → ∀ c, (s.cpus c).proc ≠ some p) := by
  have inv := reached.invariant
  refine ⟨inv.apart, ?_, fun p => (inv.slot p).current, ?_, ?_⟩
  · intro c p current outside
    rcases (inv.proc_cases current).1 with locked | running
    · exact absurd locked outside
    · exact running
  · intro c i idle position
    exact (inv.sched_facts idle position).2.2.2
  · intro p unused c current
    exact (inv.proc_cases current).2.1 unused

def oneProcess : State 1 2 :=
  ⟨fun _ => ⟨none, .runnable, none, 1, .forkret, true⟩, fun _ => ⟨none, .scan 0, none, none⟩, none, false⟩

theorem oneProcess_init : Init oneProcess :=
  ⟨rfl, fun _ => rfl, fun _ => rfl, fun _ => rfl, fun _ => .inr ⟨rfl, rfl⟩⟩

theorem at_most_one_cpu_two : ∃ s : State 1 2, Reached s ∧ (s.cpus 0).proc = some 0 ∧ (s.procs 0).state = .running ∧
    (s.cpus 1).proc ≠ some 0 := by
  have start : Reached oneProcess := .start oneProcess_init
  have acquired := start.next (.acquire (c := 0) (i := 0) rfl rfl rfl rfl)
  have picked := acquired.next (.pick (c := 0) (i := 0) rfl rfl rfl rfl)
  have switched := picked.next (.swtch (c := 0) (i := 0) rfl rfl rfl)
  have released := switched.next (.forkret (c := 0) (p := 0) (q := 0) ⟨rfl, rfl, rfl⟩ rfl)
  have facts := at_most_one_cpu released
  refine ⟨_, released, rfl, facts.2.1 0 0 rfl (by decide), ?_⟩
  intro current
  exact absurd (facts.1 0 1 0 rfl current) (by decide)

end Runs

end OShard.Scheduler
