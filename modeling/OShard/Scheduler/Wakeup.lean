import OShard.Scheduler.Current

namespace OShard.Scheduler

open Process (ProcState)
open Transition

variable {n m : Nat}

section Views

/-- The process sleeps on our channel, or has given up `lk` to do so. -/
def Proc.Drowsy (proc : Proc n m) : Prop :=
  proc.state = .sleeping ∧ proc.chan = some .ours ∨ proc.state = .running ∧ proc.pc = .dozing .ours

/-- What a CPU has to do with `lk`: it is in a section, which has called `wakeup` for the first `cleared` slots, or is
    about to give up the lock in `sleep`. -/
inductive View where
  | out
  | inside (made : Bool) (cleared : Nat)
  | parting

def Op.view : Op n → View
  | .inside made woken => .inside made (if woken then n else 0)
  | .wakeup chan j (some (made, woken)) => .inside made (if woken then n else if chan = .ours then j else 0)
  | _ => .out

def Pc.view : Pc n → View
  | .run op => op.view
  | .sleepLocked => .parting
  | _ => .out

def State.view (s : State n m) (c : Fin m) : View :=
  match (s.cpus c).handler, (s.cpus c).running with
  | some op, _ => op.view
  | none, some p => (s.procs p).pc.view
  | none, none => .out

structure Based (s : State n m) (c : Fin m) : Prop where
  thread : (s.cpus c).handler ≠ none → ∀ p, (s.cpus c).running = some p →
    ∃ op, (s.procs p).pc = .run op ∧ op.preemptible = true
  sched : (s.cpus c).handler ≠ none → (s.cpus c).running = none → ∃ i, (s.cpus c).sched = .scan i

structure Awake (s : State n m) : Prop where
  based : ∀ c, Based s c
  holder : ∀ c, s.lk = some c ↔ s.view c ≠ .out
  cleared : ∀ c made cleared, s.view c = .inside made cleared → ∀ p : Fin n, p < cleared → ¬(s.procs p).Drowsy
  quiet : s.cond = true → (∀ p, ¬(s.procs p).Drowsy) ∨ ∃ c cleared, s.view c = .inside true cleared
  unmet : ∀ c, s.view c = .parting → s.cond = false

variable {s t : State n m} {c d : Fin m} {p q : Fin n} {pc : Pc n} {op op' : Op n}

theorem Op.view_of_preemptible (on : op.preemptible = true) : op.view = .out := by
  cases op with
  | wakeup chan j sec => cases sec <;> simp_all [Op.view, Op.preemptible]
  | _ => simp_all [Op.view, Op.preemptible]

theorem view_of_runs (runs : s.Runs c p pc) : s.view c = pc.view := by
  simp [State.view, runs.base, runs.running, runs.pc]

theorem view_of_does (does : s.Does c op) : s.view c = op.view := by
  cases does with
  | handler found => simp [State.view, found]
  | thread runs => exact view_of_runs runs

theorem view_of_sched (base : (s.cpus c).handler = none) (idle : (s.cpus c).running = none) : s.view c = .out := by
  simp [State.view, base, idle]

structure Still (d : Fin m) (s t : State n m) : Prop where
  cpu : t.cpus d = s.cpus d
  pc : ∀ q, (s.cpus d).running = some q → (t.procs q).pc = (s.procs q).pc

theorem Still.view (same : Still d s t) : t.view d = s.view d := by
  unfold State.view
  rw [same.cpu]
  split
  · rfl
  · rw [same.pc _ ‹_›]
  · rfl

theorem Still.based (same : Still d s t) (based : Based s d) : Based t d := by
  refine ⟨?_, same.cpu ▸ based.sched⟩
  rw [same.cpu]
  intro handler q runs
  rw [same.pc q runs]
  exact based.thread handler q runs

def Elsewhere (c : Fin m) (s t : State n m) : Prop := ∀ d, d ≠ c → Still d s t

theorem Elsewhere.setCpu {u : State n m} (same : Elsewhere c s u) (cpu : Cpu n) : Elsewhere c s (u.setCpu c cpu) := by
  intro d other
  exact ⟨(u.setCpu_other other cpu).trans (same d other).cpu, (same d other).pc⟩

theorem Elsewhere.refl (s : State n m) (c : Fin m) : Elsewhere c s s := fun _ _ => ⟨rfl, fun _ _ => rfl⟩

theorem Still.setProc {x : Proc n m} (away : x.pc = (s.procs p).pc ∨ (s.cpus d).running ≠ some p) :
    Still d s (s.setProc p x) := by
  refine ⟨rfl, fun q runs => ?_⟩
  by_cases same : q = p
  · subst same
    simpa using away.resolve_right fun nobody => nobody runs
  · simp [same]

theorem Elsewhere.own (inv : Invariant s) (runs : (s.cpus c).running = some p) (x : Proc n m) :
    Elsewhere c s (s.setProc p x) :=
  fun _ other => .setProc (.inr fun found => inv.alone runs other (inv.proc_of_running found))

theorem go_handler (found : (s.cpus c).handler = some op) : s.go c op' = s.setCpu c { s.cpus c with handler := some op' } := by
  simp [State.go, found]

theorem go_thread (runs : s.Runs c p pc) : s.go c op' = s.goThread p (.run op') := by
  simp [State.go, runs.base, runs.running]

theorem Elsewhere.go (inv : Invariant s) (does : s.Does c op) : Elsewhere c s (s.go c op') := by
  cases does with
  | handler found => exact go_handler found ▸ (Elsewhere.refl s c).setCpu _
  | thread runs => exact go_thread runs ▸ .own inv runs.running _

def Rests (s t : State n m) : Prop := ∀ p, (t.procs p).Drowsy → (s.procs p).Drowsy

theorem Rests.setProc {x : Proc n m} (rests : x.Drowsy → (s.procs p).Drowsy) : Rests s (s.setProc p x) := by
  intro q
  by_cases same : q = p
  · subst same
    simpa using rests
  · simp [same]

theorem Rests.goThread (s : State n m) (p : Fin n) (op : Op n) : Rests s (s.goThread p (.run op)) :=
  Rests.setProc fun drowsy => drowsy.imp id fun dozing => nomatch dozing.2

theorem Rests.go (does : s.Does c op) : Rests s (s.go c op') := by
  cases does with
  | handler found => exact go_handler found ▸ fun _ => id
  | thread runs => exact go_thread runs ▸ Rests.goThread s _ op'

theorem view_go (does : s.Does c op) : (s.go c op').view c = op'.view := by
  cases does with
  | handler found => simp [go_handler found, State.view]
  | thread runs => exact go_thread runs ▸ view_of_runs (Runs.goThread runs)

theorem Based.of_base (base : (t.cpus c).handler = none) : Based t c :=
  ⟨fun handler => absurd base handler, fun handler => absurd base handler⟩

theorem Based.go (does : s.Does c op) (based : Based s c) : Based (s.go c op') c := by
  cases does with
  | handler found =>
    obtain ⟨thread, sched⟩ := based
    rw [go_handler found]
    exact ⟨fun _ => by simpa using thread (by simp [found]), fun _ => by simpa using sched (by simp [found])⟩
  | thread runs => exact go_thread runs ▸ .of_base runs.base

theorem Awake.pass (awake : Awake s) (same : Elsewhere c s t) (based : Based t c) (rests : Rests s t)
    (view : t.view c = s.view c) (lk : t.lk = s.lk) (cond : t.cond = s.cond) : Awake t := by
  have views : ∀ d, t.view d = s.view d := by
    intro d
    by_cases here : d = c
    · rw [here, view]
    · exact (same d here).view
  refine ⟨fun d => ?_, ?_, ?_, ?_, ?_⟩
  · by_cases here : d = c
    · exact here ▸ based
    · exact (same d here).based (awake.based d)
  · simpa only [lk, views] using awake.holder
  · intro d made cleared found p early drowsy
    exact awake.cleared d made cleared (views d ▸ found) p early (rests p drowsy)
  · rw [cond]
    simp only [views]
    exact fun met => (awake.quiet met).imp_left fun none p drowsy => none p (rests p drowsy)
  · simpa only [views, cond] using awake.unmet

theorem Awake.alone (awake : Awake s) (held : s.lk = none ∨ s.lk = some c) (other : d ≠ c) : s.view d = .out := by
  by_contra inside
  have mine := (awake.holder d).mpr inside
  rcases held with free | taken
  · exact nomatch free.symm.trans mine
  · cases taken.symm.trans mine
    exact other rfl

theorem Awake.section (awake : Awake s) (held : s.lk = none ∨ s.lk = some c) (same : Elsewhere c s t)
    (based : Based t c) (lk : t.lk = some c ∧ t.view c ≠ .out ∨ t.lk = none ∧ t.view c = .out)
    (cleared : ∀ made cleared, t.view c = .inside made cleared → ∀ p : Fin n, p < cleared → ¬(t.procs p).Drowsy)
    (quiet : t.cond = true → (∀ p, ¬(t.procs p).Drowsy) ∨ ∃ cleared, t.view c = .inside true cleared)
    (unmet : t.view c = .parting → t.cond = false) : Awake t := by
  have out : ∀ d, d ≠ c → t.view d = .out := fun d other => (same d other).view.trans (awake.alone held other)
  refine ⟨fun d => ?_, fun d => ?_, fun d => ?_, fun met => (quiet met).imp_right fun found => ⟨c, found⟩, fun d => ?_⟩
  · by_cases here : d = c
    · exact here ▸ based
    · exact (same d here).based (awake.based d)
  · by_cases here : d = c
    · subst here
      rcases lk with ⟨mine, inside⟩ | ⟨free, outside⟩
      · simp [mine, inside]
      · simp [free, outside]
    · rcases lk with ⟨mine, _⟩ | ⟨free, _⟩
      · simp [mine, out d here, Ne.symm here]
      · simp [free, out d here]
  · by_cases here : d = c
    · exact here ▸ cleared
    · simp [out d here]
  · by_cases here : d = c
    · exact here ▸ unmet
    · simp [out d here]

theorem Invariant.dozing_locked (inv : Invariant s) (running : (s.procs p).state = .running)
    (dozing : (s.procs p).pc = .dozing .ours) : (s.procs p).lock ≠ none := by
  intro unlocked
  cases saved : (s.procs p).saved with
  | true => simpa [dozing, resumable] using (inv.slot p).resting saved (by simp [running])
  | false =>
    rcases (inv.slot p).unsaved saved with unused | ⟨d, runs⟩
    · cases unused.symm.trans running
    · obtain ⟨_, _, _, ok⟩ := (inv.cpu d).busy p runs
      rw [dozing] at ok
      cases unlocked.symm.trans ok.1

theorem Invariant.woken (inv : Invariant s) (unlocked : (s.procs p).lock = none) : ¬(Scheduler.wake .ours (s.procs p)).Drowsy := by
  unfold Scheduler.wake
  split
  · simp [Proc.Drowsy]
  · rename_i miss
    rintro (asleep | dozing)
    · exact miss asleep
    · exact inv.dozing_locked dozing.1 dozing.2 unlocked

theorem wake_drowsy (chan : Chan) (proc : Proc n m) (drowsy : (wake chan proc).Drowsy) : proc.Drowsy := by
  unfold wake at drowsy
  split at drowsy
  · simp [Proc.Drowsy] at drowsy
  · exact drowsy

theorem Invariant.self_awake (inv : Invariant s) (based : Based s c) (does : s.Does c op)
    (self : (s.cpus c).proc = some p) : ¬(s.procs p).Drowsy := by
  have runs : ∃ op, (s.cpus c).running = some p ∧ (s.procs p).pc = .run op := by
    cases does with
    | thread runs =>
      cases inv.myproc runs.running self
      exact ⟨_, runs.running, runs.pc⟩
    | handler found =>
      have some : (s.cpus c).handler ≠ none := by
        rw [found]
        exact nofun
      cases thread : (s.cpus c).running with
      | none =>
        obtain ⟨i, position⟩ := based.sched some thread
        have vacant : (s.cpus c).proc = none := inv.sched_facts thread position
        exact nomatch vacant.symm.trans self
      | some q =>
        obtain ⟨op, pc, _⟩ := based.thread some q thread
        cases inv.myproc thread self
        exact ⟨op, rfl, pc⟩
  obtain ⟨op, running, pc⟩ := runs
  obtain ⟨_, _, _, ok⟩ := (inv.cpu c).busy p running
  rw [pc] at ok
  intro drowsy
  rcases drowsy with asleep | dozing
  · exact nomatch asleep.1.symm.trans ok.1
  · exact nomatch pc.symm.trans dozing.2

end Views

section Steps

variable {s t : State n m} {c d : Fin m} {p q j : Fin n} {pc : Pc n} {op op' : Op n}
  {cpu : Cpu n} {made : Bool} {cleared : Nat} {x : Proc n m}

theorem State.go_fields (does : s.Does c op) : (s.go c op').lk = s.lk ∧ (s.go c op').cond = s.cond := by
  cases does with
  | handler found => exact go_handler found ▸ ⟨rfl, rfl⟩
  | thread runs => exact go_thread runs ▸ ⟨rfl, rfl⟩

section Awake

variable (awake : Awake s)

include awake

section

variable (inv : Invariant s)

include inv

theorem Awake.go (does : s.Does c op) (view : op'.view = op.view) : Awake (s.go c op') := by
  have fields : (s.go c op').lk = s.lk ∧ (s.go c op').cond = s.cond := State.go_fields does
  apply awake.pass (.go inv does) (.go does (awake.based c)) (.go does) _ fields.1 fields.2
  rw [view_go does, view, view_of_does does]

theorem Awake.own (runs : s.Runs c p pc) (x : Proc n m)
    (rests : x.Drowsy → (s.procs p).Drowsy) (view : x.pc.view = pc.view) : Awake (s.setProc p x) := by
  have after : (s.setProc p x).Runs c p x.pc := ⟨runs.base, runs.running, by simp⟩
  apply awake.pass (.own inv runs.running x) (.of_base runs.base) (.setProc rests) _ rfl rfl
  rw [view_of_runs after, view, view_of_runs runs]

theorem Awake.goThread (runs : s.Runs c p (.run op)) (view : op'.view = op.view) :
    Awake (s.goThread p (.run op')) :=
  awake.own inv runs _ (fun drowsy => drowsy.imp id fun dozing => nomatch dozing.2) view

theorem Awake.away (runs : s.Runs c p pc) (x : Proc n m)
    (rests : x.Drowsy → (s.procs p).Drowsy) (view : pc.view = .out) :
    Awake ((s.setProc p x).setCpu c { s.cpus c with running := none }) := by
  have base : (((s.setProc p x).setCpu c { s.cpus c with running := none }).cpus c).handler = none := by simpa using runs.base
  apply awake.pass ((Elsewhere.own inv runs.running x).setCpu _) (.of_base base) (Rests.setProc rests) _ rfl rfl
  rw [view_of_runs runs, view, view_of_sched base (by simp)]

end

theorem Awake.sched (base : (s.cpus c).handler = none)
    (idle : (s.cpus c).running = none) (x : Proc n m) (pc : x.pc = (s.procs p).pc)
    (rests : x.Drowsy → (s.procs p).Drowsy) (handler : cpu.handler = none) (running : cpu.running = none) :
    Awake ((s.setProc p x).setCpu c cpu) := by
  have after : (((s.setProc p x).setCpu c cpu).cpus c).handler = none := by simpa using handler
  apply awake.pass (Elsewhere.setCpu (fun _ _ => .setProc (.inl pc)) _) (.of_base after) (Rests.setProc rests) _ rfl rfl
  rw [view_of_sched base idle, view_of_sched after (by simpa using running)]

theorem Awake.position (base : (s.cpus c).handler = none)
    (idle : (s.cpus c).running = none) (handler : cpu.handler = none) (running : cpu.running = none) :
    Awake (s.setCpu c cpu) := by
  have after : ((s.setCpu c cpu).cpus c).handler = none := by simpa using handler
  apply awake.pass ((Elsewhere.refl s c).setCpu cpu) (.of_base after) (fun _ => id) _ rfl rfl
  rw [view_of_sched base idle, view_of_sched after (by simpa using running)]

theorem Awake.foreign (c : Fin m) (x : Proc n m)
    (away : x.pc = (s.procs j).pc ∨ ∀ d, (s.cpus d).running ≠ some j) (rests : x.Drowsy → (s.procs j).Drowsy) :
    Awake (s.setProc j x) := by
  have still : ∀ d, Still d s (s.setProc j x) := fun d => .setProc (away.imp_right fun nobody => nobody d)
  exact awake.pass (fun d _ => still d) ((still c).based (awake.based c)) (.setProc rests) (still c).view rfl rfl

theorem Awake.mine (view : s.view c = .inside made cleared) : s.lk = some c :=
  (awake.holder c).mpr (by simp [view])

theorem Awake.maker {made' : Bool} {cleared' : Nat} (view : s.view c = .inside made cleared)
    (found : s.view d = .inside made' cleared') : made' = made ∧ cleared' = cleared := by
  cases (awake.mine view).symm.trans (awake.mine found)
  cases view.symm.trans found
  exact ⟨rfl, rfl⟩

theorem Awake.advance {chan : Chan} {sec : Option (Bool × Bool)} (inv : Invariant s)
    (does : s.Does c (.wakeup chan j sec)) (next : chan = .ours → ¬(s.procs j).Drowsy) :
    Awake (s.go c (.wakeup chan (j + 1) sec)) := by
  cases sec with
  | none => exact awake.go inv does rfl
  | some sec =>
    obtain ⟨made, woken⟩ := sec
    have before := view_of_does does
    have after : (s.go c (.wakeup chan (j + 1) (some (made, woken)))).view c = _ := view_go does
    have mine := awake.mine before
    have fields : (s.go c (.wakeup chan (j + 1) (some (made, woken)))).lk = s.lk ∧
        (s.go c (.wakeup chan (j + 1) (some (made, woken)))).cond = s.cond := State.go_fields does
    apply awake.section (.inr mine) (.go inv does) (.go does (awake.based c))
    · exact .inl ⟨fields.1.trans mine, by simp [after, Op.view]⟩
    · intro made' cleared found p early drowsy
      have rested := Rests.go does p drowsy
      cases after.symm.trans found
      by_cases all : woken = true
      · rw [if_pos all] at early
        rw [Op.view, if_pos all] at before
        exact awake.cleared c made n before p early rested
      rw [if_neg all] at early
      rw [Op.view, if_neg all] at before
      by_cases ours : chan = .ours
      · rw [if_pos ours] at early before
        rcases Nat.lt_succ_iff_lt_or_eq.mp early with less | same
        · exact awake.cleared c made j before p less rested
        · exact next ours (Fin.ext same ▸ rested)
      · simp [ours] at early
    · rw [fields.2]
      intro met
      rcases awake.quiet met with none | ⟨d, cleared, found⟩
      · exact .inl fun p drowsy => none p (Rests.go does p drowsy)
      · obtain ⟨rfl, -⟩ := awake.maker before found
        exact .inr ⟨_, after⟩
    · simp [after, Op.view]

end Awake

theorem Op.woken_view (chan : Chan) (sec : Option (Bool × Bool)) :
    (Op.woken chan sec : Op n).view = (Op.wakeup chan n sec : Op n).view := by
  cases sec with
  | none => rfl
  | some sec =>
    obtain ⟨made, woken⟩ := sec
    cases woken <;> cases chan <;> rfl

theorem Op.inside_view (chan : Chan) (made woken : Bool) :
    (Op.wakeup chan 0 (some (made, woken)) : Op n).view = (Op.inside made woken : Op n).view := by
  cases woken <;> cases chan <;> rfl

theorem Runs.setProc_other (runs : s.Runs c p pc) (other : p ≠ j) : (s.setProc j x).Runs c p pc :=
  ⟨runs.base, runs.running, (congrArg Proc.pc (s.setProc_other other x)).trans runs.pc⟩

theorem kill_drowsy (proc : Proc n m) (drowsy : (kill proc).Drowsy) : proc.Drowsy := by
  unfold kill at drowsy
  by_cases asleep : proc.state = .sleeping
  · simp [Proc.Drowsy, asleep] at drowsy
  · simpa [asleep] using drowsy

theorem freeproc_drowsy (proc : Proc n m) : ¬(freeproc proc).Drowsy := by
  simp [Proc.Drowsy, freeproc]

theorem drowsy_of_same {y : Proc n m} (state : x.state = y.state) (chan : x.chan = y.chan)
    (pc : x.pc = y.pc ∨ x.pc ≠ .dozing .ours) (drowsy : x.Drowsy) : y.Drowsy := by
  rcases drowsy with sleeps | dozes
  · exact .inl ⟨state ▸ sleeps.1, chan ▸ sleeps.2⟩
  · rcases pc with same | other
    · exact .inr ⟨state ▸ dozes.1, same ▸ dozes.2⟩
    · exact absurd dozes.2 other

section Awake

variable (awake : Awake s)

include awake

theorem Awake.swtch {i : Fin n} (inv : Invariant s) (base : (s.cpus c).handler = none)
    (idle : (s.cpus c).running = none) (position : (s.cpus c).sched = .switching i) :
    Awake ((s.setProc i { s.procs i with saved := false }).setCpu c
      { s.cpus c with sched := .switched i, running := some i }) := by
  obtain ⟨_, _, running, saved⟩ := inv.sched_facts idle position
  have rest := (inv.slot i).resting saved (by simp [running])
  have runs : ((s.setProc i { s.procs i with saved := false }).setCpu c
      { s.cpus c with sched := .switched i, running := some i }).Runs c i (s.procs i).pc :=
    ⟨by simpa using base, by simp, by simp⟩
  have out : (s.procs i).pc.view = .out := by
    cases pc : (s.procs i).pc <;> simp_all [resumable, Pc.view]
  have same : Elsewhere c s (s.setProc i { s.procs i with saved := false }) := fun _ _ => .setProc (.inl rfl)
  apply awake.pass (same.setCpu _) (.of_base runs.base) (Rests.setProc (drowsy_of_same rfl rfl (.inl rfl))) _ rfl rfl
  rw [view_of_runs runs, out, view_of_sched base idle]

theorem Awake.handler {handler : Option (Op n)} (before : s.view c = .out)
    (after : (s.setCpu c { s.cpus c with handler := handler }).view c = .out)
    (based : Based (s.setCpu c { s.cpus c with handler := handler }) c) :
    Awake (s.setCpu c { s.cpus c with handler := handler }) :=
  awake.pass ((Elsewhere.refl s c).setCpu _) based (fun _ => id) (after.trans before.symm) rfl rfl

theorem Awake.take (same : Elsewhere c s t) (free : s.lk = none) (based : Based t c) (rests : Rests s t)
    (view : t.view c = .inside false 0) (lk : t.lk = some c) (cond : t.cond = s.cond) : Awake t := by
  apply awake.section (.inl free) same based
  · exact .inl ⟨lk, by simp [view]⟩
  · intro made cleared found p early
    cases view.symm.trans found
    exact absurd early (Nat.not_lt_zero _)
  · rw [cond]
    intro met
    rcases awake.quiet met with none | ⟨d, cleared, found⟩
    · exact .inl fun p drowsy => none p (rests p drowsy)
    · exact nomatch free.symm.trans (awake.mine found)
  · simp [view]

theorem Awake.make (same : Elsewhere c s t) (based : Based t c)
    (rests : Rests s t) (before : s.view c = .inside made cleared) (after : t.view c = .inside true cleared)
    (lk : t.lk = s.lk) : Awake t := by
  have mine := awake.mine before
  apply awake.section (.inr mine) same based
  · exact .inl ⟨lk.trans mine, by simp [after]⟩
  · intro made' count found p early drowsy
    cases after.symm.trans found
    exact awake.cleared c made cleared before p early (rests p drowsy)
  · exact fun _ => .inr ⟨cleared, after⟩
  · simp [after]

theorem Awake.leave {woken : Bool} (same : Elsewhere c s t) (based : Based t c) (rests : Rests s t)
    (before : s.view c = .inside made (if woken then n else 0)) (rule : made = true → woken = true)
    (after : t.view c = .out) (lk : t.lk = none) (cond : t.cond = s.cond) : Awake t := by
  apply awake.section (.inr (awake.mine before)) same based (.inr ⟨lk, after⟩)
  · simp [after]
  · rw [cond]
    refine fun met => .inl fun p drowsy => ?_
    rcases awake.quiet met with none | ⟨d, cleared, found⟩
    · exact none p (rests p drowsy)
    · obtain ⟨rfl, -⟩ := awake.maker before found
      rw [if_pos (rule rfl)] at before
      exact awake.cleared c true n before p p.isLt (rests p drowsy)
  · simp [after]

theorem Awake.part (same : Elsewhere c s t) (based : Based t c)
    (before : s.view c = .inside made cleared) (after : t.view c = .parting) (lk : t.lk = s.lk) (unmet : t.cond = false) :
    Awake t := by
  have mine := awake.mine before
  apply awake.section (.inr mine) same based (.inl ⟨lk.trans mine, by simp [after]⟩)
  · simp [after]
  · simp [unmet]
  · exact fun _ => unmet

theorem Awake.gone (same : Elsewhere c s t) (based : Based t c) (before : s.view c = .parting)
    (after : t.view c = .out) (lk : t.lk = none) (cond : t.cond = s.cond) : Awake t := by
  have mine : s.lk = some c := (awake.holder c).mpr (by simp [before])
  apply awake.section (.inr mine) same based (.inr ⟨lk, after⟩)
  · simp [after]
  · simp [cond, awake.unmet c before]
  · simp [after]

theorem Awake.step (inv : Invariant s) (step : Step s t) : Awake t := by
  cases step with
  | scanEnd base idle | pass base idle | back base idle => exact awake.position base idle base idle
  | acquire base idle | release base idle =>
    exact awake.sched base idle _ rfl (drowsy_of_same rfl rfl (.inl rfl)) base idle
  | @pick c i base idle position runnable =>
    obtain ⟨_, _, rest⟩ := inv.picked idle position runnable
    apply awake.sched base idle
    · rfl
    · intro drowsy
      rcases drowsy with sleeps | dozes
      · exact nomatch sleeps.1
      · have dozing : (s.procs i).pc = .dozing .ours := dozes.2
        rw [dozing] at rest
        exact rest.elim
    · exact base
    · exact idle
  | swtch base idle position => exact awake.swtch inv base idle position
  | @intrIdle c i base idle position =>
    apply awake.handler (view_of_sched base idle)
    · simp [State.view, Op.view]
    · exact ⟨by simp [idle], fun _ _ => ⟨i, by simpa using position⟩⟩
  | @intr c p op runs on =>
    apply awake.handler ((view_of_runs runs).trans (Op.view_of_preemptible on))
    · simp [State.view, Op.view]
    · refine ⟨fun _ q found => ?_, by simp [runs.running]⟩
      cases runs.running.symm.trans (by simpa using found)
      exact ⟨op, runs.pc, on⟩
  | @iret c found =>
    have active : (s.cpus c).handler ≠ none := by simp [found]
    apply awake.handler (view_of_does (.handler found))
    · cases runs : (s.cpus c).running with
      | none => simp [State.view, runs]
      | some p =>
        obtain ⟨op, pc, on⟩ := (awake.based c).thread active p runs
        simp [State.view, runs, pc, Pc.view, Op.view_of_preemptible on]
    · exact .of_base (by simp)
  | @yield c p q op runs on self _ =>
    cases inv.myproc runs.running self
    rw [setProc_twice]
    apply awake.own inv runs
    · simp [Proc.Drowsy]
    · exact (Op.view_of_preemptible on).symm
  | @yieldSwtch _ _ _ _ runs self | @sleepSwtch _ _ _ _ runs self | @exitSwtch _ _ _ runs self =>
    cases inv.myproc runs.running self
    rw [setProc_twice]
    exact awake.away inv runs _ (drowsy_of_same rfl rfl (.inr nofun)) rfl
  | @yielded c p q op runs self =>
    cases inv.myproc runs.running self
    obtain ⟨_, ok⟩ := inv.thread_facts runs
    unfold State.unlock
    rw [setProc_twice]
    apply awake.own inv runs
    · exact drowsy_of_same rfl rfl (.inr nofun)
    · exact Op.view_of_preemptible ok.2
  | @forkret c p q runs self =>
    cases inv.myproc runs.running self
    unfold State.unlock
    rw [setProc_twice]
    apply awake.own inv runs
    · exact drowsy_of_same rfl rfl (.inr nofun)
    · rfl
  | @sleepOther c p q addr runs self _ =>
    cases inv.myproc runs.running self
    unfold State.lock
    rw [setProc_twice]
    apply awake.own inv runs
    · exact drowsy_of_same rfl rfl (.inr nofun)
    · rfl
  | @sleep c p q made woken runs unmet self _ =>
    cases inv.myproc runs.running self
    unfold State.lock
    rw [setProc_twice]
    have after : (s.setProc p { s.procs p with lock := some c, pc := .sleepLocked }).Runs c p .sleepLocked :=
      ⟨runs.base, runs.running, congrArg Proc.pc (s.setProc_self p _)⟩
    exact awake.part (.own inv runs.running _) (.of_base runs.base) (view_of_runs runs) (view_of_runs after) rfl unmet
  | @sleepRelease c p runs =>
    have view : (s.goThread p (.dozing .ours)).view c = .out := view_of_runs (Runs.goThread runs)
    have same : Elsewhere c s (s.goThread p (.dozing .ours)) := .own inv runs.running _
    exact awake.gone (fun d other => ⟨(same d other).cpu, (same d other).pc⟩) (.of_base runs.base)
      (view_of_runs runs) view rfl rfl
  | @doze c p q chan runs self =>
    cases inv.myproc runs.running self
    obtain ⟨_, ok⟩ := inv.thread_facts runs
    rw [setProc_twice]
    apply awake.own inv runs
    · intro drowsy
      rcases drowsy with sleeps | dozes
      · have ours : chan = .ours := Option.some.inj sleeps.2
        rw [ours] at runs
        exact .inr ⟨ok.2, runs.pc⟩
      · exact nomatch dozes.1
    · rfl
  | @awake c p q chan runs self =>
    cases inv.myproc runs.running self
    rw [setProc_twice]
    apply awake.own inv runs
    · simp [Proc.Drowsy]
    · cases chan <;> rfl
  | @relock c p runs free =>
    have view : (s.goThread p (.run (.inside false false))).view c = .inside false 0 :=
      view_of_runs (Runs.goThread runs)
    have same : Elsewhere c s (s.goThread p (.run (.inside false false))) := .own inv runs.running _
    exact awake.take (fun d other => ⟨(same d other).cpu, (same d other).pc⟩) free (.of_base runs.base)
      (Rests.goThread s p _) view rfl rfl
  | @exit c p q runs self _ =>
    cases inv.myproc runs.running self
    rw [setProc_twice]
    apply awake.own inv runs
    · simp [Proc.Drowsy]
    · rfl
  | wakeup _ does | enter does => exact awake.go inv does rfl
  | @wakeupSlot c j chan sec does _ unlocked =>
    have roused : Awake (s.setProc j (wake chan (s.procs j))) :=
      awake.foreign c _ (.inl (wake_pc chan _)) (wake_drowsy chan _)
    apply roused.advance (inv.wake unlocked chan) (Does.setProc does (wake_pc chan _))
    intro ours
    rw [s.setProc_self, ours]
    exact inv.woken unlocked
  | wakeupSelf does self => exact awake.advance inv does fun _ => inv.self_awake (awake.based _) does self
  | wakeupEnd does => exact awake.go inv does (Op.woken_view _ _)
  | kill _ runs | killMiss runs | killEnd runs | fork runs | forkTaken runs | forkFull runs | wait runs
  | waitOther runs | waitReturn runs =>
    exact awake.goThread inv runs rfl
  | @killHit c p j pid runs unlocked _ =>
    have roused : Awake (s.setProc j (Scheduler.kill (s.procs j))) := awake.foreign c _ (.inl rfl) (kill_drowsy _)
    exact roused.goThread (inv.kill unlocked) (Runs.setProc runs rfl) rfl
  | @forkFound c p j pid runs unlocked unused =>
    have nobody := inv.nobody unlocked (by rw [unused]; decide)
    have other : p ≠ j := fun same => nobody c (same ▸ inv.proc_of_running runs.running)
    have allocated : Awake (s.setProc j (allocproc pid c (s.procs j))) := by
      apply awake.foreign c _ (.inr fun d found => nobody d (inv.proc_of_running found))
      simp [Proc.Drowsy, allocproc]
    exact allocated.goThread (inv.allocproc unlocked unused pid c) (Runs.setProc_other runs other) rfl
  | @forkFail c p np runs =>
    obtain ⟨other, _, _⟩ := inv.found_facts runs
    have gone : Awake (s.goThread p (.run .idle)) := awake.goThread inv runs rfl
    apply gone.foreign c
    · left
      rw [s.goThread_other other]
      rfl
    · exact fun drowsy => absurd drowsy (freeproc_drowsy _)
  | @forkCopy c p np runs =>
    have gone : Awake (s.goThread p (.run (.forkLink np))) := awake.goThread inv runs rfl
    apply gone.foreign c
    · exact .inl rfl
    · exact drowsy_of_same rfl rfl (.inl rfl)
  | @forkStart c p np runs unlocked =>
    have used := inv.making.used p np (by rw [runs.pc]; rfl)
    have other : np ≠ p := by
      intro same
      exact inv.used_nobody used c (same ▸ inv.proc_of_running runs.running)
    have gone : Awake (s.goThread p (.run .idle)) := awake.goThread inv runs rfl
    apply gone.foreign c
    · left
      rw [s.goThread_other other]
    · simp [Proc.Drowsy]
  | @waitReap c p j runs unlocked zombie =>
    have reaped : Awake (s.setProc j (freeproc (s.procs j))) :=
      awake.foreign c _ (.inl rfl) fun drowsy => absurd drowsy (freeproc_drowsy _)
    exact reaped.goThread (inv.reap unlocked zombie) (Runs.setProc runs rfl) rfl
  | @entered c does free =>
    have same : Elsewhere c s (s.go c (.inside false false)) := .go inv does
    have based : Based (s.go c (.inside false false)) c := .go does (awake.based c)
    exact awake.take (fun d other => ⟨(same d other).cpu, (same d other).pc⟩) free ⟨based.thread, based.sched⟩
      (Rests.go does) (view_go does) rfl (State.go_fields does).2
  | @make c made woken does =>
    have same : Elsewhere c s (s.go c (.inside true woken)) := .go inv does
    have based : Based (s.go c (.inside true woken)) c := .go does (awake.based c)
    exact awake.make (fun d other => ⟨(same d other).cpu, (same d other).pc⟩) ⟨based.thread, based.sched⟩
      (Rests.go does) (view_of_does does) (view_go does) (State.go_fields does).1
  | unmake =>
    exact ⟨fun c => ⟨(awake.based c).thread, (awake.based c).sched⟩, awake.holder, awake.cleared, fun met => absurd met Bool.false_ne_true, fun _ _ => rfl⟩
  | wakeupInside chan does => exact awake.go inv does (Op.inside_view _ _ _)
  | @leave c made woken does rule =>
    have same : Elsewhere c s (s.go c .idle) := .go inv does
    have based : Based (s.go c .idle) c := .go does (awake.based c)
    exact awake.leave (fun d other => ⟨(same d other).cpu, (same d other).pc⟩) ⟨based.thread, based.sched⟩
      (Rests.go does) (view_of_does does) rule (view_go does) rfl (State.go_fields does).2

end Awake

theorem Awake.init (first : Init s) : Awake s := by
  have views : ∀ c, s.view c = .out := fun c => view_of_sched (by simp [first.cpus]) (by simp [first.cpus])
  refine ⟨fun c => .of_base (by simp [first.cpus]), by simp [views, first.lk], by simp [views], fun _ => .inl fun p => ?_, by simp [views]⟩
  rcases first.state p with unused | ⟨runnable, _⟩
  · simp [Proc.Drowsy, unused]
  · simp [Proc.Drowsy, runnable]

theorem Reached.awake (reached : Reached s) : Invariant s ∧ Awake s := by
  have base : ∀ s : State n m, Init s → Invariant s ∧ Awake s := fun _ first => ⟨Invariant.init first, Awake.init first⟩
  have keeps : ∀ s t : State n m, Invariant s ∧ Awake s → Step s t → Invariant t ∧ Awake t :=
    fun _ _ both step => ⟨both.1.step step, both.2.step both.1 step⟩
  exact (Reachable.invariant reached base keeps :)

/-- No process sleeps on the channel while the condition is true and `lk` is free. A thread that is in a section, as it
    is when `sleep` returns, holds `lk`. -/
theorem no_lost_wakeup (reached : Reached s) :
    (s.lk = none → s.cond = true → ∀ p, ¬((s.procs p).state = .sleeping ∧ (s.procs p).chan = some .ours)) ∧
    ∀ c p made woken, s.Runs c p (.run (.inside made woken)) → s.lk = some c := by
  obtain ⟨_, awake⟩ := reached.awake
  refine ⟨?_, ?_⟩
  · intro free met p sleeps
    rcases awake.quiet met with none | ⟨c, cleared, found⟩
    · exact none p (.inl sleeps)
    · exact nomatch free.symm.trans (awake.mine found)
  · intro c p made woken runs
    exact awake.mine (view_of_runs runs)

def onePair : State 1 1 :=
  ⟨fun _ => ⟨none, .runnable, none, 1, .forkret, true⟩, fun _ => ⟨none, .scan 0, none, none⟩, none, false⟩

/-- A process sleeps, and an interrupt handler makes the condition true. -/
theorem no_lost_wakeup_one : ∃ s : State 1 1, Reached s ∧ s.lk = none ∧ s.cond = true ∧
    (s.procs 0).chan = some .ours ∧ ¬((s.procs 0).state = .sleeping ∧ (s.procs 0).chan = some .ours) := by
  have start : Reached onePair :=
    .start ⟨rfl, fun _ => rfl, fun _ => rfl, fun _ => rfl, fun _ => .inr ⟨rfl, rfl⟩⟩
  have acquired := start.next (.acquire (c := 0) (i := 0) rfl rfl rfl rfl)
  have picked := acquired.next (.pick (c := 0) (i := 0) rfl rfl rfl rfl)
  have switched := picked.next (.swtch (c := 0) (i := 0) rfl rfl rfl)
  have running := switched.next (.forkret (c := 0) (p := 0) (q := 0) ⟨rfl, rfl, rfl⟩ rfl)
  have entering := running.next (.enter (c := 0) (.thread (p := 0) ⟨rfl, rfl, rfl⟩))
  have inside := entering.next (.entered (c := 0) (.thread (p := 0) ⟨rfl, rfl, rfl⟩) rfl)
  have locked := inside.next (.sleep (c := 0) (p := 0) (q := 0) ⟨rfl, rfl, rfl⟩ rfl rfl rfl)
  have dozing := locked.next (.sleepRelease (c := 0) (p := 0) ⟨rfl, rfl, rfl⟩)
  have asleep := dozing.next (.doze (c := 0) (p := 0) (q := 0) ⟨rfl, rfl, rfl⟩ rfl)
  have away := asleep.next (.sleepSwtch (c := 0) (p := 0) (q := 0) ⟨rfl, rfl, rfl⟩ rfl)
  have back := away.next (.back (c := 0) (i := 0) rfl rfl rfl)
  have released := back.next (.release (c := 0) (i := 0) rfl rfl rfl)
  have interrupted := released.next (.intrIdle (c := 0) rfl rfl rfl)
  have handling := interrupted.next (.enter (c := 0) (.handler rfl))
  have held := handling.next (.entered (c := 0) (.handler rfl) rfl)
  have made := held.next (.make (c := 0) (.handler rfl))
  have waking := made.next (.wakeupInside (c := 0) .ours (.handler rfl))
  have roused := waking.next (.wakeupSlot (c := 0) (j := 0) (.handler rfl) (by decide) rfl)
  have woken := roused.next (.wakeupEnd (c := 0) (.handler rfl))
  have left := woken.next (.leave (c := 0) (.handler rfl) (fun _ => rfl))
  exact ⟨_, left, rfl, rfl, rfl, (no_lost_wakeup left).1 rfl rfl 0⟩

end Steps

end OShard.Scheduler
