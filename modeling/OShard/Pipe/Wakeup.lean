import OShard.Pipe.Fifo

namespace OShard.Pipes

open Function

variable {k : Nat}

section Control

def Pc.holding : Pc → Bool
  | .user | .writeAcquire _ | .writeAsleep _ _ | .readAcquire _ | .readAsleep _ => false
  | _ => true

def Pc.waits : Pc → Option Chan
  | .writeAsleep _ _ => some .nwrite
  | .readAsleep _ => some .nread
  | _ => none

def Pc.Knows (pipe : Pipe) : Pc → Prop
  | .writeLoop _ _ stored | .writeKilled _ _ stored =>
    stored = true → pipe.empty = false ∧ pipe.readopen = true
  | .writeFull _ _ stored => pipe.readopen = true ∧ (stored = true → pipe.empty = false)
  | .writeSleep _ _ => pipe.full = true ∧ pipe.readopen = true
  | .readKilled _ | .readSleep _ => pipe.empty = true ∧ pipe.writeopen = true
  | _ => True

structure Control (s : State k) : Prop where
  lock : ∀ p, (s.procs p).pc.holding = true ↔ s.lock = some p
  chan : ∀ p chan, (s.procs p).chan = some chan → (s.procs p).pc.waits = some chan
  knows : ∀ p, (s.procs p).pc.Knows s.pipe

theorem knows_of_free {pc : Pc} (free : pc.holding = false) (pipe : Pipe) : pc.Knows pipe := by
  cases pc <;> trivial

structure Move (s t : State k) (p : Fin k) : Prop where
  pc : ∀ q, q ≠ p → (t.procs q).pc = (s.procs q).pc
  chan : ∀ q, q ≠ p → (t.procs q).chan = (s.procs q).chan ∨ (t.procs q).chan = none
  lock : ∀ q, q ≠ p → (t.lock = some q ↔ s.lock = some q)

variable {s t : State k} {p : Fin k} {pc pc' : Pc} {chan : Chan}

theorem Control.move (control : Control s) (move : Move s t p) (lock : (t.procs p).pc.holding = true ↔ t.lock = some p)
    (chan : ∀ chan, (t.procs p).chan = some chan → (t.procs p).pc.waits = some chan)
    (knows : (t.procs p).pc.Knows t.pipe) (pipe : t.pipe = s.pipe ∨ s.lock = some p ∨ s.lock = none) : Control t := by
  refine ⟨fun q => ?_, fun q chan' asleep => ?_, fun q => ?_⟩
  · by_cases same : q = p
    · rw [same]
      exact lock
    · rw [move.pc q same, move.lock q same]
      exact control.lock q
  · by_cases same : q = p
    · rw [same] at asleep ⊢
      exact chan chan' asleep
    rw [move.pc q same]
    rcases move.chan q same with kept | woken
    · rw [kept] at asleep
      exact control.chan q chan' asleep
    · rw [woken] at asleep
      cases asleep
  · by_cases same : q = p
    · rw [same]
      exact knows
    rw [move.pc q same]
    have free : s.lock = some p ∨ s.lock = none → (s.procs q).pc.holding = false := by
      intro other
      rw [← Bool.not_eq_true, control.lock q]
      intro held
      rcases other with mine | none
      · rw [mine] at held
        exact same (Option.some.inj held).symm
      · rw [none] at held
        cases held
    rcases pipe with kept | other
    · rw [kept]
      exact control.knows q
    · exact knows_of_free (free other) t.pipe

theorem Move.of_update {proc : Proc} (procs : t.procs = update s.procs p proc)
    (lock : ∀ q, q ≠ p → (t.lock = some q ↔ s.lock = some q)) : Move s t p := by
  refine ⟨fun q other => ?_, fun q other => Or.inl ?_, lock⟩
  · rw [procs, update_of_ne other]
  · rw [procs, update_of_ne other]

theorem wakeup_other (s : State k) (p : Fin k) (chan : Chan) (q : Fin k) :
    ((s.wakeup p chan).procs q).pc = (s.procs q).pc ∧
      (((s.wakeup p chan).procs q).chan = (s.procs q).chan ∨ ((s.wakeup p chan).procs q).chan = none) := by
  unfold State.wakeup
  dsimp only
  by_cases asleep : q ≠ p ∧ (s.procs q).chan = some chan
  · rw [if_pos asleep]
    exact ⟨rfl, Or.inr rfl⟩
  · rw [if_neg asleep]
    exact ⟨rfl, Or.inl rfl⟩

theorem Move.of_wakeup {proc : Proc} (procs : t.procs = update (s.wakeup p chan).procs p proc)
    (lock : ∀ q, q ≠ p → (t.lock = some q ↔ s.lock = some q)) : Move s t p := by
  refine ⟨fun q other => ?_, fun q other => ?_, lock⟩
  · rw [procs, update_of_ne other]
    exact (wakeup_other s p chan q).1
  · rw [procs, update_of_ne other]
    exact (wakeup_other s p chan q).2

theorem Move.of_close (procs : t.procs = (s.wakeup p chan).procs) (lock : t.lock = s.lock) : Move s t p := by
  refine ⟨fun q _ => ?_, fun q _ => ?_, fun q _ => by rw [lock]⟩
  · rw [procs]
    exact (wakeup_other s p chan q).1
  · rw [procs]
    exact (wakeup_other s p chan q).2

theorem other_lock {a b : Option (Fin k)} (before : a = none ∨ a = some p) (after : b = none ∨ b = some p) (q : Fin k)
    (other : q ≠ p) : b = some q ↔ a = some q := by
  have never : ∀ c : Option (Fin k), c = none ∨ c = some p → c ≠ some q := by
    rintro c (rfl | rfl) same
    · cases same
    · exact other (Option.some.inj same).symm
  exact iff_of_false (never b after) (never a before)

theorem Control.acquire (control : Control s) (free : s.lock = none)
    (procs : t.procs = update s.procs p { s.procs p with pc := pc }) (lock : t.lock = some p)
    (pipe : t.pipe = s.pipe) (holding : pc.holding = true) (awake : (s.procs p).chan = none) (knows : pc.Knows s.pipe) :
    Control t := by
  apply control.move (Move.of_update procs (other_lock (Or.inl free) (Or.inr lock)))
  · rw [procs, update_self, lock]
    exact iff_of_true holding rfl
  · intro chan asleep
    rw [procs, update_self, awake] at asleep
    cases asleep
  · rw [procs, update_self, pipe]
    exact knows
  · exact Or.inl pipe

section Thread

variable (control : Control s) (place : (s.procs p).pc = pc)

include control place

theorem Control.held (holding : pc.holding = true) : s.lock = some p := by
  rw [← control.lock p, place]
  exact holding

theorem Control.awake (waits : pc.waits = none) : (s.procs p).chan = none := by
  cases asleep : (s.procs p).chan with
  | none => rfl
  | some chan =>
    have waiting := control.chan p chan asleep
    rw [place, waits] at waiting
    cases waiting

theorem Control.knowsAt : pc.Knows s.pipe := by
  rw [← place]
  exact control.knows p

theorem Control.inside (holding : pc.holding = true) (move : Move s t p) (lock : t.lock = s.lock) (place' : (t.procs p).pc = pc')
    (holding' : pc'.holding = true) (chan : (t.procs p).chan = (s.procs p).chan) (knows : pc'.Knows t.pipe)
    (waits : pc.waits = none) : Control t := by
  have mine := control.held place holding
  have awake := control.awake place waits
  apply control.move move
  · rw [place', lock, mine]
    exact iff_of_true holding' rfl
  · intro chan' asleep
    rw [chan, awake] at asleep
    cases asleep
  · rw [place']
    exact knows
  · exact Or.inr (Or.inl mine)

theorem Control.leave (holding : pc.holding = true) (move : Move s t p) (lock : t.lock = none) (pipe : t.pipe = s.pipe)
    (free : (t.procs p).pc.holding = false)
    (chan : ∀ chan, (t.procs p).chan = some chan → (t.procs p).pc.waits = some chan) : Control t := by
  have mine := control.held place holding
  apply control.move move
  · rw [lock, free]
    exact iff_of_false Bool.false_ne_true nofun
  · exact chan
  · exact knows_of_free free t.pipe
  · exact Or.inl pipe

theorem Control.goInside (holding : pc.holding = true) (waits : pc.waits = none) (procs : t.procs = (s.go p pc').procs) (lock : t.lock = s.lock)
    (holding' : pc'.holding = true) (knows : pc'.Knows t.pipe) : Control t := by
  have own : t.procs p = { s.procs p with pc := pc' } := by
    rw [procs]
    exact s.go_self p pc'
  apply control.inside place holding (Move.of_update procs fun q _ => by rw [lock]) lock _ holding' _ knows waits
  · rw [own]
  · rw [own]

theorem Control.outside (free : pc.holding = false) (waits : pc.waits = none) (free' : pc'.holding = false)
    (procs : t.procs = update s.procs p { s.procs p with pc := pc' }) (lock : t.lock = s.lock)
    (pipe : t.pipe = s.pipe) (knows : pc'.Knows s.pipe) : Control t := by
  have awake := control.awake place waits
  have other : s.lock ≠ some p := by
    rw [ne_eq, ← control.lock p, place, free]
    exact Bool.false_ne_true
  apply control.move (Move.of_update procs fun q _ => by rw [lock])
  · rw [procs, update_self, lock]
    exact iff_of_false (by rw [free']; exact Bool.false_ne_true) other
  · intro chan asleep
    rw [procs, update_self, awake] at asleep
    cases asleep
  · rw [procs, update_self, pipe]
    exact knows
  · exact Or.inl pipe

theorem Control.goRet {value : Int} (holding : pc.holding = true) (waits : pc.waits = none) : Control (s.ret p value) := by
  have mine := control.held place holding
  have awake := control.awake place waits
  apply control.leave (t := s.ret p value) place holding (Move.of_update rfl (other_lock (Or.inr mine) (Or.inl rfl))) rfl rfl
  · rw [State.ret_self]
    rfl
  · intro chan asleep
    rw [State.ret_self, awake] at asleep
    cases asleep

theorem Control.goSleep (holding : pc.holding = true) (waits : pc'.waits = some chan) :
    Control (s.sleep p chan pc') := by
  have mine := control.held place holding
  have free : pc'.holding = false := by
    cases pc' <;> first | rfl | cases waits
  apply control.leave (t := s.sleep p chan pc') place holding
    (Move.of_update rfl (other_lock (Or.inr mine) (Or.inl rfl))) rfl rfl
  · rw [State.sleep_self]
    exact free
  · intro chan' asleep
    rw [State.sleep_self] at asleep ⊢
    rw [waits]
    exact asleep

theorem Control.wakeRet {value : Int} (holding : pc.holding = true) (waits : pc.waits = none) :
    Control ((s.wakeup p chan).ret p value) := by
  have mine := control.held place holding
  have awake := control.awake place waits
  apply control.leave (t := (s.wakeup p chan).ret p value) place holding
    (Move.of_wakeup rfl (other_lock (Or.inr mine) (Or.inl rfl))) rfl rfl
  · rw [State.ret_self]
    rfl
  · intro chan' asleep
    rw [State.ret_self, State.wakeup_self, awake] at asleep
    cases asleep

end Thread

theorem Control.close (control : Control s) (place : (s.procs p).pc = .user)
    (free : s.lock = none) (procs : t.procs = (s.wakeup p chan).procs) (lock : t.lock = s.lock) : Control t := by
  have own : t.procs p = s.procs p := by
    rw [procs, State.wakeup_self]
  apply control.move (Move.of_close procs lock)
  · rw [own, lock]
    exact control.lock p
  · rw [own]
    exact control.chan p
  · rw [own, place]
    trivial
  · exact Or.inr (Or.inr free)

theorem put_nonempty {pi : Pipe} (bounded : pi.count ≤ pipeSize) (room : pi.full = false) (ch : BitVec 8) :
    (pi.put ch).empty = false := by
  obtain ⟨count, -⟩ := Pipe.put_spec bounded room ch
  rw [← Bool.not_eq_true, Pipe.empty_iff]
  omega

theorem Control.step (fifo : Fifo s) (control : Control s) (step : Step s t) : Control t := by
  cases step with
  | kill p =>
    apply control.move (t := s.kill p) (Move.of_update rfl fun q _ => Iff.rfl)
    · rw [State.kill_self]
      exact control.lock p
    · intro chan asleep
      rw [State.kill_self] at asleep
      cases asleep
    · rw [State.kill_self]
      exact control.knows p
    · exact Or.inl rfl
  | pipeclose writable place free =>
    cases writable <;> exact control.close place free rfl rfl
  | pipewrite _ place | piperead _ place => exact control.outside place rfl rfl rfl rfl rfl rfl trivial
  | writeAcquire place free => exact control.acquire free rfl rfl rfl rfl (control.awake place rfl) nofun
  | writeMore place | readGo place =>
    have knows := control.knowsAt place
    exact control.goInside place rfl rfl rfl rfl rfl knows
  | writeEnd place | writeFault place | readReady place | readEnd place =>
    exact control.goInside place rfl rfl rfl rfl rfl trivial
  | writeAbort place | readAbort place => exact control.goRet place rfl rfl
  | writeGo place opened alive =>
    rename_i p i n stored
    have knows : stored = true → s.pipe.empty = false ∧ s.pipe.readopen = true := control.knowsAt place
    exact control.goInside place rfl rfl rfl rfl rfl ⟨opened, fun isStored => (knows isStored).1⟩
  | writeWait place full =>
    rename_i p i n stored
    have knows : s.pipe.readopen = true ∧ _ := control.knowsAt place
    apply control.inside (t := (s.wakeup p .nread).go p (.writeSleep i n)) place rfl
      (Move.of_wakeup rfl fun q _ => Iff.rfl) rfl (congrArg Proc.pc (State.go_self _ _ _)) rfl _ ⟨full, knows.1⟩ rfl
    rw [State.go_self, State.wakeup_self]
  | writeByte ch place room =>
    rename_i p i n stored
    have knows : s.pipe.readopen = true ∧ _ := control.knowsAt place
    exact control.goInside place rfl rfl rfl rfl rfl fun _ => ⟨put_nonempty fifo.bounded room ch, knows.1⟩
  | writeSleep place | readSleep place => exact control.goSleep place rfl rfl
  | writeAwake place awake free => exact control.acquire free rfl rfl rfl rfl awake nofun
  | writeDone place | readDone place => exact control.wakeRet place rfl rfl
  | readAcquire place free => exact control.acquire free rfl rfl rfl rfl (control.awake place rfl) trivial
  | readEmpty place empty opened => exact control.goInside place rfl rfl rfl rfl rfl ⟨empty, opened⟩
  | readAwake place awake free => exact control.acquire free rfl rfl rfl rfl awake trivial
  | readByte fault place more nonempty =>
    cases fault <;> exact control.goInside place rfl rfl rfl rfl rfl trivial

end Control

section Sleepers

variable {pc pc' : Pc} {proc : Proc}

def Pc.dirty : Pc → Bool
  | .writeLoop _ _ stored | .writeKilled _ _ stored | .writeFull _ _ stored => stored
  | .writeDone _ => true
  | _ => false

def Pc.draining : Pc → Bool
  | .readCopy _ _ | .readDone _ => true
  | _ => false

/-- Who sleeps on `chan` has reason to, or will be woken by a process that holds the lock. -/
def Side (chan : Chan) (opened idle : Pipe → Bool) (busy : Pc → Bool) (s : State k) : Prop :=
  ∀ q, (s.procs q).chan = some chan → opened s.pipe = true ∧ (idle s.pipe = true ∨ ∃ p, busy (s.procs p).pc = true)

variable {chan : Chan} {opened idle : Pipe → Bool} {busy : Pc → Bool} {s t : State k} {p : Fin k}

section Side

variable (side : Side chan opened idle busy s)

include side

theorem Side.others (move : Move s t p) (own : (t.procs p).chan ≠ some chan) {q : Fin k}
    (asleep : (t.procs q).chan = some chan) :
    opened s.pipe = true ∧ (idle s.pipe = true ∨ ∃ p, busy (s.procs p).pc = true) := by
  have other : q ≠ p := by
    rintro rfl
    exact own asleep
  rcases move.chan q other with kept | woken
  · rw [kept] at asleep
    exact side q asleep
  · rw [woken] at asleep
    cases asleep

theorem Side.keep (move : Move s t p) (own : (t.procs p).chan ≠ some chan)
    (same : opened t.pipe = opened s.pipe) (same' : idle t.pipe = idle s.pipe)
    (kept : busy (s.procs p).pc = true → busy (t.procs p).pc = true) : Side chan opened idle busy t := by
  intro q asleep
  obtain ⟨isOpen, reason⟩ := side.others move own asleep
  rw [same, same']
  refine ⟨isOpen, reason.imp_right fun ⟨p', working⟩ => ?_⟩
  by_cases mine : p' = p
  · rw [mine] at working
    exact ⟨p, kept working⟩
  · refine ⟨p', ?_⟩
    rw [move.pc p' mine]
    exact working

theorem Side.work (procs : t.procs = (s.go p pc).procs)
    (lock : t.lock = s.lock) (awake : (s.procs p).chan = none) (same : opened t.pipe = opened s.pipe)
    (working : busy pc = true) : Side chan opened idle busy t := by
  have own : t.procs p = { s.procs p with pc := pc } := by
    rw [procs]
    exact s.go_self p pc
  have move : Move s t p := Move.of_update procs fun q _ => by rw [lock]
  have other : (t.procs p).chan ≠ some chan := by
    rw [own, awake]
    exact nofun
  intro q asleep
  obtain ⟨isOpen, -⟩ := side.others move other asleep
  rw [same]
  refine ⟨isOpen, Or.inr ⟨p, ?_⟩⟩
  rw [own]
  exact working

theorem Side.nobody (control : Control s) (holds : ∀ pc, busy pc = true → pc.holding = true)
    (mine : s.lock = some p) (resting : busy (s.procs p).pc = false) (active : idle s.pipe = false) (q : Fin k) :
    (s.procs q).chan ≠ some chan := by
  intro asleep
  obtain ⟨-, still | ⟨p', working⟩⟩ := side q asleep
  · rw [active] at still
    cases still
  · have lock := (control.lock p').mp (holds _ working)
    rw [mine] at lock
    cases lock
    rw [resting] at working
    cases working

theorem Side.silent (control : Control s)
    (holds : ∀ pc, busy pc = true → pc.holding = true) (place : (s.procs p).pc = pc) (holding : pc.holding = true)
    (waits : pc.waits = none) (resting : busy pc = false) (active : idle s.pipe = false)
    (procs : t.procs = (s.go p pc').procs) : Side chan opened idle busy t := by
  have resting' : busy (s.procs p).pc = false := by
    rw [place]
    exact resting
  have none := side.nobody control holds (control.held place holding) resting' active
  intro q asleep
  by_cases same : q = p
  · rw [same, procs, State.go_self, control.awake place waits] at asleep
    cases asleep
  · rw [procs, State.go_other s same] at asleep
    exact absurd asleep (none q)

end Side

theorem Side.woken (none : ∀ q, (t.procs q).chan ≠ some chan) : Side chan opened idle busy t :=
  fun q asleep => absurd asleep (none q)

theorem Move.nobody (move : Move s t p) (own : (t.procs p).chan ≠ some chan) (none : ∀ q, (s.procs q).chan ≠ some chan)
    (q : Fin k) : (t.procs q).chan ≠ some chan := by
  intro asleep
  by_cases same : q = p
  · rw [same] at asleep
    exact own asleep
  rcases move.chan q same with kept | woken
  · rw [kept] at asleep
    exact none q asleep
  · rw [woken] at asleep
    cases asleep

theorem wakeup_nobody (own : (s.procs p).chan ≠ some chan) (q : Fin k) : ((s.wakeup p chan).procs q).chan ≠ some chan := by
  by_cases same : q = p
  · rw [same, State.wakeup_self]
    exact own
  unfold State.wakeup
  dsimp only
  by_cases asleep : (s.procs q).chan = some chan
  · rw [if_pos ⟨same, asleep⟩]
    exact nofun
  · rw [if_neg fun both => asleep both.2]
    exact asleep

theorem nobody_after_wakeup (procs : t.procs = update (s.wakeup p chan).procs p proc)
    (awake : (s.procs p).chan = none) (own : proc.chan = none) (q : Fin k) : (t.procs q).chan ≠ some chan := by
  rw [procs]
  by_cases same : q = p
  · rw [same, update_self, own]
    exact nofun
  · rw [update_of_ne same]
    apply wakeup_nobody
    rw [awake]
    exact nofun

theorem dirty_holding (pc : Pc) (dirty : pc.dirty = true) : pc.holding = true := by
  cases pc <;> first | rfl | cases dirty

theorem draining_holding (pc : Pc) (draining : pc.draining = true) : pc.holding = true := by
  cases pc <;> first | rfl | cases draining

theorem Side.still (isOpen : opened t.pipe = true) (still : idle t.pipe = true) : Side chan opened idle busy t :=
  fun _ _ => ⟨isOpen, Or.inl still⟩

structure Wake (s : State k) : Prop where
  readers : Side .nread Pipe.writeopen Pipe.empty Pc.dirty s
  writers : Side .nwrite Pipe.readopen Pipe.full Pc.draining s

theorem Wake.quiet (wake : Wake s) (move : Move s t p) (own : (t.procs p).chan = none) (pipe : t.pipe = s.pipe)
    (dirty : (s.procs p).pc.dirty = true → (t.procs p).pc.dirty = true)
    (draining : (s.procs p).pc.draining = true → (t.procs p).pc.draining = true) : Wake t := by
  have awake : ∀ chan, (t.procs p).chan ≠ some chan := by
    intro chan asleep
    rw [own] at asleep
    cases asleep
  constructor
  · exact wake.readers.keep move (awake _) (by rw [pipe]) (by rw [pipe]) dirty
  · exact wake.writers.keep move (awake _) (by rw [pipe]) (by rw [pipe]) draining

theorem Wake.go (wake : Wake s) (place : (s.procs p).pc = pc) (waits : (s.procs p).chan = none)
    (procs : t.procs = (s.go p pc').procs) (lock : ∀ q, q ≠ p → (t.lock = some q ↔ s.lock = some q)) (pipe : t.pipe = s.pipe)
    (dirty : pc.dirty = true → pc'.dirty = true) (draining : pc.draining = true → pc'.draining = true) : Wake t := by
  have own : t.procs p = { s.procs p with pc := pc' } := by
    rw [procs]
    exact s.go_self p pc'
  apply wake.quiet (Move.of_update procs lock)
  · rw [own]
    exact waits
  · exact pipe
  · rw [own, place]
    exact dirty
  · rw [own, place]
    exact draining

/-- A step in which `pipewrite` gives up because the process was killed, although a reader sleeps that it has not
    told about the bytes it stored. -/
def Drops (s t : State k) : Prop :=
  ∃ p i n, (s.procs p).pc = .writeKilled i n true ∧ (s.procs p).killed = true ∧ t = s.ret p (-1) ∧
    ∃ q, (s.procs q).chan = some .nread

theorem ne_some_of_none (awake : proc.chan = none) (chan : Chan) : proc.chan ≠ some chan := by
  intro asleep
  rw [awake] at asleep
  cases asleep

theorem Wake.wakeup (wake : Wake s) (procs : t.procs = update (s.wakeup p chan).procs p proc)
    (lock : ∀ q, q ≠ p → (t.lock = some q ↔ s.lock = some q)) (pipe : t.pipe = s.pipe) (awake : (s.procs p).chan = none)
    (own : proc.chan = none) (dirty : chan = .nwrite → (s.procs p).pc.dirty = false)
    (draining : chan = .nread → (s.procs p).pc.draining = false) : Wake t := by
  have move : Move s t p := Move.of_wakeup procs lock
  have mine : (t.procs p).chan = none := by rw [procs, update_self, own]
  cases chan with
  | nread =>
    refine ⟨Side.woken (nobody_after_wakeup procs awake own), ?_⟩
    apply wake.writers.keep move (ne_some_of_none mine _) (by rw [pipe]) (by rw [pipe])
    rw [draining rfl]
    exact nofun
  | nwrite =>
    refine ⟨?_, Side.woken (nobody_after_wakeup procs awake own)⟩
    apply wake.readers.keep move (ne_some_of_none mine _) (by rw [pipe]) (by rw [pipe])
    rw [dirty rfl]
    exact nofun

theorem Wake.step (control : Control s) (wake : Wake s) (step : Step s t) (keeps : ¬Drops s t) : Wake t := by
  cases step with
  | kill p =>
    apply wake.quiet (t := s.kill p) (Move.of_update rfl fun q _ => Iff.rfl) (congrArg Proc.chan (s.kill_self p)) rfl
    · rw [State.kill_self]
      exact id
    · rw [State.kill_self]
      exact id
  | pipeclose writable place free =>
    rename_i p
    have awake := ne_some_of_none (control.awake place rfl)
    have own : ∀ chan chan', ((s.wakeup p chan).procs p).chan ≠ some chan' := by
      intro chan chan'
      rw [State.wakeup_self]
      exact awake chan'
    have same : ∀ chan, ((s.wakeup p chan).procs p).pc = (s.procs p).pc := fun chan => (wakeup_other s p chan p).1
    cases writable with
    | false =>
      constructor
      · apply wake.readers.keep (Move.of_close (p := p) rfl rfl) (own .nwrite .nread) rfl rfl
        rw [← same .nwrite]
        exact id
      · exact Side.woken (wakeup_nobody (awake .nwrite))
    | true =>
      constructor
      · exact Side.woken (wakeup_nobody (awake .nread))
      · apply wake.writers.keep (Move.of_close (p := p) rfl rfl) (own .nread .nwrite) rfl rfl
        rw [← same .nread]
        exact id
  | pipewrite _ place | piperead _ place | readEmpty place | readReady place | readGo place =>
    exact wake.go place (control.awake place rfl) rfl (fun q _ => Iff.rfl) rfl nofun nofun
  | writeAcquire place free | readAcquire place free =>
    exact wake.go place (control.awake place rfl) rfl (other_lock (Or.inl free) (Or.inr rfl)) rfl nofun nofun
  | writeMore place | writeGo place =>
    exact wake.go place (control.awake place rfl) rfl (fun q _ => Iff.rfl) rfl id nofun
  | writeEnd place | writeFault place =>
    exact wake.go place (control.awake place rfl) rfl (fun q _ => Iff.rfl) rfl (fun _ => rfl) nofun
  | writeAbort place stop =>
    rename_i p i n stored
    have mine := control.held place rfl
    have awake := control.awake place rfl
    have own : ((s.ret p (-1)).procs p).chan = none := by
      rw [State.ret_self]
      exact awake
    have move : Move s (s.ret p (-1)) p := Move.of_update rfl (other_lock (Or.inr mine) (Or.inl rfl))
    constructor
    · cases stored with
      | false =>
        apply wake.readers.keep move (ne_some_of_none own _) rfl rfl
        rw [place]
        exact nofun
      | true =>
        have knows := control.knowsAt place rfl
        have killed : (s.procs p).killed = true := by
          rcases stop with closed | killed
          · rw [knows.2] at closed
            cases closed
          · exact killed
        apply Side.woken (move.nobody (ne_some_of_none own _) _)
        intro q asleep
        exact keeps ⟨p, i, n, place, killed, rfl, q, asleep⟩
    · apply wake.writers.keep move (ne_some_of_none own _) rfl rfl
      rw [place]
      exact nofun
  | writeWait place full =>
    have awake := control.awake place rfl
    refine wake.wakeup rfl (fun q _ => Iff.rfl) rfl awake ?_ nofun fun _ => by rw [place]; rfl
    rw [State.wakeup_self]
    exact awake
  | writeByte ch place room =>
    constructor
    · exact wake.readers.work rfl rfl (control.awake place rfl) rfl rfl
    · exact wake.writers.silent control draining_holding place rfl rfl rfl room rfl
  | writeSleep place =>
    rename_i p i n
    have mine := control.held place rfl
    obtain ⟨full, isOpen⟩ := control.knowsAt place
    have move : Move s (s.sleep p .nwrite (.writeAsleep i n)) p := Move.of_update rfl (other_lock (Or.inr mine) (Or.inl rfl))
    constructor
    · apply wake.readers.keep move _ rfl rfl
      · rw [place]
        exact nofun
      · rw [State.sleep_self]
        exact nofun
    · exact Side.still isOpen full
  | writeAwake place awake free | readAwake place awake free =>
    exact wake.go place awake rfl (other_lock (Or.inl free) (Or.inr rfl)) rfl nofun nofun
  | writeDone place =>
    have awake := control.awake place rfl
    have lock := other_lock (Or.inr (control.held place rfl)) (Or.inl rfl)
    refine wake.wakeup rfl lock rfl awake ?_ nofun fun _ => by rw [place]; rfl
    rw [State.wakeup_self]
    exact awake
  | readAbort place killed =>
    rename_i p n
    have mine := control.held place rfl
    have move : Move s (s.ret p (-1)) p := Move.of_update rfl (other_lock (Or.inr mine) (Or.inl rfl))
    apply wake.quiet move _ rfl
    · rw [place]
      exact nofun
    · rw [place]
      exact nofun
    · rw [State.ret_self]
      exact control.awake place rfl
  | readSleep place =>
    rename_i p n
    have mine := control.held place rfl
    obtain ⟨empty, isOpen⟩ := control.knowsAt place
    have move : Move s (s.sleep p .nread (.readAsleep n)) p := Move.of_update rfl (other_lock (Or.inr mine) (Or.inl rfl))
    constructor
    · exact Side.still isOpen empty
    · apply wake.writers.keep move _ rfl rfl
      · rw [place]
        exact nofun
      · rw [State.sleep_self]
        exact nofun
  | readByte fault place more nonempty =>
    constructor
    · exact wake.readers.silent control dirty_holding place rfl rfl rfl nonempty rfl
    · cases fault <;> exact wake.writers.work rfl rfl (control.awake place rfl) rfl rfl
  | readEnd place done =>
    exact wake.go place (control.awake place rfl) rfl (fun q _ => Iff.rfl) rfl nofun (fun _ => rfl)
  | readDone place =>
    have awake := control.awake place rfl
    have lock := other_lock (Or.inr (control.held place rfl)) (Or.inl rfl)
    refine wake.wakeup rfl lock rfl awake ?_ (fun _ => by rw [place]; rfl) nofun
    rw [State.wakeup_self]
    exact awake

end Sleepers

section Runs

/-- While the lock is free, nobody sleeps in `piperead` although there are bytes or no writer is left, nor in
    `pipewrite` although there is room or no reader is left. -/
def NoLostWakeup (s : State k) : Prop :=
  s.lock = none →
    (∀ p, (s.procs p).chan = some .nread → s.pipe.nread = s.pipe.nwrite ∧ s.pipe.writeopen = true) ∧
    ∀ p, (s.procs p).chan = some .nwrite → s.pipe.nwrite = s.pipe.nread + BitVec.ofNat 32 pipeSize ∧ s.pipe.readopen = true

abbrev ReachKept : State k → Prop := Transition.Reachable Init fun s t => Step s t ∧ ¬Drops s t

theorem Control.init {s : State k} (init : Init s) : Control s := by
  refine ⟨fun p => ?_, fun p chan asleep => ?_, fun p => ?_⟩
  · rw [init.pc p, init.lock]
    exact iff_of_false Bool.false_ne_true nofun
  · rw [init.chan p] at asleep
    cases asleep
  · rw [init.pc p]
    trivial

theorem control_of_reach {s : State k} (reach : Reach s) : Fifo s ∧ Control s := by
  apply reach.invariant
  · intro s init
    exact ⟨.init init, .init init⟩
  · intro s t both step
    exact ⟨both.1.step step, both.2.step both.1 step⟩

theorem wake_of_reach {s : State k} (reach : ReachKept s) : Fifo s ∧ Control s ∧ Wake s := by
  apply reach.invariant
  · intro s init
    refine ⟨.init init, .init init, fun q asleep => ?_, fun q asleep => ?_⟩
    · rw [init.chan q] at asleep
      cases asleep
    · rw [init.chan q] at asleep
      cases asleep
  · intro s t all step
    exact ⟨all.1.step step.1, all.2.1.step all.1 step.1, all.2.2.step all.2.1 step.1 step.2⟩

/-- Without a dropped wakeup none is lost, and a dropped one leaves a reader asleep beside the bytes. -/
theorem no_lost_wakeup_iff :
    (∀ s : State k, ReachKept s → NoLostWakeup s) ∧
      ∀ s t : State k, Reach s → Step s t → Drops s t → ¬NoLostWakeup t := by
  constructor
  · intro s reach free
    obtain ⟨-, control, wake⟩ := wake_of_reach reach
    have idle : ∀ p, (s.procs p).pc.holding = false := by
      intro p
      rw [← Bool.not_eq_true, control.lock p, free]
      exact nofun
    constructor
    · intro p asleep
      obtain ⟨isOpen, empty | ⟨q, dirty⟩⟩ := wake.readers p asleep
      · exact ⟨eq_of_beq empty, isOpen⟩
      · have held := dirty_holding _ dirty
        rw [idle q] at held
        cases held
    · intro p asleep
      obtain ⟨isOpen, full | ⟨q, draining⟩⟩ := wake.writers p asleep
      · exact ⟨eq_of_beq full, isOpen⟩
      · have held := draining_holding _ draining
        rw [idle q] at held
        cases held
  · intro s t reach step drops kept
    obtain ⟨-, control⟩ := control_of_reach reach
    obtain ⟨p, i, n, place, killed, left, q, asleep⟩ := drops
    have waiting := control.chan q .nread asleep
    have other : q ≠ p := by
      rintro rfl
      rw [place] at waiting
      cases waiting
    have still : (t.procs q).chan = some .nread := by
      rw [left]
      change ((update s.procs p _) q).chan = some .nread
      rw [update_of_ne other]
      exact asleep
    have stored : s.pipe.empty = false := (control.knowsAt place rfl).1
    have same : t.pipe = s.pipe := by
      rw [left]
      rfl
    have empty := ((kept (congrArg State.lock left)).1 q still).1
    rw [same] at empty
    rw [Pipe.empty, empty, beq_self_eq_true] at stored
    cases stored

/-- Process 1 stores the first of two bytes for the sleeping process 0, is killed and returns. -/
theorem killed_writer_loses_wakeup : ∃ s : State 2, Reach s ∧ ¬NoLostWakeup s := by
  have begin : Reach (fresh 2) := .start fresh_init
  have asleep := (((begin.next (.piperead (p := 0) 1 rfl)).next (.readAcquire (p := 0) rfl rfl)).next
    (.readEmpty (p := 0) rfl rfl rfl)).next (.readGo (p := 0) rfl rfl)
  have stored := (((((asleep.next (.readSleep (p := 0) rfl)).next (.pipewrite (p := 1) 2 rfl)).next
    (.writeAcquire (p := 1) rfl rfl)).next (.writeMore (p := 1) rfl (by decide))).next
    (.writeGo (p := 1) rfl rfl rfl)).next (.writeByte (p := 1) 7 rfl rfl)
  have left := ((stored.next (.writeMore (p := 1) rfl (by decide))).next (.kill 1)).next
    (.writeAbort (p := 1) rfl (Or.inr rfl))
  exact ⟨_, left, fun kept => absurd ((kept rfl).1 0 rfl).1 (by decide)⟩

end Runs

end OShard.Pipes
