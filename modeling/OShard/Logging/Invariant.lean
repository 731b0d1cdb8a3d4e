import OShard.Logging.Model

namespace OShard.Logging

open Update Function

section Buffers

variable (m : Blocks) (b c : Nat)

theorem Blocks.buf_setBuf (x : Buf) : (m.setBuf b x).buf c = if c = b then x else m.buf c := by
  unfold Blocks.buf Blocks.setBuf
  by_cases same : c = b
  · subst same
    simp
  · simp [same]

@[simp] theorem Blocks.buf_touch : (m.touch b).buf c = m.buf c := by
  unfold Blocks.touch
  rw [Blocks.buf_setBuf]
  by_cases same : c = b
  · rw [if_pos same, same]
  · rw [if_neg same]

theorem Blocks.buf_bwrite (data : Data) :
    (m.bwrite b data).buf c = if c = b then { m.buf b with data := data } else m.buf c := by
  unfold Blocks.bwrite
  by_cases same : c = b
  · subst same
    simp [Blocks.setBuf, Blocks.buf]
  · simp [Blocks.setBuf, Blocks.buf, same]

theorem Blocks.buf_evict : (m.evict b).buf c = if c = b then ⟨m.disk b, 0, none⟩ else m.buf c := by
  unfold Blocks.buf Blocks.evict
  by_cases same : c = b
  · subst same
    simp
  · simp [same]

@[simp] theorem Blocks.disk_touch : (m.touch b).disk = m.disk := rfl

@[simp] theorem Blocks.disk_bwrite (data : Data) : (m.bwrite b data).disk = update m.disk b data := rfl

@[simp] theorem Blocks.disk_bunpin : (m.bunpin b).disk = m.disk := rfl

end Buffers

section Header

theorem readHead_writeHead (lh : List Nat) (block : Data) : readHead (writeHead lh block) = lh := by
  unfold readHead writeHead
  apply List.ext_getElem
  · simp
  · intro i lower upper
    simp [upper]

theorem Config.block_area {cfg : Config} {i : Nat} (room : i + 1 < cfg.size) : ¬ cfg.Home (cfg.start + i + 1) := by
  unfold Config.Home
  omega

theorem Config.head_area {cfg : Config} (room : 0 < cfg.size) : ¬ cfg.Home cfg.start := by
  unfold Config.Home
  omega

end Header

section Calls

variable {log log' : Log} {cfg : Config} {b : Nat} {pin : Bool}

theorem Log.beginOp_some (result : log.beginOp = some log') :
    log.committing = false ∧ log.lh.length + (log.outstanding + 1) * maxOpBlocks ≤ logSize ∧
      log' = { log with outstanding := log.outstanding + 1 } := by
  unfold Log.beginOp at result
  split at result
  · cases result
  rename_i free
  split at result
  · cases result
  · rename_i room
    cases result
    exact ⟨Bool.eq_false_of_not_eq_true free, Nat.not_lt.mp room, rfl⟩

theorem Log.endOp_ok {doCommit : Bool} (result : log.endOp = .ok (doCommit, log')) :
    log.committing = false ∧ doCommit = decide (log.outstanding - 1 = 0) ∧
      log' = { log with outstanding := log.outstanding - 1, committing := doCommit } := by
  unfold Log.endOp at result
  by_cases busy : log.committing = true
  · simp [busy, Bind.bind, Except.bind, throw, throwThe, MonadExceptOf.throw] at result
  by_cases last : log.outstanding - 1 = 0
  · simp only [busy, last, Bind.bind, Except.bind, Pure.pure, Except.pure, Bool.false_eq_true, if_false, if_true,
      Except.ok.injEq, Prod.mk.injEq] at result
    obtain ⟨rfl, rfl⟩ := result
    exact ⟨Bool.eq_false_of_not_eq_true busy, by simp [last], by rw [last]⟩
  · simp only [busy, last, Bind.bind, Except.bind, Pure.pure, Except.pure, Bool.false_eq_true, if_false,
      Except.ok.injEq, Prod.mk.injEq] at result
    obtain ⟨rfl, rfl⟩ := result
    exact ⟨Bool.eq_false_of_not_eq_true busy, by simp [last], rfl⟩

variable (result : log.logWrite cfg b = .ok (pin, log'))

include result

theorem Log.logWrite_guards : ¬(logSize ≤ log.lh.length ∨ cfg.size ≤ log.lh.length + 1) ∧ ¬log.outstanding < 1 := by
  unfold Log.logWrite at result
  by_cases full : logSize ≤ log.lh.length ∨ cfg.size ≤ log.lh.length + 1
  · simp [full, Bind.bind, Except.bind, throw, throwThe, MonadExceptOf.throw] at result
  · by_cases closed : log.outstanding < 1
    · simp [full, closed, Bind.bind, Except.bind, throw, throwThe, MonadExceptOf.throw] at result
    · exact ⟨full, closed⟩

theorem Log.logWrite_ok :
    log.lh.length < logSize ∧ log.lh.length + 1 < cfg.size ∧ pin = decide (b ∉ log.lh) ∧
      log' = { log with lh := if b ∈ log.lh then log.lh else log.lh ++ [b] } := by
  obtain ⟨full, closed⟩ := Log.logWrite_guards result
  unfold Log.logWrite at result
  by_cases member : b ∈ log.lh
  · have found := List.idxOf_lt_length_iff.mpr member
    simp only [full, closed, found.ne, Bind.bind, Except.bind, Pure.pure, Except.pure, if_false, Except.ok.injEq,
      Prod.mk.injEq] at result
    obtain ⟨rfl, rfl⟩ := result
    have same := List.set_getElem_self found
    rw [List.getElem_idxOf found] at same
    refine ⟨by omega, by omega, by simp [member], ?_⟩
    rw [same, if_pos member]
  · have absent := List.idxOf_eq_length member
    simp only [full, closed, absent, Bind.bind, Except.bind, Pure.pure, Except.pure, if_false, if_true,
      Except.ok.injEq, Prod.mk.injEq] at result
    obtain ⟨rfl, rfl⟩ := result
    refine ⟨by omega, by omega, by simp [member], ?_⟩
    rw [if_neg member]

end Calls

section Pins

def Pins (pinned : List Nat) (m : Blocks) : Prop :=
  ∀ b, (if b ∈ pinned then 1 else 0) + (if (m.buf b).lock = none then 0 else 1) ≤ (m.buf b).refcnt

variable {pinned pinned' : List Nat} {m : Blocks} {b : Nat}

section Pins

variable (pins : Pins pinned m)

include pins

theorem Pins.unlocked (unused : (m.buf b).refcnt = 0) : b ∉ pinned ∧ (m.buf b).lock = none := by
  have count := pins b
  rw [unused] at count
  by_cases member : b ∈ pinned
  · simp [member] at count
  · by_cases free : (m.buf b).lock = none
    · exact ⟨member, free⟩
    · simp [member, free] at count

theorem Pins.subset (subset : pinned' ⊆ pinned) : Pins pinned' m := by
  intro c
  have count := pins c
  by_cases member : c ∈ pinned'
  · simpa [member, subset member] using count
  · simp only [member, if_false]
    omega

theorem Pins.set {x : Buf} (enough : (if b ∈ pinned' then 1 else 0) + (if x.lock = none then 0 else 1) ≤ x.refcnt)
    (others : ∀ c, c ≠ b → c ∈ pinned' → c ∈ pinned) : Pins pinned' (m.setBuf b x) := by
  intro c
  rw [Blocks.buf_setBuf]
  by_cases same : c = b
  · rw [if_pos same, same]
    exact enough
  rw [if_neg same]
  have count := pins c
  by_cases member : c ∈ pinned'
  · simpa [member, others c same member] using count
  · simp only [member, if_false]
    omega

theorem Pins.bread (free : (m.buf b).lock = none) (p : Nat) :
    Pins pinned (m.setBuf b { m.buf b with refcnt := (m.buf b).refcnt + 1, lock := some p }) := by
  have count := pins b
  apply pins.set
  · simp only [free, if_true, Nat.add_zero, reduceCtorEq, if_false] at count ⊢
    omega
  · exact fun c _ member => member

theorem Pins.data (data : Data) : Pins pinned (m.setBuf b { m.buf b with data := data }) :=
  pins.set (pins b) fun _ _ member => member

theorem Pins.bpin : Pins (pinned ++ [b]) (m.bpin b) := by
  have count := pins b
  apply pins.set
  · have last : b ∈ pinned ++ [b] := by simp
    simp only [last, if_true]
    omega
  · intro c other member
    simpa [other] using member

theorem Pins.brelse {p : Nat} (lock : (m.buf b).lock = some p) :
    Pins pinned (m.setBuf b { m.buf b with refcnt := (m.buf b).refcnt - 1, lock := none }) := by
  have count := pins b
  apply pins.set
  · simp only [lock, reduceCtorEq, if_false, if_true] at count ⊢
    omega
  · exact fun c _ member => member

theorem Pins.evict (unused : (m.buf b).refcnt = 0) : Pins pinned (m.evict b) := by
  obtain ⟨absent, -⟩ := pins.unlocked unused
  intro c
  rw [Blocks.buf_evict]
  by_cases same : c = b
  · rw [if_pos same, same]
    simp [absent]
  · rw [if_neg same]
    exact pins c

theorem Pins.touch (b : Nat) : Pins pinned (m.touch b) := by
  intro c
  rw [Blocks.buf_touch]
  exact pins c

theorem Pins.bwrite (b : Nat) (data : Data) : Pins pinned (m.bwrite b data) := by
  intro c
  rw [Blocks.buf_bwrite]
  by_cases same : c = b
  · rw [if_pos same, same]
    exact pins b
  · rw [if_neg same]
    exact pins c

end Pins

theorem Pins.bunpin (pins : Pins (b :: pinned) m) (absent : b ∉ pinned) : Pins pinned (m.bunpin b) := by
  have count := pins b
  apply pins.set
  · simp only [List.mem_cons, true_or, if_true, absent, if_false] at count ⊢
    omega
  · exact fun c _ member => List.mem_cons_of_mem _ member

end Pins

section Control

def Pc.commits : Pc → Bool
  | .writeLog _ | .installTrans _ | .committed => true
  | _ => false

def State.pinned (s : State) : List Nat :=
  match s.pc with
  | .idle | .writeLog _ | .committed => s.log.lh
  | .installTrans tail => s.log.lh.drop tail
  | .boot | .recover _ => []

structure Control (s : State) : Prop where
  active : ∃ running : List Nat, running.Nodup ∧ running.length = s.log.outstanding ∧ ∀ p, s.op p ≠ none ↔ p ∈ running
  committing : s.log.committing = s.pc.commits
  quiet : s.pc ≠ .idle → s.log.outstanding = 0
  modified : ∀ b, s.modified b = true → ∃ p, (s.blocks.buf b).lock = some p ∧ s.op p ≠ none
  nodup : s.pc.up = true → s.log.lh.Nodup
  pins : Pins s.pinned s.blocks

variable {s t : State} {p b id tail : Nat} {log : Log} {cfg : Config}

section Control

variable (control : Control s)

include control

theorem Control.closed (busy : s.pc ≠ .idle) (p : Nat) : s.op p = none := by
  obtain ⟨running, -, count, member⟩ := control.active
  rw [control.quiet busy, List.length_eq_zero_iff] at count
  by_contra opened
  have impossible := (member p).mp opened
  rw [count] at impossible
  cases impossible

theorem Control.unmodified (busy : s.pc ≠ .idle) (b : Nat) : s.modified b = false := by
  by_contra changed
  obtain ⟨p, -, opened⟩ := control.modified b (Bool.eq_true_of_not_eq_false changed)
  exact opened (control.closed busy p)

theorem Control.idle (opened : s.op p ≠ none) : s.pc = .idle := by
  by_contra busy
  exact opened (control.closed busy p)

theorem Control.idle_of_free (up : s.pc.up = true) (free : s.log.committing = false) : s.pc = .idle := by
  have commits := control.committing
  rw [free] at commits
  cases place : s.pc with
  | idle => rfl
  | writeLog | installTrans | committed => rw [place] at commits; cases commits
  | boot | recover => rw [place] at up; cases up

theorem Control.advance (busy : s.pc ≠ .idle) (op : t.op = s.op)
    (modified : t.modified = s.modified) (count : t.log.outstanding = s.log.outstanding)
    (committing : t.log.committing = t.pc.commits) (nodup : t.pc.up = true → t.log.lh.Nodup)
    (pins : Pins t.pinned t.blocks) : Control t := by
  refine ⟨?_, committing, fun _ => ?_, fun b changed => ?_, nodup, pins⟩
  · rw [op, count]
    exact control.active
  · rw [count]
    exact control.quiet busy
  · rw [modified, control.unmodified busy b] at changed
    cases changed

theorem Control.beginOp (up : s.pc.up = true) (free : s.op p = none) (result : s.log.beginOp = some log) :
    Control { s with log := log, op := update s.op p (some s.ops), ops := s.ops + 1 } := by
  obtain ⟨allowed, -, rfl⟩ := Log.beginOp_some result
  obtain ⟨running, nodup, count, member⟩ := control.active
  have idle := control.idle_of_free up allowed
  have absent : p ∉ running := fun present => (member p).mpr present free
  refine ⟨⟨p :: running, List.nodup_cons.mpr ⟨absent, nodup⟩, by simp [count], fun q => ?_⟩, control.committing,
    fun busy => absurd idle busy, fun b changed => ?_, control.nodup, control.pins⟩
  · by_cases same : q = p
    · simp [same]
    · simp [same, member q]
  · obtain ⟨q, lock, opened⟩ := control.modified b changed
    refine ⟨q, lock, ?_⟩
    by_cases same : q = p
    · simp [same]
    · simpa [same] using opened

theorem Control.logWrite {pin : Bool}
    (opened : s.op p = some id) (result : s.log.logWrite cfg b = .ok (pin, log)) (history pending : List Entry) :
    Control { s with
      blocks := if pin then s.blocks.bpin b else s.blocks
      log := log
      modified := update s.modified b false
      history := history
      pending := pending } := by
  obtain ⟨-, -, new, rfl⟩ := Log.logWrite_ok result
  have idle := control.idle (p := p) (by rw [opened]; simp)
  have pins := control.pins
  unfold State.pinned at pins
  rw [idle] at pins
  refine ⟨control.active, control.committing, control.quiet, fun c changed => ?_, fun up => ?_, ?_⟩
  · have other : c ≠ b := by
      intro same
      simp [same] at changed
    obtain ⟨q, lock, opened'⟩ := control.modified c (by simpa [other] using changed)
    refine ⟨q, ?_, opened'⟩
    cases pin with
    | false => exact lock
    | true => simpa [Blocks.bpin, Blocks.buf_setBuf, other] using lock
  · have nodup := control.nodup (by rw [idle]; rfl)
    dsimp only
    by_cases member : b ∈ s.log.lh
    · rw [if_pos member]
      exact nodup
    rw [if_neg member]
    exact List.nodup_append.mpr ⟨nodup, List.nodup_singleton b, by
      intro c old d last same
      rw [List.mem_singleton] at last
      exact member (by rw [← last, ← same]; exact old)⟩
  · unfold State.pinned
    rw [idle]
    dsimp only
    by_cases member : b ∈ s.log.lh
    · rw [if_pos member, new]
      simpa [member] using pins
    · rw [if_neg member, new]
      simpa [member] using pins.bpin

theorem Control.endOp {doCommit : Bool}
    (opened : s.op p = some id) (passed : ∀ b, s.modified b = true → (s.blocks.buf b).lock ≠ some p)
    (result : s.log.endOp = .ok (doCommit, log)) :
    Control { s with
      log := log
      op := update s.op p none
      pc := if doCommit then (if log.lh = [] then .committed else .writeLog 0) else s.pc } := by
  obtain ⟨-, last, rfl⟩ := Log.endOp_ok result
  obtain ⟨running, nodup, count, member⟩ := control.active
  have idle := control.idle (p := p) (by rw [opened]; simp)
  have present : p ∈ running := (member p).mp (by rw [opened]; simp)
  have pins := control.pins
  unfold State.pinned at pins
  rw [idle] at pins
  have fresh := control.nodup (by rw [idle]; rfl)
  refine ⟨⟨running.erase p, nodup.erase p, by simp [List.length_erase_of_mem present, count], fun q => ?_⟩, ?_,
    fun busy => ?_, fun b changed => ?_, fun _ => fresh, ?_⟩
  · rw [nodup.mem_erase_iff]
    by_cases same : q = p
    · simp [same]
    · simp [same, member q]
  · dsimp only
    cases doCommit with
    | false => rw [if_neg (by decide), idle]; rfl
    | true =>
      rw [if_pos rfl]
      split <;> rfl
  · dsimp only at busy ⊢
    cases doCommit with
    | false => exact absurd idle busy
    | true => exact of_decide_eq_true last.symm
  · obtain ⟨q, lock, opened'⟩ := control.modified b changed
    have other : q ≠ p := by
      intro same
      rw [same] at lock
      exact passed b changed lock
    exact ⟨q, lock, by simpa [other] using opened'⟩
  · unfold State.pinned
    dsimp only
    cases doCommit with
    | false =>
      rw [if_neg (by decide), idle]
      exact pins
    | true =>
      rw [if_pos rfl]
      by_cases empty : s.log.lh = []
      · rw [if_pos empty]
        exact pins
      · rw [if_neg empty]
        exact pins

end Control

theorem drop_of_getElem? {lh : List Nat} (entry : lh[tail]? = some b) : lh.drop tail = b :: lh.drop (tail + 1) := by
  obtain ⟨bound, value⟩ := List.getElem?_eq_some_iff.mp entry
  rw [List.drop_eq_getElem_cons bound, value]

theorem Control.installTrans (control : Control s) {c : Nat} (data : Data)
    (place : s.pc = .installTrans tail) (entry : s.log.lh[tail]? = some b) :
    Control { s with
      blocks := (((s.blocks.touch c).touch b).bwrite b data).bunpin b
      pc := .installTrans (tail + 1) } := by
  have nodup := control.nodup (by rw [place]; rfl)
  have pins := control.pins
  have suffix := drop_of_getElem? entry
  have unique := (List.drop_sublist tail s.log.lh).nodup nodup
  unfold State.pinned at pins
  rw [suffix] at unique
  rw [place] at pins
  dsimp only at pins
  rw [suffix] at pins
  exact control.advance (by rw [place]; simp) rfl rfl rfl (control.committing.trans (by rw [place]; rfl)) (fun _ => nodup)
    ((((pins.touch c).touch b).bwrite b data).bunpin (List.nodup_cons.mp unique).1)

theorem Control.step (control : Control s) (step : Step cfg s t) : Control t := by
  have pins := control.pins
  have committing := control.committing
  cases step with
  | beginOp p up free result => exact control.beginOp up free result
  | bread p b up free =>
    refine ⟨control.active, committing, control.quiet, fun c changed => ?_, control.nodup, pins.bread free p⟩
    obtain ⟨q, lock, opened⟩ := control.modified c changed
    have other : c ≠ b := by
      intro same
      rw [same, free] at lock
      cases lock
    exact ⟨q, by dsimp only; rw [Blocks.buf_setBuf, if_neg other]; exact lock, opened⟩
  | modify data lock opened home =>
    rename_i p b
    refine ⟨control.active, committing, control.quiet, fun c changed => ?_, control.nodup, pins.data data⟩
    dsimp only
    rw [Blocks.buf_setBuf]
    by_cases same : c = b
    · exact ⟨p, by rw [if_pos same]; exact lock, opened⟩
    · rw [if_neg same]
      exact control.modified c (by simpa [same] using changed)
  | logWrite lock opened home result => exact control.logWrite opened result _ _
  | brelse lock clean =>
    rename_i p b
    refine ⟨control.active, committing, control.quiet, fun c changed => ?_, control.nodup, pins.brelse lock⟩
    have other : c ≠ b := by
      intro same
      rw [same] at changed
      exact absurd changed (by rw [clean]; decide)
    dsimp only
    rw [Blocks.buf_setBuf, if_neg other]
    exact control.modified c changed
  | evict unused =>
    rename_i b
    refine ⟨control.active, committing, control.quiet, fun c changed => ?_, control.nodup, pins.evict unused⟩
    obtain ⟨q, lock, opened⟩ := control.modified c changed
    have other : c ≠ b := by
      intro same
      rw [same, (pins.unlocked unused).2] at lock
      cases lock
    exact ⟨q, by dsimp only; rw [Blocks.buf_evict, if_neg other]; exact lock, opened⟩
  | endOp opened passed result => exact control.endOp opened passed result
  | writeLog place entry free free' =>
    unfold State.pinned at pins
    rw [place] at pins committing
    exact control.advance (by rw [place]; simp) rfl rfl rfl committing (fun _ => control.nodup (by rw [place]; rfl))
      (((pins.touch _).touch _).bwrite _ _)
  | writeHead place free =>
    unfold State.pinned at pins
    rw [place] at pins committing
    exact control.advance (by rw [place]; simp) rfl rfl rfl committing (fun _ => control.nodup (by rw [place]; rfl))
      (pins.bwrite _ _)
  | installTrans place entry free free' => exact control.installTrans _ place entry
  | clearHead place free =>
    unfold State.pinned at pins
    rw [place] at pins committing
    exact control.advance (by rw [place]; simp) rfl rfl rfl committing (fun _ => List.nodup_nil)
      ((pins.subset (List.nil_subset _)).bwrite _ _)
  | finish place =>
    unfold State.pinned at pins
    rw [place] at pins
    exact control.advance (by rw [place]; simp) rfl rfl rfl rfl (fun _ => control.nodup (by rw [place]; rfl)) pins
  | crash => exact ⟨⟨[], List.nodup_nil, rfl, by simp [State.crash]⟩, rfl, fun _ => rfl, by simp [State.crash],
      fun _ => List.nodup_nil, fun b => Nat.zero_le _⟩
  | readHead place =>
    unfold State.pinned at pins
    rw [place] at pins committing
    exact control.advance (by rw [place]; simp) rfl rfl rfl committing (fun up => by cases up) (pins.touch _)
  | recover place entry =>
    unfold State.pinned at pins
    rw [place] at pins committing
    exact control.advance (by rw [place]; simp) rfl rfl rfl committing (fun up => by cases up)
      (((pins.touch _).touch _).bwrite _ _)
  | recoverClear place =>
    unfold State.pinned at pins
    rw [place] at pins committing
    exact control.advance (by rw [place]; simp) rfl rfl rfl committing (fun _ => List.nodup_nil) (pins.bwrite _ _)

theorem control_of_reach {disk : Nat → Data} (reached : Reach cfg disk s) : Control s := by
  apply reached.invariant
  · intro s start
    rw [start]
    exact ⟨⟨[], List.nodup_nil, rfl, by simp⟩, rfl, fun _ => rfl, by simp, fun _ => List.nodup_nil, fun b => Nat.zero_le _⟩
  · exact fun s t control step => control.step step

end Control

end OShard.Logging
