import OShard.Logging.Durable

namespace OShard.Logging

open Update Function

section Disk

variable {cfg : Config} {home disk : Nat → Data} {b : Nat} {s : State}

theorem installTrans_spec (lh : List Nat) (tail : Nat) (disk : Nat → Data)
    (outside : ∀ b ∈ lh, cfg.Home b) (room : tail + lh.length < cfg.size)
    (copies : ∀ i b, lh[i]? = some b → disk (cfg.start + tail + i + 1) = home b)
    (rest : b ∉ lh → disk b = home b) : installTrans cfg tail lh disk b = home b := by
  induction lh generalizing tail disk with
  | nil => exact rest (by simp)
  | cons c lh ih =>
    have first : disk (cfg.start + tail + 1) = home c := copies 0 c rfl
    rw [List.length_cons] at room
    rw [installTrans, first]
    apply ih (tail + 1)
    · exact fun b member => outside b (List.mem_cons_of_mem _ member)
    · omega
    · intro i d entry
      have other : cfg.start + (tail + 1) + i + 1 ≠ c := by
        intro same
        have home' := outside c List.mem_cons_self
        have bound := (List.getElem?_eq_some_iff.mp entry).1
        unfold Config.Home at home'
        omega
      rw [update_of_ne other]
      have value := copies (i + 1) d entry
      rw [← value]
      congr 1
      omega
    · intro absent
      by_cases same : b = c
      · rw [same, update_self]
      · rw [update_of_ne same]
        exact rest (by rw [List.mem_cons, not_or]; exact ⟨same, absent⟩)

theorem recoverFromLog_spec (outside : ∀ b ∈ readHead (disk cfg.start), cfg.Home b)
    (room : (readHead (disk cfg.start)).length < cfg.size)
    (copies : ∀ i b, (readHead (disk cfg.start))[i]? = some b → disk (cfg.start + i + 1) = home b)
    (inHome : cfg.Home b) (rest : b ∉ readHead (disk cfg.start) → disk b = home b) :
    recoverFromLog cfg disk b = home b := by
  have other : b ≠ cfg.start := by
    intro same
    rw [same] at inHome
    exact Config.head_area (Nat.zero_lt_of_lt room) inHome
  unfold recoverFromLog
  rw [update_of_ne other]
  exact installTrans_spec _ 0 disk outside (by omega) copies rest

theorem recoverFromLog_idem (disk : Nat → Data) :
    recoverFromLog cfg (recoverFromLog cfg disk) = recoverFromLog cfg disk := by
  have cleared : readHead (recoverFromLog cfg disk cfg.start) = [] := by
    unfold recoverFromLog
    rw [update_self, readHead_writeHead]
  have value : writeHead [] (recoverFromLog cfg disk cfg.start) = recoverFromLog cfg disk cfg.start := by
    unfold recoverFromLog
    rw [update_self]
    funext w
    unfold writeHead
    by_cases zero : w = 0
    · simp [zero]
    · simp [zero]
  generalize recoverFromLog cfg disk = after at cleared value
  unfold recoverFromLog
  dsimp only
  rw [cleared]
  unfold installTrans
  rw [value, update_eq_self]

theorem Durable.boot (valid : Valid cfg disk) (start : Boot disk s) : Durable cfg (recoverFromLog cfg disk) s := by
  rw [start]
  let image : Nat → Data := fun b =>
    if b ∈ readHead (disk cfg.start) then disk (cfg.start + (readHead (disk cfg.start)).idxOf b + 1) else disk b
  have copy : ∀ i b, (readHead (disk cfg.start))[i]? = some b → disk (cfg.start + i + 1) = image b := by
    intro i b entry
    obtain ⟨bound, value⟩ := List.getElem?_eq_some_iff.mp entry
    have index : (readHead (disk cfg.start)).idxOf b = i := by
      rw [← value]
      exact valid.nodup.idxOf_getElem i bound
    show _ = if b ∈ readHead (disk cfg.start) then _ else _
    rw [if_pos (List.mem_of_getElem? entry), index]
  have recovered : ∀ b, cfg.Home b → recoverFromLog cfg disk b = image b := by
    intro b home
    exact recoverFromLog_spec valid.home valid.room copy home fun absent => (if_neg absent).symm
  refine ⟨valid.room, valid.home, rfl, fun b _ => rfl, ?_, ?_, ?_, fun _ => rfl, ?_, fun _ b _ => rfl⟩
  · intro b home absent
    change disk b = recoverFromLog cfg disk b
    rw [recovered b home]
    exact (if_neg absent).symm
  · intro i b entry
    change disk (cfg.start + i + 1) = recoverFromLog cfg disk b
    rw [recovered b (valid.home b (List.mem_of_getElem? entry))]
    exact copy i b entry
  · intro e member
    cases member
  · intro up
    cases up

theorem durable_of_reach (valid : Valid cfg disk) (reached : Reach cfg disk s) :
    Control s ∧ Durable cfg (recoverFromLog cfg disk) s := by
  induction reached with
  | start first => exact ⟨control_of_reach (show Reach cfg disk _ from .start first), Durable.boot valid first⟩
  | next _ step ih => exact ⟨ih.1.step step, ih.2.step ih.1 step⟩

end Disk

section Whole

def updates (id : Nat) (entries : List Entry) : List Entry := entries.filter fun e => e.op = id

theorem updates_append (id : Nat) (first second : List Entry) :
    updates id (first ++ second) = updates id first ++ updates id second :=
  List.filter_append _ _

/-- The updates of a section stay together: in the open transaction, in one that was committed, or lost in a crash. -/
structure Whole (s : State) : Prop where
  old : ∀ e ∈ s.history, e.op < s.ops
  opened : ∀ p id, s.op p = some id →
    id < s.ops ∧ updates id s.history = updates id s.pending ∧ updates id s.committed.flatten = []
  waiting : ∀ id, updates id s.pending = [] ∨
    (updates id s.history = updates id s.pending ∧ updates id s.committed.flatten = [])
  whole : ∀ id, updates id s.committed.flatten = [] ∨
    ((∃ t ∈ s.committed, updates id t = updates id s.history) ∧ updates id s.committed.flatten = updates id s.history ∧
      ∀ p, s.op p ≠ some id)

variable {s t : State} (whole : Whole s)

include whole

theorem Whole.frame (op : t.op = s.op) (ops : t.ops = s.ops) (history : t.history = s.history) (pending : t.pending = s.pending)
    (committed : t.committed = s.committed) : Whole t := by
  obtain ⟨old, opened, waiting, all⟩ := whole
  constructor
  · rw [history, ops]
    exact old
  · rw [op, ops, history, pending, committed]
    exact opened
  · rw [pending, history, committed]
    exact waiting
  · rw [committed, history, op]
    exact all

theorem Whole.beginOp (log : Log) (p : Nat) :
    Whole { s with log := log, op := update s.op p (some s.ops), ops := s.ops + 1 } := by
  have fresh : updates s.ops s.history = [] := by
    apply List.filter_eq_nil_iff.mpr
    intro e member same
    have bound := whole.old e member
    rw [of_decide_eq_true same] at bound
    exact Nat.lt_irrefl _ bound
  have absent : updates s.ops s.committed.flatten = [] := by
    rcases whole.whole s.ops with none | ⟨-, all, -⟩
    · exact none
    · rw [all]
      exact fresh
  have unwritten : updates s.ops s.pending = [] := by
    rcases whole.waiting s.ops with none | ⟨all, -⟩
    · exact none
    · rw [← all]
      exact fresh
  refine ⟨fun e member => Nat.lt_succ_of_lt (whole.old e member), fun q id opened => ?_, whole.waiting, fun id => ?_⟩
  · by_cases same : q = p
    · rw [same] at opened
      dsimp only at opened
      rw [update_self] at opened
      cases opened
      exact ⟨Nat.lt_succ_self _, by dsimp only; rw [fresh, unwritten], absent⟩
    · dsimp only at opened
      rw [update_of_ne same] at opened
      obtain ⟨bound, rest⟩ := whole.opened q id opened
      exact ⟨Nat.lt_succ_of_lt bound, rest⟩
  · by_cases new : id = s.ops
    · rw [new]
      exact .inl absent
    rcases whole.whole id with none | ⟨one, all, closed⟩
    · exact .inl none
    refine .inr ⟨one, all, fun q opened => ?_⟩
    dsimp only at opened
    by_cases same : q = p
    · rw [same, update_self] at opened
      cases opened
      exact new rfl
    · rw [update_of_ne same] at opened
      exact closed q opened

theorem Whole.logWrite {p id : Nat} (opened : s.op p = some id) (b : Nat) (data : Data) (blocks : Blocks) (log : Log)
    (modified : Nat → Bool) :
    Whole { s with
      blocks := blocks
      log := log
      modified := modified
      history := s.history ++ [⟨id, b, data⟩]
      pending := s.pending ++ [⟨id, b, data⟩] } := by
  obtain ⟨bound, same, absent⟩ := whole.opened p id opened
  have others : ∀ id', id' ≠ id → ∀ entries, updates id' (entries ++ [⟨id, b, data⟩]) = updates id' entries := by
    intro id' other entries
    rw [updates_append]
    have last : updates id' [⟨id, b, data⟩] = [] := by
      simp [updates, other.symm]
    rw [last, List.append_nil]
  have own : updates id (s.history ++ [⟨id, b, data⟩]) = updates id (s.pending ++ [⟨id, b, data⟩]) := by
    rw [updates_append, updates_append, same]
  refine ⟨fun e member => ?_, fun q id' opened' => ?_, fun id' => ?_, fun id' => ?_⟩
  · rcases List.mem_append.mp member with former | new
    · exact whole.old e former
    · rw [List.mem_singleton] at new
      rw [new]
      exact bound
  · by_cases this : id' = id
    · rw [this]
      exact ⟨bound, own, absent⟩
    · dsimp only
      rw [others id' this, others id' this]
      exact whole.opened q id' opened'
  · by_cases this : id' = id
    · rw [this]
      exact .inr ⟨own, absent⟩
    · dsimp only
      rw [others id' this, others id' this]
      exact whole.waiting id'
  · by_cases this : id' = id
    · rw [this]
      exact .inl absent
    · dsimp only
      rw [others id' this]
      exact whole.whole id'

theorem Whole.endOp (p : Nat) (log : Log) (pc : Pc) :
    Whole { s with log := log, op := update s.op p none, pc := pc } := by
  have kept : ∀ q id, update s.op p none q = some id → s.op q = some id := by
    intro q id opened
    by_cases same : q = p
    · rw [same, update_self] at opened
      cases opened
    · rw [update_of_ne same] at opened
      exact opened
  refine ⟨whole.old, fun q id opened => whole.opened q id (kept q id opened), whole.waiting, fun id => ?_⟩
  rcases whole.whole id with none | ⟨one, all, closed⟩
  · exact .inl none
  · exact .inr ⟨one, all, fun q opened => closed q (kept q id opened)⟩

theorem Whole.commit (closed : ∀ p, s.op p = none) (blocks : Blocks) (pc : Pc) :
    Whole { s with blocks := blocks, pc := pc, committed := s.committed ++ [s.pending], pending := [] } := by
  refine ⟨whole.old, fun p id opened => ?_, fun id => .inl rfl, fun id => ?_⟩
  · dsimp only at opened
    rw [closed p] at opened
    cases opened
  · have grown : updates id (s.committed ++ [s.pending]).flatten =
        updates id s.committed.flatten ++ updates id s.pending := by
      rw [List.flatten_concat, updates_append]
    dsimp only
    rw [grown]
    rcases whole.waiting id with none | ⟨all, absent⟩
    · rw [none, List.append_nil]
      rcases whole.whole id with nothing | ⟨⟨t, member, one⟩, all, -⟩
      · exact .inl nothing
      · exact .inr ⟨⟨t, List.mem_append_left _ member, one⟩, all, fun p opened => by rw [closed p] at opened; cases opened⟩
    · rw [absent, List.nil_append]
      exact .inr ⟨⟨s.pending, List.mem_append_right _ (List.mem_singleton_self _), all.symm⟩, all.symm,
        fun p opened => by rw [closed p] at opened; cases opened⟩

theorem Whole.crash : Whole s.crash := by
  refine ⟨whole.old, fun p id opened => (by cases opened), fun id => .inl rfl, fun id => ?_⟩
  rcases whole.whole id with none | ⟨one, all, -⟩
  · exact .inl none
  · exact .inr ⟨one, all, fun p opened => by cases opened⟩

theorem Whole.step {cfg : Config} (control : Control s) (step : Step cfg s t) : Whole t := by
  cases step with
  | beginOp p up free result => exact whole.beginOp _ p
  | logWrite lock opened home result => exact whole.logWrite opened _ _ _ _ _
  | endOp opened passed result => exact whole.endOp _ _ _
  | writeHead place free => exact whole.commit (control.closed (by rw [place]; simp)) _ _
  | crash => exact whole.crash
  | bread | modify | brelse | evict | writeLog | installTrans | clearHead | finish | readHead | recover | recoverClear =>
    exact whole.frame rfl rfl rfl rfl rfl

end Whole

section Completion

variable {cfg : Config} {disk : Nat → Data} (valid : Valid cfg disk)

include valid

theorem recover_rounds (rest : List Nat) {s : State} (reached : Reach cfg disk s) {tail : Nat} (place : s.pc = .recover tail)
    (bound : tail ≤ s.log.lh.length) (suffix : s.log.lh.drop tail = rest) :
    ∃ t, Relation.ReflTransGen (Step cfg) s t ∧ Reach cfg disk t ∧ t.pc = .recover t.log.lh.length ∧
      t.blocks.disk = installTrans cfg tail rest s.blocks.disk ∧ t.committed = s.committed := by
  induction rest generalizing s tail with
  | nil =>
    have last : tail = s.log.lh.length := by
      have short := List.drop_eq_nil_iff.mp suffix
      omega
    exact ⟨s, .refl, reached, by rw [place, last], rfl, rfl⟩
  | cons b rest ih =>
    have entry : s.log.lh[tail]? = some b := by
      rw [← List.head?_drop, suffix]
      rfl
    have next : s.log.lh.drop (tail + 1) = rest := by
      have split := drop_of_getElem? entry
      rw [suffix] at split
      exact (List.cons.inj split).2.symm
    obtain ⟨lower, -⟩ := List.getElem?_eq_some_iff.mp entry
    obtain ⟨-, durable⟩ := durable_of_reach valid reached
    have entries : s.entries cfg = s.log.lh := by
      unfold State.entries
      rw [place]
    have value := durable.area _ (durable.block_area (by rw [entries]; exact entry))
    have step : Step cfg s _ := Step.recover place entry
    obtain ⟨t, steps, reached', place', installed, committed⟩ := ih (.next reached step) rfl lower next
    refine ⟨t, .head step steps, reached', place', ?_, committed⟩
    rw [installed, installTrans, ← value]
    rfl

theorem recovery_completes {s : State} (reached : Reach cfg disk s) (place : s.pc = .boot) :
    ∃ t, Relation.ReflTransGen (Step cfg) s t ∧ t.pc = .idle ∧ t.blocks.disk = recoverFromLog cfg s.blocks.disk ∧
      t.committed = s.committed := by
  obtain ⟨-, durable⟩ := durable_of_reach valid reached
  have value := durable.area _ durable.header_area
  have step : Step cfg s _ := Step.readHead place
  obtain ⟨t, steps, reached', place', installed, committed⟩ :=
    recover_rounds valid _ (.next reached step) rfl (Nat.zero_le _) rfl
  obtain ⟨-, durable'⟩ := durable_of_reach valid reached'
  have value' := durable'.area _ durable'.header_area
  refine ⟨_, .head step (steps.tail (Step.recoverClear place')), rfl, ?_, committed⟩
  change update t.blocks.disk cfg.start (writeHead [] (t.blocks.buf cfg.start).data) = _
  rw [value', installed]
  unfold recoverFromLog
  rw [← value]
  rfl

end Completion

theorem whole_of_reach {cfg : Config} {disk : Nat → Data} {s : State} (reached : Reach cfg disk s) : Whole s := by
  induction reached with
  | start first =>
    rw [first]
    exact ⟨by simp, by simp, fun _ => .inl rfl, fun _ => .inl rfl⟩
  | next before step ih => exact ih.step (control_of_reach before) step

/-- A crash at any point loses no committed transaction and leaves no part of another: the recovery, however often it
    is interrupted, ends with the home blocks after the committed transactions, and each section is in one of
    them with all its updates or in none. -/
theorem log_crash_atomicity {cfg : Config} {disk : Nat → Data} (valid : Valid cfg disk) {s : State}
    (reached : Reach cfg disk s) :
    (∀ b, cfg.Home b → recoverFromLog cfg s.blocks.disk b = s.home (recoverFromLog cfg disk) b) ∧
    (s.pc = .boot → ∃ t, Relation.ReflTransGen (Step cfg) s t ∧ t.pc = .idle ∧
      t.blocks.disk = recoverFromLog cfg s.blocks.disk ∧ t.committed = s.committed) ∧
    (s.pc = .idle → ∀ b, cfg.Home b → s.blocks.disk b = s.home (recoverFromLog cfg disk) b) ∧
    (∀ id, updates id s.committed.flatten = [] ∨
      ((∃ t ∈ s.committed, updates id t = updates id s.history) ∧
        updates id s.committed.flatten = updates id s.history ∧ ∀ p, s.op p ≠ some id)) ∧
    recoverFromLog cfg (recoverFromLog cfg s.blocks.disk) = recoverFromLog cfg s.blocks.disk := by
  obtain ⟨-, durable⟩ := durable_of_reach valid reached
  refine ⟨?_, recovery_completes valid reached, ?_, (whole_of_reach reached).whole, recoverFromLog_idem _⟩
  · intro b home
    -- A crash here leaves this disk, and what it needs for the recovery.
    have crashed := durable.crash
    exact recoverFromLog_spec crashed.home crashed.room crashed.copies home (crashed.settled b home)
  · intro place b home
    have settled := durable.settled b home
    unfold State.unsettled at settled
    rw [place] at settled
    exact settled (by simp)

/-- One section writes block 40, and the machine stops right after its header was written. -/
theorem log_crash_atomicity_once :
    ∃ s, Reach ⟨2, 30⟩ (fun _ _ => 0) s ∧ s.pc = .boot ∧ s.committed.length = 1 ∧
      recoverFromLog ⟨2, 30⟩ s.blocks.disk 40 = fun _ => 7 := by
  have valid : Valid ⟨2, 30⟩ (fun _ _ => 0) := ⟨by decide, by decide, by simp [readHead]⟩
  have s₀ : Reach ⟨2, 30⟩ (fun _ _ => 0) _ := .start rfl
  have s₁ := s₀.next (Step.readHead rfl)
  have s₂ := s₁.next (Step.recoverClear rfl)
  have s₃ := s₂.next (Step.beginOp 5 rfl rfl rfl)
  have s₄ := s₃.next (Step.bread 5 40 rfl rfl)
  have s₅ := s₄.next (Step.modify (p := 5) (b := 40) (fun _ => 7) rfl (by simp) (.inr (by decide)))
  have s₆ := s₅.next (Step.logWrite (p := 5) (b := 40) rfl rfl (.inr (by decide)) rfl)
  have s₇ := s₆.next (Step.brelse (p := 5) (b := 40) rfl rfl)
  have passed : ∀ b, update (update (fun _ : Nat => false) 40 true) 40 false b ≠ true := by
    intro b
    by_cases same : b = 40
    · simp [same]
    · simp [same]
  have s₈ := s₇.next (Step.endOp (p := 5) rfl (fun b changed => absurd changed (passed b)) rfl)
  have s₉ := s₈.next (Step.writeLog (b := 40) rfl rfl rfl rfl)
  have s₁₀ := s₉.next (Step.writeHead rfl rfl)
  have s₁₁ := s₁₀.next Step.crash
  refine ⟨_, s₁₁, rfl, rfl, ?_⟩
  rw [(log_crash_atomicity valid s₁₁).1 40 (.inr (by decide))]
  rfl

end OShard.Logging
