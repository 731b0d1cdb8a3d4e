import OShard.Logging.Recovery

namespace OShard.Logging

section Distinct

def Pc.gathers : Pc → Bool
  | .idle | .writeLog _ | .committed => true
  | _ => false

def Gathered (s : State) : Prop := s.pc.gathers = true → ∀ b ∈ s.log.lh, b ∈ s.pending.map Entry.block

variable {cfg : Config} {s : State} {disk : Nat → Data}

theorem Gathered.step {t : State} (gathered : Gathered s) (control : Control s) (step : Step cfg s t) : Gathered t := by
  cases step with
  | beginOp p up free result =>
    obtain ⟨-, -, rfl⟩ := Log.beginOp_some result
    exact gathered
  | logWrite lock opened home result =>
    rename_i p b id pin log
    obtain ⟨-, -, -, rfl⟩ := Log.logWrite_ok result
    have idle := control.idle (p := p) (by rw [opened]; simp)
    intro _ c member
    have before := gathered (by rw [idle]; rfl) c
    dsimp only at member ⊢
    rw [List.map_append, List.mem_append]
    by_cases old : c ∈ s.log.lh
    · exact .inl (before old)
    right
    by_cases absorbed : b ∈ s.log.lh
    · rw [if_pos absorbed] at member
      exact absurd member old
    · rw [if_neg absorbed, List.mem_append] at member
      rcases member with member | last
      · exact absurd member old
      · exact last
  | endOp opened passed result =>
    obtain ⟨-, -, rfl⟩ := Log.endOp_ok result
    have idle := control.idle (by rw [opened]; simp)
    exact fun _ => gathered (by rw [idle]; rfl)
  | writeLog place | finish place => exact fun _ => gathered (by rw [place]; rfl)
  | writeHead | installTrans | crash | readHead | recover => exact fun gathers => by cases gathers
  | clearHead | recoverClear => exact fun gathers b member => by cases member
  | bread | modify | brelse | evict => exact gathered

theorem gathered_of_reach (reached : Reach cfg disk s) : Gathered s := by
  induction reached with
  | start first =>
    rw [first]
    exact fun gathers => by cases gathers
  | next before step ih => exact ih.step (control_of_reach before) step

theorem length_header (valid : Valid cfg disk) (reached : Reach cfg disk s)
    (idle : s.pc = .idle) : s.log.lh.length = (s.pending.map Entry.block).dedup.length := by
  obtain ⟨control, durable⟩ := durable_of_reach valid reached
  have gathered := gathered_of_reach reached (by rw [idle]; rfl)
  have nodup := control.nodup (by rw [idle]; rfl)
  apply List.Perm.length_eq
  apply (List.perm_ext_iff_of_nodup nodup (List.nodup_dedup _)).mpr
  intro b
  rw [List.mem_dedup]
  constructor
  · exact gathered b
  · intro member
    obtain ⟨e, inside, same⟩ := List.mem_map.mp member
    rw [← same]
    exact durable.listed e inside

theorem valid_of_empty (room : 0 < cfg.size) (empty : readHead (disk cfg.start) = []) : Valid cfg disk := by
  constructor
  · rw [empty]
    exact List.nodup_nil
  · rw [empty]
    exact room
  · rw [empty]
    intro b member
    cases member

theorem Log.logWrite_cases (cfg : Config) (log : Log) (b : Nat) (opened : 0 < log.outstanding) :
    if logSize ≤ log.lh.length ∨ cfg.size ≤ log.lh.length + 1 then
      log.logWrite cfg b = .error (.panic "too big a transaction")
    else ∃ result, log.logWrite cfg b = .ok result := by
  unfold Log.logWrite
  split
  · simp [Bind.bind, Except.bind, throw, throwThe, MonadExceptOf.throw]
  have inside : ¬ log.outstanding < 1 := by omega
  simp only [inside, if_false, Bind.bind, Except.bind, Pure.pure, Except.pure]
  split
  · exact ⟨_, rfl⟩
  · exact ⟨_, rfl⟩

end Distinct

/-- With the log that `mkfs` makes, `log_write` overflows it exactly when 29 different blocks wait for the commit:
    one less than `begin_op` reckons with, since the header takes a block of the log. -/
theorem logWrite_room_iff {cfg : Config} {disk : Nat → Data} (size : cfg.size = logSize)
    (empty : readHead (disk cfg.start) = []) {s : State} (reached : Reach cfg disk s) {p : Nat} (opened : s.op p ≠ none)
    (b : Nat) :
    (s.log.logWrite cfg b ≠ .error (.panic "too big a transaction") ↔ (s.pending.map Entry.block).dedup.length ≤ 28) ∧
    ((∃ result, s.log.logWrite cfg b = .ok result) ↔ (s.pending.map Entry.block).dedup.length ≤ 28) := by
  have valid := valid_of_empty (by rw [size]; decide) empty
  have control := control_of_reach reached
  have count := length_header valid reached (control.idle opened)
  have busy : 0 < s.log.outstanding := by
    obtain ⟨running, -, length, member⟩ := control.active
    rw [← length]
    exact List.length_pos_of_mem ((member p).mp opened)
  have outcome := Log.logWrite_cases cfg s.log b busy
  rw [← count]
  split at outcome
  · rename_i full
    rw [size] at full
    unfold logSize maxOpBlocks at full
    rw [outcome]
    constructor
    · simp only [ne_eq, not_true_eq_false, false_iff]
      omega
    · simp only [reduceCtorEq, exists_false, false_iff]
      omega
  · rename_i room
    obtain ⟨result, success⟩ := outcome
    rw [size] at room
    unfold logSize maxOpBlocks at room
    rw [success]
    constructor
    · simp only [ne_eq, reduceCtorEq, not_false_eq_true, true_iff]
      omega
    · simp only [Except.ok.injEq, exists_eq', true_iff]
      omega

section Full

variable {cfg : Config} {disk : Nat → Data}

def passed (entries : List Entry) : List (Nat × Nat) := entries.map fun e => (e.op, e.block)

theorem updates_passed (id : Nat) (entries : List Entry) :
    (updates id entries).map Entry.block = ((passed entries).filter fun e => e.1 = id).map Prod.snd := by
  unfold updates passed
  rw [List.filter_map, List.map_map]
  rfl

theorem reach_writes {p id : Nat} (blocks : List Nat) {s : State} (reached : Reach cfg disk s) (up : s.pc.up = true)
    (opened : s.op p = some id) (busy : 0 < s.log.outstanding) (home : ∀ b ∈ blocks, cfg.Home b)
    (free : ∀ b, (s.blocks.buf b).lock = none) (clean : ∀ b, s.modified b = false) (nodup : blocks.Nodup)
    (fresh : ∀ b ∈ blocks, b ∉ s.log.lh) (full : s.log.lh.length + blocks.length ≤ logSize)
    (room : s.log.lh.length + blocks.length < cfg.size) :
    ∃ t, Reach cfg disk t ∧ t.pc = s.pc ∧ t.op = s.op ∧ t.ops = s.ops ∧
      t.log = { s.log with lh := s.log.lh ++ blocks } ∧ (∀ b, (t.blocks.buf b).lock = none) ∧
      (∀ b, t.modified b = false) ∧ passed t.history = passed s.history ++ blocks.map fun b => (id, b) := by
  induction blocks generalizing s with
  | nil => exact ⟨s, reached, rfl, rfl, rfl, by simp, free, clean, by simp⟩
  | cons b blocks ih =>
    rw [List.length_cons] at full room
    obtain ⟨absent, nodup'⟩ := List.nodup_cons.mp nodup
    have new : b ∉ s.log.lh := fresh b List.mem_cons_self
    have logged : s.log.logWrite cfg b = .ok (true, { s.log with lh := s.log.lh ++ [b] }) := by
      have outcome := Log.logWrite_cases cfg s.log b busy
      rw [if_neg (by omega)] at outcome
      obtain ⟨⟨pin, log⟩, result⟩ := outcome
      obtain ⟨-, -, pinned, value⟩ := Log.logWrite_ok result
      rw [if_neg new] at value
      rw [result, pinned, value]
      simp [new]
    have first := reached.next (Step.bread p b up (free b))
    have second := first.next (Step.logWrite (p := p) (b := b) (by simp [Blocks.buf_setBuf]) opened
      (home b List.mem_cons_self) logged)
    have third := second.next (Step.brelse (p := p) (b := b) (by simp [Blocks.bpin, Blocks.buf_setBuf])
      (Function.update_self _ _ _))
    obtain ⟨t, reached', pc, op, ops, log, free', clean', history⟩ := ih third up opened busy
      (fun c member => home c (List.mem_cons_of_mem _ member)) (fun c => by
        simp only [Blocks.bpin, Blocks.buf_setBuf, if_true]
        by_cases same : c = b
        · simp [same]
        · simp [same, free c])
      (fun c => by
        dsimp only
        by_cases same : c = b
        · rw [same, Function.update_self]
        · rw [Function.update_of_ne same]
          exact clean c)
      nodup'
      (fun c member => by
        dsimp only
        rw [List.mem_append, List.mem_singleton, not_or]
        refine ⟨fresh c (List.mem_cons_of_mem _ member), fun same => ?_⟩
        rw [same] at member
        exact absent member)
      (by simp only [List.length_append, List.length_singleton]; omega)
      (by simp only [List.length_append, List.length_singleton]; omega)
    refine ⟨t, reached', pc, op, ops, ?_, free', clean', ?_⟩
    · rw [log]
      simp
    · rw [history]
      unfold passed
      simp

theorem reach_three : ∃ s, Reach ⟨2, 30⟩ (fun _ _ => 0) s ∧ s.pc = .idle ∧ (s.op 0 = some 0 ∧ s.op 1 = some 1 ∧ s.op 2 = some 2) ∧
    s.log = ⟨3, false, []⟩ ∧ (∀ b, (s.blocks.buf b).lock = none) ∧ (∀ b, s.modified b = false) ∧ s.history = [] := by
  have s₀ : Reach ⟨2, 30⟩ (fun _ _ => 0) _ := .start rfl
  have s₁ := s₀.next (Step.readHead rfl)
  have s₂ := s₁.next (Step.recoverClear rfl)
  have s₃ := s₂.next (Step.beginOp 0 rfl rfl rfl)
  have s₄ := s₃.next (Step.beginOp 1 rfl rfl rfl)
  have s₅ := s₄.next (Step.beginOp 2 rfl rfl rfl)
  refine ⟨_, s₅, rfl, ⟨rfl, rfl, rfl⟩, rfl, fun b => ?_, fun b => rfl, rfl⟩
  dsimp only
  rw [Blocks.buf_bwrite, Blocks.buf_touch]
  by_cases same : b = 2
  · rw [if_pos same]
    rfl
  · rw [if_neg same, Blocks.buf_touch]
    rfl

end Full

/-- Three sections with ten blocks each are let in, and the tenth block of the last one overflows the log. -/
theorem log_overflows_30 :
    ∃ s, Reach ⟨2, 30⟩ (fun _ _ => 0) s ∧ s.op 2 = some 2 ∧ (s.blocks.buf 129).lock = some 2 ∧ Config.Home ⟨2, 30⟩ 129 ∧
      (∀ id, ((updates id (s.history ++ [⟨2, 129, (s.blocks.buf 129).data⟩])).map Entry.block).dedup.length ≤ maxOpBlocks) ∧
      s.log.logWrite ⟨2, 30⟩ 129 = .error (.panic "too big a transaction") := by
  obtain ⟨s, reached, pc, ⟨op₀, op₁, op₂⟩, log, free, clean, history⟩ := reach_three
  have home : ∀ b, 100 ≤ b → Config.Home ⟨2, 30⟩ b := fun b lower => .inr (show 2 + 30 ≤ b by omega)
  have lower : ∀ {first count b : Nat}, 100 ≤ first → b ∈ List.range' first count → Config.Home ⟨2, 30⟩ b := by
    intro first count b bound member
    rw [List.mem_range'_1] at member
    exact home b (by omega)
  obtain ⟨t, reached₁, pc₁, same₁, -, log₁, free₁, clean₁, history₁⟩ := reach_writes (p := 0) (List.range' 100 10)
    reached (by rw [pc]; rfl) op₀ (by rw [log]; decide) (fun b => lower (by decide)) free clean List.nodup_range'
    (by rw [log]; decide) (by rw [log]; decide) (by rw [log]; decide)
  rw [log] at log₁
  obtain ⟨u, reached₂, pc₂, same₂, -, log₂, free₂, clean₂, history₂⟩ := reach_writes (p := 1) (List.range' 110 10)
    reached₁ (by rw [pc₁, pc]; rfl) (by rw [same₁]; exact op₁) (by rw [log₁]; decide) (fun b => lower (by decide)) free₁ clean₁
    List.nodup_range' (by rw [log₁]; decide) (by rw [log₁]; decide) (by rw [log₁]; decide)
  rw [log₁] at log₂
  obtain ⟨v, reached₃, pc₃, same₃, -, log₃, free₃, -, history₃⟩ := reach_writes (p := 2) (List.range' 120 9)
    reached₂ (by rw [pc₂, pc₁, pc]; rfl) (by rw [same₂, same₁]; exact op₂) (by rw [log₂]; decide) (fun b => lower (by decide))
    free₂ clean₂ List.nodup_range' (by rw [log₂]; decide) (by rw [log₂]; decide) (by rw [log₂]; decide)
  rw [log₂] at log₃
  have last := reached₃.next (Step.bread 2 129 (by rw [pc₃, pc₂, pc₁, pc]; rfl) (free₃ 129))
  refine ⟨_, last, by dsimp only; rw [same₃, same₂, same₁]; exact op₂, by simp [Blocks.buf_setBuf], home 129 (by decide),
    fun id => ?_, ?_⟩
  · have calls : passed v.history = (List.range' 100 10).map (fun b => (0, b)) ++ (List.range' 110 10).map (fun b => (1, b)) ++
        (List.range' 120 9).map (fun b => (2, b)) := by
      rw [history₃, history₂, history₁, history]
      rfl
    have entries : ∀ e : Entry, e.op = 2 → e.block = 129 → passed (v.history ++ [e]) = passed v.history ++ [(2, 129)] := by
      intro e op block
      simp [passed, op, block]
    rw [updates_passed, entries _ rfl rfl, calls]
    by_cases known : id < 3
    · revert id
      decide
    have small : ∀ e ∈ (List.range' 100 10).map (fun b => (0, b)) ++ (List.range' 110 10).map (fun b => (1, b)) ++
        (List.range' 120 9).map (fun b => (2, b)) ++ [(2, 129)], e.1 < 3 := by decide
    rw [List.filter_eq_nil_iff.mpr]
    · decide
    · intro e member same
      have bound := small e member
      rw [of_decide_eq_true same] at bound
      exact known bound
  · dsimp only
    rw [log₃]
    rfl

theorem logWrite_room_empty :
    ∃ s, Reach ⟨2, 30⟩ (fun _ _ => 0) s ∧ s.op 0 ≠ none ∧ ∃ result, s.log.logWrite ⟨2, 30⟩ 100 = .ok result := by
  have s₀ : Reach ⟨2, 30⟩ (fun _ _ => 0) _ := .start rfl
  have s₁ := s₀.next (Step.readHead rfl)
  have s₂ := s₁.next (Step.recoverClear rfl)
  have s₃ := s₂.next (Step.beginOp 0 rfl rfl rfl)
  exact ⟨_, s₃, by simp, (logWrite_room_iff rfl rfl s₃ (p := 0) (by simp) 100).2.mpr (by decide)⟩

end OShard.Logging
