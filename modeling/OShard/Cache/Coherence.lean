import OShard.Cache.Contents

namespace OShard.Cache

open Logging Function

variable {k m n : Nat}

/-- The cache stands for the disk: one buffer a block, all of them on the ring, counted by their uses and the log, and
    whoever has read a block has what was written to it last. -/
structure Coherent (cfg : Setup k m) (s : State k m n) : Prop where
  unique : ∀ b b', (s.bufs b).dev ≠ 0 → (s.bufs b).block = (s.bufs b').block → b = b'
  ring : ∃ xs, Wheel s.links xs
  refcnt : ∀ b, (s.bufs b).refcnt = ∑ a, (s.uses a).count b + (s.bufs b).pins cfg.dev s.pinned
  read : ∀ a b block, s.uses a = .held b block false → block.1 ≠ 0 → (s.bufs b).data = s.latest block

abbrev ReachKept (cfg : Setup k m) : State k m n → Prop :=
  Transition.Reachable Init fun s t => Step cfg s t ∧ ¬Strays cfg s t

structure Invariant (cfg : Setup k m) (s : State k m n) : Prop where
  wheel : ∃ xs, Wheel s.links xs
  committing : Committing cfg (s.uses .first) (s.uses .second) s.log s.commit
  sessions : Sessions cfg.dev s.pinned s.bufs s.uses
  contents : Contents cfg s

variable {cfg : Setup k m} {s t : State k m n}

theorem wheel_step (wheel : ∃ xs, Wheel s.links xs) (step : Step cfg s t) : ∃ xs, Wheel t.links xs := by
  cases step with
  | drop place =>
    rename_i a b
    unfold State.drop
    split
    · obtain ⟨xs, wheel⟩ := wheel
      exact wheel.move b
    · exact wheel
  | logWrite place inOp result =>
    rename_i i block b dirty pin log
    cases pin <;> exact wheel
  | _ => exact wheel

theorem Invariant.init (init : Init s) : Invariant cfg s := by
  have pinned : s.pinned = [] := by
    unfold State.pinned
    rw [init.log, init.commit]
    rfl
  refine ⟨⟨_, init.links ▸ binit_ring⟩, ?_, ?_, ?_⟩
  · rw [init.log, init.commit, init.uses, init.uses]
    exact ⟨rfl, rfl, rfl, rfl, nofun, nofun, fun _ => rfl, List.nodup_nil, nofun, Or.inl rfl⟩
  · rw [pinned]
    constructor
    · intro a b has
      rw [init.uses] at has
      cases has
    · intro a b block has
      rw [init.uses] at has
      cases has
    · intro a b block dirty has
      rw [init.uses] at has
      cases has
    · intro b b' nonzero
      exact absurd (init.bufs b).2.1 nonzero
    · intro b
      have none : ∀ a, (s.uses a).count b = 0 := by
        intro a
        rw [init.uses]
        rfl
      have zero : (s.bufs b).pins cfg.dev [] = 0 := if_neg fun both => absurd both.2 List.not_mem_nil
      rw [(init.bufs b).2.2.2, zero]
      simp [none]
    · exact nofun
  · constructor
    · intro b valid
      rw [(init.bufs b).1] at valid
      cases valid
    · intro block _ _
      rw [init.latest]
    · intro i blockno below
      rw [init.commit] at below
      cases below
    · intro tail b block dirty blockno place
      rw [init.commit] at place
      cases place
    · intro tail blockno place
      rw [init.commit] at place
      cases place

theorem Invariant.step (nonzero : cfg.dev ≠ 0) (invariant : Invariant cfg s) (step : Step cfg s t) (kept : ¬Strays cfg s t) :
    Invariant cfg t := by
  obtain ⟨wheel, committing, sessions, contents⟩ := invariant
  constructor
  · exact wheel_step wheel step
  · apply committing.step step kept
    intro i b block dirty has
    apply sessions.found (.user i) b block
    rw [has]
    rfl
  · exact sessions.step nonzero wheel committing step kept
  · exact contents.step wheel committing sessions nonzero step kept

theorem ReachKept.invariant (nonzero : cfg.dev ≠ 0) (reached : ReachKept cfg s) : Invariant cfg s :=
  Transition.Reachable.invariant reached (fun _ init => Invariant.init init) fun _ _ invariant step =>
    invariant.step nonzero step.1 step.2

theorem Step.identity (wheel : ∃ xs, Wheel s.links xs) (step : Step cfg s t) (b : Fin n) (used : 0 < (s.bufs b).refcnt) :
    (t.bufs b).block = (s.bufs b).block ∧ ((s.bufs b).valid = true → (t.bufs b).valid = true) := by
  have one : ∀ {c : Fin n} {buf : Buf k}, (c = b → buf.block = (s.bufs b).block ∧ ((s.bufs b).valid = true → buf.valid = true)) →
      (update s.bufs c buf b).block = (s.bufs b).block ∧
        ((s.bufs b).valid = true → (update s.bufs c buf b).valid = true) := by
    intro c buf same
    by_cases here : c = b
    · rw [here, update_self]
      exact same here
    · rw [update_of_ne (Ne.symm here)]
      exact ⟨rfl, id⟩
  cases step with
  | bget place got =>
    apply one
    rintro rfl
    rcases bget_spec wheel got with ⟨-, rfl⟩ | ⟨-, free, rfl⟩
    · exact ⟨rfl, id⟩
    · rw [free] at used
      cases used
  | diskRead place invalid =>
    apply one
    rintro rfl
    exact ⟨rfl, fun _ => rfl⟩
  | logWrite place inOp result =>
    rename_i i block c dirty pin log
    cases pin with
    | false => exact ⟨rfl, id⟩
    | true =>
      apply one
      rintro rfl
      exact ⟨rfl, id⟩
  | drop place =>
    rename_i a c
    unfold State.drop
    split <;>
    · apply one
      rintro rfl
      exact ⟨rfl, id⟩
  | acquiresleep | modify | brelse | logCopy | logDropFrom | logDropTo | headFill | headDrop | installCopy | installUnpin
  | installDropLog | installDropHome =>
    apply one
    rintro rfl
    exact ⟨rfl, id⟩
  | _ => exact ⟨rfl, id⟩

/-- The cache is coherent in every state of a run without stray writes, and recycles no buffer in use. -/
theorem cache_coherent (nonzero : cfg.dev ≠ 0) (reached : ReachKept cfg s) :
    Coherent cfg s ∧ ∀ t, Step cfg s t → ∀ b, 0 < (s.bufs b).refcnt →
      (t.bufs b).block = (s.bufs b).block ∧ ((s.bufs b).valid = true → (t.bufs b).valid = true) := by
  have invariant := reached.invariant nonzero
  constructor
  · constructor
    · exact invariant.sessions.unique
    · exact invariant.wheel
    · exact invariant.sessions.refcnt
    · intro a b block has dev
      exact invariant.contents.read invariant.sessions has dev
  · intro t step b used
    exact step.identity invariant.wheel b used

section Runs

def rootDisk : Setup 3 2 := ⟨⟨2, 4⟩, 1, fun i => if i = 0 then 0 else 1⟩

def unread : State 3 2 3 :=
  ⟨fun _ => ⟨false, 0, 0, none, 0, fun _ => 0⟩, binit 3, fun _ _ => 0, ⟨0, false, []⟩, fun _ => .idle, fun _ => false, .idle,
    fun _ _ => 0⟩

theorem unread_init : Init unread := ⟨fun _ => ⟨rfl, rfl, rfl, rfl⟩, rfl, rfl, rfl, fun _ => rfl, fun _ => rfl, rfl⟩

instance {cfg : Config} {b : Nat} : Decidable (cfg.Home b) := inferInstanceAs (Decidable (_ ∨ _))

def Use.home (cfg : Setup k m) : Use n → Bool
  | .held _ block _ => block.1 = cfg.dev ∧ cfg.Home block.2
  | _ => true

theorem kept_of_home (free : s.log.committing = false) (home : ∀ i, (s.uses (.user i)).home cfg = true) : ¬Strays cfg s t := by
  have inside : ∀ {i b block dirty}, s.uses (.user i) = .held b block dirty → block.1 = cfg.dev ∧ cfg.Home block.2 := by
    intro i b block dirty has
    have here := home i
    rw [has] at here
    exact of_decide_eq_true here
  rintro ⟨i, b, block, dirty, has, ⟨-, away, -⟩ | ⟨-, stray | ⟨busy, -⟩, -⟩⟩
  · exact away (inside has)
  · exact stray (inside has).2
  · rw [free] at busy
    cases busy

theorem cache_coherent_logged : ∃ s : State 3 2 3, ReachKept rootDisk s ∧ s.uses (.user 1) = .held 0 (1, 9) false ∧
    (s.bufs 0).data = fun _ => 1 := by
  have begin : ReachKept rootDisk unread := .start unread_init
  have opened := begin.next ⟨.beginOp 0 rfl rfl, kept_of_home rfl (by decide)⟩
  have first := opened.next ⟨.bread (i := 0) (1, 9) rfl, kept_of_home rfl (by decide)⟩
  have first := first.next ⟨.bget (a := .user 0) rfl rfl, kept_of_home rfl (by decide)⟩
  have first := first.next ⟨.acquiresleep (a := .user 0) rfl rfl, kept_of_home rfl (by decide)⟩
  have first := first.next ⟨.diskRead (a := .user 0) rfl rfl, kept_of_home rfl (by decide)⟩
  have first := first.next ⟨.modify (i := 0) (fun _ => 1) rfl, kept_of_home rfl (by decide)⟩
  have first := first.next ⟨.logWrite (i := 0) rfl rfl rfl, kept_of_home rfl (by decide)⟩
  have first := first.next ⟨.brelse (i := 0) rfl, kept_of_home rfl (by decide)⟩
  have first := first.next ⟨.drop (a := .user 0) rfl, kept_of_home rfl (by decide)⟩
  have last := first.next ⟨.bread (i := 1) (1, 9) rfl, kept_of_home rfl (by decide)⟩
  have last := last.next ⟨.bget (a := .user 1) rfl rfl, kept_of_home rfl (by decide)⟩
  have last := last.next ⟨.acquiresleep (a := .user 1) rfl rfl, kept_of_home rfl (by decide)⟩
  have last := last.next ⟨.valid (a := .user 1) rfl rfl, kept_of_home rfl (by decide)⟩
  have coherent := (cache_coherent (by decide) last).1
  have read := coherent.read (.user 1) 0 (1, 9) rfl (by decide)
  exact ⟨_, last, rfl, read⟩

/-- A block of the transaction is written directly after `write_log` has copied it: `install_trans` puts the older
    contents back, and they are read. -/
theorem bwrite_during_commit_is_lost : ∃ s : State 3 2 3, Reach rootDisk s ∧ ∃ i b block,
    s.uses (.user i) = .held b block false ∧ block.1 ≠ 0 ∧ (s.bufs b).data ≠ s.latest block := by
  have begin : Reach rootDisk unread := .start unread_init
  have opened := begin.next (.beginOp 0 rfl rfl)
  have asked := opened.next (.bread (i := 0) (1, 9) rfl)
  have found := asked.next (.bget (a := .user 0) rfl rfl)
  have locked := found.next (.acquiresleep (a := .user 0) rfl rfl)
  have read := locked.next (.diskRead (a := .user 0) rfl rfl)
  have modified := read.next (.modify (i := 0) (fun _ => 1) rfl)
  have logged := modified.next (.logWrite (i := 0) rfl rfl rfl)
  have released := logged.next (.brelse (i := 0) rfl)
  have ended := released.next (.endOp 0 rfl rfl)
  have begun := ended.next (.begin rfl)
  have target := begun.next (.logTo rfl rfl (by decide))
  have target := target.next (.bget (a := .first) rfl rfl)
  have target := target.next (.acquiresleep (a := .first) rfl rfl)
  have target := target.next (.diskRead (a := .first) rfl rfl)
  have source := target.next (.logFrom rfl rfl rfl rfl)
  have source := source.next (.bget (a := .second) rfl rfl)
  have source := source.next (.acquiresleep (a := .second) rfl rfl)
  have source := source.next (.valid (a := .second) rfl rfl)
  have copied := source.next (.logCopy rfl rfl rfl)
  have copied := copied.next (.logWriteLog rfl rfl)
  have copied := copied.next (.logDropFrom rfl rfl)
  have copied := copied.next (.drop (a := .second) rfl)
  have copied := copied.next (.logDropTo rfl rfl rfl)
  have copied := copied.next (.drop (a := .first) rfl)
  have written := copied.next (.bread (i := 1) (1, 9) rfl)
  have written := written.next (.bget (a := .user 1) rfl rfl)
  have written := written.next (.acquiresleep (a := .user 1) rfl rfl)
  have written := written.next (.valid (a := .user 1) rfl rfl)
  have written := written.next (.modify (i := 1) (fun _ => 2) rfl)
  have written := written.next (.bwrite (i := 1) rfl)
  have written := written.next (.brelse (i := 1) rfl)
  have head := written.next (.logEnd rfl rfl (by decide))
  have head := head.next (.headRead rfl rfl)
  have head := head.next (.bget (a := .first) rfl rfl)
  have head := head.next (.acquiresleep (a := .first) rfl rfl)
  have head := head.next (.diskRead (a := .first) rfl rfl)
  have head := head.next (.headFill rfl rfl)
  have head := head.next (.headWrite rfl rfl)
  have head := head.next (.headDrop rfl rfl)
  have head := head.next (.drop (a := .first) rfl)
  have stale := head.next (.install rfl rfl rfl (by decide))
  have stale := stale.next (.bget (a := .first) rfl rfl)
  have stale := stale.next (.acquiresleep (a := .first) rfl rfl)
  have stale := stale.next (.valid (a := .first) rfl rfl)
  have stale := stale.next (.installHome rfl rfl rfl rfl)
  have stale := stale.next (.bget (a := .second) rfl rfl)
  have stale := stale.next (.acquiresleep (a := .second) rfl rfl)
  have stale := stale.next (.valid (a := .second) rfl rfl)
  have stale := stale.next (.installCopy rfl rfl rfl)
  have stale := stale.next (.installWrite rfl rfl)
  have stale := stale.next (.installUnpin rfl rfl)
  have stale := stale.next (.installDropLog rfl rfl)
  have stale := stale.next (.drop (a := .first) rfl)
  have stale := stale.next (.installDropHome rfl rfl rfl)
  have last := stale.next (.bread (i := 2) (1, 9) rfl)
  have last := last.next (.bget (a := .user 2) rfl rfl)
  have last := last.next (.acquiresleep (a := .user 2) rfl rfl)
  have last := last.next (.valid (a := .user 2) rfl rfl)
  refine ⟨_, last, 2, 0, (1, 9), rfl, by decide, fun same => ?_⟩
  exact absurd (congrFun same 0) (by decide)

end Runs

end OShard.Cache
