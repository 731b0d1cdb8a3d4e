import OShard.Cache.Ring
import OShard.Logging.Invariant

namespace OShard.Cache

open Logging

variable {k m n : Nat}

namespace Use

def block : Use n → Option Block
  | .want block | .waits _ block | .locked _ block | .held _ block _ => some block
  | _ => none

def dirty : Use n → Bool
  | .held _ _ dirty => dirty
  | _ => false

def buf : Use n → Option (Fin n)
  | .waits b _ | .locked b _ | .held b _ _ | .drops b => some b
  | _ => none

def owns : Use n → Option (Fin n)
  | .locked b _ | .held b _ _ => some b
  | _ => none

end Use

namespace Commit

def first (cfg : Config) : Commit → Option Nat
  | .logFrom tail | .logCopy tail | .logWrite tail | .logDropFrom tail | .logDropTo tail | .installHome tail
  | .installCopy tail | .installWrite tail | .installUnpin tail | .installDropLog tail => some (cfg.start + tail + 1)
  | .headFill _ | .headWrite _ | .headDrop _ => some cfg.start
  | _ => none

def tail : Commit → Option Nat
  | .logFrom tail | .logCopy tail | .logWrite tail | .logDropFrom tail | .logDropTo tail | .installHome tail
  | .installCopy tail | .installWrite tail | .installUnpin tail | .installDropLog tail | .installDropHome tail => some tail
  | _ => none

def second (lh : List Nat) : Commit → Option Nat
  | .logCopy tail | .logWrite tail | .logDropFrom tail | .installCopy tail | .installWrite tail | .installUnpin tail
  | .installDropLog tail | .installDropHome tail => lh[tail]?
  | _ => none

def writes : Commit → Bool
  | .logWrite _ | .headWrite _ => true
  | _ => false

def installed : Commit → Nat
  | .install tail | .installHome tail | .installCopy tail | .installWrite tail | .installUnpin tail => tail
  | .installDropLog tail | .installDropHome tail => tail + 1
  | _ => 0

end Commit

def State.pinned (s : State k m n) : List Nat := s.log.lh.drop s.commit.installed

/-- A step that the file system does not take: a block outside the log's device or inside the log area is passed to
    `log_write`, or a block of the log area, or of the transaction that is being committed, is written directly. -/
def Strays (cfg : Setup k m) (s t : State k m n) : Prop :=
  ∃ i b block dirty, s.uses (.user i) = .held b block dirty ∧
    ((s.inOp (cfg.owner i) = true ∧ ¬(block.1 = cfg.dev ∧ cfg.Home block.2) ∧ ∃ pin log,
        s.log.logWrite cfg.toConfig (s.bufs b).blockno = .ok (pin, log) ∧
        t = { ((if pin then s.bpin b else s).record b).use (.user i) (.held b block false) with log := log }) ∨
      (block.1 = cfg.dev ∧ (¬cfg.Home block.2 ∨ s.log.committing = true ∧ block.2 ∈ s.log.lh) ∧
        t = ((s.bwrite b).record b).use (.user i) (.held b block false)))

structure Committing (cfg : Setup k m) (first second : Use n) (log : Log) (commit : Commit) : Prop where
  one : first.block = (commit.first cfg.toConfig).map (cfg.dev, ·)
  two : second.block = (commit.second log.lh).map (cfg.dev, ·)
  writes : first.dirty = commit.writes
  reads : second.dirty = false
  tail : ∀ tail, commit.tail = some tail → tail < log.lh.length
  closed : log.committing = true → log.outstanding = 0
  busy : log.committing = false → commit = .idle
  nodup : log.lh.Nodup
  home : ∀ blockno ∈ log.lh, cfg.Home blockno
  room : log.lh = [] ∨ log.lh.length < cfg.size

section Steps

variable {cfg : Setup k m} {s t : State k m n}

theorem State.use_self (s : State k m n) (a : Agent k) (u : Use n) : (s.use a u).uses a = u := Function.update_self _ _ _

theorem State.use_other (s : State k m n) {a a' : Agent k} (other : a' ≠ a) (u : Use n) : (s.use a u).uses a' = s.uses a' :=
  Function.update_of_ne other _ _

variable {first second first' second' : Use n} {log : Log} {commit commit' : Commit}

theorem Committing.keep (committing : Committing cfg first second log commit) (block : first'.block = first.block)
    (dirty : first'.dirty = first.dirty) (block' : second'.block = second.block) (dirty' : second'.dirty = second.dirty) :
    Committing cfg first' second' log commit :=
  { committing with
    one := block.trans committing.one
    two := block'.trans committing.two
    writes := dirty.trans committing.writes
    reads := dirty'.trans committing.reads }

theorem Committing.agent (committing : Committing cfg (s.uses .first) (s.uses .second) log commit) (a : Agent k) (u : Use n)
    (block : u.block = (s.uses a).block) (dirty : u.dirty = (s.uses a).dirty) :
    Committing cfg ((s.use a u).uses .first) ((s.use a u).uses .second) log commit := by
  cases a with
  | user i => exact committing
  | first => exact committing.keep block dirty rfl rfl
  | second => exact committing.keep rfl rfl block dirty

theorem Committing.go (committing : Committing cfg first second log commit) (active : commit ≠ .idle)
    (block : first'.block = (commit'.first cfg.toConfig).map (cfg.dev, ·))
    (block' : second'.block = (commit'.second log.lh).map (cfg.dev, ·)) (dirty : first'.dirty = commit'.writes)
    (dirty' : second'.dirty = false) (tail : ∀ tail, commit'.tail = some tail → tail < log.lh.length) :
    Committing cfg first' second' log commit' :=
  { committing with
    one := block
    two := block'
    writes := dirty
    reads := dirty'
    tail := tail
    busy := fun free => absurd (committing.busy free) active }

theorem Committing.idle_of_logWrite (committing : Committing cfg first second s.log commit) {blockno : Nat} {pin : Bool}
    {log : Log} (result : s.log.logWrite cfg.toConfig blockno = .ok (pin, log)) : commit = .idle := by
  have outstanding := (Log.logWrite_guards result).2
  apply committing.busy
  rw [← Bool.not_eq_true]
  intro busy
  rw [committing.closed busy] at outstanding
  exact outstanding Nat.one_pos

theorem home_of_kept {i : Fin k} {b : Fin n} {block : Block} {dirty pin : Bool} {log : Log}
    (place : s.uses (.user i) = .held b block dirty) (inOp : s.inOp (cfg.owner i) = true)
    (result : s.log.logWrite cfg.toConfig (s.bufs b).blockno = .ok (pin, log)) (kept : ¬Strays cfg s
      { ((if pin then s.bpin b else s).record b).use (.user i) (.held b block false) with log := log }) :
    block.1 = cfg.dev ∧ cfg.Home block.2 := by
  by_contra away
  exact kept ⟨i, b, block, dirty, place, Or.inl ⟨inOp, away, pin, log, result, rfl⟩⟩

theorem Committing.step (committing : Committing cfg (s.uses .first) (s.uses .second) s.log s.commit) (step : Step cfg s t)
    (kept : ¬Strays cfg s t) (named : ∀ i b block dirty, s.uses (.user i) = .held b block dirty → (s.bufs b).block = block) :
    Committing cfg (t.uses .first) (t.uses .second) t.log t.commit := by
  cases step with
  | bread | modify | bwrite | brelse => exact committing
  | bget place | acquiresleep place | valid place | diskRead place =>
    exact committing.agent _ _ (by rw [place]; rfl) (by rw [place]; rfl)
  | logWrite place inOp result =>
    rename_i i block b dirty pin log
    obtain ⟨-, room, -, after⟩ := Log.logWrite_ok result
    have home : cfg.Home block.2 := (home_of_kept place inOp result kept).2
    rw [← named i b block dirty place] at home
    have idle := committing.idle_of_logWrite result
    rw [idle] at committing
    have same : Committing cfg (s.uses .first) (s.uses .second) log .idle := by
      rw [after]
      by_cases member : (s.bufs b).blockno ∈ s.log.lh
      · rw [if_pos member]
        exact committing
      rw [if_neg member]
      refine { committing with tail := nofun, nodup := ?_, home := fun blockno here => ?_, room := Or.inr ?_ }
      · rw [List.nodup_append]
        refine ⟨committing.nodup, List.nodup_singleton _, fun one here two single => ?_⟩
        rw [List.mem_singleton] at single
        rw [single]
        rintro rfl
        exact member here
      · rcases List.mem_append.mp here with old | new
        · exact committing.home blockno old
        · rw [List.mem_singleton.mp new]
          exact home
      · rw [List.length_append]
        exact room
    have unchanged : Committing cfg (s.uses .first) (s.uses .second) log s.commit := by
      rw [idle]
      exact same
    cases pin <;> exact unchanged
  | drop place =>
    rename_i a b
    have same : ((s.drop b).use a .idle).uses = (s.use a .idle).uses ∧ ((s.drop b).use a .idle).log = s.log ∧
        ((s.drop b).use a .idle).commit = s.commit := by
      unfold State.drop
      split <;> exact ⟨rfl, rfl, rfl⟩
    rw [same.1, same.2.1, same.2.2]
    exact committing.agent _ _ (by rw [place]; rfl) (by rw [place]; rfl)
  | beginOp p free result =>
    obtain ⟨idle, -, after⟩ := Log.beginOp_some result
    rw [after]
    exact { committing with closed := fun busy => absurd (idle.symm.trans busy) nofun }
  | endOp p inOp result =>
    obtain ⟨free, last, after⟩ := Log.endOp_ok result
    have idle := committing.busy free
    rw [idle] at committing ⊢
    rw [after]
    rename_i doCommit log
    cases doCommit with
    | false => exact { committing with closed := nofun, busy := fun _ => rfl }
    | true =>
      have none : s.log.outstanding - 1 = 0 := of_decide_eq_true last.symm
      exact { committing with tail := nofun, closed := fun _ => none, busy := nofun }
  | begin place =>
    rw [place] at committing
    change Committing cfg _ _ s.log (if 0 < s.log.lh.length then .logTo 0 else .done)
    split <;> exact committing.go nofun committing.one committing.two committing.writes committing.reads nofun
  | logTo place idle more | install place idle _ more =>
    rw [place] at committing
    exact committing.go nofun rfl committing.two rfl committing.reads fun _ same => by cases same; exact more
  | logFrom place has idle entry | installHome place has idle entry =>
    rw [place] at committing
    refine committing.go nofun committing.one ?_ committing.writes rfl (committing.tail)
    exact (congrArg (Option.map (cfg.dev, ·)) entry).symm
  | logCopy place has | logWriteLog place has =>
    rw [place, has] at committing
    exact committing.go nofun committing.one committing.two rfl committing.reads committing.tail
  | logDropFrom place has =>
    rw [place] at committing
    exact committing.go nofun committing.one rfl committing.writes rfl committing.tail
  | logDropTo place | headRead place =>
    rw [place] at committing
    exact committing.go nofun rfl committing.two rfl committing.reads nofun
  | logEnd place =>
    rw [place] at committing
    exact committing.go nofun committing.one committing.two committing.writes committing.reads nofun
  | headFill place has | headWrite place has =>
    rw [place, has] at committing
    exact committing.go nofun committing.one committing.two rfl committing.reads nofun
  | headDrop place has =>
    rw [place] at committing
    rename_i clear b block dirty
    cases clear <;> exact committing.go nofun rfl committing.two rfl committing.reads nofun
  | installCopy place | installWrite place | installUnpin place =>
    rw [place] at committing
    exact committing.go nofun committing.one committing.two committing.writes committing.reads committing.tail
  | installDropLog place has =>
    rw [place] at committing
    exact committing.go nofun rfl committing.two rfl committing.reads committing.tail
  | installDropHome place idle has =>
    rw [place] at committing
    exact committing.go nofun committing.one rfl committing.writes rfl nofun
  | installEnd place idle idle' finished =>
    rw [place] at committing
    exact
      { committing with
        tail := nofun
        busy := fun free => absurd (committing.busy free) nofun
        nodup := List.nodup_nil
        home := nofun
        room := Or.inl rfl }
  | done place idle =>
    rw [place] at committing
    exact { committing with tail := nofun, closed := nofun, busy := fun _ => rfl }

end Steps

end OShard.Cache
