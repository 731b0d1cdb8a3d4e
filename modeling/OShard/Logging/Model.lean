import OShard.Base.Transition
import OShard.Kernel.Machine

namespace OShard.Logging

open Function

def maxOpBlocks : Nat := 10

def logSize : Nat := maxOpBlocks * 3

/-- The contents of a disk block, as its 32-bit words. -/
abbrev Data := Nat → Nat

/-- Where the log lies on the disk: a header block and `size - 1` blocks behind it. -/
structure Config where
  start : Nat
  size : Nat

def Config.Home (cfg : Config) (b : Nat) : Prop := b < cfg.start ∨ cfg.start + cfg.size ≤ b

/-- `struct log`. The entries of the header are `block[0]` up to `block[n - 1]`. -/
structure Log where
  outstanding : Nat
  committing : Bool
  lh : List Nat

namespace Log

/-- One pass of the loop of `begin_op`, which sleeps where there is no result. -/
def beginOp (log : Log) : Option Log :=
  if log.committing then none
  else if logSize < log.lh.length + (log.outstanding + 1) * maxOpBlocks then none
  else some { log with outstanding := log.outstanding + 1 }

/-- The first critical section of `end_op`, with its `do_commit`. -/
def endOp (log : Log) : Except Fault (Bool × Log) := do
  let log := { log with outstanding := log.outstanding - 1 }
  if log.committing then
    throw (.panic "log.committing")
  if log.outstanding = 0 then
    return (true, { log with committing := true })
  return (false, log)

/-- `log_write` of block `b`, and whether it pins the buffer. -/
def logWrite (cfg : Config) (log : Log) (b : Nat) : Except Fault (Bool × Log) := do
  if logSize ≤ log.lh.length ∨ cfg.size ≤ log.lh.length + 1 then
    throw (.panic "too big a transaction")
  if log.outstanding < 1 then
    throw (.panic "log_write outside of trans")
  let i := log.lh.idxOf b
  if i = log.lh.length then
    return (true, { log with lh := log.lh ++ [b] })
  return (false, { log with lh := log.lh.set i b })

end Log

def readHead (block : Data) : List Nat := (List.range (block 0)).map fun i => block (i + 1)

/-- Only the words of the header are written. -/
def writeHead (lh : List Nat) (block : Data) : Data := fun w =>
  if w = 0 then lh.length else lh.getD (w - 1) (block w)

/-- The disk after `install_trans` from entry `tail` on. -/
def installTrans (cfg : Config) : Nat → List Nat → (Nat → Data) → Nat → Data
  | _, [], disk => disk
  | tail, b :: rest, disk => installTrans cfg (tail + 1) rest (update disk b (disk (cfg.start + tail + 1)))

def recoverFromLog (cfg : Config) (disk : Nat → Data) : Nat → Data :=
  let disk := installTrans cfg 0 (readHead (disk cfg.start)) disk
  update disk cfg.start (writeHead [] (disk cfg.start))

structure Buf where
  data : Data
  refcnt : Nat
  lock : Option Nat

/-- The disk and the cache over it. A block that is not in the cache is read from the disk. -/
structure Blocks where
  disk : Nat → Data
  cache : Nat → Option Buf

namespace Blocks

def buf (m : Blocks) (b : Nat) : Buf := (m.cache b).getD ⟨m.disk b, 0, none⟩

def setBuf (m : Blocks) (b : Nat) (buf : Buf) : Blocks := { m with cache := update m.cache b (some buf) }

def touch (m : Blocks) (b : Nat) : Blocks := m.setBuf b (m.buf b)

def bwrite (m : Blocks) (b : Nat) (data : Data) : Blocks :=
  { m.setBuf b { m.buf b with data := data } with disk := update m.disk b data }

def bpin (m : Blocks) (b : Nat) : Blocks := m.setBuf b { m.buf b with refcnt := (m.buf b).refcnt + 1 }

def bunpin (m : Blocks) (b : Nat) : Blocks := m.setBuf b { m.buf b with refcnt := (m.buf b).refcnt - 1 }

/-- The buffer of the block is recycled for another one. -/
def evict (m : Blocks) (b : Nat) : Blocks := { m with cache := update m.cache b none }

end Blocks

/-- Where `commit` or the recovery at boot stands, between two of its writes to the disk. -/
inductive Pc where
  | idle
  | writeLog (tail : Nat)
  | installTrans (tail : Nat)
  | committed
  | boot
  | recover (tail : Nat)
  deriving DecidableEq

/-- A block that a section passed to `log_write`, with its contents at that time. -/
structure Entry where
  op : Nat
  block : Nat
  data : Data

/-- The machine, and what a run has done so far: the section of each process, the blocks modified and not yet passed
    to `log_write`, all calls of `log_write`, those of the open transaction, and the transactions whose header
    was written. -/
structure State where
  blocks : Blocks
  log : Log
  pc : Pc
  op : Nat → Option Nat
  ops : Nat
  modified : Nat → Bool
  history : List Entry
  pending : List Entry
  committed : List (List Entry)

def State.crash (s : State) : State :=
  { s with
    blocks := ⟨s.blocks.disk, fun _ => none⟩
    log := ⟨0, false, []⟩
    pc := .boot
    op := fun _ => none
    modified := fun _ => false
    pending := [] }

def Pc.up : Pc → Bool
  | .boot | .recover _ => false
  | _ => true

/-- The steps of the machine. Processes read blocks, and inside a section modify them and pass them to `log_write`,
    in any interleaving; the one that ends the last section commits, one write to the disk at a time. -/
inductive Step (cfg : Config) : State → State → Prop where
  | beginOp {s log} (p : Nat) : s.pc.up = true → s.op p = none → s.log.beginOp = some log →
      Step cfg s { s with log := log, op := update s.op p (some s.ops), ops := s.ops + 1 }
  | bread {s} (p b : Nat) : s.pc.up = true → (s.blocks.buf b).lock = none →
      Step cfg s
        { s with
          blocks := s.blocks.setBuf b
            { s.blocks.buf b with refcnt := (s.blocks.buf b).refcnt + 1, lock := some p } }
  | modify {s p b} (data : Data) : (s.blocks.buf b).lock = some p → s.op p ≠ none → cfg.Home b →
      Step cfg s
        { s with
          blocks := s.blocks.setBuf b { s.blocks.buf b with data := data }
          modified := update s.modified b true }
  | logWrite {s p b id pin log} : (s.blocks.buf b).lock = some p → s.op p = some id →
      cfg.Home b → s.log.logWrite cfg b = .ok (pin, log) →
      Step cfg s
        { s with
          blocks := if pin then s.blocks.bpin b else s.blocks
          log := log
          modified := update s.modified b false
          history := s.history ++ [⟨id, b, (s.blocks.buf b).data⟩]
          pending := s.pending ++ [⟨id, b, (s.blocks.buf b).data⟩] }
  | brelse {s p b} : (s.blocks.buf b).lock = some p → s.modified b = false →
      Step cfg s
        { s with
          blocks := s.blocks.setBuf b { s.blocks.buf b with refcnt := (s.blocks.buf b).refcnt - 1, lock := none } }
  | evict {s b} : (s.blocks.buf b).refcnt = 0 → Step cfg s { s with blocks := s.blocks.evict b }
  | endOp {s p id doCommit log} : s.op p = some id →
      (∀ b, s.modified b = true → (s.blocks.buf b).lock ≠ some p) → s.log.endOp = .ok (doCommit, log) →
      Step cfg s
        { s with
          log := log
          op := update s.op p none
          pc := if doCommit then (if log.lh = [] then .committed else .writeLog 0) else s.pc }
  | writeLog {s tail b} : s.pc = .writeLog tail → s.log.lh[tail]? = some b →
      (s.blocks.buf (cfg.start + tail + 1)).lock = none → (s.blocks.buf b).lock = none →
      Step cfg s
        { s with
          blocks := ((s.blocks.touch (cfg.start + tail + 1)).touch b).bwrite (cfg.start + tail + 1)
            (s.blocks.buf b).data
          pc := .writeLog (tail + 1) }
  | writeHead {s} : s.pc = .writeLog s.log.lh.length → (s.blocks.buf cfg.start).lock = none →
      Step cfg s
        { s with
          blocks := s.blocks.bwrite cfg.start (writeHead s.log.lh (s.blocks.buf cfg.start).data)
          pc := .installTrans 0
          committed := s.committed ++ [s.pending]
          pending := [] }
  | installTrans {s tail b} : s.pc = .installTrans tail → s.log.lh[tail]? = some b →
      (s.blocks.buf (cfg.start + tail + 1)).lock = none → (s.blocks.buf b).lock = none →
      Step cfg s
        { s with
          blocks := (((s.blocks.touch (cfg.start + tail + 1)).touch b).bwrite b
            (s.blocks.buf (cfg.start + tail + 1)).data).bunpin b
          pc := .installTrans (tail + 1) }
  | clearHead {s} : s.pc = .installTrans s.log.lh.length → (s.blocks.buf cfg.start).lock = none →
      Step cfg s
        { s with
          blocks := s.blocks.bwrite cfg.start (writeHead [] (s.blocks.buf cfg.start).data)
          log := { s.log with lh := [] }
          pc := .committed }
  | finish {s} : s.pc = .committed → Step cfg s { s with log := { s.log with committing := false }, pc := .idle }
  | crash {s} : Step cfg s s.crash
  | readHead {s} : s.pc = .boot →
      Step cfg s
        { s with
          blocks := s.blocks.touch cfg.start
          log := { s.log with lh := readHead (s.blocks.buf cfg.start).data }
          pc := .recover 0 }
  | recover {s tail b} : s.pc = .recover tail → s.log.lh[tail]? = some b →
      Step cfg s
        { s with
          blocks := ((s.blocks.touch (cfg.start + tail + 1)).touch b).bwrite b
            (s.blocks.buf (cfg.start + tail + 1)).data
          pc := .recover (tail + 1) }
  | recoverClear {s} : s.pc = .recover s.log.lh.length →
      Step cfg s
        { s with
          blocks := s.blocks.bwrite cfg.start (writeHead [] (s.blocks.buf cfg.start).data)
          log := { s.log with lh := [] }
          pc := .idle }

/-- A disk as a machine may leave it: what its header lists are different blocks outside the log, and fits in it. -/
structure Valid (cfg : Config) (disk : Nat → Data) : Prop where
  nodup : (readHead (disk cfg.start)).Nodup
  room : (readHead (disk cfg.start)).length < cfg.size
  home : ∀ b ∈ readHead (disk cfg.start), cfg.Home b

def Boot (disk : Nat → Data) (s : State) : Prop :=
  s = ⟨⟨disk, fun _ => none⟩, ⟨0, false, []⟩, .boot, fun _ => none, 0, fun _ => false, [], [], []⟩

abbrev Reach (cfg : Config) (disk : Nat → Data) : State → Prop := Transition.Reachable (Boot disk) (Step cfg)

end OShard.Logging
