import OShard.Base.LinkedList
import OShard.Logging.Model

namespace OShard.Cache

open LinkedList Logging Function

abbrev Block := Nat × Nat

/-- Who calls `bread`: a system call, or `commit`, which has up to two blocks at a time. -/
inductive Agent (k : Nat) where
  | user (i : Fin k)
  | first
  | second
  deriving DecidableEq

/-- `struct buf`; the sleep-lock by its holder. -/
structure Buf (k : Nat) where
  valid : Bool
  dev : Nat
  blockno : Nat
  lock : Option (Agent k)
  refcnt : Nat
  data : Data

def Buf.block {k : Nat} (b : Buf k) : Block := (b.dev, b.blockno)

/-- One use of a block, from the call of `bread` to the end of `brelse`. `dirty` is set from a modification up to the
    `log_write` or `bwrite` that follows it. -/
inductive Use (n : Nat) where
  | idle
  | want (block : Block)
  | waits (b : Fin n) (block : Block)
  | locked (b : Fin n) (block : Block)
  | held (b : Fin n) (block : Block) (dirty : Bool)
  | drops (b : Fin n)

/-- Where `commit` stands: in `write_log`, the two calls of `write_head` and `install_trans`. -/
inductive Commit where
  | idle
  | begin
  | logTo (tail : Nat)
  | logFrom (tail : Nat)
  | logCopy (tail : Nat)
  | logWrite (tail : Nat)
  | logDropFrom (tail : Nat)
  | logDropTo (tail : Nat)
  | headRead (clear : Bool)
  | headFill (clear : Bool)
  | headWrite (clear : Bool)
  | headDrop (clear : Bool)
  | install (tail : Nat)
  | installHome (tail : Nat)
  | installCopy (tail : Nat)
  | installWrite (tail : Nat)
  | installUnpin (tail : Nat)
  | installDropLog (tail : Nat)
  | installDropHome (tail : Nat)
  | done

/-- The log of one device, and the process that makes each of the uses. -/
structure Setup (k m : Nat) extends Config where
  dev : Nat
  owner : Fin k → Fin m

/-- `bcache`, the disk and the log. A node of the ring is a buffer or, as `none`, `bcache.head`; `inOp` tells which
    processes are between `begin_op` and `end_op`, and `latest` what the last `log_write` or `bwrite` of each block
    found in its buffer. -/
structure State (k m n : Nat) where
  bufs : Fin n → Buf k
  links : Links (Option (Fin n))
  disk : Block → Data
  log : Log
  uses : Agent k → Use n
  inOp : Fin m → Bool
  commit : Commit
  latest : Block → Data

variable {k m n : Nat}

section Ring

def pushFront (links : Links (Option (Fin n))) (b : Fin n) : Links (Option (Fin n)) :=
  let links := links.setNext (some b) (links.next none)
  let links := links.setPrev (some b) none
  let links := links.setPrev (links.next none) (some b)
  links.setNext none (some b)

def binit (n : Nat) : Links (Option (Fin n)) :=
  (List.finRange n).foldl pushFront ⟨fun _ => none, fun _ => none⟩

def moveFront (links : Links (Option (Fin n))) (b : Fin n) : Links (Option (Fin n)) :=
  let links := links.setPrev (links.next (some b)) (links.prev (some b))
  let links := links.setNext (links.prev (some b)) (links.next (some b))
  pushFront links b

/-- The loops of `bget`: from `node` along `step` to the first buffer with the property. -/
def scan (step : Option (Fin n) → Option (Fin n)) (found : Fin n → Bool) : Nat → Option (Fin n) → Option (Fin n)
  | 0, _ => none
  | _, none => none
  | fuel + 1, some b => if found b then some b else scan step found fuel (step (some b))

end Ring

namespace State

/-- The first loop of `bget`. -/
def cached (s : State k m n) (block : Block) : Option (Fin n) :=
  scan s.links.next (fun b => (s.bufs b).block = block) (n + 1) (s.links.next none)

/-- The second loop of `bget`. -/
def unused (s : State k m n) : Option (Fin n) :=
  scan s.links.prev (fun b => (s.bufs b).refcnt = 0) (n + 1) (s.links.prev none)

/-- `bget` up to `acquiresleep`: the buffer and its new contents. It panics where there is no result. -/
def bget (s : State k m n) (block : Block) : Option (Fin n × Buf k) :=
  match s.cached block with
  | some b => some (b, { s.bufs b with refcnt := (s.bufs b).refcnt + 1 })
  | none =>
    match s.unused with
    | some b => some (b, { s.bufs b with dev := block.1, blockno := block.2, valid := false, refcnt := 1 })
    | none => none

def setBuf (s : State k m n) (b : Fin n) (buf : Buf k) : State k m n := { s with bufs := update s.bufs b buf }

def use (s : State k m n) (a : Agent k) (u : Use n) : State k m n := { s with uses := update s.uses a u }

def setLock (s : State k m n) (b : Fin n) (lock : Option (Agent k)) : State k m n :=
  s.setBuf b { s.bufs b with lock := lock }

def setData (s : State k m n) (b : Fin n) (data : Data) : State k m n := s.setBuf b { s.bufs b with data := data }

def diskRead (s : State k m n) (b : Fin n) : State k m n :=
  s.setBuf b { s.bufs b with data := s.disk (s.bufs b).block, valid := true }

def bwrite (s : State k m n) (b : Fin n) : State k m n :=
  { s with disk := update s.disk (s.bufs b).block (s.bufs b).data }

def record (s : State k m n) (b : Fin n) : State k m n :=
  { s with latest := update s.latest (s.bufs b).block (s.bufs b).data }

def bpin (s : State k m n) (b : Fin n) : State k m n := s.setBuf b { s.bufs b with refcnt := (s.bufs b).refcnt + 1 }

def bunpin (s : State k m n) (b : Fin n) : State k m n := s.setBuf b { s.bufs b with refcnt := (s.bufs b).refcnt - 1 }

def drop (s : State k m n) (b : Fin n) : State k m n :=
  if (s.bufs b).refcnt - 1 = 0 then { s.bunpin b with links := moveFront s.links b } else s.bunpin b

/-- `brelse` by `a`, up to `releasesleep`. -/
def brelse (s : State k m n) (a : Agent k) (b : Fin n) : State k m n := (s.setLock b none).use a (.drops b)

def go (s : State k m n) (commit : Commit) : State k m n := { s with commit := commit }

end State

/-- The steps of the users of the cache, in any interleaving. A call of `brelse` has returned when the use is idle. -/
inductive Step (cfg : Setup k m) : State k m n → State k m n → Prop where
  | bread {s i} (block : Block) : s.uses (.user i) = .idle → Step cfg s (s.use (.user i) (.want block))
  | bget {s a block b buf} : s.uses a = .want block →
      s.bget block = some (b, buf) → Step cfg s ((s.setBuf b buf).use a (.waits b block))
  | acquiresleep {s a block b} : s.uses a = .waits b block →
      (s.bufs b).lock = none → Step cfg s ((s.setLock b (some a)).use a (.locked b block))
  | valid {s a block b} : s.uses a = .locked b block →
      (s.bufs b).valid = true → Step cfg s (s.use a (.held b block false))
  | diskRead {s a block b} : s.uses a = .locked b block →
      (s.bufs b).valid = false → Step cfg s ((s.diskRead b).use a (.held b block false))
  | modify {s i block b dirty} (data : Data) :
      s.uses (.user i) = .held b block dirty → Step cfg s ((s.setData b data).use (.user i) (.held b block true))
  | logWrite {s i block b dirty pin log} : s.uses (.user i) = .held b block dirty → s.inOp (cfg.owner i) = true →
      s.log.logWrite cfg.toConfig (s.bufs b).blockno = .ok (pin, log) →
      Step cfg s { ((if pin then s.bpin b else s).record b).use (.user i) (.held b block false) with log := log }
  | bwrite {s i block b dirty} : s.uses (.user i) = .held b block dirty →
      Step cfg s (((s.bwrite b).record b).use (.user i) (.held b block false))
  | brelse {s i block b} : s.uses (.user i) = .held b block false → Step cfg s (s.brelse (.user i) b)
  | drop {s a b} : s.uses a = .drops b → Step cfg s ((s.drop b).use a .idle)
  | beginOp {s log} (p : Fin m) : s.inOp p = false → s.log.beginOp = some log →
      Step cfg s { s with log := log, inOp := update s.inOp p true }
  | endOp {s doCommit log} (p : Fin m) : s.inOp p = true →
      s.log.endOp = .ok (doCommit, log) →
      Step cfg s
        { s with
          log := log
          inOp := update s.inOp p false
          commit := if doCommit then .begin else s.commit }
  | begin {s} : s.commit = .begin → Step cfg s (s.go (if 0 < s.log.lh.length then .logTo 0 else .done))
  | logTo {s tail} : s.commit = .logTo tail → s.uses .first = .idle → tail < s.log.lh.length →
      Step cfg s ((s.use .first (.want (cfg.dev, cfg.start + tail + 1))).go (.logFrom tail))
  | logFrom {s tail blockno b block dirty} : s.commit = .logFrom tail → s.uses .first = .held b block dirty →
      s.uses .second = .idle → s.log.lh[tail]? = some blockno →
      Step cfg s ((s.use .second (.want (cfg.dev, blockno))).go (.logCopy tail))
  | logCopy {s tail b b' block block' dirty dirty'} :
      s.commit = .logCopy tail → s.uses .first = .held b block dirty → s.uses .second = .held b' block' dirty' →
      Step cfg s (((s.setData b (s.bufs b').data).use .first (.held b block true)).go (.logWrite tail))
  | logWriteLog {s tail b block dirty} : s.commit = .logWrite tail → s.uses .first = .held b block dirty →
      Step cfg s ((((s.bwrite b).record b).use .first (.held b block false)).go (.logDropFrom tail))
  | logDropFrom {s tail b block dirty} : s.commit = .logDropFrom tail → s.uses .second = .held b block dirty →
      Step cfg s ((s.brelse .second b).go (.logDropTo tail))
  | logDropTo {s tail b block dirty} : s.commit = .logDropTo tail → s.uses .second = .idle →
      s.uses .first = .held b block dirty → Step cfg s ((s.brelse .first b).go (.logTo (tail + 1)))
  | logEnd {s tail} : s.commit = .logTo tail → s.uses .first = .idle →
      ¬tail < s.log.lh.length → Step cfg s (s.go (.headRead false))
  | headRead {s clear} : s.commit = .headRead clear → s.uses .first = .idle →
      Step cfg s ((s.use .first (.want (cfg.dev, cfg.start))).go (.headFill clear))
  | headFill {s clear b block dirty} : s.commit = .headFill clear → s.uses .first = .held b block dirty →
      Step cfg s (((s.setData b (writeHead s.log.lh (s.bufs b).data)).use .first (.held b block true)).go (.headWrite clear))
  | headWrite {s clear b block dirty} : s.commit = .headWrite clear → s.uses .first = .held b block dirty →
      Step cfg s ((((s.bwrite b).record b).use .first (.held b block false)).go (.headDrop clear))
  | headDrop {s clear b block dirty} : s.commit = .headDrop clear → s.uses .first = .held b block dirty →
      Step cfg s ((s.brelse .first b).go (if clear then .done else .install 0))
  | install {s tail} : s.commit = .install tail → s.uses .first = .idle →
      s.uses .second = .idle → tail < s.log.lh.length →
      Step cfg s ((s.use .first (.want (cfg.dev, cfg.start + tail + 1))).go (.installHome tail))
  | installHome {s tail blockno b block dirty} : s.commit = .installHome tail → s.uses .first = .held b block dirty →
      s.uses .second = .idle → s.log.lh[tail]? = some blockno →
      Step cfg s ((s.use .second (.want (cfg.dev, blockno))).go (.installCopy tail))
  | installCopy {s tail b b' block block' dirty dirty'} :
      s.commit = .installCopy tail → s.uses .first = .held b block dirty → s.uses .second = .held b' block' dirty' →
      Step cfg s ((s.setData b' (s.bufs b).data).go (.installWrite tail))
  | installWrite {s tail b block dirty} : s.commit = .installWrite tail → s.uses .second = .held b block dirty →
      Step cfg s ((s.bwrite b).go (.installUnpin tail))
  | installUnpin {s tail b block dirty} : s.commit = .installUnpin tail → s.uses .second = .held b block dirty →
      Step cfg s ((s.bunpin b).go (.installDropLog tail))
  | installDropLog {s tail b block dirty} : s.commit = .installDropLog tail → s.uses .first = .held b block dirty →
      Step cfg s ((s.brelse .first b).go (.installDropHome tail))
  | installDropHome {s tail b block dirty} : s.commit = .installDropHome tail → s.uses .first = .idle →
      s.uses .second = .held b block dirty → Step cfg s ((s.brelse .second b).go (.install (tail + 1)))
  | installEnd {s tail} : s.commit = .install tail → s.uses .first = .idle → s.uses .second = .idle →
      ¬tail < s.log.lh.length → Step cfg s { s.go (.headRead true) with log := { s.log with lh := [] } }
  | done {s} : s.commit = .done → s.uses .first = .idle →
      Step cfg s { s.go .idle with log := { s.log with committing := false } }

/-- After `binit`, with the log recovered: no block has been read yet, and the disk holds what was written last. -/
structure Init (s : State k m n) : Prop where
  bufs : ∀ b, (s.bufs b).valid = false ∧ (s.bufs b).dev = 0 ∧ (s.bufs b).lock = none ∧ (s.bufs b).refcnt = 0
  links : s.links = binit n
  latest : s.latest = s.disk
  log : s.log = ⟨0, false, []⟩
  uses : ∀ a, s.uses a = .idle
  inOp : ∀ p, s.inOp p = false
  commit : s.commit = .idle

abbrev Reach (cfg : Setup k m) : State k m n → Prop := Transition.Reachable Init (Step cfg)

end OShard.Cache
