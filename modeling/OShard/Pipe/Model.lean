import OShard.Base.Transition

namespace OShard.Pipes

open Function

def pipeSize : Nat := 512

/-- `struct pipe`; its lock is part of the state of the system. -/
structure Pipe where
  data : Fin pipeSize → BitVec 8
  nread : BitVec 32
  nwrite : BitVec 32
  readopen : Bool
  writeopen : Bool

namespace Pipe

def full (pi : Pipe) : Bool := pi.nwrite == pi.nread + BitVec.ofNat 32 pipeSize

def empty (pi : Pipe) : Bool := pi.nread == pi.nwrite

def slot (count : BitVec 32) : Fin pipeSize := ⟨count.toNat % pipeSize, Nat.mod_lt _ (by decide)⟩

def put (pi : Pipe) (ch : BitVec 8) : Pipe :=
  { pi with data := update pi.data (slot pi.nwrite) ch, nwrite := pi.nwrite + 1 }

def get (pi : Pipe) : BitVec 8 × Pipe := (pi.data (slot pi.nread), { pi with nread := pi.nread + 1 })

end Pipe

inductive Chan where
  | nread
  | nwrite
  deriving DecidableEq

/-- Where a process stands in `pipewrite` and `piperead`. In all of these but the first of each call and `asleep`
    it holds the lock. `stored` records that `pipewrite` has stored a byte since it last called `wakeup`. -/
inductive Pc where
  | user
  | writeAcquire (n : Int)
  | writeLoop (i : Nat) (n : Int) (stored : Bool)
  | writeKilled (i : Nat) (n : Int) (stored : Bool)
  | writeFull (i : Nat) (n : Int) (stored : Bool)
  | writeSleep (i : Nat) (n : Int)
  | writeAsleep (i : Nat) (n : Int)
  | writeDone (i : Nat)
  | readAcquire (n : Int)
  | readEmpty (n : Int)
  | readKilled (n : Int)
  | readSleep (n : Int)
  | readAsleep (n : Int)
  | readCopy (i : Nat) (n : Int)
  | readDone (i : Nat)

/-- `chan` is the channel the process is SLEEPING on, if it is; `a0` what its last call returned. -/
structure Proc where
  killed : Bool
  chan : Option Chan
  pc : Pc
  a0 : Int

/-- One pipe and its users. `enqueued` and `dequeued` are the bytes that went in and out, the first one first. -/
structure State (k : Nat) where
  pipe : Pipe
  lock : Option (Fin k)
  procs : Fin k → Proc
  enqueued : List (BitVec 8)
  dequeued : List (BitVec 8)

variable {k : Nat}

def State.set (s : State k) (p : Fin k) (proc : Proc) : State k := { s with procs := update s.procs p proc }

def State.go (s : State k) (p : Fin k) (pc : Pc) : State k := s.set p { s.procs p with pc := pc }

def State.ret (s : State k) (p : Fin k) (value : Int) : State k :=
  { s.set p { s.procs p with pc := .user, a0 := value } with lock := none }

def State.wakeup (s : State k) (p : Fin k) (chan : Chan) : State k :=
  { s with procs := fun q => if q ≠ p ∧ (s.procs q).chan = some chan then { s.procs q with chan := none } else s.procs q }

/-- `sleep`, up to the call of `sched`. -/
def State.sleep (s : State k) (p : Fin k) (chan : Chan) (pc : Pc) : State k :=
  { s.set p { s.procs p with chan := some chan, pc := pc } with lock := none }

def State.kill (s : State k) (p : Fin k) : State k := s.set p { s.procs p with killed := true, chan := none }

def State.pipeclose (s : State k) (p : Fin k) (writable : Bool) : State k :=
  if writable then { s.wakeup p .nread with pipe := { s.pipe with writeopen := false } }
  else { s.wakeup p .nwrite with pipe := { s.pipe with readopen := false } }

theorem State.go_self (s : State k) (p : Fin k) (pc : Pc) : (s.go p pc).procs p = { s.procs p with pc := pc } :=
  update_self _ _ _

theorem State.go_other (s : State k) {p q : Fin k} (other : q ≠ p) (pc : Pc) : (s.go p pc).procs q = s.procs q :=
  update_of_ne other _ _

theorem State.ret_self (s : State k) (p : Fin k) (value : Int) :
    (s.ret p value).procs p = { s.procs p with pc := .user, a0 := value } :=
  update_self _ _ _

theorem State.sleep_self (s : State k) (p : Fin k) (chan : Chan) (pc : Pc) :
    (s.sleep p chan pc).procs p = { s.procs p with chan := some chan, pc := pc } :=
  update_self _ _ _

theorem State.kill_self (s : State k) (p : Fin k) :
    (s.kill p).procs p = { s.procs p with killed := true, chan := none } :=
  update_self _ _ _

theorem State.wakeup_self (s : State k) (p : Fin k) (chan : Chan) : (s.wakeup p chan).procs p = s.procs p :=
  if_neg fun both => both.1 rfl

/-- The steps of the users of the pipe; `copyin` and `copyout` may fail at any byte. -/
inductive Step : State k → State k → Prop where
  | kill {s} (p : Fin k) : Step s (s.kill p)
  | pipeclose {s p} (writable : Bool) : (s.procs p).pc = .user → s.lock = none → Step s (s.pipeclose p writable)
  | pipewrite {s p} (n : Int) : (s.procs p).pc = .user → Step s (s.go p (.writeAcquire n))
  | writeAcquire {s p n} : (s.procs p).pc = .writeAcquire n → s.lock = none →
      Step s { s.go p (.writeLoop 0 n false) with lock := some p }
  | writeMore {s} {p : Fin k} {i : Nat} {n : Int} {stored : Bool} : (s.procs p).pc = .writeLoop i n stored →
      (i : Int) < n → Step s (s.go p (.writeKilled i n stored))
  | writeEnd {s} {p : Fin k} {i : Nat} {n : Int} {stored : Bool} : (s.procs p).pc = .writeLoop i n stored →
      ¬(i : Int) < n → Step s (s.go p (.writeDone i))
  | writeAbort {s p i n stored} : (s.procs p).pc = .writeKilled i n stored →
      s.pipe.readopen = false ∨ (s.procs p).killed = true → Step s (s.ret p (-1))
  | writeGo {s p i n stored} : (s.procs p).pc = .writeKilled i n stored →
      s.pipe.readopen = true → (s.procs p).killed = false → Step s (s.go p (.writeFull i n stored))
  | writeWait {s p i n stored} : (s.procs p).pc = .writeFull i n stored →
      s.pipe.full = true → Step s ((s.wakeup p .nread).go p (.writeSleep i n))
  | writeByte {s p i n stored} (ch : BitVec 8) : (s.procs p).pc = .writeFull i n stored → s.pipe.full = false →
      Step s { s.go p (.writeLoop (i + 1) n true) with pipe := s.pipe.put ch, enqueued := s.enqueued ++ [ch] }
  | writeFault {s p i n stored} : (s.procs p).pc = .writeFull i n stored →
      s.pipe.full = false → Step s (s.go p (.writeDone i))
  | writeSleep {s p i n} : (s.procs p).pc = .writeSleep i n → Step s (s.sleep p .nwrite (.writeAsleep i n))
  | writeAwake {s p i n} : (s.procs p).pc = .writeAsleep i n →
      (s.procs p).chan = none → s.lock = none → Step s { s.go p (.writeLoop i n false) with lock := some p }
  | writeDone {s p} {i : Nat} : (s.procs p).pc = .writeDone i → Step s ((s.wakeup p .nread).ret p i)
  | piperead {s p} (n : Int) : (s.procs p).pc = .user → Step s (s.go p (.readAcquire n))
  | readAcquire {s p n} : (s.procs p).pc = .readAcquire n → s.lock = none →
      Step s { s.go p (.readEmpty n) with lock := some p }
  | readEmpty {s p n} : (s.procs p).pc = .readEmpty n → s.pipe.empty = true →
      s.pipe.writeopen = true → Step s (s.go p (.readKilled n))
  | readReady {s p n} : (s.procs p).pc = .readEmpty n →
      s.pipe.empty = false ∨ s.pipe.writeopen = false → Step s (s.go p (.readCopy 0 n))
  | readAbort {s p n} : (s.procs p).pc = .readKilled n → (s.procs p).killed = true → Step s (s.ret p (-1))
  | readGo {s p n} : (s.procs p).pc = .readKilled n → (s.procs p).killed = false → Step s (s.go p (.readSleep n))
  | readSleep {s p n} : (s.procs p).pc = .readSleep n → Step s (s.sleep p .nread (.readAsleep n))
  | readAwake {s p n} : (s.procs p).pc = .readAsleep n → (s.procs p).chan = none →
      s.lock = none → Step s { s.go p (.readEmpty n) with lock := some p }
  | readByte {s : State k} {p : Fin k} {i : Nat} {n : Int} (fault : Bool) : (s.procs p).pc = .readCopy i n →
      (i : Int) < n → s.pipe.empty = false →
      Step s { s.go p (if fault then .readDone i else .readCopy (i + 1) n) with
        pipe := s.pipe.get.2
        dequeued := s.dequeued ++ [s.pipe.get.1] }
  | readEnd {s} {p : Fin k} {i : Nat} {n : Int} : (s.procs p).pc = .readCopy i n →
      ¬(i : Int) < n ∨ s.pipe.empty = true → Step s (s.go p (.readDone i))
  | readDone {s p} {i : Nat} : (s.procs p).pc = .readDone i → Step s ((s.wakeup p .nwrite).ret p i)

structure Init (s : State k) : Prop where
  nread : s.pipe.nread = 0
  nwrite : s.pipe.nwrite = 0
  readopen : s.pipe.readopen = true
  writeopen : s.pipe.writeopen = true
  lock : s.lock = none
  pc : ∀ p, (s.procs p).pc = .user
  chan : ∀ p, (s.procs p).chan = none
  enqueued : s.enqueued = []
  dequeued : s.dequeued = []

abbrev Reach : State k → Prop := Transition.Reachable Init Step

def fresh (k : Nat) : State k :=
  ⟨⟨fun _ => 0, 0, 0, true, true⟩, none, fun _ => ⟨false, none, .user, 0⟩, [], []⟩

theorem fresh_init : Init (fresh k) := ⟨rfl, rfl, rfl, rfl, rfl, fun _ => rfl, fun _ => rfl, rfl, rfl⟩

end OShard.Pipes
