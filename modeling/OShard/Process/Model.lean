import OShard.Base.Transition

namespace OShard.Process

inductive ProcState where
  | unused
  | used
  | sleeping
  | runnable
  | running
  | zombie
  deriving DecidableEq

/-- What a process may sleep on: a `struct proc`, which only `wait` does, or anything else in the kernel. -/
inductive Chan (n : Nat) where
  | proc (p : Fin n)
  | other (addr : Nat)
  deriving DecidableEq

/-- Where the kernel thread of a process stands in `fork`, `exit`, `wait` and `kill`. `i` and `j` are positions in the
    process table. -/
inductive Pc (n : Nat) where
  | user
  | otherAsleep
  | forkScan (i : Nat)
  | forkFound (np : Fin n)
  | forkLink (np : Fin n) (pid : BitVec 32)
  | forkParent (np : Fin n) (pid : BitVec 32)
  | forkRelease (np : Fin n) (pid : BitVec 32)
  | forkStart (np : Fin n) (pid : BitVec 32)
  | exitClose (status : BitVec 32)
  | exitReparent (status : BitVec 32) (i : Nat)
  | exitWakeInit (status : BitVec 32) (i j : Nat)
  | exitWakeParent (status : BitVec 32) (chan : Option (Fin n)) (j : Nat)
  | exitLock (status : BitVec 32)
  | exitRelease
  | exitSched
  | exited
  | waitAcquire (addr : BitVec 64)
  | waitScan (addr : BitVec 64) (i : Nat) (havekids : Bool)
  | waitKilled (addr : BitVec 64)
  | waitSleep (addr : BitVec 64)
  | waitRelease (addr : BitVec 64)
  | waitDoze (addr : BitVec 64)
  | waitAsleep (addr : BitVec 64)
  | killScan (pid : BitVec 32) (i : Nat)

/-- A process is its slot and how often the slot was freed before. -/
abbrev Id (n : Nat) := Fin n × Nat

/-- `struct proc`, `lock` with its holder. `onCpu` is set while a CPU runs the thread, `a0` is what the last call
    returned; `gen` and `creator` record which process this is and which one forked it. -/
structure Proc (n : Nat) where
  lock : Option (Fin n)
  state : ProcState
  chan : Option (Chan n)
  killed : Bool
  xstate : BitVec 32
  pid : BitVec 32
  parent : Option (Fin n)
  onCpu : Bool
  pc : Pc n
  a0 : BitVec 32
  gen : Nat
  creator : Option (Id n)

structure Exit (n : Nat) where
  who : Id n
  pid : BitVec 32
  status : BitVec 32

/-- A call of `wait(addr)` that frees `who`; `delivered` is what it copied out, `returned` what it returns. -/
structure Reap (n : Nat) where
  who : Id n
  addr : BitVec 64
  returned : BitVec 32
  delivered : Option (BitVec 32)
  reaper : Id n
  creator : Option (Id n)

/-- The process table with the locks and variables of proc.c, and the exits and reaps so far. -/
structure State (n : Nat) where
  procs : Fin n → Proc n
  waitLock : Option (Fin n)
  nextpid : BitVec 32
  initproc : Fin n
  exits : List (Exit n)
  reaps : List (Reap n)

variable {n : Nat}

def State.set (s : State n) (p : Fin n) (proc : Proc n) : State n := { s with procs := Function.update s.procs p proc }

def State.go (s : State n) (p : Fin n) (pc : Pc n) : State n := s.set p { s.procs p with pc := pc }

def State.ret (s : State n) (p : Fin n) (value : BitVec 32) : State n :=
  s.set p { s.procs p with pc := .user, a0 := value }

def State.id (s : State n) (p : Fin n) : Id n := (p, (s.procs p).gen)

def wake (chan : Option (Chan n)) (proc : Proc n) : Proc n :=
  if proc.state = .sleeping ∧ proc.chan = chan then { proc with state := .runnable } else proc

def State.wakeup (s : State n) (chan : Option (Chan n)) (q : Fin n) : State n := s.set q (wake chan (s.procs q))

def kill (proc : Proc n) : Proc n :=
  { proc with killed := true, state := if proc.state = .sleeping then .runnable else proc.state }

def State.kill (s : State n) (q : Fin n) : State n := s.set q (Process.kill (s.procs q))

/-- The start of `allocproc` at a free slot; its thread will begin in `forkret`. -/
def State.allocproc (s : State n) (p q : Fin n) : State n :=
  { s.set q { s.procs q with lock := some p, pid := s.nextpid, state := .used, pc := .user } with
    nextpid := s.nextpid + 1 }

def freeproc (proc : Proc n) : Proc n :=
  { proc with
    lock := none, pid := 0, parent := none, chan := none, killed := false, xstate := 0, state := .unused, pc := .user
    gen := proc.gen + 1, creator := none }

def State.freeproc (s : State n) (q : Fin n) : State n := s.set q (Process.freeproc (s.procs q))

/-- `wait` at the zombie `c`: `copied` tells whether `copyout` would succeed. -/
def State.waitZombie (s : State n) (p c : Fin n) (addr : BitVec 64) (copied : Bool) : State n :=
  if addr ≠ 0 ∧ copied = false then { s.ret p (-1) with waitLock := none }
  else
    { (s.freeproc c).ret p (s.procs c).pid with
      waitLock := none
      reaps := s.reaps ++ [⟨s.id c, addr, (s.procs c).pid, if addr ≠ 0 then some (s.procs c).xstate else none, s.id p,
        (s.procs c).creator⟩] }

def Pc.preemptible : Pc n → Bool
  | .user | .forkScan _ | .forkLink _ _ | .forkStart _ _ | .exitClose _ | .waitAcquire _ | .killScan _ _ => true
  | _ => false

/-- Where a thread goes on when `sched` returns in it. -/
def Pc.resumed : Pc n → Pc n
  | .otherAsleep => .user
  | .waitAsleep addr => .waitAcquire addr
  | pc => pc

/-- `scheduler` picks the thread, and the thread releases the lock: in `sleep` after it has cleared `chan`. -/
def dispatch (proc : Proc n) : Proc n :=
  { proc with
    state := .running
    onCpu := true
    chan := match proc.pc with
      | .otherAsleep | .waitAsleep _ => none
      | _ => proc.chan
    pc := proc.pc.resumed }

/-- The steps of the kernel threads. A critical section of one `p->lock` is one step when no other lock is taken or
    released in it. `exit` by `initproc` panics, so it has no step. -/
inductive Step : State n → State n → Prop where
  | dispatch {s p} : (s.procs p).lock = none → (s.procs p).state = .runnable → Step s (s.set p (dispatch (s.procs p)))
  | yield {s p} : (s.procs p).onCpu = true → (s.procs p).pc.preemptible = true →
      (s.procs p).lock = none → Step s (s.set p { s.procs p with state := .runnable, onCpu := false })
  | sleep {s p} (addr : Nat) : (s.procs p).onCpu = true → (s.procs p).pc = .user → (s.procs p).lock = none →
      Step s (s.set p { s.procs p with chan := some (.other addr), state := .sleeping, onCpu := false, pc := .otherAsleep })
  | wakeup {s q} (addr : Nat) : (s.procs q).lock = none → Step s (s.wakeup (some (.other addr)) q)
  | setkilled {s p} : (s.procs p).onCpu = true → (s.procs p).pc = .user →
      (s.procs p).lock = none → Step s (s.set p { s.procs p with killed := true })
  | fork {s p} : (s.procs p).onCpu = true → (s.procs p).pc = .user → Step s (s.go p (.forkScan 0))
  | forkTaken {s} {p q : Fin n} : (s.procs p).onCpu = true → (s.procs p).pc = .forkScan q →
      (s.procs q).lock = none → (s.procs q).state ≠ .unused → Step s (s.go p (.forkScan (q + 1)))
  | forkFull {s p} : (s.procs p).onCpu = true → (s.procs p).pc = .forkScan n → Step s (s.ret p (-1))
  | forkFound {s p q} : (s.procs p).onCpu = true → (s.procs p).pc = .forkScan q →
      (s.procs q).lock = none → (s.procs q).state = .unused → Step s ((s.allocproc p q).go p (.forkFound q))
  | forkFail {s p np} : (s.procs p).onCpu = true → (s.procs p).pc = .forkFound np → Step s ((s.freeproc np).ret p (-1))
  | forkCopy {s p np} : (s.procs p).onCpu = true → (s.procs p).pc = .forkFound np →
      Step s ((s.set np { s.procs np with lock := none }).go p (.forkLink np (s.procs np).pid))
  | forkAcquire {s p np pid} : (s.procs p).onCpu = true → (s.procs p).pc = .forkLink np pid → s.waitLock = none →
      Step s { s.go p (.forkParent np pid) with waitLock := some p }
  | forkParent {s p np pid} : (s.procs p).onCpu = true → (s.procs p).pc = .forkParent np pid →
      Step s ((s.set np { s.procs np with parent := some p, creator := some (s.id p) }).go p (.forkRelease np pid))
  | forkRelease {s p np pid} : (s.procs p).onCpu = true →
      (s.procs p).pc = .forkRelease np pid → Step s { s.go p (.forkStart np pid) with waitLock := none }
  | forkStart {s p np pid} : (s.procs p).onCpu = true → (s.procs p).pc = .forkStart np pid → (s.procs np).lock = none →
      Step s ((s.set np { s.procs np with state := .runnable }).ret p pid)
  | exit {s p} (status : BitVec 32) : (s.procs p).onCpu = true → (s.procs p).pc = .user → p ≠ s.initproc →
      Step s { s.go p (.exitClose status) with exits := s.exits ++ [⟨s.id p, (s.procs p).pid, status⟩] }
  | exitAcquire {s p status} : (s.procs p).onCpu = true → (s.procs p).pc = .exitClose status → s.waitLock = none →
      Step s { s.go p (.exitReparent status 0) with waitLock := some p }
  | exitChild {s p q status} : (s.procs p).onCpu = true →
      (s.procs p).pc = .exitReparent status q → (s.procs q).parent = some p →
      Step s ((s.set q { s.procs q with parent := some s.initproc }).go p (.exitWakeInit status q 0))
  | exitOther {s p} {q : Fin n} {status} : (s.procs p).onCpu = true → (s.procs p).pc = .exitReparent status q →
      (s.procs q).parent ≠ some p → Step s (s.go p (.exitReparent status (q + 1)))
  | exitWakeInit {s p q status i} : (s.procs p).onCpu = true → (s.procs p).pc = .exitWakeInit status i q → q ≠ p →
      (s.procs q).lock = none → Step s ((s.wakeup (some (.proc s.initproc)) q).go p (.exitWakeInit status i (q + 1)))
  | exitSkipInit {s p status i} : (s.procs p).onCpu = true →
      (s.procs p).pc = .exitWakeInit status i p → Step s (s.go p (.exitWakeInit status i (p + 1)))
  | exitWokenInit {s p status i} : (s.procs p).onCpu = true →
      (s.procs p).pc = .exitWakeInit status i n → Step s (s.go p (.exitReparent status (i + 1)))
  | exitReparented {s p status} : (s.procs p).onCpu = true →
      (s.procs p).pc = .exitReparent status n → Step s (s.go p (.exitWakeParent status (s.procs p).parent 0))
  | exitWakeParent {s p q status chan} : (s.procs p).onCpu = true →
      (s.procs p).pc = .exitWakeParent status chan q → q ≠ p → (s.procs q).lock = none →
      Step s ((s.wakeup (chan.map .proc) q).go p (.exitWakeParent status chan (q + 1)))
  | exitSkipParent {s p status chan} : (s.procs p).onCpu = true →
      (s.procs p).pc = .exitWakeParent status chan p → Step s (s.go p (.exitWakeParent status chan (p + 1)))
  | exitWokenParent {s p status chan} : (s.procs p).onCpu = true →
      (s.procs p).pc = .exitWakeParent status chan n → Step s (s.go p (.exitLock status))
  | exitZombie {s p status} : (s.procs p).onCpu = true → (s.procs p).pc = .exitLock status → (s.procs p).lock = none →
      Step s (s.set p { s.procs p with lock := some p, xstate := status, state := .zombie, pc := .exitRelease })
  | exitRelease {s p} : (s.procs p).onCpu = true → (s.procs p).pc = .exitRelease →
      Step s { s.go p .exitSched with waitLock := none }
  | exitSched {s p} : (s.procs p).onCpu = true → (s.procs p).pc = .exitSched →
      Step s (s.set p { s.procs p with lock := none, onCpu := false, pc := .exited })
  | wait {s p} (addr : BitVec 64) : (s.procs p).onCpu = true → (s.procs p).pc = .user →
      Step s (s.go p (.waitAcquire addr))
  | waitAcquire {s p addr} : (s.procs p).onCpu = true → (s.procs p).pc = .waitAcquire addr → s.waitLock = none →
      Step s { s.go p (.waitScan addr 0 false) with waitLock := some p }
  | waitOther {s p} {q : Fin n} {addr havekids} : (s.procs p).onCpu = true →
      (s.procs p).pc = .waitScan addr q havekids → (s.procs q).parent ≠ some p →
      Step s (s.go p (.waitScan addr (q + 1) havekids))
  | waitAlive {s : State n} {p q : Fin n} {addr : BitVec 64} {havekids : Bool} : (s.procs p).onCpu = true →
      (s.procs p).pc = .waitScan addr q havekids → (s.procs q).parent = some p → (s.procs q).lock = none →
      (s.procs q).state ≠ .zombie → Step s (s.go p (.waitScan addr (q + 1) true))
  | waitZombie {s p q addr havekids} (copied : Bool) :
      (s.procs p).onCpu = true → (s.procs p).pc = .waitScan addr q havekids → (s.procs q).parent = some p →
      (s.procs q).lock = none → (s.procs q).state = .zombie → Step s (s.waitZombie p q addr copied)
  | waitNone {s p addr} : (s.procs p).onCpu = true →
      (s.procs p).pc = .waitScan addr n false → Step s { s.ret p (-1) with waitLock := none }
  | waitSome {s p addr} : (s.procs p).onCpu = true →
      (s.procs p).pc = .waitScan addr n true → Step s (s.go p (.waitKilled addr))
  | waitKilled {s p addr} : (s.procs p).onCpu = true → (s.procs p).pc = .waitKilled addr → (s.procs p).lock = none →
      (s.procs p).killed = true → Step s { s.ret p (-1) with waitLock := none }
  | waitGo {s p addr} : (s.procs p).onCpu = true → (s.procs p).pc = .waitKilled addr → (s.procs p).lock = none →
      (s.procs p).killed = false → Step s (s.go p (.waitSleep addr))
  | waitSleep {s p addr} : (s.procs p).onCpu = true → (s.procs p).pc = .waitSleep addr → (s.procs p).lock = none →
      Step s (s.set p { s.procs p with lock := some p, pc := .waitRelease addr })
  | waitRelease {s p addr} : (s.procs p).onCpu = true →
      (s.procs p).pc = .waitRelease addr → Step s { s.go p (.waitDoze addr) with waitLock := none }
  | waitDoze {s p addr} : (s.procs p).onCpu = true →
      (s.procs p).pc = .waitDoze addr →
      Step s (s.set p { s.procs p with
        lock := none, chan := some (.proc p), state := .sleeping, onCpu := false, pc := .waitAsleep addr })
  | kill {s p} (pid : BitVec 32) : (s.procs p).onCpu = true → (s.procs p).pc = .user → Step s (s.go p (.killScan pid 0))
  | killHit {s p q pid} : (s.procs p).onCpu = true → (s.procs p).pc = .killScan pid q → (s.procs q).lock = none →
      (s.procs q).pid = pid → Step s ((s.kill q).ret p 0)
  | killMiss {s} {p q : Fin n} {pid : BitVec 32} : (s.procs p).onCpu = true → (s.procs p).pc = .killScan pid q →
      (s.procs q).lock = none → (s.procs q).pid ≠ pid → Step s (s.go p (.killScan pid (q + 1)))
  | killEnd {s p pid} : (s.procs p).onCpu = true → (s.procs p).pc = .killScan pid n → Step s (s.ret p (-1))

/-- The table when `userinit` has made the first process, the other slots as the loader left them. -/
structure Init (s : State n) : Prop where
  waitLock : s.waitLock = none
  exits : s.exits = []
  reaps : s.reaps = []
  first : (s.procs s.initproc).state = .runnable
  others : ∀ q, q ≠ s.initproc → (s.procs q).state = .unused ∧ (s.procs q).pid = 0
  lock : ∀ q, (s.procs q).lock = none
  chan : ∀ q, (s.procs q).chan = none
  killed : ∀ q, (s.procs q).killed = false
  parent : ∀ q, (s.procs q).parent = none
  onCpu : ∀ q, (s.procs q).onCpu = false
  pc : ∀ q, (s.procs q).pc = .user

abbrev Reach : State n → Prop := Transition.Reachable Init Step

/-- The first process sits in slot 0 and has pid 1. -/
def booted (n : Nat) : State (n + 1) where
  procs p := ⟨none, if p = 0 then .runnable else .unused, none, false, 0, if p = 0 then 1 else 0, none, false, .user, 0, 0, none⟩
  waitLock := none
  nextpid := 2
  initproc := 0
  exits := []
  reaps := []

theorem booted_init (n : Nat) : Init (booted n) := by
  constructor
  case others =>
    intro q other
    exact ⟨if_neg other, if_neg other⟩
  all_goals intros
  all_goals rfl

end OShard.Process
