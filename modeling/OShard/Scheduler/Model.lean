import OShard.Process.Model

namespace OShard.Scheduler

open Function

open Process (ProcState)
open Transition

/-- The channel that `lk` belongs to, and all others. -/
inductive Chan where
  | ours
  | other (addr : Nat)
  deriving DecidableEq

/-- What a kernel thread or an interrupt handler does when it holds none of its own `p->lock`. `inside` and a `wakeup`
    with `sec` hold `lk`: `made` tells whether the section has made the condition true, `woken` whether it has
    called `wakeup` on the channel. `j` is a position in the process table. -/
inductive Op (n : Nat) where
  | idle
  | wakeup (chan : Chan) (j : Nat) (sec : Option (Bool × Bool))
  | kill (pid : BitVec 32) (j : Nat)
  | forkScan (j : Nat)
  | forkFound (np : Fin n)
  | forkLink (np : Fin n)
  | waitScan (j : Nat)
  | enter
  | relock
  | inside (made woken : Bool)

/-- Where the kernel thread of a process stands. `yieldSched`, `sleepSched` and `exitSched` are at the `swtch` of
    `sched`; `yielded`, `awake` and `exited` behind it. -/
inductive Pc (n : Nat) where
  | forkret
  | run (op : Op n)
  | yieldSched (op : Op n)
  | yielded (op : Op n)
  | sleepLocked
  | dozing (chan : Chan)
  | sleepSched (chan : Chan)
  | awake (chan : Chan)
  | exitSched
  | exited

/-- `struct proc`, `lock` with the CPU that holds it. `saved` is set while `context` is that of the thread: the thread
    has switched away, or has not run yet. -/
structure Proc (n m : Nat) where
  lock : Option (Fin m)
  state : ProcState
  chan : Option Chan
  pid : BitVec 32
  pc : Pc n
  saved : Bool

/-- Where the scheduler thread of a CPU stands. It holds the lock of slot `i` in all but the first. -/
inductive SchedPc (n : Nat) where
  | scan (i : Nat)
  | picked (i : Fin n)
  | switching (i : Fin n)
  | switched (i : Fin n)
  | releasing (i : Fin n)

/-- `struct cpu`. The CPU runs the scheduler thread if `running` is `none`; an interrupt handler runs on top. -/
structure Cpu (n : Nat) where
  proc : Option (Fin n)
  sched : SchedPc n
  running : Option (Fin n)
  handler : Option (Op n)

/-- `lk` with the CPU that holds it, and the condition that is waited for on `Chan.ours`. -/
structure State (n m : Nat) where
  procs : Fin n → Proc n m
  cpus : Fin m → Cpu n
  lk : Option (Fin m)
  cond : Bool

variable {n m : Nat}

def State.setProc (s : State n m) (p : Fin n) (proc : Proc n m) : State n m :=
  { s with procs := update s.procs p proc }

def State.setCpu (s : State n m) (c : Fin m) (cpu : Cpu n) : State n m :=
  { s with cpus := update s.cpus c cpu }

def State.lock (s : State n m) (p : Fin n) (c : Fin m) : State n m := s.setProc p { s.procs p with lock := some c }

def State.unlock (s : State n m) (p : Fin n) : State n m := s.setProc p { s.procs p with lock := none }

def State.goThread (s : State n m) (p : Fin n) (pc : Pc n) : State n m := s.setProc p { s.procs p with pc := pc }

@[simp] theorem State.setProc_self (s : State n m) (p : Fin n) (proc : Proc n m) : (s.setProc p proc).procs p = proc :=
  update_self _ _ _

@[simp] theorem State.setProc_other (s : State n m) {p q : Fin n} (other : q ≠ p) (proc : Proc n m) :
    (s.setProc p proc).procs q = s.procs q :=
  update_of_ne other _ _

@[simp] theorem State.goThread_self (s : State n m) (p : Fin n) (pc : Pc n) :
    (s.goThread p pc).procs p = { s.procs p with pc := pc } :=
  update_self _ _ _

@[simp] theorem State.goThread_other (s : State n m) {p q : Fin n} (other : q ≠ p) (pc : Pc n) :
    (s.goThread p pc).procs q = s.procs q :=
  update_of_ne other _ _

@[simp] theorem State.setCpu_self (s : State n m) (c : Fin m) (cpu : Cpu n) : (s.setCpu c cpu).cpus c = cpu :=
  update_self _ _ _

@[simp] theorem State.setCpu_other (s : State n m) {c d : Fin m} (other : d ≠ c) (cpu : Cpu n) :
    (s.setCpu c cpu).cpus d = s.cpus d :=
  update_of_ne other _ _

@[simp] theorem State.setProc_cpus (s : State n m) (p : Fin n) (proc : Proc n m) : (s.setProc p proc).cpus = s.cpus := rfl

@[simp] theorem State.goThread_cpus (s : State n m) (p : Fin n) (pc : Pc n) : (s.goThread p pc).cpus = s.cpus := rfl

@[simp] theorem State.setCpu_procs (s : State n m) (c : Fin m) (cpu : Cpu n) : (s.setCpu c cpu).procs = s.procs := rfl

structure State.Runs (s : State n m) (c : Fin m) (p : Fin n) (pc : Pc n) : Prop where
  base : (s.cpus c).handler = none
  running : (s.cpus c).running = some p
  pc : (s.procs p).pc = pc

inductive State.Does (s : State n m) (c : Fin m) (op : Op n) : Prop where
  | handler : (s.cpus c).handler = some op → Does s c op
  | thread {p} : s.Runs c p (.run op) → Does s c op

def State.go (s : State n m) (c : Fin m) (op : Op n) : State n m :=
  match (s.cpus c).handler, (s.cpus c).running with
  | some _, _ => s.setCpu c { s.cpus c with handler := some op }
  | none, some p => s.goThread p (.run op)
  | none, none => s

def Op.preemptible : Op n → Bool
  | .forkFound _ | .inside _ _ | .wakeup _ _ (some _) => false
  | _ => true

def wake (chan : Chan) (proc : Proc n m) : Proc n m :=
  if proc.state = .sleeping ∧ proc.chan = some chan then { proc with state := .runnable } else proc

/-- What `kill` does to a process whose pid matches; `killed` is not part of the model. -/
def kill (proc : Proc n m) : Proc n m :=
  { proc with state := if proc.state = .sleeping then .runnable else proc.state }

def allocproc (pid : BitVec 32) (c : Fin m) (proc : Proc n m) : Proc n m :=
  { proc with lock := some c, pid := pid, state := .used, pc := .forkret, saved := true }

def freeproc (proc : Proc n m) : Proc n m := { proc with lock := none, pid := 0, chan := none, state := .unused }

def Op.woken (chan : Chan) : Option (Bool × Bool) → Op n
  | none => .idle
  | some (made, woken) => .inside made (woken || chan == .ours)

/-- Where `sleep` goes when it has released `p->lock`: on our channel it takes `lk` again. -/
def Op.slept : Chan → Op n
  | .ours => .relock
  | .other _ => .idle

/-- The scheduler and the kernel threads of all CPUs. A critical section of one `p->lock` in which the CPU does not
    switch is one step. Other locks than `lk` only leave out some of these runs; so does the question which
    processes are the children of which. The functions take `p` from `myproc`, that is `c->proc`. -/
inductive Step : State n m → State n m → Prop where
  | scanEnd {s c} : (s.cpus c).handler = none → (s.cpus c).running = none →
      (s.cpus c).sched = .scan n → Step s (s.setCpu c { s.cpus c with sched := .scan 0 })
  | acquire {s c i} : (s.cpus c).handler = none → (s.cpus c).running = none → (s.cpus c).sched = .scan i →
      (s.procs i).lock = none → Step s ((s.lock i c).setCpu c { s.cpus c with sched := .picked i })
  | pick {s c i} : (s.cpus c).handler = none → (s.cpus c).running = none →
      (s.cpus c).sched = .picked i → (s.procs i).state = .runnable →
      Step s ((s.setProc i { s.procs i with state := .running }).setCpu c
        { s.cpus c with proc := some i, sched := .switching i })
  | pass {s c i} : (s.cpus c).handler = none → (s.cpus c).running = none → (s.cpus c).sched = .picked i →
      (s.procs i).state ≠ .runnable → Step s (s.setCpu c { s.cpus c with sched := .releasing i })
  | swtch {s c i} : (s.cpus c).handler = none → (s.cpus c).running = none →
      (s.cpus c).sched = .switching i →
      Step s ((s.setProc i { s.procs i with saved := false }).setCpu c
        { s.cpus c with sched := .switched i, running := some i })
  | back {s c i} : (s.cpus c).handler = none → (s.cpus c).running = none → (s.cpus c).sched = .switched i →
      Step s (s.setCpu c { s.cpus c with proc := none, sched := .releasing i })
  | release {s c i} : (s.cpus c).handler = none → (s.cpus c).running = none → (s.cpus c).sched = .releasing i →
      Step s ((s.unlock i).setCpu c { s.cpus c with sched := .scan (i + 1) })
  | intrIdle {s c i} : (s.cpus c).handler = none → (s.cpus c).running = none →
      (s.cpus c).sched = .scan i → Step s (s.setCpu c { s.cpus c with handler := some .idle })
  | intr {s c p op} : s.Runs c p (.run op) → op.preemptible = true →
      Step s (s.setCpu c { s.cpus c with handler := some .idle })
  | iret {s c} : (s.cpus c).handler = some .idle → Step s (s.setCpu c { s.cpus c with handler := none })
  | yield {s c p q op} : s.Runs c p (.run op) → op.preemptible = true →
      (s.cpus c).proc = some q → (s.procs q).lock = none →
      Step s ((s.setProc q { s.procs q with lock := some c, state := .runnable }).goThread p (.yieldSched op))
  | yieldSwtch {s c p q op} : s.Runs c p (.yieldSched op) →
      (s.cpus c).proc = some q →
      Step s (((s.setProc q { s.procs q with saved := true }).goThread p (.yielded op)).setCpu c
        { s.cpus c with running := none })
  | yielded {s c p q op} : s.Runs c p (.yielded op) →
      (s.cpus c).proc = some q → Step s ((s.unlock q).goThread p (.run op))
  | forkret {s c p q} : s.Runs c p .forkret → (s.cpus c).proc = some q → Step s ((s.unlock q).goThread p (.run .idle))
  | sleepOther {s c p q} (addr : Nat) : s.Runs c p (.run .idle) →
      (s.cpus c).proc = some q → (s.procs q).lock = none → Step s ((s.lock q c).goThread p (.dozing (.other addr)))
  | sleep {s c p q made woken} : s.Runs c p (.run (.inside made woken)) → s.cond = false → (s.cpus c).proc = some q →
      (s.procs q).lock = none → Step s ((s.lock q c).goThread p .sleepLocked)
  | sleepRelease {s c p} : s.Runs c p .sleepLocked → Step s { s.goThread p (.dozing .ours) with lk := none }
  | doze {s c p q chan} : s.Runs c p (.dozing chan) → (s.cpus c).proc = some q →
      Step s ((s.setProc q { s.procs q with chan := some chan, state := .sleeping }).goThread p (.sleepSched chan))
  | sleepSwtch {s c p q chan} : s.Runs c p (.sleepSched chan) →
      (s.cpus c).proc = some q →
      Step s (((s.setProc q { s.procs q with saved := true }).goThread p (.awake chan)).setCpu c
        { s.cpus c with running := none })
  | awake {s c p q chan} : s.Runs c p (.awake chan) → (s.cpus c).proc = some q →
      Step s ((s.setProc q { s.procs q with chan := none, lock := none }).goThread p (.run (Op.slept chan)))
  | relock {s c p} : s.Runs c p (.run .relock) → s.lk = none →
      Step s { s.goThread p (.run (.inside false false)) with lk := some c }
  | exit {s c p q} : s.Runs c p (.run .idle) → (s.cpus c).proc = some q → (s.procs q).lock = none →
      Step s ((s.setProc q { s.procs q with lock := some c, state := .zombie }).goThread p .exitSched)
  | exitSwtch {s c p q} : s.Runs c p .exitSched → (s.cpus c).proc = some q →
      Step s (((s.setProc q { s.procs q with saved := true }).goThread p .exited).setCpu c
        { s.cpus c with running := none })
  | wakeup {s c} (chan : Chan) : s.Does c .idle → Step s (s.go c (.wakeup chan 0 none))
  | wakeupSlot {s c j chan sec} : s.Does c (.wakeup chan j sec) → (s.cpus c).proc ≠ some j → (s.procs j).lock = none →
      Step s ((s.setProc j (wake chan (s.procs j))).go c (.wakeup chan (j + 1) sec))
  | wakeupSelf {s c} {j : Fin n} {chan sec} :
      s.Does c (.wakeup chan j sec) → (s.cpus c).proc = some j → Step s (s.go c (.wakeup chan (j + 1) sec))
  | wakeupEnd {s c chan sec} : s.Does c (.wakeup chan n sec) → Step s (s.go c (Op.woken chan sec))
  | kill {s c p} (pid : BitVec 32) : s.Runs c p (.run .idle) → Step s (s.goThread p (.run (.kill pid 0)))
  | killHit {s c p j pid} : s.Runs c p (.run (.kill pid j)) → (s.procs j).lock = none → (s.procs j).pid = pid →
      Step s ((s.setProc j (kill (s.procs j))).goThread p (.run .idle))
  | killMiss {s} {c : Fin m} {p j : Fin n} {pid : BitVec 32} : s.Runs c p (.run (.kill pid j)) →
      (s.procs j).lock = none → (s.procs j).pid ≠ pid → Step s (s.goThread p (.run (.kill pid (j + 1))))
  | killEnd {s c p pid} : s.Runs c p (.run (.kill pid n)) → Step s (s.goThread p (.run .idle))
  | fork {s c p} : s.Runs c p (.run .idle) → Step s (s.goThread p (.run (.forkScan 0)))
  | forkTaken {s} {c : Fin m} {p j : Fin n} : s.Runs c p (.run (.forkScan j)) → (s.procs j).lock = none →
      (s.procs j).state ≠ .unused → Step s (s.goThread p (.run (.forkScan (j + 1))))
  | forkFull {s c p} : s.Runs c p (.run (.forkScan n)) → Step s (s.goThread p (.run .idle))
  | forkFound {s c p j} (pid : BitVec 32) : s.Runs c p (.run (.forkScan j)) →
      (s.procs j).lock = none → (s.procs j).state = .unused →
      Step s ((s.setProc j (allocproc pid c (s.procs j))).goThread p (.run (.forkFound j)))
  | forkFail {s c p np} : s.Runs c p (.run (.forkFound np)) →
      Step s ((s.goThread p (.run .idle)).setProc np (freeproc (s.procs np)))
  | forkCopy {s c p np} : s.Runs c p (.run (.forkFound np)) → Step s ((s.goThread p (.run (.forkLink np))).unlock np)
  | forkStart {s c p np} : s.Runs c p (.run (.forkLink np)) → (s.procs np).lock = none →
      Step s ((s.goThread p (.run .idle)).setProc np { s.procs np with state := .runnable })
  | wait {s c p} : s.Runs c p (.run .idle) → Step s (s.goThread p (.run (.waitScan 0)))
  | waitOther {s c p j} : s.Runs c p (.run (.waitScan j)) → Step s (s.goThread p (.run (.waitScan (j + 1))))
  | waitReap {s c p j} : s.Runs c p (.run (.waitScan j)) → (s.procs j).lock = none →
      (s.procs j).state = .zombie → Step s ((s.setProc j (freeproc (s.procs j))).goThread p (.run .idle))
  | waitReturn {s c p j} : s.Runs c p (.run (.waitScan j)) → Step s (s.goThread p (.run .idle))
  | enter {s c} : s.Does c .idle → Step s (s.go c .enter)
  | entered {s c} : s.Does c .enter → s.lk = none → Step s { s.go c (.inside false false) with lk := some c }
  | make {s c made woken} : s.Does c (.inside made woken) → Step s { s.go c (.inside true woken) with cond := true }
  | unmake {s} : Step s { s with cond := false }
  | wakeupInside {s c made woken} (chan : Chan) : s.Does c (.inside made woken) →
      Step s (s.go c (.wakeup chan 0 (some (made, woken))))
  | leave {s c made woken} : s.Does c (.inside made woken) →
      (made = true → woken = true) → Step s { s.go c .idle with lk := none }

/-- All CPUs enter `scheduler`; `userinit` has made one process. -/
structure Init (s : State n m) : Prop where
  lk : s.lk = none
  cpus : ∀ c, s.cpus c = ⟨none, .scan 0, none, none⟩
  lock : ∀ p, (s.procs p).lock = none
  pc : ∀ p, (s.procs p).pc = .forkret
  state : ∀ p, (s.procs p).state = .unused ∨ (s.procs p).state = .runnable ∧ (s.procs p).saved = true

abbrev Reached (s : State n m) : Prop := Reachable Init Step s

end OShard.Scheduler
