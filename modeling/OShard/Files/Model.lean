import OShard.Base.Tally
import OShard.Base.Transition
import OShard.Kernel.Machine

namespace OShard.Files

open Function

def nofile : Nat := 16

inductive FileType where
  | none
  | pipe
  | inode
  | device
  deriving DecidableEq

/-- `struct file`, without the fields of inodes. `gone` records that `pipeclose` or `iput` was called for it. -/
structure File where
  type : FileType
  ref : Nat
  readable : Bool
  writable : Bool
  pipe : Nat
  gone : Bool

structure Pipe where
  readopen : Bool
  writeopen : Bool
  deriving DecidableEq

def File.fresh : File := ⟨.none, 1, false, false, 0, false⟩

def File.dup (file : File) : Except Fault File :=
  if file.ref < 1 then .error (.panic "filedup") else .ok { file with ref := file.ref + 1 }

def File.put (file : File) : Except Fault File :=
  if file.ref < 1 then .error (.panic "fileclose") else .ok { file with ref := file.ref - 1 }

def Pipe.close (pipe : Pipe) (writable : Bool) : Pipe :=
  if writable then { pipe with writeopen := false } else { pipe with readopen := false }

def Pipe.isOpen (pipe : Pipe) (writable : Bool) : Bool := if writable then pipe.writeopen else pipe.readopen

abbrev Fd := Fin nofile

def fdalloc (ofile : Fd → Option Nat) : Option Fd := (List.finRange nofile).find? fun fd => (ofile fd).isNone

theorem fdalloc_free {ofile : Fd → Option Nat} {fd : Fd} (result : fdalloc ofile = some fd) : ofile fd = none := by
  have found := List.find?_some result
  exact Option.isNone_iff_eq_none.mp found

/-- What a process does after `fileclose`: return from the call, close the other end of a pipe that could not be
    made, or go on in the loop of `exit`. -/
inductive After where
  | done
  | close (f : Nat)
  | exit (fd : Fd)

/-- Where a process stands between its accesses to what others can see. -/
inductive Pc (n : Nat) where
  | unused
  | user
  | opening (f : Nat)
  | pipe0 (rf : Nat)
  | pipe1 (rf wf : Nat)
  | pipe2 (rf wf : Nat)
  | dup (f : Nat) (fd : Fd)
  | close (f : Nat) (after : After)
  | release (f : Nat) (after : After)
  | freePage (pi f : Nat) (after : After)
  | free (f : Nat) (after : After)
  | fork (child : Fin n) (i : Nat)
  | embryo (parent : Fin n)
  | exit (fd : Nat)
  | exitClear (fd : Fd)
  | zombie

def After.next {n : Nat} : After → Pc n
  | .done => .user
  | .close f => .close f .done
  | .exit fd => .exitClear fd

structure Proc (n : Nat) where
  ofile : Fd → Option Nat
  pc : Pc n

/-- The calls whose number the accounts of memory depend on. -/
inductive Event where
  | filealloc (f : Nat)
  | bdFree (f : Nat)
  | kalloc (pi : Nat)
  | pipeclose (pi : Nat) (writable : Bool)
  | kfree (pi : Nat)
  deriving DecidableEq

/-- The process table, the open files and pipes at their addresses, and the calls so far, the last one first. -/
structure State (n : Nat) where
  procs : Fin n → Proc n
  files : Nat → Option File
  pipes : Nat → Option Pipe
  trace : List Event

variable {n : Nat}

def State.set (s : State n) (p : Fin n) (proc : Proc n) : State n := { s with procs := update s.procs p proc }

def State.go (s : State n) (p : Fin n) (pc : Pc n) : State n := s.set p ⟨(s.procs p).ofile, pc⟩

/-- The steps of the processes. A new file or page may have any address at which none is. -/
inductive Step : State n → State n → Prop where
  | filealloc {s} (p : Fin n) (f : Nat) : (s.procs p).pc = .user → s.files f = none →
      Step s { s.go p (.opening f) with
        files := update s.files f (some File.fresh)
        trace := .filealloc f :: s.trace }
  | opened {s p f fd file} (type : FileType) (readable writable : Bool) :
      (s.procs p).pc = .opening f → s.files f = some file → fdalloc (s.procs p).ofile = some fd →
      type = .inode ∨ type = .device →
      Step s { s.set p ⟨update (s.procs p).ofile fd (some f), .user⟩ with
        files := update s.files f
          (some { file with type := type, readable := readable, writable := writable }) }
  | openFailed {s p f} : (s.procs p).pc = .opening f →
      fdalloc (s.procs p).ofile = none → Step s (s.go p (.close f .done))
  | pipeRead {s} (p : Fin n) (rf : Nat) : (s.procs p).pc = .user → s.files rf = none →
      Step s { s.go p (.pipe0 rf) with
        files := update s.files rf (some File.fresh)
        trace := .filealloc rf :: s.trace }
  | pipeWrite {s p rf} (wf : Nat) : (s.procs p).pc = .pipe0 rf → s.files wf = none →
      Step s { s.go p (.pipe1 rf wf) with
        files := update s.files wf (some File.fresh)
        trace := .filealloc wf :: s.trace }
  | pipeMade {s p rf wf fr fw} (pi : Nat) : (s.procs p).pc = .pipe1 rf wf →
      s.files rf = some fr → s.files wf = some fw → s.pipes pi = none →
      Step s { s.go p (.pipe2 rf wf) with
        files := update
          (update s.files rf (some { fr with type := .pipe, readable := true, writable := false, pipe := pi }))
          wf (some { fw with type := .pipe, readable := false, writable := true, pipe := pi })
        pipes := update s.pipes pi (some ⟨true, true⟩)
        trace := .kalloc pi :: s.trace }
  | pipeDone {s p rf wf fd₀ fd₁} : (s.procs p).pc = .pipe2 rf wf →
      fdalloc (s.procs p).ofile = some fd₀ → fdalloc (update (s.procs p).ofile fd₀ (some rf)) = some fd₁ →
      Step s (s.set p
        ⟨update (update (s.procs p).ofile fd₀ (some rf)) fd₁ (some wf), .user⟩)
  | pipeFailed {s p rf wf} : (s.procs p).pc = .pipe2 rf wf → Step s (s.go p (.close rf (.close wf)))
  | dup {s p fd fd' f} : (s.procs p).pc = .user → (s.procs p).ofile fd = some f → fdalloc (s.procs p).ofile = some fd' →
      Step s (s.set p ⟨update (s.procs p).ofile fd' (some f), .dup f fd'⟩)
  | filedup {s p f fd file file'} : (s.procs p).pc = .dup f fd → s.files f = some file → file.dup = .ok file' →
      Step s { s.go p .user with files := update s.files f (some file') }
  | close {s p fd f} : (s.procs p).pc = .user → (s.procs p).ofile fd = some f →
      Step s (s.set p ⟨update (s.procs p).ofile fd none, .close f .done⟩)
  | fileclose {s p f after file file'} :
      (s.procs p).pc = .close f after → s.files f = some file → file.put = .ok file' →
      Step s { s.go p (if 0 < file'.ref then after.next else .release f after) with
        files := update s.files f (some file') }
  | pipeclose {s p f after file pipe} :
      (s.procs p).pc = .release f after → s.files f = some file → file.type = .pipe →
      s.pipes file.pipe = some pipe →
      Step s { s.go p (if pipe.close file.writable = ⟨false, false⟩ then .freePage file.pipe f after else .free f after) with
        files := update s.files f (some { file with gone := true })
        pipes := update s.pipes file.pipe (some (pipe.close file.writable))
        trace := .pipeclose file.pipe file.writable :: s.trace }
  | iput {s p f after file} : (s.procs p).pc = .release f after → s.files f = some file → file.type ≠ .pipe →
      Step s { s.go p (.free f after) with files := update s.files f (some { file with gone := true }) }
  | kfree {s p pi f after} : (s.procs p).pc = .freePage pi f after →
      Step s { s.go p (.free f after) with
        pipes := update s.pipes pi none
        trace := .kfree pi :: s.trace }
  | bdFree {s p f after} : (s.procs p).pc = .free f after →
      Step s { s.go p after.next with
        files := update s.files f none
        trace := .bdFree f :: s.trace }
  | fork {s p child} : (s.procs p).pc = .user → (s.procs child).pc = .unused →
      Step s ((s.go child (.embryo p)).go p (.fork child 0))
  | forkEmpty {s p child i} (bound : i < nofile) : (s.procs p).pc = .fork child i →
      (s.procs p).ofile ⟨i, bound⟩ = none → Step s (s.go p (.fork child (i + 1)))
  | forkFile {s p child i f file file'} (bound : i < nofile) :
      (s.procs p).pc = .fork child i → (s.procs p).ofile ⟨i, bound⟩ = some f → s.files f = some file →
      file.dup = .ok file' →
      Step s { (s.set child ⟨update (s.procs child).ofile ⟨i, bound⟩ (some f), (s.procs child).pc⟩).go p
          (.fork child (i + 1)) with
        files := update s.files f (some file') }
  | forked {s p child} : (s.procs p).pc = .fork child nofile → Step s ((s.go child .user).go p .user)
  | exit {s p} : (s.procs p).pc = .user → Step s (s.go p (.exit 0))
  | exitEmpty {s p fd} (bound : fd < nofile) : (s.procs p).pc = .exit fd →
      (s.procs p).ofile ⟨fd, bound⟩ = none → Step s (s.go p (.exit (fd + 1)))
  | exitFile {s p fd f} (bound : fd < nofile) : (s.procs p).pc = .exit fd →
      (s.procs p).ofile ⟨fd, bound⟩ = some f → Step s (s.go p (.close f (.exit ⟨fd, bound⟩)))
  | exitClear {s p fd} : (s.procs p).pc = .exitClear fd →
      Step s (s.set p ⟨update (s.procs p).ofile fd none, .exit (fd + 1)⟩)
  | exited {s p} : (s.procs p).pc = .exit nofile → Step s (s.go p .zombie)
  | wait {s p} : (s.procs p).pc = .zombie → Step s (s.go p .unused)

structure Init (s : State n) : Prop where
  ofile : ∀ p fd, (s.procs p).ofile fd = none
  pc : ∀ p, (s.procs p).pc = .user ∨ (s.procs p).pc = .unused
  files : ∀ f, s.files f = none
  pipes : ∀ pi, s.pipes pi = none
  trace : s.trace = []

abbrev Reach : State n → Prop := Transition.Reachable Init Step

end OShard.Files
