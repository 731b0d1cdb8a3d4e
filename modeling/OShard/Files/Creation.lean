import OShard.Buddy.Canonical
import OShard.Files.Model
import OShard.Pipe.Model

namespace OShard.Creation

open Buddy Files Function

/-- `struct file`; of its lock only whether it is held. -/
structure File where
  type : FileType
  ref : Nat
  readable : Bool
  writable : Bool
  pipe : Nat
  ip : Nat
  off : Nat
  major : Int
  locked : Bool

def File.zero : File := ⟨.none, 0, false, false, 0, 0, 0, 0, false⟩

def fileSize : Nat := 64

def pipeData : Nat := 24

/-- The allocator, the `struct file`s and `struct pipe`s in the blocks it gave out, and the table of the caller. -/
structure State where
  heap : Heap
  files : Nat → Option File
  pipes : Nat → Option Pipes.Pipe
  ofile : Fd → Option Nat

def load (s : State) (f : Nat) : Except Fault File :=
  match s.files f with
  | some file => .ok file
  | none => .error .undefined

def store (s : State) (f : Nat) (file : File) : Except Fault State :=
  if f = 0 then .error .undefined else .ok { s with files := update s.files f (some file) }

def filealloc (s : State) : Except Fault (Nat × State) := do
  let (f, h) ← bdMalloc s.heap fileSize
  let s ← store { s with heap := h } f File.zero
  let file ← load s f
  let s ← store s f { file with ref := 1 }
  return (f, s)

def pipeclose (s : State) (pi : Nat) (writable : Bool) : Except Fault State :=
  match s.pipes pi with
  | none => .error .undefined
  | some pipe => do
    let pipe := if writable then { pipe with writeopen := false } else { pipe with readopen := false }
    if pipe.readopen = false ∧ pipe.writeopen = false then
      let h ← kfree s.heap pi
      return { s with heap := h, pipes := update s.pipes pi none }
    else
      return { s with pipes := update s.pipes pi (some pipe) }

/-- `iput` of the inode of a file changes nothing of the state. -/
def fileclose (s : State) (f : Nat) : Except Fault State := do
  let file ← load s f
  if file.ref < 1 then
    throw (.panic "fileclose")
  let s ← store s f { file with ref := file.ref - 1 }
  if file.ref - 1 > 0 then
    return s
  let s ← if file.type = .pipe then pipeclose s file.pipe file.writable else pure s
  let h ← bdFree s.heap f
  return { s with heap := h, files := update s.files f none }

def pipeallocBad (s : State) (pi f0 f1 : Nat) : Except Fault State := do
  let h ← if pi ≠ 0 then kfree s.heap pi else pure s.heap
  let s := { s with heap := h }
  let s ← if f0 ≠ 0 then fileclose s f0 else pure s
  if f1 ≠ 0 then fileclose s f1 else pure s

/-- `pipealloc`, with the two files if it returns 0 and `none` if it returns -1. -/
def pipealloc (s : State) : Except Fault (Option (Nat × Nat) × State) := do
  let (f0, s) ← filealloc s
  if f0 = 0 then
    return (none, ← pipeallocBad s 0 f0 0)
  let (f1, s) ← filealloc s
  if f1 = 0 then
    return (none, ← pipeallocBad s 0 f0 f1)
  let (pi, h) ← kalloc s.heap
  let s := { s with heap := h }
  if pi = 0 then
    return (none, ← pipeallocBad s pi f0 f1)
  let pipe : Pipes.Pipe := ⟨fun i => h.bytes (pi + pipeData + i), 0, 0, true, true⟩
  let s := { s with pipes := update s.pipes pi (some pipe) }
  let file0 ← load s f0
  let s ← store s f0 { file0 with type := .pipe, readable := true, writable := false, pipe := pi }
  let file1 ← load s f1
  let s ← store s f1 { file1 with type := .pipe, readable := false, writable := true, pipe := pi }
  return (some (f0, f1), s)

def State.fdalloc (s : State) (f : Nat) : Option Fd × State :=
  match Files.fdalloc s.ofile with
  | some fd => (some fd, { s with ofile := update s.ofile fd (some f) })
  | none => (none, s)

def State.clear (s : State) (fd : Fd) : State := { s with ofile := update s.ofile fd none }

def closeBoth (s : State) (rf wf : Nat) : Except Fault State := do
  let s ← fileclose s rf
  fileclose s wf

/-- `sys_pipe`; `copied` says whether both calls of `copyout` succeed. -/
def sysPipe (s : State) (copied : Bool) : Except Fault (Int × State) := do
  let (result, s) ← pipealloc s
  match result with
  | none => return (-1, s)
  | some (rf, wf) =>
    match s.fdalloc rf with
    | (none, s) => return (-1, ← closeBoth s rf wf)
    | (some fd0, s) =>
      match s.fdalloc wf with
      | (none, s) => return (-1, ← closeBoth (s.clear fd0) rf wf)
      | (some fd1, s) =>
        if copied then
          return (0, s)
        else
          return (-1, ← closeBoth ((s.clear fd0).clear fd1) rf wf)

inductive InodeType where
  | dir
  | file
  | device
  deriving DecidableEq

structure Inode where
  ip : Nat
  type : InodeType
  major : Int

def ndev : Int := 10

def oWronly : Nat := 1
def oRdwr : Nat := 2
def oCreate : Nat := 0x200

/-- The checks of `sys_open` before it allocates: `inode` is what `create` or `namei` found, if `argstr` and that
    succeeded. -/
def openable (inode : Option Inode) (omode : Nat) : Option Inode :=
  match inode with
  | none => none
  | some inode =>
    if omode &&& oCreate = 0 ∧ inode.type = .dir ∧ omode ≠ 0 then none
    else if inode.type = .device ∧ (inode.major < 0 ∨ inode.major ≥ ndev) then none
    else some inode

/-- `sys_open`, from the lookup of the inode on. -/
def sysOpen (s : State) (inode : Option Inode) (omode : Nat) : Except Fault (Int × State) :=
  match openable inode omode with
  | none => return (-1, s)
  | some inode => do
    let (f, s) ← filealloc s
    if f = 0 then
      return (-1, s)
    match s.fdalloc f with
    | (none, s) => return (-1, ← fileclose s f)
    | (some fd, s) =>
      let file ← load s f
      let file := if inode.type = .device then { file with type := .device, major := inode.major }
        else { file with type := .inode, off := 0 }
      let file := { file with
        ip := inode.ip
        readable := omode &&& oWronly == 0
        writable := omode &&& oWronly != 0 || omode &&& oRdwr != 0 }
      let s ← store s f file
      return (fd, s)

end OShard.Creation
