import OShard.Space.Process

namespace OShard.Space

open Separation Assertion Prog

section Files

def bSize : Nat := 1024

/-- What `readi` finds of an inode: its size, its bytes, and the blocks that `bmap` has an address for. -/
structure Inode where
  size : Nat
  byte : Nat → UInt8
  mapped : Nat → Bool

/-- The bytes that `readi` copies. The sum of the two `uint` arguments may wrap. -/
def readi (ip : Inode) (off n : Nat) : List UInt8 :=
  if ip.size < off ∨ 2 ^ 32 ≤ off + n then []
  else
    let n := if ip.size < off + n then ip.size - off else n
    (((List.range n).map fun k => off + k).takeWhile fun o => ip.mapped (o / bSize)).map ip.byte

def field (bytes : List UInt8) (off width : Nat) : Nat := littleEndian width fun k => (bytes.getD (off + k) 0).toNat

def elfMagic : Nat := 0x464C457F

structure ElfHdr where
  magic : Nat
  entry : Nat
  phoff : Nat
  phnum : Nat

def ElfHdr.size : Nat := 64

def ElfHdr.of (bytes : List UInt8) : ElfHdr := ⟨field bytes 0 4, field bytes 24 8, field bytes 32 8, field bytes 56 2⟩

structure ProgHdr where
  type : Nat
  flags : Nat
  off : Nat
  vaddr : Nat
  filesz : Nat
  memsz : Nat

def ProgHdr.size : Nat := 56

def ProgHdr.of (bytes : List UInt8) : ProgHdr :=
  ⟨field bytes 0 4, field bytes 4 4, field bytes 8 8, field bytes 16 8, field bytes 32 8, field bytes 40 8⟩

def elfProgLoad : Nat := 1

def flags2perm (flags : Nat) : Nat :=
  let perm := if flags &&& 0x1 ≠ 0 then pteX else 0
  if flags &&& 0x2 ≠ 0 then perm ||| pteW else perm

end Files

section Exec

/-- The calls of `exec` that take something of the file system or give it up. -/
inductive Call where
  | beginOp
  | namei
  | ilock
  | iunlockput
  | endOp
  deriving DecidableEq

def maxArg : Nat := 32

/-- The loop of `loadseg` for the pages that are left. It ends before `i` wraps, as no file is that long. -/
def loadsegFrom (pagetable va : Nat) (ip : Inode) (offset sz : Nat) : Nat → Nat → Prog Page Int
  | 0, _ => return 0
  | pages + 1, i => do
    let pa ← walkaddr pagetable ((va + i) % 2 ^ 64)
    if pa = 0 then .fail "loadseg: address should exist"
    else
      let n := if sz - i < pgSize then sz - i else pgSize
      let bytes := readi ip ((offset + i) % 2 ^ 32) n
      update pa fun page => page.write 0 (bytes.map UInt8.toNat)
      if bytes.length ≠ n then return -1
      else loadsegFrom pagetable va ip offset sz pages (i + pgSize)

def loadseg (pagetable va : Nat) (ip : Inode) (offset sz : Nat) : Prog Page Int :=
  loadsegFrom pagetable va ip offset sz ((sz + pgSize - 1) / pgSize) 0

/-- The loop over the program headers that are left: the size so far, and whether to go on. -/
def loadSegments (pagetable : Nat) (ip : Inode) : Nat → Nat → Nat → Prog Page (Nat × Bool)
  | 0, _, sz => return (sz, true)
  | phnum + 1, off, sz =>
    let bytes := readi ip off ProgHdr.size
    let ph := ProgHdr.of bytes
    let newsz := (ph.vaddr + ph.memsz) % 2 ^ 64
    let next := (off + ProgHdr.size) % 2 ^ 32
    if bytes.length ≠ ProgHdr.size then return (sz, false)
    else if ph.type ≠ elfProgLoad then loadSegments pagetable ip phnum next sz
    else if ph.memsz < ph.filesz then return (sz, false)
    else if newsz < ph.vaddr then return (sz, false)
    else if ph.vaddr % pgSize ≠ 0 then return (sz, false)
    else do
      let sz1 ← uvmalloc pagetable sz newsz (flags2perm ph.flags)
      if sz1 = 0 then return (sz, false)
      else if (← loadseg pagetable ph.vaddr ip (ph.off % 2 ^ 32) (ph.filesz % 2 ^ 32)) < 0 then return (sz1, false)
      else loadSegments pagetable ip phnum next sz1

def pushArgs (pagetable stackbase : Nat) : List (List Nat) → Nat → List Nat → Prog Page (Option (Nat × List Nat))
  | [], sp, ustack => return some (sp, ustack)
  | arg :: argv, sp, ustack =>
    let low := (sp + 2 ^ 64 - (arg.length + 1)) % 2 ^ 64
    let sp := low - low % 16
    if maxArg ≤ ustack.length then return none
    else if sp < stackbase then return none
    else do
      if (← copyout pagetable sp (arg ++ [0])) < 0 then return none
      else pushArgs pagetable stackbase argv sp (ustack ++ [sp])

def wordBytes (words : List Nat) : List Nat := words.flatMap fun word => (List.range 8).map fun k => word / 256 ^ k % 256

/-- What `exec` has built when it commits to it. -/
structure Image where
  pagetable : Nat
  sz : Nat
  sp : Nat
  entry : Nat
  argc : Nat

/-- The label `bad`, with the inode still locked or not. -/
def bad (pagetable : Option Nat) (sz : Nat) (ip : Bool) (calls : List Call) : Prog Page (Option Image × List Call) := do
  match pagetable with
  | none => pure ()
  | some pagetable => procFreepagetable pagetable sz
  return (none, if ip then calls ++ [.iunlockput, .endOp] else calls)

/-- From the stack to the commit. A zero is stored after the last argument, also where `ustack` ends. -/
def pushStack (pagetable sz entry : Nat) (argv : List (List Nat)) (calls : List Call) :
    Prog Page (Option Image × List Call) := do
  let sz := pgroundup sz
  let sz1 ← uvmalloc pagetable sz ((sz + 2 * pgSize) % 2 ^ 64) pteW
  if sz1 = 0 then bad (some pagetable) sz false calls
  else
    let sz := sz1
    uvmclear pagetable (sz - 2 * pgSize)
    let stackbase := sz - pgSize
    match ← pushArgs pagetable stackbase argv sz [] with
    | none => bad (some pagetable) sz false calls
    | some (sp, ustack) =>
      if maxArg ≤ ustack.length then .fail "ustack" else
      let low := (sp + 2 ^ 64 - (ustack.length + 1) * 8) % 2 ^ 64
      let sp := low - low % 16
      if sp < stackbase then bad (some pagetable) sz false calls
      else if (← copyout pagetable sp (wordBytes (ustack ++ [0]))) < 0 then bad (some pagetable) sz false calls
      else return (some ⟨pagetable, sz, sp, entry, ustack.length⟩, calls)

/-- `exec` up to the commit. The inode is what `namei` finds. -/
def execImage (trampoline trapframe : Nat) (ip : Option Inode) (argv : List (List Nat)) : Prog Page (Option Image × List Call) :=
  match ip with
  | none => return (none, [.beginOp, .namei, .endOp])
  | some ip =>
    let calls := [.beginOp, .namei, .ilock]
    let bytes := readi ip 0 ElfHdr.size
    let elf := ElfHdr.of bytes
    if bytes.length ≠ ElfHdr.size then bad none 0 true calls
    else if elf.magic ≠ elfMagic then bad none 0 true calls
    else do
      match ← procPagetable trampoline trapframe with
      | none => bad none 0 true calls
      | some pagetable =>
        let (sz, loaded) ← loadSegments pagetable ip elf.phnum (elf.phoff % 2 ^ 32) 0
        if loaded = false then bad (some pagetable) sz true calls
        else pushStack pagetable sz elf.entry argv (calls ++ [.iunlockput, .endOp])

def lastName (path : List Nat) : List Nat := (path.reverse.takeWhile (· ≠ '/'.toNat)).reverse.take 15

def commit (p : Proc) (path : List Nat) (image : Image) : Prog Page Proc := do
  store p.trapframe a1 image.sp
  store p.trapframe epc image.entry
  store p.trapframe sp image.sp
  procFreepagetable p.pagetable p.sz
  return { p with pagetable := image.pagetable, sz := image.sz, name := lastName path }

def exec (trampoline : Nat) (p : Proc) (path : List Nat) (ip : Option Inode) (argv : List (List Nat)) :
    Prog Page (Int × Proc × List Call) := do
  match ← execImage trampoline p.trapframe ip argv with
  | (none, calls) => return (-1, p, calls)
  | (some image, calls) =>
    let p ← commit p path image
    return (image.argc, p, calls)

end Exec

section SysExec

def fetchaddr (p : Proc) (addr : Nat) : Prog Page (Option Nat) :=
  if p.sz ≤ addr ∨ p.sz < (addr + 8) % 2 ^ 64 then return none
  else do
    match ← copyin p.pagetable addr 8 with
    | none => return none
    | some bytes => return some (littleEndian 8 fun k => bytes.getD k 0)

def fetchstr (p : Proc) (addr max : Nat) : Prog Page (List Nat × Bool) := copyinstr p.pagetable addr max

/-- The loop of `sys_exec` for the entries of `argv` that are left. The arguments come with their pages. -/
def fetchArgv (p : Proc) (uargv : Nat) : Nat → List (Nat × List Nat) → Prog Page (Bool × List (Nat × List Nat))
  | 0, argv => return (false, argv)
  | left + 1, argv => do
    match ← fetchaddr p ((uargv + 8 * argv.length) % 2 ^ 64) with
    | none => return (false, argv)
    | some 0 => return (true, argv)
    | some uarg =>
      match ← kalloc with
      | none => return (false, argv)
      | some page =>
        let (arg, gotNull) ← fetchstr p uarg pgSize
        update page fun old => old.write 0 (if gotNull then arg ++ [0] else arg)
        if gotNull then fetchArgv p uargv left (argv ++ [(page, arg)])
        else return (false, argv ++ [(page, arg)])

def freeArgv : List (Nat × List Nat) → Prog Page Unit
  | [] => return ()
  | (page, _) :: argv => do
    kfree page
    freeArgv argv

def maxPath : Nat := 128

/-- What `namei` finds is a parameter. -/
def sysExec (trampoline : Nat) (namei : List Nat → Option Inode) (p : Proc) : Prog Page (Int × Proc × List Call) := do
  let registers ← get p.trapframe
  let (path, gotNull) ← fetchstr p (registers.word a0) maxPath
  if gotNull = false then return (-1, p, [])
  else
    let (complete, argv) ← fetchArgv p (registers.word a1) maxArg []
    if complete then
      let result ← exec trampoline p path (namei path) (argv.map Prod.snd)
      freeArgv argv
      return result
    else
      freeArgv argv
      return (-1, p, [])

end SysExec

end OShard.Space
