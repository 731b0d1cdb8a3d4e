import OShard.Kernel.Machine
import OShard.Mkfs.Format

/-! The kernel's side of the format, on a disk that nobody writes: `bmap`, `readi`, `dirlookup` and `namei` of `kernel/fs.c`.
An inode is its number and the on-disk inode that `ilock` copies. -/

namespace OShard.Mkfs.Kernel

open Bytes

/-- Why a reader does not return: it panicked, or `bmap` was asked for a block that is not there and would allocate one. -/
inductive Halt where
  | panic (message : String)
  | balloc
  deriving DecidableEq, Repr

def readsb (disk : Disk) : Superblock := loadSuperblock (view (disk 1))

def dinode (disk : Disk) (inum : Nat) : Dinode := loadDinode (view (disk ((readsb disk).iblock inum))) (inum % ipb)

def ilock (disk : Disk) (inum : Nat) : Except Halt Dinode :=
  if (dinode disk inum).type = 0 then .error (.panic "ilock: no type") else .ok (dinode disk inum)

/-- The address of block `bn` of an inode, 0 if there is none. -/
def address (disk : Disk) (ip : Dinode) (bn : Nat) : Nat :=
  if bn < ndirect then ip.addrs bn
  else if maxfile ≤ bn ∨ ip.addrs ndirect = 0 then 0
  else load 4 (view (disk (ip.addrs ndirect))) (4 * (bn - ndirect))

def bmap (disk : Disk) (ip : Dinode) (bn : Nat) : Except Halt Nat :=
  if bn < maxfile then
    if address disk ip bn = 0 then .error .balloc else .ok (address disk ip bn)
  else .error (.panic "bmap: out of range")

def readLoop (disk : Disk) (ip : Dinode) (off n : Nat) : Except Halt (List Byte) :=
  if n = 0 then .ok []
  else do
    let addr ← bmap disk ip (off / bsize)
    let m := min n (bsize - off % bsize)
    let rest ← readLoop disk ip (off + m) (n - m)
    return (List.range m).map (fun i => view (disk addr) (off % bsize + i)) ++ rest
termination_by n
decreasing_by
  have room : 0 < bsize - off % bsize := by
    unfold bsize
    omega
  omega

/-- The bytes `readi` copies out; their number is its result. -/
def readi (disk : Disk) (ip : Dinode) (off n : Nat) : Except Halt (List Byte) :=
  if ip.size < off ∨ (off + n) % 2 ^ 32 < off then .ok []
  else readLoop disk ip off (if ip.size < (off + n) % 2 ^ 32 then ip.size - off else n)

/-- `strncmp(p, q, n)`, as the difference of the bytes it stops at. -/
def strncmp (p q : Area) : Nat → Nat → Int
  | _, 0 => 0
  | i, n + 1 => if p i ≠ 0 ∧ p i = q i then strncmp p q (i + 1) n else (p i).toNat - (q i).toNat

def namecmp (s t : Area) : Int := strncmp s t 0 dirsiz

def lookupFrom (disk : Disk) (dp : Dinode) (name : Area) (off : Nat) : Except Halt (Option Nat) :=
  if dp.size ≤ off then .ok none
  else do
    let de ← readi disk dp off 16
    if de.length ≠ 16 then throw (.panic "dirlookup read")
    let area : Area := fun o => de.getD o 0
    if load 2 area 0 = 0 then lookupFrom disk dp name (off + 16)
    else if namecmp name (fun o => area (2 + o)) = 0 then return some (load 2 area 0)
    else lookupFrom disk dp name (off + 16)
termination_by dp.size - off

def dirlookup (disk : Disk) (dp : Dinode) (name : Area) : Except Halt (Option Nat) :=
  if dp.type ≠ tDir then .error (.panic "dirlookup not DIR") else lookupFrom disk dp name 0

/-- `skipelem`: the path after its first element, and the buffer the element is copied to. -/
def skipelem (path : List Byte) (name : Area) : Option (List Byte × Area) :=
  match path.dropWhile (· == slash) with
  | [] => none
  | s =>
    let elem := s.takeWhile (· != slash)
    let name := if dirsiz ≤ elem.length then blit name 0 (elem.take dirsiz) else blit name 0 (elem ++ [0])
    some ((s.dropWhile (· != slash)).dropWhile (· == slash), name)

theorem length_dropWhile_le (test : Byte → Bool) (l : List Byte) : (l.dropWhile test).length ≤ l.length :=
  (List.dropWhile_sublist test).length_le

theorem skipelem_shorter {path rest : List Byte} {name name' : Area} (skipped : skipelem path name = some (rest, name')) :
    rest.length < path.length := by
  have bound := length_dropWhile_le (· == slash) path
  have head := List.head?_dropWhile_not (· == slash) path
  rw [skipelem] at skipped
  cases here : path.dropWhile (· == slash) with
  | nil =>
    rw [here] at skipped
    cases skipped
  | cons c l =>
    rw [here] at skipped bound head
    have differs : (c != slash) = true := by
      rw [List.head?_cons] at head
      simpa using head
    injection skipped with skipped
    injection skipped with skipped
    have first := length_dropWhile_le (· == slash) (l.dropWhile (· != slash))
    have second := length_dropWhile_le (· != slash) l
    rw [List.dropWhile_cons, if_pos differs] at skipped
    rw [List.length_cons] at bound
    rw [← skipped]
    omega

def namexLoop (disk : Disk) (inum : Nat) (path : List Byte) (name : Area) : Except Halt (Option Nat) :=
  match _skipped : skipelem path name with
  | none => .ok (some inum)
  | some (rest, name) => do
    let ip ← ilock disk inum
    if ip.type ≠ tDir then return none
    match ← dirlookup disk ip name with
    | none => return none
    | some next => namexLoop disk next rest name
termination_by path.length
decreasing_by exact skipelem_shorter ‹_›

/-- `namei` in a process with current directory `cwd`. `junk` is what the uninitialised array `name` holds. -/
def namei (disk : Disk) (cwd : Nat) (path : List Byte) (junk : Area) : Except Halt (Option Nat) :=
  if path.head? = some slash then namexLoop disk rootIno path junk else namexLoop disk cwd path junk

end OShard.Mkfs.Kernel
