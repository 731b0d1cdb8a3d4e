import OShard.Mkfs.Format

/-! `mkfs/mkfs.c`. The image file is the sectors `mkfs` addresses; it is `fssize` sectors long once it has been zeroed, and
only sectors that have been read are written after that, so it never grows. -/

namespace OShard.Mkfs

open Bytes Function

inductive Failure where
  | die (message : String)
  | assertion
  deriving DecidableEq, Repr

structure State where
  disk : Disk
  freeinode : Nat
  freeblock : Nat

def sb : Superblock where
  magic := fsmagic
  size := fssize
  nblocks := fssize - nmeta
  ninodes := ninodes
  nlog := logsize
  logstart := 2
  inodestart := 2 + logsize
  bmapstart := 2 + logsize + ninodeblocks

def zeroes : Area := fun _ => 0

theorem view_zeroes (o : Nat) : view (pack zeroes) o = 0 := by
  by_cases inside : o < bsize
  · rw [view_pack _ inside, zeroes]
  · exact view_beyond _ (Nat.le_of_not_lt inside)

namespace State

def rsect (s : State) (sec : Nat) : Except Failure Area :=
  if sec < fssize then .ok (view (s.disk sec)) else .error (.die "read")

def wsect (s : State) (sec : Nat) (buf : Area) : State := { s with disk := update s.disk sec (pack buf) }

theorem wsect_self (s : State) (sec : Nat) (buf : Area) : (s.wsect sec buf).disk sec = pack buf := by
  change update s.disk sec (pack buf) sec = _
  rw [update_self]

def winode (s : State) (inum : Nat) (din : Dinode) : Except Failure State := do
  let buf ← s.rsect (sb.iblock inum)
  return s.wsect (sb.iblock inum) (storeDinode buf (inum % ipb) din)

def rinode (s : State) (inum : Nat) : Except Failure Dinode := do
  let buf ← s.rsect (sb.iblock inum)
  return loadDinode buf (inum % ipb)

def ialloc (s : State) (type : Nat) : Except Failure (Nat × State) := do
  let inum := s.freeinode
  let din : Dinode := { type := type, major := 0, minor := 0, nlink := 1, size := 0, addrs := fun _ => 0 }
  let s ← { s with freeinode := s.freeinode + 1 }.winode inum din
  return (inum, s)

def take (s : State) : State := { s with freeblock := s.freeblock + 1 }

/-- The block of an inode that holds its data block `fbn`, through the indirect block. -/
def indirectFor (s : State) (din : Dinode) (fbn : Nat) : Except Failure (State × Nat) := do
  let indirect ← s.rsect (din.addrs ndirect)
  if load 4 indirect (4 * (fbn - ndirect)) = 0 then
    let indirect := blit indirect (4 * (fbn - ndirect)) ((List.range 4).map (digit s.freeblock))
    return (s.take.wsect (din.addrs ndirect) indirect, s.freeblock)
  else return (s, load 4 indirect (4 * (fbn - ndirect)))

/-- The sector `x` that one turn of `iappend` writes to, allocated if there is none yet. -/
def blockFor (s : State) (din : Dinode) (fbn : Nat) : Except Failure (State × Dinode × Nat) := do
  if fbn < ndirect then
    if din.addrs fbn = 0 then return (s.take, din.setAddr fbn s.freeblock, s.freeblock)
    else return (s, din, din.addrs fbn)
  else if din.addrs ndirect = 0 then
    let din' := din.setAddr ndirect s.freeblock
    let (s, x) ← s.take.indirectFor din' fbn
    return (s, din', x)
  else
    let (s, x) ← s.indirectFor din fbn
    return (s, din, x)

def appendLoop (s : State) (din : Dinode) (off : Nat) (p : List Byte) : Except Failure (State × Dinode × Nat) :=
  if p = [] then .ok (s, din, off)
  else do
    let fbn := off / bsize
    if maxfile ≤ fbn then throw .assertion
    let (s, din, x) ← s.blockFor din fbn
    let n1 := min p.length ((fbn + 1) * bsize - off)
    let buf ← s.rsect x
    appendLoop (s.wsect x (blit buf (off - fbn * bsize) (p.take n1))) din (off + n1) (p.drop n1)
termination_by p.length
decreasing_by
  have some : 0 < p.length := List.length_pos_iff.mpr ‹_›
  have room : 0 < (off / bsize + 1) * bsize - off := by
    unfold bsize
    omega
  rw [List.length_drop]
  omega

def iappend (s : State) (inum : Nat) (p : List Byte) : Except Failure State := do
  let din ← s.rinode inum
  let (s, din, off) ← s.appendLoop din din.size p
  s.winode inum { din with size := off }

def bitmap (used : Nat) : Sector :=
  (List.range used).foldl (fun buf i => pack (update (view buf) (i / 8) (view buf (i / 8) ||| (1 : Byte) <<< (i % 8))))
    (pack zeroes)

def balloc (s : State) (used : Nat) : Except Failure State :=
  if used < bsize * 8 then .ok (s.wsect sb.bmapstart (view (bitmap used))) else .error .assertion

end State

def chars (text : String) : List Byte := text.toList.map fun c => BitVec.ofNat 8 c.toNat

/-- An input file: its path on the command line, and what the calls of `read` return until the end of the file. -/
structure File where
  path : List Byte
  reads : List (List Byte)
  terminated : 0 ∉ path
  blocks : ∀ r ∈ reads, r ≠ [] ∧ r.length ≤ bsize

def File.content (file : File) : List Byte := file.reads.flatten

def underscore : Byte := 95

def shortname (path : List Byte) : List Byte := if chars "user/" <+: path then path.drop 5 else path

theorem mem_shortname {path : List Byte} {c : Byte} (there : c ∈ shortname path) : c ∈ path := by
  rw [shortname] at there
  split at there
  · exact List.mem_of_mem_drop there
  · exact there

/-- The name in the file system, without a leading `_`. -/
def File.name (file : File) : List Byte :=
  if (shortname file.path).head? = some underscore then (shortname file.path).tail else shortname file.path

def State.addFile (rootino : Nat) (s : State) (file : File) : Except Failure State := do
  if slash ∈ shortname file.path then throw .assertion
  let (inum, s) ← s.ialloc tFile
  let s ← s.iappend rootino (dirent inum (file.name.take (dirsiz - 1)))
  file.reads.foldlM (fun s buf => s.iappend inum buf) s

/-- The image once it has been zeroed and the super block written. -/
def format : State where
  disk := update (fun _ => pack zeroes) 1 (pack (blit zeroes 0 sb.bytes))
  freeinode := 1
  freeblock := nmeta

def main (files : List File) : Except Failure State := do
  let (rootino, s) ← format.ialloc tDir
  if rootino ≠ rootIno then throw .assertion
  let s ← s.iappend rootino (dirent rootino (chars "."))
  let s ← s.iappend rootino (dirent rootino (chars ".."))
  let s ← files.foldlM (State.addFile rootino) s
  let din ← s.rinode rootino
  let off := (din.size / bsize + 1) * bsize
  let s ← s.winode rootino { din with size := off }
  s.balloc s.freeblock

end OShard.Mkfs
