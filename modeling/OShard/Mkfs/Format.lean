import OShard.Base.Bytes

/-! The on-disk format of `kernel/fs.h`: sectors of bytes, the super block, on-disk inodes, directory
entries and the free-block bitmap. -/

namespace OShard.Mkfs

open Bytes

def bsize : Nat := 1024

def fssize : Nat := 2000

def ninodes : Nat := 200

def logsize : Nat := 30

def rootIno : Nat := 1

def fsmagic : Nat := 0x10203040

def ndirect : Nat := 12

def nindirect : Nat := bsize / 4

def maxfile : Nat := ndirect + nindirect

/-- Inodes per block: `sizeof(struct dinode)` is 64. -/
def ipb : Nat := bsize / 64

def dirsiz : Nat := 14

def tDir : Nat := 1

def tFile : Nat := 2

def nbitmap : Nat := fssize / (bsize * 8) + 1

def ninodeblocks : Nat := ninodes / ipb + 1

def nmeta : Nat := 2 + logsize + ninodeblocks + nbitmap

abbrev Sector := Vector Byte bsize

abbrev Disk := Nat → Sector

def view (sector : Sector) : Area := fun o => sector[o]?.getD 0

def pack (buf : Area) : Sector := Vector.ofFn fun i => buf i

variable {o i w i' : Nat} {block : Area} {din : Dinode}

theorem view_pack (buf : Area) (inside : o < bsize) : view (pack buf) o = buf o := by
  rw [view, pack, Vector.getElem?_ofFn, dif_pos inside]
  rfl

theorem view_beyond (sector : Sector) (beyond : bsize ≤ o) : view sector o = 0 := by
  rw [view, Vector.getElem?_eq_none beyond]
  rfl

structure Superblock where
  magic : Nat
  size : Nat
  nblocks : Nat
  ninodes : Nat
  nlog : Nat
  logstart : Nat
  inodestart : Nat
  bmapstart : Nat
  deriving DecidableEq, Repr

def Superblock.bytes (sb : Superblock) : List Byte :=
  [sb.magic, sb.size, sb.nblocks, sb.ninodes, sb.nlog, sb.logstart, sb.inodestart, sb.bmapstart].flatMap fun v =>
    (List.range 4).map (digit v)

def loadSuperblock (block : Area) : Superblock where
  magic := load 4 block 0
  size := load 4 block 4
  nblocks := load 4 block 8
  ninodes := load 4 block 12
  nlog := load 4 block 16
  logstart := load 4 block 20
  inodestart := load 4 block 24
  bmapstart := load 4 block 28

def Superblock.iblock (sb : Superblock) (i : Nat) : Nat := i / ipb + sb.inodestart

/-- `addrs` has `ndirect + 1` entries. -/
structure Dinode where
  type : Nat
  major : Nat
  minor : Nat
  nlink : Nat
  size : Nat
  addrs : Nat → Nat

def Dinode.byte (din : Dinode) (o : Nat) : Byte :=
  if o < 2 then digit din.type o
  else if o < 4 then digit din.major (o - 2)
  else if o < 6 then digit din.minor (o - 4)
  else if o < 8 then digit din.nlink (o - 6)
  else if o < 12 then digit din.size (o - 8)
  else digit (din.addrs ((o - 12) / 4)) ((o - 12) % 4)

def loadDinode (block : Area) (i : Nat) : Dinode where
  type := load 2 block (64 * i)
  major := load 2 block (64 * i + 2)
  minor := load 2 block (64 * i + 4)
  nlink := load 2 block (64 * i + 6)
  size := load 4 block (64 * i + 8)
  addrs j := load 4 block (64 * i + 12 + 4 * j)

def storeDinode (block : Area) (i : Nat) (din : Dinode) : Area := fun o =>
  if 64 * i ≤ o ∧ o < 64 * i + 64 then din.byte (o - 64 * i) else block o

def Dinode.setAddr (din : Dinode) (i b : Nat) : Dinode := { din with addrs := Function.update din.addrs i b }

/-- A directory entry: the inode number and the name in `dirsiz` bytes, zeros after it. -/
def dirent (inum : Nat) (name : List Byte) : List Byte :=
  digit inum 0 :: digit inum 1 :: (List.range dirsiz).map fun i => name.getD i 0

def slash : Byte := 47

def Superblock.bit (sb : Superblock) (disk : Disk) (b : Nat) : Bool :=
  (view (disk (b / (bsize * 8) + sb.bmapstart)) (b % (bsize * 8) / 8)).getLsbD (b % 8)

theorem storeDinode_inside (inside : o < 64) : storeDinode block i din (64 * i + o) = din.byte o := by
  rw [storeDinode, if_pos (by omega), Nat.add_sub_cancel_left]

theorem storeDinode_outside (outside : o < 64 * i ∨ 64 * i + 64 ≤ o) : storeDinode block i din o = block o := by
  rw [storeDinode, if_neg (by omega)]

theorem load_storeDinode {v : Nat} (inside : o + w ≤ 64) (digits : ∀ j < w, din.byte (o + j) = digit v j) :
    load w (storeDinode block i din) (64 * i + o) = v % 256 ^ w := by
  apply load_digits
  intro j below
  rw [Nat.add_assoc, storeDinode_inside (by omega), digits j below]

theorem type_storeDinode (block : Area) (i : Nat) (din : Dinode) :
    (loadDinode (storeDinode block i din) i).type = din.type % 2 ^ 16 := by
  apply load_storeDinode (o := 0) (by omega)
  intro j below
  rw [Nat.zero_add, Dinode.byte, if_pos below]

theorem size_storeDinode (block : Area) (i : Nat) (din : Dinode) :
    (loadDinode (storeDinode block i din) i).size = din.size % 2 ^ 32 := by
  apply load_storeDinode (by omega)
  intro j below
  rw [Dinode.byte, if_neg (by omega), if_neg (by omega), if_neg (by omega), if_neg (by omega), if_pos (by omega),
    Nat.add_sub_cancel_left]

theorem addrs_storeDinode (block : Area) (i : Nat) (din : Dinode) {k : Nat} (below : k ≤ ndirect) :
    (loadDinode (storeDinode block i din) i).addrs k = din.addrs k % 2 ^ 32 := by
  have bound : k ≤ 12 := below
  change load 4 (storeDinode block i din) (64 * i + 12 + 4 * k) = _
  rw [Nat.add_assoc]
  apply load_storeDinode (by omega)
  intro j small
  have index : (12 + 4 * k + j - 12) / 4 = k := by omega
  have position : (12 + 4 * k + j - 12) % 4 = j := by omega
  rw [Dinode.byte, if_neg (by omega), if_neg (by omega), if_neg (by omega), if_neg (by omega), if_neg (by omega),
    index, position]

structure Dinode.Agrees (din din' : Dinode) : Prop where
  type : din.type = din'.type
  size : din.size = din'.size
  addrs : ∀ k ≤ ndirect, din.addrs k = din'.addrs k

theorem load_storeDinode_other (other : i' ≠ i) (inside : o + w ≤ 64) :
    load w (storeDinode block i din) (64 * i' + o) = load w block (64 * i' + o) := by
  apply load_congr
  intro j below
  apply storeDinode_outside
  omega

theorem loadDinode_storeDinode_other (block : Area) (din : Dinode) (other : i' ≠ i) :
    (loadDinode (storeDinode block i din) i').Agrees (loadDinode block i') where
  type := load_storeDinode_other (o := 0) other (by omega)
  size := load_storeDinode_other other (by omega)
  addrs := by
    intro k below
    have bound : k ≤ 12 := below
    change load 4 _ (64 * i' + 12 + 4 * k) = load 4 _ (64 * i' + 12 + 4 * k)
    rw [Nat.add_assoc]
    exact load_storeDinode_other other (by omega)

theorem loadDinode_storeDinode (block : Area) (i : Nat) (type : din.type < 2 ^ 16) (size : din.size < 2 ^ 32)
    (addrs : ∀ k ≤ ndirect, din.addrs k < 2 ^ 32) : (loadDinode (storeDinode block i din) i).Agrees din where
  type := by rw [type_storeDinode, Nat.mod_eq_of_lt type]
  size := by rw [size_storeDinode, Nat.mod_eq_of_lt size]
  addrs := by
    intro k below
    rw [addrs_storeDinode block i din below, Nat.mod_eq_of_lt (addrs k below)]

theorem length_dirent (inum : Nat) (name : List Byte) : (dirent inum name).length = 16 := by
  rw [dirent, List.length_cons, List.length_cons, List.length_map, List.length_range]
  rfl

end OShard.Mkfs
