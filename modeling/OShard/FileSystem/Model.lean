import OShard.Mkfs.Format
import OShard.Space.UserMemory

/-! The block and inode layers of `kernel/fs.c`, and reads and writes of files in `kernel/file.c`. A function of the source that
panics returns the message. -/

namespace OShard.FileSystem

open Bytes Overlay Mkfs Function

def bpb : Nat := bsize * 8

def maxopblocks : Nat := 10

/-- The disk as the buffer cache shows it, and the blocks that were passed to `log_write`, the last of them first. What is
    changed in a buffer and not logged is there until the buffer is used for another block. -/
structure Fs where
  sb : Superblock
  blocks : Nat → Area
  logged : List Nat

/-- The fields of `struct inode` that the disk has too. -/
structure Inode extends Dinode where
  inum : Nat

namespace Fs

def bblock (fs : Fs) (b : Nat) : Nat := (b / bpb + fs.sb.bmapstart) % 2 ^ 32

def iblock (fs : Fs) (i : Nat) : Nat := (i / ipb + fs.sb.inodestart) % 2 ^ 32

def put (fs : Fs) (b : Nat) (data : Area) : Fs := { fs with blocks := update fs.blocks b data }

def logWrite (fs : Fs) (b : Nat) : Fs := { fs with logged := b :: fs.logged }

def bzero (fs : Fs) (bno : Nat) : Fs := (fs.put bno fun _ => 0).logWrite bno

def mask (bi : Nat) : Byte := 1#8 <<< (bi % 8)

/-- The inner loop of `balloc` from `bi` on, in the block of the map for the blocks from `b` on. -/
def freeBit (block : Area) (size b : Nat) : Nat → Nat → Option Nat
  | 0, _ => none
  | left + 1, bi =>
    if b + bi < size then
      if block (bi / 8) &&& mask bi = 0 then some bi else freeBit block size b left (bi + 1)
    else none

def mark (fs : Fs) (b : Nat) : Fs :=
  (fs.put (fs.bblock b) (update (fs.blocks (fs.bblock b)) (b % bpb / 8)
    (fs.blocks (fs.bblock b) (b % bpb / 8) ||| mask (b % bpb)))).logWrite (fs.bblock b)

def ballocFrom (fs : Fs) (b : Nat) : Nat × Fs :=
  if b < fs.sb.size then
    match freeBit (fs.blocks (fs.bblock b)) fs.sb.size b bpb 0 with
    | some bi => (b + bi, (fs.mark (b + bi)).bzero (b + bi))
    | none => ballocFrom fs (b + bpb)
  else (0, fs)
termination_by fs.sb.size - b
decreasing_by
  unfold bpb bsize
  omega

/-- A zeroed block, or `0` if there is none. -/
def balloc (fs : Fs) : Nat × Fs := fs.ballocFrom 0

def bfree (fs : Fs) (b : Nat) : Except String Fs :=
  let block := fs.blocks (fs.bblock b)
  if block (b % bpb / 8) &&& mask (b % bpb) = 0 then .error "freeing free block"
  else .ok ((fs.put (fs.bblock b) (update block (b % bpb / 8) (block (b % bpb / 8) &&& ~~~mask (b % bpb)))).logWrite (fs.bblock b))

def word (block : Area) (i : Nat) : Nat := load 4 block (4 * i)

def setWord (block : Area) (i v : Nat) : Area := paste block (4 * i) ((List.range 4).map (digit v))

end Fs

open Fs

def Inode.setAddr (ip : Inode) (i b : Nat) : Inode := { ip with addrs := update ip.addrs i b }

def direct (fs : Fs) (ip : Inode) (i : Nat) : Nat × Fs × Inode :=
  if ip.addrs i = 0 then
    let (addr, fs) := fs.balloc
    if addr = 0 then (0, fs, ip) else (addr, fs, ip.setAddr i addr)
  else (ip.addrs i, fs, ip)

def indirect (fs : Fs) (block i : Nat) : Nat × Fs :=
  if word (fs.blocks block) i = 0 then
    let (addr, fs) := fs.balloc
    if addr = 0 then (0, fs) else (addr, (fs.put block (setWord (fs.blocks block) i addr)).logWrite block)
  else (word (fs.blocks block) i, fs)

def bmap (fs : Fs) (ip : Inode) (bn : Nat) : Except String (Nat × Fs × Inode) :=
  if bn < ndirect then .ok (direct fs ip bn)
  else if bn - ndirect < nindirect then
    let (block, fs, ip) := direct fs ip ndirect
    if block = 0 then .ok (0, fs, ip)
    else
      let (addr, fs) := indirect fs block (bn - ndirect)
      .ok (addr, fs, ip)
  else .error "bmap: out of range"

def address (fs : Fs) (ip : Inode) (bn : Nat) : Nat :=
  if bn < ndirect then ip.addrs bn
  else if bn - ndirect < nindirect ∧ ip.addrs ndirect ≠ 0 then word (fs.blocks (ip.addrs ndirect)) (bn - ndirect)
  else 0

def Backed (fs : Fs) (ip : Inode) : Prop := ∀ bn, bn * bsize < ip.size → address fs ip bn ≠ 0

def iupdate (fs : Fs) (ip : Inode) : Fs :=
  (fs.put (fs.iblock ip.inum) (storeDinode (fs.blocks (fs.iblock ip.inum)) (ip.inum % ipb) ip.toDinode)).logWrite (fs.iblock ip.inum)

/-- The other side of a transfer: a user address space, or the memory of the kernel. -/
inductive Memory where
  | user (u : Space.UserMemory Byte)
  | kernel (byte : Nat → Byte)

/-- The result, and the bytes that were copied to `dst`. -/
def eitherCopyin : Memory → Nat → Nat → Int × List Byte
  | .user u, src, len => u.copyin src len
  | .kernel byte, src, len => (0, segment byte src len)

def eitherCopyout : Memory → Nat → List Byte → Int × Memory
  | .user u, dst, src => ((u.copyout dst src).1, .user (u.copyout dst src).2)
  | .kernel byte, dst, src => (0, .kernel (paste byte dst src))

theorem piece_pos {left off : Nat} (some : left ≠ 0) : 0 < min left (bsize - off % bsize) := by
  unfold bsize
  omega

def readLoop (fs : Fs) (ip : Inode) (mem : Memory) (dst off left tot : Nat) : Except String (Int × Fs × Inode × Memory) :=
  if _empty : left = 0 then .ok (tot, fs, ip, mem)
  else
    match bmap fs ip (off / bsize) with
    | .error message => .error message
    | .ok (addr, fs, ip) =>
      if addr = 0 then .ok (tot, fs, ip, mem)
      else
        let m := min left (bsize - off % bsize)
        let (r, mem) := eitherCopyout mem dst (segment (fs.blocks addr) (off % bsize) m)
        if r = -1 then .ok (-1, fs, ip, mem)
        else readLoop fs ip mem ((dst + m) % 2 ^ 64) (off + m) (left - m) (tot + m)
termination_by left
decreasing_by
  have piece := @piece_pos left off _empty
  omega

def readi (fs : Fs) (ip : Inode) (mem : Memory) (dst off n : Nat) : Except String (Int × Fs × Inode × Memory) :=
  if ip.size < off ∨ (off + n) % 2 ^ 32 < off then .ok (0, fs, ip, mem)
  else readLoop fs ip mem dst off (if ip.size < (off + n) % 2 ^ 32 then ip.size - off else n) 0

def writeLoop (fs : Fs) (ip : Inode) (mem : Memory) (src off left tot : Nat) : Except String (Nat × Nat × Fs × Inode) :=
  if _empty : left = 0 then .ok (tot, off, fs, ip)
  else
    match bmap fs ip (off / bsize) with
    | .error message => .error message
    | .ok (addr, fs, ip) =>
      if addr = 0 then .ok (tot, off, fs, ip)
      else
        let m := min left (bsize - off % bsize)
        let (r, bytes) := eitherCopyin mem src m
        let fs := fs.put addr (paste (fs.blocks addr) (off % bsize) bytes)
        if r = -1 then .ok (tot, off, fs, ip)
        else writeLoop (fs.logWrite addr) ip mem ((src + m) % 2 ^ 64) (off + m) (left - m) (tot + m)
termination_by left
decreasing_by
  have piece := @piece_pos left off _empty
  omega

def writei (fs : Fs) (ip : Inode) (mem : Memory) (src off n : Nat) : Except String (Int × Fs × Inode) :=
  if ip.size < off ∨ (off + n) % 2 ^ 32 < off then .ok (-1, fs, ip)
  else if maxfile * bsize < (off + n) % 2 ^ 32 then .ok (-1, fs, ip)
  else
    match writeLoop fs ip mem src off n 0 with
    | .error message => .error message
    | .ok (tot, off, fs, ip) =>
      let ip := if ip.size < off then { ip with size := off } else ip
      .ok (tot, iupdate fs ip, ip)

/-- `struct file` of type `FD_INODE`; its inode is apart. -/
structure File where
  readable : Bool
  writable : Bool
  off : Nat

def fileread (f : File) (fs : Fs) (ip : Inode) (u : Memory) (addr : Nat) (n : Int) : Except String (Int × File × Fs × Inode × Memory) :=
  if f.readable = false then .ok (-1, f, fs, ip, u)
  else
    match readi fs ip u addr f.off (n % 2 ^ 32).toNat with
    | .error message => .error message
    | .ok (r, fs, ip, u) => .ok (r, if 0 < r then { f with off := ((f.off + r) % 2 ^ 32).toNat } else f, fs, ip, u)

def maxWrite : Nat := (maxopblocks - 1 - 1 - 2) / 2 * bsize

def transaction (f : File) (fs : Fs) (ip : Inode) (u : Memory) (addr n1 : Nat) : Except String (Int × File × Fs × Inode) :=
  match writei fs ip u addr f.off n1 with
  | .error message => .error message
  | .ok (r, fs, ip) => .ok (r, if 0 < r then { f with off := ((f.off + r) % 2 ^ 32).toNat } else f, fs, ip)

def filewriteLoop (f : File) (fs : Fs) (ip : Inode) (u : Memory) (addr i left : Nat) : Except String (Nat × File × Fs × Inode) :=
  if _empty : left = 0 then .ok (i, f, fs, ip)
  else
    let n1 := min left maxWrite
    match transaction f fs ip u ((addr + i) % 2 ^ 64) n1 with
    | .error message => .error message
    | .ok (r, f, fs, ip) => if r ≠ n1 then .ok (i, f, fs, ip) else filewriteLoop f fs ip u addr (i + n1) (left - n1)
termination_by left
decreasing_by
  unfold maxWrite maxopblocks bsize
  omega

def filewrite (f : File) (fs : Fs) (ip : Inode) (u : Memory) (addr : Nat) (n : Int) : Except String (Int × File × Fs × Inode) :=
  if f.writable = false then .ok (-1, f, fs, ip)
  else
    match filewriteLoop f fs ip u addr 0 n.toNat with
    | .error message => .error message
    | .ok (i, f, fs, ip) => .ok (if (i : Int) = n then n else -1, f, fs, ip)

end OShard.FileSystem
