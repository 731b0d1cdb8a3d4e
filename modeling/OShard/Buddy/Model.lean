import OShard.Base.BitArray
import OShard.Kernel.List

namespace OShard.Buddy

open LinkedList BitArray

def leafSize : Nat := 16

/-- `sizeof(Sz_info)`: a list header and two pointers. -/
def szInfoBytes : Nat := 32

def blkSize (k : Nat) : Nat := 2 ^ k * leafSize

/-- `ROUNDUP`. At `n = 0` the unsigned `n - 1` of the source wraps and the sum returns to 0. -/
def roundUp (n sz : Nat) : Nat := ((((n : Int) - 1) / sz + 1) * sz).toNat

/-- A `char *` together with the number of bytes that `bd_init` laid out behind it. -/
structure CharArray where
  start : Nat
  bytes : Nat
  deriving Repr

structure SzInfo where
  alloc : CharArray
  split : CharArray
  deriving Repr

/-- The static variables of the allocator and the memory they describe. Addresses are exact
    integers: the source uses them only through differences to `bd_base` and modulo 16. With
    `checked`, an access outside the array it is made through faults; without it, it reaches
    whatever byte lies there. -/
structure Heap where
  nsizes : Nat
  bdBase : Nat
  bdSizes : Nat → SzInfo
  bytes : Bytes
  links : Links Nat
  checked : Bool

namespace Heap

def maxSize (h : Heap) : Nat := h.nsizes - 1

def heapSize (h : Heap) : Nat := blkSize h.maxSize

def nblk (h : Heap) (k : Nat) : Nat := 2 ^ (h.maxSize - k)

/-- The address of `bd_sizes[k].free`; the array of sizes starts at `bd_base`. -/
def free (h : Heap) (k : Nat) : Nat := h.bdBase + szInfoBytes * k

def push (h : Heap) (k p : Nat) : Heap := { h with links := lstPush h.links (h.free k) p }

def remove (h : Heap) (q : Nat) : Heap := { h with links := lstRemove h.links q }

end Heap

/-- The bit position of a C `int` index. A negative one shifts by a negative amount. -/
def bitIndex (h : Heap) (array : CharArray) (index : Int) : Except Fault Nat :=
  if index < 0 then .error .undefined
  else if h.checked = true ∧ array.bytes ≤ index.toNat / 8 then .error .outOfBounds
  else .ok index.toNat

def bitIsset (h : Heap) (array : CharArray) (index : Int) : Except Fault Bool := do
  let i ← bitIndex h array index
  let b := h.bytes (array.start + i / 8)
  let m := mask i
  return (b &&& m) == m

def bitUpdate (change : BitVec 8 → BitVec 8 → BitVec 8) (h : Heap) (array : CharArray) (index : Int) :
    Except Fault Heap := do
  let i ← bitIndex h array index
  let b := h.bytes (array.start + i / 8)
  let m := mask i
  return { h with bytes := Function.update h.bytes (array.start + i / 8) (change b m) }

def bitSet : Heap → CharArray → Int → Except Fault Heap := bitUpdate fun b m => b ||| m
def bitClear : Heap → CharArray → Int → Except Fault Heap := bitUpdate fun b m => b &&& ~~~m
def bitInvert : Heap → CharArray → Int → Except Fault Heap := bitUpdate fun b m => b ^^^ m

def firstkLoop : Nat → Nat → Nat → Nat → Option Nat
  | 0, _, _, _ => none
  | fuel + 1, n, k, size =>
    if size < n then firstkLoop fuel n (k + 1) (size * 2 % 2 ^ 64) else some k

/-- After 60 doublings the 64-bit `size` is 0 and stays 0, so 61 tests decide the loop. -/
def firstk (n : Nat) : Except Fault Nat :=
  match firstkLoop 61 n 0 leafSize with
  | some k => .ok k
  | none => .error .diverges

def blkIndex (h : Heap) (k p : Nat) : Int :=
  let n := toInt ((p : Int) - h.bdBase)
  n.tdiv (blkSize k)

def addr (h : Heap) (k : Nat) (bi : Int) : Nat :=
  let n := toInt (bi * blkSize k)
  (h.bdBase + n).toNat

/-- The search of `bd_malloc` over the remaining levels: the first one with a free block. -/
def findLevel (h : Heap) : Nat → Nat → Nat
  | 0, k => k
  | n + 1, k => if lstEmpty h.links (h.free k) then findLevel h n (k + 1) else k

def splitLoop (p : Nat) : Nat → Nat → Heap → Except Fault Heap
  | 0, _, h => .ok h
  | n + 1, k, h => do
    let q := p + blkSize (k - 1)
    let h ← bitSet h (h.bdSizes k).split (blkIndex h k p)
    let h ← bitInvert h (h.bdSizes (k - 1)).alloc ((blkIndex h (k - 1) p).tdiv 2)
    splitLoop p n (k - 1) (h.push (k - 1) q)

/-- The returned pointer is 0 where the source returns the null pointer. -/
def bdMalloc (h : Heap) (nbytes : Nat) : Except Fault (Nat × Heap) := do
  let fk ← firstk nbytes
  let k := findLevel h (h.nsizes - fk) fk
  if h.nsizes ≤ k then
    return (0, h)
  let (p, links) ← lstPop h.links (h.free k)
  let h := { h with links := links }
  let h ← bitInvert h (h.bdSizes k).alloc ((blkIndex h k p).tdiv 2)
  let h ← splitLoop p (k - fk) k h
  return (p, h)

/-- The loop of `size`. Level `nsizes` has no entry in `bd_sizes`. -/
def sizeLoop (h : Heap) (p : Nat) : Nat → Nat → Except Fault Nat
  | 0, _ => .ok 0
  | n + 1, k => do
    if h.nsizes ≤ k + 1 then
      throw .undefined
    if ← bitIsset h (h.bdSizes (k + 1)).split (blkIndex h (k + 1) p) then
      return k
    sizeLoop h p n (k + 1)

def size (h : Heap) (p : Nat) : Except Fault Nat := sizeLoop h p h.nsizes 0

def buddyIndex (bi : Int) : Int := if bi.tmod 2 = 0 then bi + 1 else bi - 1

/-- One round of the loop of `bd_free`: no pointer when it breaks out, else the merged block. -/
def freeRound (h : Heap) (k p : Nat) : Except Fault (Option Nat × Heap) := do
  let bi := blkIndex h k p
  let buddy := buddyIndex bi
  let h ← bitInvert h (h.bdSizes k).alloc (buddy.tdiv 2)
  if ← bitIsset h (h.bdSizes k).alloc (buddy.tdiv 2) then
    return (none, h)
  let q := addr h k buddy
  let h := h.remove q
  let p := if buddy.tmod 2 = 0 then q else p
  let h ← bitClear h (h.bdSizes (k + 1)).split (blkIndex h (k + 1) p)
  return (some p, h)

def freeLoop : Nat → Nat → Nat → Heap → Except Fault (Nat × Nat × Heap)
  | 0, k, p, h => .ok (k, p, h)
  | n + 1, k, p, h => do
    match ← freeRound h k p with
    | (none, h) => return (k, p, h)
    | (some p, h) => freeLoop n (k + 1) p h

def bdFree (h : Heap) (p : Nat) : Except Fault Heap := do
  let k ← size h p
  let (k, p, h) ← freeLoop (h.maxSize - k) k p h
  return h.push k p

def pgSize : Nat := 4096

def kalloc (h : Heap) : Except Fault (Nat × Heap) := bdMalloc h pgSize

def kfree (h : Heap) (pa : Nat) : Except Fault Heap := bdFree h pa

def blkIndexNext (h : Heap) (k p : Nat) : Int :=
  let n := toInt (((p : Int) - h.bdBase).tdiv (blkSize k))
  if ((p : Int) - h.bdBase).tmod (blkSize k) ≠ 0 then n + 1 else n

def log2Loop : Nat → Nat → Nat → Nat
  | 0, _, k => k
  | fuel + 1, n, k => if 1 < n then log2Loop fuel (n >>> 1) (k + 1) else k

/-- A 64-bit value is at most 1 after 63 shifts. -/
def log2 (n : Nat) : Nat := log2Loop 64 n 0

def markBlocks (k : Nat) : Nat → Int → Heap → Except Fault Heap
  | 0, _, h => .ok h
  | n + 1, bi, h => do
    let h ← if 0 < k then bitSet h (h.bdSizes k).split bi else pure h
    let h ← bitInvert h (h.bdSizes k).alloc (bi.tdiv 2)
    markBlocks k n (bi + 1) h

def markLevels (start stop : Nat) : Nat → Nat → Heap → Except Fault Heap
  | 0, _, h => .ok h
  | n + 1, k, h => do
    let bi := blkIndex h k start
    let bj := blkIndexNext h k stop
    let h ← markBlocks k (bj - bi).toNat bi h
    markLevels start stop n (k + 1) h

def bdMark (h : Heap) (start stop : Nat) : Except Fault Heap :=
  if start % leafSize ≠ 0 ∨ stop % leafSize ≠ 0 then .error (.panic "bd_mark")
  else markLevels start stop h.nsizes 0 h

def bdInitfreePair (h : Heap) (k : Nat) (bi : Int) (isRight : Bool) : Except Fault (Int × Heap) := do
  let buddy := buddyIndex bi
  if ← bitIsset h (h.bdSizes k).alloc (bi.tdiv 2) then
    let block := if isRight then addr h k buddy else addr h k bi
    return (toInt (blkSize k), h.push k block)
  return (0, h)

def initfreeLoop (bdLeft bdRight : Nat) : Nat → Nat → Int → Heap → Except Fault (Int × Heap)
  | 0, _, free, h => .ok (free, h)
  | n + 1, k, free, h => do
    let left := blkIndexNext h k bdLeft
    let right := blkIndex h k bdRight
    let (size, h) ← bdInitfreePair h k left false
    let free := toInt (free + size)
    if right ≤ left then
      initfreeLoop bdLeft bdRight n (k + 1) free h
    else
      let (size, h) ← bdInitfreePair h k right true
      initfreeLoop bdLeft bdRight n (k + 1) (toInt (free + size)) h

def bdInitfree (h : Heap) (bdLeft bdRight : Nat) : Except Fault (Int × Heap) :=
  initfreeLoop bdLeft bdRight h.maxSize 0 0 h

def bdMarkDataStructures (h : Heap) (p : Nat) : Except Fault (Int × Heap) := do
  let metaBytes := toInt ((p : Int) - h.bdBase)
  let h ← bdMark h h.bdBase p
  return (metaBytes, h)

/-- The number of bytes from `end` to the end of the heap, a multiple of the leaf size. -/
def unavailableBytes (h : Heap) (endp : Nat) : Int :=
  let unavailable := toInt ((h.heapSize : Int) - ((endp : Int) - h.bdBase))
  if 0 < unavailable then (roundUp unavailable.toNat leafSize : Int) else unavailable

def bdEnd (h : Heap) (endp : Nat) : Nat :=
  ((h.bdBase : Int) + h.heapSize - unavailableBytes h endp).toNat

def bdMarkUnavailable (h : Heap) (endp : Nat) : Except Fault (Int × Heap) := do
  let h ← bdMark h (bdEnd h endp) (h.bdBase + h.heapSize)
  return (unavailableBytes h endp, h)

def memset (m : Bytes) (dst n : Nat) : Bytes := fun a => if dst ≤ a ∧ a < dst + n then 0 else m a

def initAlloc : Nat → Nat → Nat → Heap → Nat × Heap
  | 0, _, p, h => (p, h)
  | n + 1, k, p, h =>
    let sz := roundUp (h.nblk k) 16 / 16
    initAlloc n (k + 1) (p + sz)
      { h with
        links := lstInit h.links (h.free k)
        bdSizes := Function.update h.bdSizes k { h.bdSizes k with alloc := ⟨p, sz⟩ }
        bytes := memset h.bytes p sz }

def initSplit : Nat → Nat → Nat → Heap → Nat × Heap
  | 0, _, p, h => (p, h)
  | n + 1, k, p, h =>
    let sz := roundUp (h.nblk k) 8 / 8
    initSplit n (k + 1) (p + sz)
      { h with
        bdSizes := Function.update h.bdSizes k { h.bdSizes k with split := ⟨p, sz⟩ }
        bytes := memset h.bytes p sz }

def sizesFor (length : Int) : Nat :=
  let n := log2 ((length.tdiv leafSize) % 2 ^ 64).toNat + 1
  if (blkSize (n - 1) : Int) < length then n + 1 else n

/-- The memory before `bd_init`: nothing is known of its contents. -/
structure Memory where
  bytes : Bytes
  links : Links Nat

/-- `bd_init` up to the end of its data structures: the first address behind them, and the heap. -/
def bdInitSizes (checked : Bool) (memory : Memory) (base endp : Nat) : Nat × Heap :=
  let p := roundUp base leafSize
  let nsizes := sizesFor ((endp : Int) - p)
  let none : SzInfo := ⟨⟨0, 0⟩, ⟨0, 0⟩⟩
  let h : Heap := ⟨nsizes, p, fun _ => none, memset memory.bytes p (szInfoBytes * nsizes), memory.links, checked⟩
  let (p, h) := initAlloc nsizes 0 (p + szInfoBytes * nsizes) h
  let (p, h) := initSplit (nsizes - 1) 1 p h
  (roundUp p leafSize, h)

def bdInit (checked : Bool) (memory : Memory) (base endp : Nat) : Except Fault Heap := do
  let (p, h) := bdInitSizes checked memory base endp
  -- `1 << (MAXSIZE - k)` is an `int`
  if 31 ≤ h.maxSize then
    throw .undefined
  let (metaBytes, h) ← bdMarkDataStructures h p
  let (unavailable, h) ← bdMarkUnavailable h endp
  let (free, h) ← bdInitfree h p (bdEnd h endp)
  if free ≠ (h.heapSize : Int) - metaBytes - unavailable then
    throw (.panic "bd_init: free mem")
  return h

def pgRoundUp (sz : Nat) : Nat := (sz + pgSize - 1) / pgSize * pgSize

def physTop : Nat := 0x80000000 + 128 * 1024 * 1024

/-- `kernelEnd` is the symbol `end` of the linker script. -/
def kinit (checked : Bool) (memory : Memory) (kernelEnd : Nat) : Except Fault Heap :=
  bdInit checked memory (pgRoundUp kernelEnd) physTop

end OShard.Buddy
