import OShard.Base.Program

namespace OShard.Space

open Prog

abbrev Page := Nat → Nat

def pgSize : Nat := 4096

def maxVa : Nat := 2 ^ 38

def trampolineVa : Nat := maxVa - pgSize

def trapframeVa : Nat := trampolineVa - pgSize

def pgroundup (sz : Nat) : Nat := (sz + pgSize - 1) % 2 ^ 64 / pgSize * pgSize

def pgrounddown (a : Nat) : Nat := a / pgSize * pgSize

section Words

def littleEndian : Nat → (Nat → Nat) → Nat
  | 0, _ => 0
  | n + 1, bytes => bytes 0 + 256 * littleEndian n fun k => bytes (k + 1)

namespace Page

def zero : Page := fun _ => 0

def word (page : Page) (i : Nat) : Nat := littleEndian 8 fun k => page (8 * i + k)

def setWord (page : Page) (i value : Nat) : Page := fun off =>
  if off / 8 = i then value / 256 ^ (off % 8) % 256 else page off

def write (page : Page) (start : Nat) (bytes : List Nat) : Page := fun off =>
  if start ≤ off then bytes.getD (off - start) (page off) else page off

def bytes (page : Page) (start n : Nat) : List Nat := (List.range n).map fun k => page (start + k)

end Page

def load (pa i : Nat) : Prog Page Nat := do
  let page ← get pa
  return page.word i

def store (pa i value : Nat) : Prog Page Unit := update pa fun page => page.setWord i value

def kalloc : Prog Page (Option Nat) := allocate

def kfree (pa : Nat) : Prog Page Unit := release pa

end Words

section Pte

def pteV : Nat := 1
def pteR : Nat := 2
def pteW : Nat := 4
def pteX : Nat := 8
def pteU : Nat := 16

def pa2pte (pa : Nat) : Nat := (pa >>> 12) <<< 10

def pte2pa (pte : Nat) : Nat := (pte >>> 10) <<< 12

def pteFlags (pte : Nat) : Nat := pte &&& 0x3FF

def px (level va : Nat) : Nat := (va >>> (12 + 9 * level)) &&& 0x1FF

end Pte

section Vm

/-- The loop of `walk` from `level` on. The entry is returned as its page and index. -/
def walkFrom (va : Nat) (alloc : Bool) : Nat → Nat → Prog Page (Option (Nat × Nat))
  | 0, pagetable => return some (pagetable, px 0 va)
  | level + 1, pagetable => do
    let pte ← load pagetable (px (level + 1) va)
    if pte &&& pteV ≠ 0 then
      walkFrom va alloc level (pte2pa pte)
    else if alloc = false then
      return none
    else
      match ← kalloc with
      | none => return none
      | some page =>
        update page fun _ => Page.zero
        store pagetable (px (level + 1) va) (pa2pte page ||| pteV)
        walkFrom va alloc level page

def walk (pagetable va : Nat) (alloc : Bool) : Prog Page (Option (Nat × Nat)) :=
  if maxVa ≤ va then .fail "walk" else walkFrom va alloc 2 pagetable

def walkaddr (pagetable va : Nat) : Prog Page Nat :=
  if maxVa ≤ va then return 0
  else do
    match ← walk pagetable va false with
    | none => return 0
    | some (t, i) =>
      let pte ← load t i
      if pte &&& pteV = 0 then return 0
      else if pte &&& pteU = 0 then return 0
      else return pte2pa pte

def mapFrom (pagetable perm : Nat) : Nat → Nat → Nat → Prog Page Int
  | 0, _, _ => return 0
  | pages + 1, a, pa => do
    match ← walk pagetable a true with
    | none => return -1
    | some (t, i) =>
      let pte ← load t i
      if pte &&& pteV ≠ 0 then .fail "mappages: remap"
      else
        store t i (pa2pte pa ||| perm ||| pteV)
        mapFrom pagetable perm pages (a + pgSize) (pa + pgSize)

def mappages (pagetable va size pa perm : Nat) : Prog Page Int :=
  if va % pgSize ≠ 0 then .fail "mappages: va not aligned"
  else if size % pgSize ≠ 0 then .fail "mappages: size not aligned"
  else if size = 0 then .fail "mappages: size"
  else mapFrom pagetable perm (size / pgSize) va pa

/-- One pass of the loop of `uvmunmap`. The page is free before its entry is cleared. -/
def unmapPage (pagetable a : Nat) (doFree : Bool) : Prog Page Unit := do
  match ← walk pagetable a false with
  | none => .fail "uvmunmap: walk"
  | some (t, i) =>
    let pte ← load t i
    if pte &&& pteV = 0 then .fail "uvmunmap: not mapped"
    else if pteFlags pte = pteV then .fail "uvmunmap: not a leaf"
    else
      if doFree then
        kfree (pte2pa pte)
      store t i 0

def uvmunmap (pagetable va npages : Nat) (doFree : Bool) : Prog Page Unit :=
  if va % pgSize ≠ 0 then .fail "uvmunmap: not aligned"
  else loop npages fun k => unmapPage pagetable (va + k * pgSize) doFree

def uvmcreate : Prog Page (Option Nat) := do
  match ← kalloc with
  | none => return none
  | some pagetable =>
    update pagetable fun _ => Page.zero
    return some pagetable

/-- The result of `mappages` is not looked at, nor that of `kalloc`: `memset` of a null pointer faults. -/
def uvmfirst (pagetable : Nat) (src : List Nat) : Prog Page Unit :=
  if pgSize ≤ src.length then .fail "uvmfirst: more than a page"
  else do
    match ← kalloc with
    | none => .fail "kerneltrap"
    | some mem =>
      update mem fun _ => Page.zero
      let _ ← mappages pagetable 0 pgSize mem (pteW ||| pteR ||| pteX ||| pteU)
      update mem fun page => page.write 0 src

def uvmdealloc (pagetable oldsz newsz : Nat) : Prog Page Nat :=
  if oldsz ≤ newsz then return oldsz
  else do
    if pgroundup newsz < pgroundup oldsz then
      uvmunmap pagetable (pgroundup newsz) ((pgroundup oldsz - pgroundup newsz) / pgSize) true
    return newsz

def uvmallocFrom (pagetable oldsz newsz xperm : Nat) : Nat → Nat → Prog Page Nat
  | 0, _ => return newsz
  | pages + 1, a => do
    match ← kalloc with
    | none =>
      let _ ← uvmdealloc pagetable a oldsz
      return 0
    | some mem =>
      update mem fun _ => Page.zero
      if (← mappages pagetable a pgSize mem (pteR ||| pteU ||| xperm)) ≠ 0 then
        kfree mem
        let _ ← uvmdealloc pagetable a oldsz
        return 0
      else
        uvmallocFrom pagetable oldsz newsz xperm pages (a + pgSize)

def uvmalloc (pagetable oldsz newsz xperm : Nat) : Prog Page Nat :=
  if newsz < oldsz then return oldsz
  else
    let oldsz := pgroundup oldsz
    uvmallocFrom pagetable oldsz newsz xperm ((newsz - oldsz + pgSize - 1) / pgSize) oldsz

/-- The recursion of `freewalk` ends with the levels of the table. -/
def freewalk : Nat → Nat → Prog Page Unit
  | 0, _ => .fail "freewalk: too deep"
  | level + 1, pagetable => do
    loop 512 fun i => do
      let pte ← load pagetable i
      if pte &&& pteV ≠ 0 ∧ pte &&& (pteR ||| pteW ||| pteX) = 0 then
        freewalk level (pte2pa pte)
        store pagetable i 0
      else if pte &&& pteV ≠ 0 then .fail "freewalk: leaf"
    kfree pagetable

def uvmfree (pagetable sz : Nat) : Prog Page Unit := do
  if 0 < sz then
    uvmunmap pagetable 0 (pgroundup sz / pgSize) true
  freewalk 3 pagetable

def uvmcopyFrom (old new : Nat) : Nat → Nat → Prog Page Int
  | 0, _ => return 0
  | pages + 1, i => do
    match ← walk old i false with
    | none => .fail "uvmcopy: pte should exist"
    | some (t, k) =>
      let pte ← load t k
      if pte &&& pteV = 0 then .fail "uvmcopy: page not present"
      else
        match ← kalloc with
        | none =>
          uvmunmap new 0 (i / pgSize) true
          return -1
        | some mem =>
          let page ← get (pte2pa pte)
          update mem fun _ => page
          if (← mappages new i pgSize mem (pteFlags pte)) ≠ 0 then
            kfree mem
            uvmunmap new 0 (i / pgSize) true
            return -1
          else
            uvmcopyFrom old new pages (i + pgSize)

def uvmcopy (old new sz : Nat) : Prog Page Int := uvmcopyFrom old new ((sz + pgSize - 1) / pgSize) 0

def uvmclear (pagetable va : Nat) : Prog Page Unit := do
  match ← walk pagetable va false with
  | none => .fail "uvmclear"
  | some (t, i) =>
    let pte ← load t i
    store t i (pte &&& (2 ^ 64 - 1 - pteU))

theorem chunk_pos {a n : Nat} (some : 0 < n) : 0 < min (pgSize - (a - pgrounddown a)) n := by
  unfold pgrounddown pgSize
  omega

def copyout (pagetable dstva : Nat) (src : List Nat) : Prog Page Int :=
  if _empty : src = [] then return 0
  else
    let va0 := pgrounddown dstva
    if maxVa ≤ va0 then return -1
    else do
      match ← walk pagetable va0 false with
      | none => return -1
      | some (t, i) =>
        let pte ← load t i
        if pte &&& pteV = 0 ∨ pte &&& pteU = 0 ∨ pte &&& pteW = 0 then return -1
        else
          let n := min (pgSize - (dstva - va0)) src.length
          update (pte2pa pte) fun page => page.write (dstva - va0) (src.take n)
          copyout pagetable (va0 + pgSize) (src.drop n)
termination_by src.length
decreasing_by
  have some : 0 < src.length := List.length_pos_iff.mpr _empty
  have chunk := chunk_pos (a := dstva) some
  rw [List.length_drop]
  omega

def copyin (pagetable srcva len : Nat) : Prog Page (Option (List Nat)) :=
  if _empty : len = 0 then return some []
  else do
    let va0 := pgrounddown srcva
    let pa0 ← walkaddr pagetable va0
    if pa0 = 0 then return none
    else
      let n := min (pgSize - (srcva - va0)) len
      let page ← get pa0
      match ← copyin pagetable (va0 + pgSize) (len - n) with
      | none => return none
      | some rest => return some (page.bytes (srcva - va0) n ++ rest)
termination_by len
decreasing_by
  have chunk := chunk_pos (a := srcva) (Nat.pos_of_ne_zero _empty)
  omega

/-- The bytes before the null, or up to where there is none: then the second result is false. -/
def copyinstr (pagetable srcva max : Nat) : Prog Page (List Nat × Bool) :=
  if _empty : max = 0 then return ([], false)
  else do
    let va0 := pgrounddown srcva
    let pa0 ← walkaddr pagetable va0
    if pa0 = 0 then return ([], false)
    else
      let n := min (pgSize - (srcva - va0)) max
      let page ← get pa0
      let bytes := page.bytes (srcva - va0) n
      if 0 ∈ bytes then return (bytes.takeWhile (· ≠ 0), true)
      else
        let (rest, gotNull) ← copyinstr pagetable (va0 + pgSize) (max - n)
        return (bytes ++ rest, gotNull)
termination_by max
decreasing_by
  have chunk := chunk_pos (a := srcva) (Nat.pos_of_ne_zero _empty)
  omega

end Vm

section Proc

structure Proc where
  sz : Nat
  pagetable : Nat
  trapframe : Nat
  ofile : Nat → Option Nat
  name : List Nat

/-- The indices in the words of `struct trapframe`. -/
def epc : Nat := 3
def sp : Nat := 6
def a0 : Nat := 14
def a1 : Nat := 15

def trapframeWords : Nat := 36

def procFreepagetable (pagetable sz : Nat) : Prog Page Unit := do
  uvmunmap pagetable trampolineVa 1 false
  uvmunmap pagetable trapframeVa 1 false
  uvmfree pagetable sz

def procPagetable (trampoline trapframe : Nat) : Prog Page (Option Nat) := do
  match ← uvmcreate with
  | none => return none
  | some pagetable =>
    if (← mappages pagetable trampolineVa pgSize trampoline (pteR ||| pteX)) < 0 then
      uvmfree pagetable 0
      return none
    else if (← mappages pagetable trapframeVa pgSize trapframe (pteR ||| pteW)) < 0 then
      uvmunmap pagetable trampolineVa 1 false
      uvmfree pagetable 0
      return none
    else return some pagetable

/-- The memory that `freeproc` gives back. A null pointer is `none`. -/
def freeproc (trapframe pagetable : Option Nat) (sz : Nat) : Prog Page Unit := do
  match trapframe with
  | none => pure ()
  | some pa => kfree pa
  match pagetable with
  | none => pure ()
  | some pa => procFreepagetable pa sz

/-- The memory that `allocproc` gets: the trapframe and the page table of a process without memory. -/
def allocproc (trampoline : Nat) : Prog Page (Option Proc) := do
  match ← kalloc with
  | none =>
    freeproc none none 0
    return none
  | some trapframe =>
    match ← procPagetable trampoline trapframe with
    | none =>
      freeproc (some trapframe) none 0
      return none
    | some pagetable => return some ⟨0, pagetable, trapframe, fun _ => none, []⟩

def initcode : List Nat :=
  [0x17, 0x05, 0x00, 0x00, 0x13, 0x05, 0x45, 0x02, 0x97,
   0x05, 0x00, 0x00, 0x93, 0x85, 0x35, 0x02, 0x93, 0x08,
   0x70, 0x00, 0x73, 0x00, 0x00, 0x00, 0x93, 0x08, 0x20,
   0x00, 0x73, 0x00, 0x00, 0x00, 0xef, 0xf0, 0x9f, 0xff,
   0x2f, 0x69, 0x6e, 0x69, 0x74, 0x00, 0x00, 0x24, 0x00,
   0x00, 0x00, 0x00, 0x00, 0x00, 0x00, 0x00]

def initcodeName : List Nat := "initcode".toList.map Char.toNat

/-- The result of `allocproc` is not looked at. -/
def userinit (trampoline : Nat) : Prog Page Proc := do
  match ← allocproc trampoline with
  | none => .fail "kerneltrap"
  | some p =>
    uvmfirst p.pagetable initcode
    store p.trapframe epc 0
    store p.trapframe sp pgSize
    return { p with sz := pgSize, name := initcodeName }

/-- The `int` argument is added to the `uint64` size. -/
def growproc (p : Proc) (n : Int) : Prog Page (Int × Proc) :=
  let newsz := ((p.sz + n) % 2 ^ 64).toNat
  if 0 < n then do
    let sz ← uvmalloc p.pagetable p.sz newsz pteW
    if sz = 0 then return (-1, p)
    else return (0, { p with sz := sz })
  else if n < 0 then do
    let sz ← uvmdealloc p.pagetable p.sz newsz
    return (0, { p with sz := sz })
  else return (0, p)

/-- `fork` up to the open files: the child, or `-1`. -/
def fork (trampoline : Nat) (p : Proc) : Prog Page (Option Proc) := do
  match ← allocproc trampoline with
  | none => return none
  | some np =>
    if (← uvmcopy p.pagetable np.pagetable p.sz) < 0 then
      freeproc (some np.trapframe) (some np.pagetable) np.sz
      return none
    else
      let registers ← get p.trapframe
      update np.trapframe fun page => page.write 0 (registers.bytes 0 (8 * trapframeWords))
      store np.trapframe a0 0
      return some { np with sz := p.sz, ofile := p.ofile, name := p.name }

end Proc

end OShard.Space
