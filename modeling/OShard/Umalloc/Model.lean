import OShard.Kernel.Machine

namespace OShard.Umalloc

def headerBytes : Nat := 16

def pgSize : Nat := 4096

def pgRoundUp (sz : Nat) : Nat := (sz + pgSize - 1) / pgSize * pgSize

def ramBytes : Nat := 128 * 1024 * 1024

/-- The static variables of the allocator, the size of the process and the two fields of every header, by the
    address of the header. -/
structure Heap where
  ptr : Nat → Nat
  size : Nat → Nat
  base : Nat
  freep : Nat
  sz : Nat

/-- Access to a header: the process ends with a page fault outside its pages. -/
def Heap.header (h : Heap) (p : Nat) : Except Fault (Nat × Nat) :=
  if p + headerBytes ≤ pgRoundUp h.sz then .ok (h.ptr p, h.size p) else .error .outOfBounds

def Heap.setPtr (h : Heap) (p ptr : Nat) : Heap := { h with ptr := Function.update h.ptr p ptr }

def Heap.setSize (h : Heap) (p size : Nat) : Heap := { h with size := Function.update h.size p size }

section Kernel

/-- `uvmalloc` as far as the size is concerned. It fails if it needs a page and `kalloc` has none. -/
def uvmalloc (grants : Bool) (oldsz newsz : Nat) : Nat :=
  if newsz < oldsz then oldsz else if newsz ≤ pgRoundUp oldsz ∨ grants = true then newsz else 0

def uvmdealloc (oldsz newsz : Nat) : Nat := if oldsz ≤ newsz then oldsz else newsz

def growproc (grants : Bool) (sz : Nat) (n : Int) : Option Nat :=
  let newsz := ((sz + n) % 2 ^ 64).toNat
  if 0 < n then
    let sz := uvmalloc grants sz newsz
    if sz = 0 then none else some sz
  else if n < 0 then some (uvmdealloc sz newsz)
  else some sz

def failure : Nat := 0xffffffffffffffff

/-- The result of the call and the size of the process after it. -/
def sysSbrk (grants : Bool) (sz : Nat) (n : Int) : Nat × Nat :=
  match growproc grants sz n with
  | none => (failure, sz)
  | some sz' => (sz, sz')

end Kernel

def findPlace (h : Heap) (bp : Nat) : Nat → Nat → Except Fault Nat
  | 0, _ => .error .diverges
  | fuel + 1, p => do
    let (next, _) ← h.header p
    if p < bp ∧ bp < next then return p
    else if next ≤ p ∧ (p < bp ∨ bp < next) then return p
    else findPlace h bp fuel next

/-- `free` between its loop and its second `if`: the block takes over the next one if that follows it at once. -/
def joinNext (h : Heap) (p bp : Nat) : Except Fault Heap := do
  let (next, _) ← h.header p
  let (_, size) ← h.header bp
  if bp + headerBytes * size = next then
    let (after, more) ← h.header next
    return (h.setSize bp ((size + more) % 2 ^ 32)).setPtr bp after
  else return h.setPtr bp next

def joinPrevious (h : Heap) (p bp : Nat) : Except Fault Heap := do
  let (_, size) ← h.header p
  let (after, more) ← h.header bp
  if p + headerBytes * size = bp then return (h.setSize p ((size + more) % 2 ^ 32)).setPtr p after
  else return h.setPtr p bp

/-- The walk passes only headers below the end of the process, so that it repeats itself after `sz` of them. -/
def free (h : Heap) (ap : Nat) : Except Fault Heap := do
  let bp := ap - headerBytes
  let p ← findPlace h bp (h.sz + 1) h.freep
  let h ← joinNext h p bp
  let h ← joinPrevious h p bp
  return { h with freep := p }

def atLeast (nu : Nat) : Nat := if nu < 4096 then 4096 else nu

/-- `morecore` behind the call of `sbrk`, which has returned `p` and left the process with `sz` bytes. -/
def adopt (h : Heap) (nu p sz : Nat) : Except Fault (Nat × Heap) := do
  let h := { h with sz := sz }
  if p = failure then return (0, h)
  let hp := p
  let _ ← h.header hp
  let h := h.setSize hp nu
  let h ← free h (hp + headerBytes)
  return (h.freep, h)

/-- The argument of `sbrk` is an `int`. -/
def morecore (grants : Bool) (h : Heap) (nu : Nat) : Except Fault (Nat × Heap) :=
  let r := sysSbrk grants h.sz (toInt (atLeast nu * headerBytes : Nat))
  adopt h (atLeast nu) r.1 r.2

def search (grants : Bool) (nunits : Nat) : Nat → Heap → Nat → Nat → Except Fault (Nat × Heap)
  | 0, _, _, _ => .error .diverges
  | fuel + 1, h, prevp, p => do
    let (next, size) ← h.header p
    if nunits ≤ size then
      if size = nunits then
        let _ ← h.header prevp
        return (p + headerBytes, { h.setPtr prevp next with freep := prevp })
      else
        let h := h.setSize p (size - nunits)
        let p := p + headerBytes * (size - nunits)
        let _ ← h.header p
        return (p + headerBytes, { h.setSize p nunits with freep := prevp })
    else if p = h.freep then
      let (p, h) ← morecore grants h nunits
      if p = 0 then return (0, h)
      let (next, _) ← h.header p
      search grants nunits fuel h p next
    else search grants nunits fuel h p next

/-- `nbytes + sizeof(Header) - 1` is a 64-bit sum. -/
def unitsFor (nbytes : Nat) : Nat := (nbytes + headerBytes - 1) / headerBytes + 1

/-- Two turns of the list, one before and one after `morecore`, are more than the loop needs. -/
def malloc (grants : Bool) (h : Heap) (nbytes : Nat) : Except Fault (Nat × Heap) := do
  let nunits := unitsFor nbytes
  let h := if h.freep = 0 then { (h.setPtr h.base h.base).setSize h.base 0 with freep := h.base } else h
  let (next, _) ← h.header h.freep
  search grants nunits (2 * h.sz + 4) h h.freep next

section Runs

def Touched (live : List (Nat × Nat)) (a : Nat) : Prop :=
  ∃ e ∈ live, a < e.1 + e.2 ∧ e.1 < a + headerBytes

/-- A process before its first call: `exec` has given it whole pages, `base` lies in its data. -/
structure Fresh (h : Heap) : Prop where
  freep : h.freep = 0
  base : 0 < h.base
  inside : h.base + headerBytes ≤ h.sz
  pages : h.sz % pgSize = 0
  fits : h.sz ≤ ramBytes

/-- The calls of a process whose requests all satisfy `admits`, with its live pointers and what was asked for at
    each. Between the calls the owners write into their blocks. No process gets more pages than there are. -/
inductive Run (admits : Nat → Prop) (h₀ : Heap) : Heap → List (Nat × Nat) → Prop where
  | init : Run admits h₀ h₀ []
  | malloc {h h' live n r} (grants : Bool) : Run admits h₀ h live → n < 2 ^ 32 → admits n → h'.sz ≤ ramBytes →
      Umalloc.malloc grants h n = .ok (r, h') → Run admits h₀ h' (if r = 0 then live else (r, n) :: live)
  | free {h h' live e} : Run admits h₀ h live → e ∈ live → Umalloc.free h e.1 = .ok h' → Run admits h₀ h' (live.erase e)
  | write {h live ptr size} : Run admits h₀ h live → (∀ a, ¬ Touched live a → ptr a = h.ptr a ∧ size a = h.size a) →
      Run admits h₀ { h with ptr := ptr, size := size } live

end Runs

end OShard.Umalloc
