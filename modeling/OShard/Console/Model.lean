import OShard.Base.RingBuffer
import OShard.Base.Transition

namespace OShard.Console

open RingBuffer Transition Function

abbrev Byte := BitVec 8

def inputBufSize : Nat := 128

instance : NeZero inputBufSize := ⟨by decide⟩

def newline : Byte := 0x0a

def carriageReturn : Byte := 0x0d

def delete : Byte := 0x7f

def ctrlP : Byte := 0x10
def ctrlU : Byte := 0x15
def ctrlH : Byte := 0x08
def ctrlD : Byte := 0x04

structure Cons where
  buf : Fin inputBufSize → Byte
  r : BitVec 32
  w : BitVec 32
  e : BitVec 32

section Interrupt

/-- The loop of control-U. It runs at most once for each character between `w` and `e`. -/
def killLine : Nat → Cons → Cons
  | 0, s => s
  | n + 1, s =>
    if s.e ≠ s.w ∧ s.buf (cell (s.e - 1)) ≠ newline then killLine n { s with e := s.e - 1 } else s

def Cons.put (s : Cons) (c : Byte) : Cons :=
  let s := { s with buf := update s.buf (cell s.e) c, e := s.e + 1 }
  if c = newline ∨ c = ctrlD ∨ (s.e - s.r).toNat = inputBufSize then { s with w := s.e } else s

def typed (c : Byte) : Byte := if c = carriageReturn then newline else c

/-- Echoing and `procdump` only print. -/
def consoleintr (c : Byte) (s : Cons) : Cons :=
  if c = ctrlP then s
  else if c = ctrlU then killLine (s.e - s.w).toNat s
  else if c = ctrlH ∨ c = delete then
    if s.e ≠ s.w then { s with e := s.e - 1 } else s
  else if c ≠ 0 ∧ (s.e - s.r).toNat < inputBufSize then s.put (typed c)
  else s

end Interrupt

section Read

/-- Where the loop of `consoleread` has come to when it gives up the lock: `n` bytes are still wanted. -/
structure Got where
  cons : Cons
  n : Nat
  data : List Byte
  returns : Bool

/-- The loop of `consoleread` for a call with the given `target`. `data` has been copied out so far. -/
def readLoop (target : Nat) : Nat → Cons → List Byte → Got
  | 0, s, data => ⟨s, 0, data, true⟩
  | n + 1, s, data =>
    if s.r = s.w then ⟨s, n + 1, data, false⟩
    else
      let c := s.buf (cell s.r)
      let s := { s with r := s.r + 1 }
      if c = ctrlD then
        if n + 1 < target then ⟨{ s with r := s.r - 1 }, n + 1, data, true⟩ else ⟨s, n + 1, data, true⟩
      else if c = newline then ⟨s, n, data ++ [c], true⟩
      else readLoop target n s (data ++ [c])

end Read

section System

structure Reader where
  call : Nat
  asked : Int
  n : Nat
  data : List Byte
deriving DecidableEq

/-- A call that has returned, and the bytes it has copied out. A call with `n ≤ 0` returns 0: `target - n`. -/
structure Return where
  call : Nat
  asked : Int
  data : List Byte
  ret : Int
deriving DecidableEq

/-- A key that had an effect on the line: `full` if the buffer is full with the character. -/
inductive Key where
  | char (c : Byte) (full : Bool)
  | erase
  | kill

/-- The console, the calls of `k` processes, and the history: the keys, the bytes that were taken from the buffer
    and by which call, and the calls that have returned. -/
structure State (k : Nat) where
  cons : Cons
  readers : Fin k → Option Reader
  calls : Nat
  keys : List Key
  consumed : List (Nat × Byte)
  returned : List Return

def keysOf (c : Byte) (s : Cons) : List Key :=
  if c = ctrlP then []
  else if c = ctrlU then [.kill]
  else if c = ctrlH ∨ c = delete then [.erase]
  else if c ≠ 0 ∧ (s.e - s.r).toNat < inputBufSize then
    [.char (typed c) ((s.e + 1 - s.r).toNat = inputBufSize)]
  else []

variable {k : Nat}

def State.taken (s : State k) : List Byte := s.consumed.map Prod.snd

/-- A process runs in `consoleread` until it sleeps or returns. A killed one returns when there is nothing to read. -/
def State.read (s : State k) (p : Fin k) (reader : Reader) (killed : Bool) : State k :=
  let got := readLoop reader.asked.toNat reader.n s.cons reader.data
  let s := { s with
    cons := got.cons
    consumed := s.consumed ++ (contents s.cons.buf s.cons.r got.cons.r).map fun c => (reader.call, c) }
  if got.returns then
    { s with
      readers := update s.readers p none
      returned := s.returned ++ [⟨reader.call, reader.asked, got.data, reader.asked.toNat - got.n⟩] }
  else if killed then
    { s with
      readers := update s.readers p none
      returned := s.returned ++ [⟨reader.call, reader.asked, got.data, -1⟩] }
  else { s with readers := update s.readers p (some { reader with n := got.n, data := got.data }) }

/-- The sections under `cons.lock`, in any order. -/
inductive Step : State k → State k → Prop where
  | intr {s : State k} (c : Byte) : Step s { s with cons := consoleintr c s.cons, keys := s.keys ++ keysOf c s.cons }
  | read {s : State k} (p : Fin k) (n : Int) (killed : Bool) : s.readers p = none →
      Step s (State.read { s with calls := s.calls + 1 } p ⟨s.calls, n, n.toNat, []⟩ killed)
  | resume {s : State k} (p : Fin k) (reader : Reader) (killed : Bool) : s.readers p = some reader →
      Step s (s.read p reader killed)

def init (k : Nat) : State k := ⟨⟨fun _ => 0, 0, 0, 0⟩, fun _ => none, 0, [], [], []⟩

abbrev Reached (s : State k) : Prop := Reachable (· = init k) Step s

end System

section Specification

structure Editor where
  committed : List Byte
  line : List Byte

def Editor.press (t : Editor) : Key → Editor
  | .erase => { t with line := t.line.dropLast }
  | .kill => { t with line := [] }
  | .char c full =>
    if c = newline ∨ c = ctrlD ∨ full = true then ⟨t.committed ++ (t.line ++ [c]), []⟩ else { t with line := t.line ++ [c] }

def edited (keys : List Key) : Editor := keys.foldl Editor.press ⟨[], []⟩

end Specification

end OShard.Console
