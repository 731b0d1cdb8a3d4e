import OShard.Base.RingBuffer
import OShard.Base.Transition
import OShard.Kernel.Machine

namespace OShard.Virtio

open RingBuffer Transition Function

def num : Nat := 8

instance : NeZero num := ⟨by decide⟩

def bsize : Nat := 1024

/-- What a descriptor points to: the buffers of the cache are numbered. -/
inductive Addr (m : Nat) where
  | null
  | ops (i : Fin num)
  | data (b : Fin m)
  | status (i : Fin num)

structure Desc (m : Nat) where
  addr : Addr m
  len : Nat
  flags : BitVec 16
  next : Nat

/-- `VRING_DESC_F_NEXT` and `VRING_DESC_F_WRITE`. -/
def flagNext : BitVec 16 := 1
def flagWrite : BitVec 16 := 2

def Desc.zero {m : Nat} : Desc m := ⟨.null, 0, 0, 0⟩

structure Avail where
  idx : BitVec 16
  ring : Fin num → Nat

structure Used where
  idx : BitVec 16
  ring : Fin num → Nat

/-- `struct virtio_blk_req`; `type` is `VIRTIO_BLK_T_OUT` or `VIRTIO_BLK_T_IN`. -/
structure Req where
  type : Nat
  reserved : Nat
  sector : BitVec 64

def typeIn : Nat := 0
def typeOut : Nat := 1

structure Info (m : Nat) where
  b : Option (Fin m)
  status : BitVec 8

/-- `struct disk`; its lock is part of the state of the system. -/
structure Disk (m : Nat) where
  desc : Fin num → Desc m
  avail : Avail
  used : Used
  free : Fin num → Bool
  usedIdx : BitVec 16
  info : Fin num → Info m
  ops : Fin num → Req

variable {k m : Nat}

section Descriptors

def allocDesc (disk : Disk m) : Option (Fin num) × Disk m :=
  match (List.finRange num).find? fun i => disk.free i with
  | some i => (some i, { disk with free := update disk.free i false })
  | none => (none, disk)

def freeDesc (disk : Disk m) (i : Nat) : Except Fault (Disk m) :=
  if bound : i < num then
    if disk.free ⟨i, bound⟩ then .error (.panic "free_desc 2")
    else .ok { disk with
      desc := update disk.desc ⟨i, bound⟩ Desc.zero
      free := update disk.free ⟨i, bound⟩ true }
  else .error (.panic "free_desc 1")

def freeChain : Nat → Disk m → Nat → Except Fault (Disk m)
  | 0, _, _ => .error .diverges
  | fuel + 1, disk, i =>
    if bound : i < num then
      let flag := (disk.desc ⟨i, bound⟩).flags
      let nxt := (disk.desc ⟨i, bound⟩).next
      (freeDesc disk i).bind fun disk => if flag &&& flagNext ≠ 0 then freeChain fuel disk nxt else .ok disk
    else .error .outOfBounds

def allocMore : Nat → Disk m → List (Fin num) → Except Fault (Disk m × Option (List (Fin num)))
  | 0, disk, idx => .ok (disk, some idx)
  | n + 1, disk, idx =>
    match allocDesc disk with
    | (some i, disk) => allocMore n disk (idx ++ [i])
    | (none, disk) => (idx.foldlM (fun disk (j : Fin num) => freeDesc disk j) disk).map fun disk => (disk, none)

def alloc3Desc (disk : Disk m) : Except Fault (Disk m × Option (List (Fin num))) := allocMore 3 disk []

end Descriptors

section Driver

/-- A request: the buffer, the direction and `idx`. -/
structure Job (m : Nat) where
  b : Fin m
  write : Bool
  idx0 : Fin num
  idx1 : Fin num
  idx2 : Fin num

def Job.descs (job : Job m) : List (Fin num) := [job.idx0, job.idx1, job.idx2]

def Job.req (job : Job m) (blockno : Fin m → BitVec 32) : Req :=
  ⟨if job.write then typeOut else typeIn, 0, (blockno job.b * BitVec.ofNat 32 (bsize / 512)).setWidth 64⟩

def Job.desc0 (job : Job m) : Desc m := ⟨.ops job.idx0, 16, flagNext, job.idx1⟩

def Job.desc1 (job : Job m) : Desc m :=
  ⟨.data job.b, bsize, (if job.write then 0 else flagWrite) ||| flagNext, job.idx2⟩

def Job.desc2 (job : Job m) : Desc m := ⟨.status job.idx0, 1, flagWrite, 0⟩

/-- `virtio_disk_rw` from the first descriptor up to the entry in the avail ring. -/
def Disk.format (disk : Disk m) (blockno : Fin m → BitVec 32) (job : Job m) : Disk m :=
  { disk with
    ops := update disk.ops job.idx0 (job.req blockno)
    desc := update (update (update disk.desc job.idx0 job.desc0) job.idx1 job.desc1)
      job.idx2 job.desc2
    info := update disk.info job.idx0 ⟨some job.b, 0xff⟩
    avail := { disk.avail with ring := update disk.avail.ring (cell disk.avail.idx) job.idx0 } }

def Disk.post (disk : Disk m) : Disk m := { disk with avail := { disk.avail with idx := disk.avail.idx + 1 } }

def Disk.finish (disk : Disk m) (job : Job m) : Except Fault (Disk m) :=
  freeChain (num + 1) { disk with info := update disk.info job.idx0 { disk.info job.idx0 with b := none } } job.idx0

/-- The body of the loop of `virtio_disk_intr`, with the buffer that it has found. -/
def Disk.intr (disk : Disk m) : Except Fault (Fin m × Disk m) :=
  let id := disk.used.ring (cell disk.usedIdx)
  if bound : id < num then
    if (disk.info ⟨id, bound⟩).status ≠ 0 then .error (.panic "virtio_disk_intr status")
    else
      match (disk.info ⟨id, bound⟩).b with
      | some b => .ok (b, { disk with usedIdx := disk.usedIdx + 1 })
      | none => .error .undefined
  else .error .outOfBounds

end Driver

section Device

/-- The device has read the avail ring up to `lastAvail`. It works at the chains whose heads are `pending`; for
    those that are `served` it has written the status. -/
structure Device where
  lastAvail : BitVec 16
  pending : List Nat
  served : List Nat

def Disk.descAt (disk : Disk m) (i : Nat) : Desc m := if bound : i < num then disk.desc ⟨i, bound⟩ else Desc.zero

/-- The device writes status 0 to where the third descriptor of the chain points. -/
def Disk.serve (disk : Disk m) (head : Nat) : Disk m :=
  match (disk.descAt (disk.descAt (disk.descAt head).next).next).addr with
  | .status i => { disk with info := update disk.info i { disk.info i with status := 0 } }
  | _ => disk

def Disk.publish (disk : Disk m) (head : Nat) : Disk m :=
  { disk with used := ⟨disk.used.idx + 1, update disk.used.ring (cell disk.used.idx) head⟩ }

end Device

section System

/-- Where a process stands in `virtio_disk_rw`: it wants three descriptors (before `acquire`, or asleep), has them,
    has formatted them, waits for the device with the lock, or asleep. `since` records how many completions
    there were when it told the device. -/
inductive Pc (m : Nat) where
  | idle
  | want (b : Fin m) (write : Bool)
  | chosen (job : Job m)
  | formatted (job : Job m)
  | posted (job : Job m) (since : Nat)
  | asleep (job : Job m) (since : Nat)

inductive Holder (k : Nat) where
  | proc (p : Fin k)
  | intr

/-- `busy b` is `b->disk`. `completions` are the heads that the device has completed, the first one first. -/
structure State (k m : Nat) where
  disk : Disk m
  busy : Fin m → Bool
  dev : Device
  lock : Option (Holder k)
  procs : Fin k → Pc m
  completions : List Nat
  fault : Option Fault

namespace Pc

def buf : Pc m → Option (Fin m)
  | idle => none
  | want b _ => some b
  | chosen job | formatted job | posted job _ | asleep job _ => some job.b

def job : Pc m → Option (Job m)
  | idle | want _ _ => none
  | chosen job | formatted job | posted job _ | asleep job _ => some job

def wired : Pc m → Option (Job m)
  | idle | want _ _ | chosen _ => none
  | formatted job | posted job _ | asleep job _ => some job

def flight : Pc m → Option (Job m × Nat)
  | idle | want _ _ | chosen _ | formatted _ => none
  | posted job since | asleep job since => some (job, since)

def holds : Pc m → Bool
  | idle | want _ _ | asleep _ _ => false
  | chosen _ | formatted _ | posted _ _ => true

end Pc

def State.go (s : State k m) (p : Fin k) (pc : Pc m) : State k m := { s with procs := update s.procs p pc }

/-- The driver under `vdisk_lock` and the device in any order. `sleep` may return at any time, as after a `kill`.
    The calls in progress are on different buffers. -/
inductive Step (blockno : Fin m → BitVec 32) : State k m → State k m → Prop where
  | call {s} (p : Fin k) (b : Fin m) (write : Bool) : s.procs p = .idle → (∀ q, (s.procs q).buf ≠ some b) →
      Step blockno s (s.go p (.want b write))
  | alloc {s p b write disk i j l} :
      s.procs p = .want b write → s.lock = none → alloc3Desc s.disk = .ok (disk, some [i, j, l]) →
      Step blockno s { s.go p (.chosen ⟨b, write, i, j, l⟩) with disk := disk, lock := some (.proc p) }
  | full {s p b write disk} : s.procs p = .want b write → s.lock = none → alloc3Desc s.disk = .ok (disk, none) →
      Step blockno s { s with disk := disk }
  | allocFault {s p b write fault} : s.procs p = .want b write → s.lock = none → alloc3Desc s.disk = .error fault →
      Step blockno s { s with fault := some fault }
  | format {s p job} : s.procs p = .chosen job →
      Step blockno s { s.go p (.formatted job) with
        disk := s.disk.format blockno job, busy := update s.busy job.b true }
  | post {s p job} : s.procs p = .formatted job →
      Step blockno s { s.go p (.posted job s.completions.length) with disk := s.disk.post }
  | wait {s p job since} : s.procs p = .posted job since → s.busy job.b = true →
      Step blockno s { s.go p (.asleep job since) with lock := none }
  | wake {s p job since} : s.procs p = .asleep job since → s.lock = none →
      Step blockno s { s.go p (.posted job since) with lock := some (.proc p) }
  | finish {s p job since disk} : s.procs p = .posted job since → s.busy job.b = false → s.disk.finish job = .ok disk →
      Step blockno s { s.go p .idle with disk := disk, lock := none }
  | finishFault {s p job since fault} : s.procs p = .posted job since → s.busy job.b = false →
      s.disk.finish job = .error fault → Step blockno s { s with fault := some fault }
  | intr {s} : s.lock = none → Step blockno s { s with lock := some .intr }
  | handle {s b disk} : s.lock = some .intr → s.disk.usedIdx ≠ s.disk.used.idx → s.disk.intr = .ok (b, disk) →
      Step blockno s { s with disk := disk, busy := update s.busy b false }
  | handleFault {s fault} : s.lock = some .intr → s.disk.usedIdx ≠ s.disk.used.idx →
      s.disk.intr = .error fault → Step blockno s { s with fault := some fault }
  | intrDone {s} : s.lock = some .intr → s.disk.usedIdx = s.disk.used.idx → Step blockno s { s with lock := none }
  | consume {s} : s.dev.lastAvail ≠ s.disk.avail.idx →
      Step blockno s { s with dev := { s.dev with
        lastAvail := s.dev.lastAvail + 1, pending := s.dev.pending ++ [s.disk.avail.ring (cell s.dev.lastAvail)] } }
  | serve {s} (head : Nat) : head ∈ s.dev.pending →
      Step blockno s { s with
        disk := s.disk.serve head
        dev := { s.dev with pending := s.dev.pending.erase head, served := s.dev.served ++ [head] } }
  | publish {s} (head : Nat) : head ∈ s.dev.served →
      Step blockno s { s with
        disk := s.disk.publish head
        dev := { s.dev with served := s.dev.served.erase head }
        completions := s.completions ++ [head] }

def init (k m : Nat) : State k m where
  disk := ⟨fun _ => Desc.zero, ⟨0, fun _ => 0⟩, ⟨0, fun _ => 0⟩, fun _ => true, 0, fun _ => ⟨none, 0⟩, fun _ => ⟨0, 0, 0⟩⟩
  busy := fun _ => false
  dev := ⟨0, [], []⟩
  lock := none
  procs := fun _ => .idle
  completions := []
  fault := none

abbrev Reached (blockno : Fin m → BitVec 32) (s : State k m) : Prop := Reachable (· = init k m) (Step blockno) s

end System

end OShard.Virtio
