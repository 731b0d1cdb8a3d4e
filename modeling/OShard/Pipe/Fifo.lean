import OShard.Base.RingBuffer
import OShard.Pipe.Model

namespace OShard.Pipes

open RingBuffer

instance : NeZero pipeSize := ⟨by decide⟩

namespace Pipe

/-- The bytes at `data[nread..nwrite)`, modulo the size of the ring. -/
def queue (pi : Pipe) : List (BitVec 8) := contents pi.data pi.nread pi.nwrite

def count (pi : Pipe) : Nat := (pi.nwrite - pi.nread).toNat

theorem full_iff (pi : Pipe) : pi.full = true ↔ pi.count = pipeSize := by
  unfold full count
  rw [beq_iff_eq]
  constructor
  · intro same
    rw [same, BitVec.add_comm, BitVec.add_sub_cancel]
    rfl
  · intro count
    have distance : pi.nwrite - pi.nread = BitVec.ofNat 32 pipeSize := BitVec.eq_of_toNat_eq (by rw [count]; rfl)
    rw [← distance, BitVec.add_comm]
    exact (BitVec.sub_add_cancel _ _).symm

theorem empty_iff (pi : Pipe) : pi.empty = true ↔ pi.count = 0 := by
  unfold empty count
  rw [beq_iff_eq]
  exact count_zero.symm

theorem put_spec {pi : Pipe} (bounded : pi.count ≤ pipeSize) (room : pi.full = false) (ch : BitVec 8) :
    (pi.put ch).count = pi.count + 1 ∧ (pi.put ch).queue = pi.queue ++ [ch] := by
  have below : pi.count < pipeSize := by
    apply Nat.lt_of_le_of_ne bounded
    intro same
    rw [(full_iff pi).mpr same] at room
    cases room
  constructor
  · exact count_push below (by decide)
  · exact contents_push (by decide) (by decide) below ch

theorem get_spec {pi : Pipe} (nonempty : pi.empty = false) :
    pi.get.2.count + 1 = pi.count ∧ pi.queue = pi.get.1 :: pi.get.2.queue := by
  have different : pi.nread ≠ pi.nwrite := by
    intro same
    unfold empty at nonempty
    rw [same, beq_self_eq_true] at nonempty
    cases nonempty
  constructor
  · exact count_pop different
  · exact contents_pop different

end Pipe

variable {k : Nat}

structure Fifo (s : State k) : Prop where
  bounded : s.pipe.count ≤ pipeSize
  order : s.enqueued = s.dequeued ++ s.pipe.queue

theorem Fifo.frame {s t : State k} (fifo : Fifo s) (count : t.pipe.count = s.pipe.count)
    (queue : t.pipe.queue = s.pipe.queue) (enqueued : t.enqueued = s.enqueued) (dequeued : t.dequeued = s.dequeued) :
    Fifo t := by
  constructor
  · rw [count]
    exact fifo.bounded
  · rw [enqueued, dequeued, queue]
    exact fifo.order

theorem Fifo.step {s t : State k} (fifo : Fifo s) (step : Step s t) : Fifo t := by
  cases step with
  | writeByte ch place room =>
    obtain ⟨count, queue⟩ := Pipe.put_spec fifo.bounded room ch
    constructor
    · have below : s.pipe.count < pipeSize := by
        apply Nat.lt_of_le_of_ne fifo.bounded
        intro same
        rw [(Pipe.full_iff s.pipe).mpr same] at room
        cases room
      change (s.pipe.put ch).count ≤ pipeSize
      omega
    · change s.enqueued ++ [ch] = s.dequeued ++ (s.pipe.put ch).queue
      rw [queue, fifo.order, List.append_assoc]
  | readByte fault place more nonempty =>
    obtain ⟨count, queue⟩ := Pipe.get_spec nonempty
    constructor
    · have bounded := fifo.bounded
      change s.pipe.get.2.count ≤ pipeSize
      omega
    · change s.enqueued = s.dequeued ++ [s.pipe.get.1] ++ s.pipe.get.2.queue
      rw [fifo.order, queue, List.append_assoc]
      rfl
  | pipeclose writable place free =>
    cases writable with
    | false => exact fifo.frame rfl rfl rfl rfl
    | true => exact fifo.frame rfl rfl rfl rfl
  | _ => exact fifo.frame rfl rfl rfl rfl

theorem Fifo.init {s : State k} (init : Init s) : Fifo s := by
  have count : s.pipe.count = 0 := by
    unfold Pipe.count
    rw [init.nread, init.nwrite]
    rfl
  constructor
  · omega
  · have empty : s.pipe.queue = [] := by
      unfold Pipe.queue contents
      change (List.range s.pipe.count).map _ = []
      rw [count]
      rfl
    rw [init.enqueued, init.dequeued, empty]
    rfl

theorem fifo_of_reach {s : State k} (reach : Reach s) : Fifo s :=
  reach.invariant (fun _ init => .init init) fun _ _ fifo step => fifo.step step

/-- What comes out of a pipe is what went in, in order, however often the counters wrap. -/
theorem pipe_is_fifo {s : State k} (reach : Reach s) :
    (s.pipe.nwrite - s.pipe.nread).toNat ≤ pipeSize ∧ s.enqueued = s.dequeued ++ s.pipe.queue ∧
      s.dequeued <+: s.enqueued := by
  have fifo := fifo_of_reach reach
  refine ⟨fifo.bounded, fifo.order, ?_⟩
  rw [fifo.order]
  exact List.prefix_append _ _

theorem pipe_is_fifo_seven : ∃ s : State 1, Reach s ∧ s.enqueued = [7] ∧ (s.pipe.nwrite - s.pipe.nread).toNat ≤ pipeSize ∧
    s.enqueued = s.dequeued ++ s.pipe.queue ∧ s.dequeued <+: s.enqueued := by
  have begin : Reach (fresh 1) := .start fresh_init
  have stored := ((((begin.next (.pipewrite (p := 0) 1 rfl)).next (.writeAcquire (p := 0) rfl rfl)).next
    (.writeMore (p := 0) rfl (by decide))).next (.writeGo (p := 0) rfl rfl rfl)).next (.writeByte (p := 0) 7 rfl rfl)
  exact ⟨_, stored, rfl, pipe_is_fifo stored⟩

end OShard.Pipes
