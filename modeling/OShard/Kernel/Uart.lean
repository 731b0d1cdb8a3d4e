import OShard.Base.Monitor
import OShard.Base.RingBuffer

namespace OShard.Uart

open Function Monitor RingBuffer

abbrev uartTxBufSize : Nat := 32

/-- The transmit buffer and the device: `idle` is `LSR_TX_IDLE`, and `pending` an interrupt that was not taken yet. What
    `uartputc` has put into the buffer and `uartstart` has written to `THR` is recorded. -/
structure Tx where
  buf : Fin uartTxBufSize → BitVec 8
  w : BitVec 64
  r : BitVec 64
  idle : Bool
  pending : Bool
  accepted : List (BitVec 8)
  sent : List (BitVec 8)

inductive Point where
  | putc (c : BitVec 8)
  | start

inductive Call : Point → Tx → Tx → Prop where
  | uartputc {tx} (c : BitVec 8) : Call (.putc c) tx tx
  -- also called for input
  | uartintr {tx} : Call .start tx { tx with pending := false }

/-- The loops of `uartputc` and `uartstart`. -/
inductive Act : Point → Tx → Move Point Tx → Prop where
  | full {tx c} : tx.w = tx.r + BitVec.ofNat 64 uartTxBufSize → Act (.putc c) tx (.sleep (.putc c))
  | put {tx c} : tx.w ≠ tx.r + BitVec.ofNat 64 uartTxBufSize → Act (.putc c) tx (.go .start
      { tx with buf := update tx.buf (cell tx.w) c, w := tx.w + 1, accepted := tx.accepted ++ [c] } false)
  | empty {tx} : tx.w = tx.r → Act .start tx (.leave tx false)
  | busy {tx} : tx.w ≠ tx.r → tx.idle = false → Act .start tx (.leave tx false)
  | send {tx} : tx.w ≠ tx.r → tx.idle = true → Act .start tx (.go .start
      { tx with r := tx.r + 1, idle := false, sent := tx.sent ++ [tx.buf (cell tx.r)] } true)

/-- The device tells by an interrupt that it can take a character, and takes that back when it gets one. `uartputc_sync`
    may give it one between the read of `LSR` and the write of `THR` in `uartstart`, which are one step here. -/
inductive Other : Tx → Tx → Prop where
  | drain {tx} : tx.idle = false → Other tx { tx with idle := true, pending := true }
  | clear {tx} : tx.idle = false → Other tx { tx with pending := false }
  | sync {tx} : Other tx { tx with idle := false }

variable {n : Nat} {tx : Tx}

def rules : Rules (Fin n) Point Tx := ⟨fun _ => Call, fun _ => Act, Other⟩

def Init (s : State (Fin n) Point Tx) : Prop := Quiet s ∧ s.data.w = s.data.r ∧ s.data.accepted = [] ∧ s.data.sent = []

abbrev Reach : State (Fin n) Point Tx → Prop := Transition.Reachable Init (Step rules)

def spec : Spec Point Tx where
  invariant tx := (tx.w - tx.r).toNat ≤ uartTxBufSize ∧ tx.sent ++ contents tx.buf tx.r tx.w = tx.accepted
  blocked _ tx := tx.w = tx.r + BitVec.ofNat 64 uartTxBufSize

theorem full_iff : tx.w = tx.r + BitVec.ofNat 64 uartTxBufSize ↔ (tx.w - tx.r).toNat = uartTxBufSize := by
  constructor
  · intro full
    rw [full, BitVec.add_comm, BitVec.add_sub_cancel]
    rfl
  · intro count
    rw [← count, counter_eq]

theorem sound : spec.Sound (rules : Rules (Fin n) Point Tx) := by
  constructor
  · intro p k d d' holds call
    cases call with
    | uartputc | uartintr => exact ⟨holds, fun _ _ => id⟩
  · rintro p k tx move ⟨room, fifo⟩ act
    cases act with
    | full full => exact full
    | put notFull =>
      rw [Ne, full_iff] at notFull
      have less : (tx.w - tx.r).toNat < uartTxBufSize := by omega
      refine ⟨⟨?_, ?_⟩, fun _ _ full => absurd (full_iff.mp full) notFull⟩
      · exact (count_push less (by decide)).trans_le less
      · change tx.sent ++ contents _ tx.r (tx.w + 1) = _
        rw [contents_push (by decide) (by decide) less, ← List.append_assoc, fifo]
    | empty | busy => exact ⟨⟨room, fifo⟩, fun _ _ => id⟩
    | send some =>
      have count := count_pop some.symm
      refine ⟨⟨?_, ?_⟩, nofun⟩
      · change (tx.w - (tx.r + 1)).toNat ≤ _
        omega
      · change tx.sent ++ [_] ++ contents tx.buf (tx.r + 1) tx.w = _
        rw [List.append_assoc, List.singleton_append, ← contents_pop some.symm, fifo]
  · intro d d' holds other
    cases other with
    | drain | clear | sync => exact ⟨holds, fun _ _ => id⟩

/-- A flow that is on its way to the loop of `uartstart`, or in it. -/
def Serves (place : Place Point) : Prop := place = .waiting .start ∨ place = .inside .start

/-- Characters are left in the buffer only while the device is busy, or somebody is going to look after them. -/
def Attended (s : State (Fin n) Point Tx) : Prop :=
  s.data.w ≠ s.data.r → s.data.idle = true → s.data.pending = true ∨ ∃ p, Serves (s.flows p)

theorem serves_update {flows : Fin n → Place Point} {p : Fin n} {place : Place Point} (other : Serves (flows p) → Serves place)
    (some : ∃ q, Serves (flows q)) : ∃ q, Serves (update flows p place q) := by
  obtain ⟨q, serves⟩ := some
  by_cases same : q = p
  · subst same
    exact ⟨q, by rw [update_self]; exact other serves⟩
  · exact ⟨q, by rw [update_of_ne same]; exact serves⟩

theorem attended_step {s t : State (Fin n) Point Tx} (attended : Attended s) (step : Step rules s t) : Attended t := by
  intro left idle
  cases step with
  | @call p k data place call =>
    cases call with
    | uartputc => exact (attended left idle).imp_right (serves_update (by simp [place, Serves]))
    | uartintr => exact .inr ⟨p, by simp [Serves]⟩
  | acquire place => exact (attended left idle).imp_right (serves_update (by simp [place, Serves]))
  | @go p k k' data wakes place act =>
    cases act with
    | put => exact .inr ⟨p, by simp [Serves]⟩
    | send => cases idle
  | leave place act =>
    cases act with
    | empty none => exact absurd none left
    | busy _ busy => exact nomatch busy.symm.trans idle
  | sleep place act =>
    cases act
    exact (attended left idle).imp_right (serves_update (by simp [place, Serves]))
  | kill place => exact (attended left idle).imp_right (serves_update (by simp [place, Serves]))
  | other other =>
    cases other with
    | drain => exact .inl rfl
    | clear busy => exact nomatch busy.symm.trans idle
    | sync => cases idle

/-- Whatever the order of calls and interrupts, the characters go out in the order in which they came in, none is lost or
    sent twice, and neither they nor a caller of `uartputc` wait for nothing. -/
theorem uart_transmits {s : State (Fin n) Point Tx} (reach : Reach s) :
    s.data.sent ++ contents s.data.buf s.data.r s.data.w = s.data.accepted ∧ (s.data.w - s.data.r).toNat ≤ uartTxBufSize ∧
      Attended s ∧ ∀ p k, s.flows p = .asleep k → (s.data.w - s.data.r).toNat = uartTxBufSize ∧ s.data.w ≠ s.data.r := by
  have holds := sound.reachable (fun s first => ?_) reach
  have attended : Attended s := reach.invariant (fun s first left => absurd first.2.1 left) fun _ _ => attended_step
  · refine ⟨holds.invariant.2, holds.invariant.1, attended, fun p k slept => ?_⟩
    have full := full_iff.mp (holds.asleep p k slept)
    refine ⟨full, fun same => ?_⟩
    rw [same, BitVec.sub_self] at full
    cases full
  · obtain ⟨quiet, same, accepted, sent⟩ := first
    refine ⟨quiet, ?_, ?_⟩
    · rw [same, BitVec.sub_self]
      exact Nat.zero_le _
    · rw [same, contents_self, accepted, sent]
      rfl

/-- One character, with counters that wrap around. -/
theorem uart_transmits_one : ∃ s : State (Fin 1) Point Tx, Reach s ∧ s.data.sent = [97] ∧ Attended s ∧
    s.data.sent ++ contents s.data.buf s.data.r s.data.w = s.data.accepted := by
  have start : Reach (⟨⟨fun _ => 0, -1, -1, true, false, [], []⟩, none, fun _ => .outside⟩ : State (Fin 1) Point Tx) :=
    .start ⟨⟨rfl, fun _ => rfl⟩, rfl, rfl, rfl⟩
  have acquired := (start.next (.call (p := 0) rfl (.uartputc 97))).next (.acquire (p := 0) rfl rfl)
  have sent := (acquired.next (.go (p := 0) rfl (.put (by decide)))).next (.go (p := 0) rfl (.send (by decide) rfl))
  have left := sent.next (.leave (p := 0) rfl (.empty (by decide)))
  exact ⟨_, left, rfl, (uart_transmits left).2.2.1, (uart_transmits left).1⟩

end OShard.Uart
