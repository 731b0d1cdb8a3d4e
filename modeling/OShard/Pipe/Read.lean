import OShard.Pipe.Fifo
import OShard.Space.UserMemory

namespace OShard.Pipes

open Space

/-- The loop of `piperead` from byte `i` on, with `left` more to go. It returns the value of `i`. -/
def readLoop (addr : Nat) : Nat → Nat → Pipe → UserMemory (BitVec 8) → Nat × Pipe × UserMemory (BitVec 8)
  | 0, i, pi, u => (i, pi, u)
  | left + 1, i, pi, u =>
    if pi.empty then (i, pi, u)
    else
      let (ch, pi) := pi.get
      let (r, u) := u.copyout ((addr + i) % 2 ^ 64) [ch]
      if r = -1 then (i, pi, u) else readLoop addr left (i + 1) pi u

/-- `piperead` from where it has the lock to where it returns, or to where it sleeps: then there is no result. -/
def piperead (pi : Pipe) (killed : Bool) (u : UserMemory (BitVec 8)) (addr : Nat) (n : Int) :
    Option (Int × Pipe × UserMemory (BitVec 8)) :=
  if pi.empty && pi.writeopen then
    if killed then some (-1, pi, u) else none
  else
    let (i, pi, u) := readLoop addr n.toNat 0 pi u
    some (i, pi, u)

variable {pi : Pipe} {u : UserMemory (BitVec 8)} {addr : Nat}

section Loop

def Pipe.skip (pi : Pipe) (k : Nat) : Pipe := { pi with nread := pi.nread + BitVec.ofNat 32 k }

theorem Pipe.skip_zero : pi.skip 0 = pi := by
  rw [Pipe.skip, BitVec.add_zero]

theorem Pipe.get_skip (k : Nat) : (pi.skip k).get.2 = pi.skip (k + 1) := by
  change { pi with nread := pi.nread + BitVec.ofNat 32 k + 1 } = _
  rw [BitVec.add_assoc, Pipe.skip]
  congr 2
  exact (BitVec.ofNat_add k 1).symm

theorem Pipe.length_queue : pi.queue.length = pi.count := RingBuffer.length_contents _ _ _

theorem Pipe.queue_skip {k : Nat} (less : k ≤ pi.count) : (pi.skip k).queue = pi.queue.drop k ∧ (pi.skip k).count + k = pi.count := by
  induction k with
  | zero => exact ⟨by rw [skip_zero, List.drop_zero], by rw [skip_zero, Nat.add_zero]⟩
  | succ k ih =>
    obtain ⟨queue, count⟩ := ih (by omega)
    have nonempty : (pi.skip k).empty = false := by
      rw [Bool.eq_false_iff]
      intro empty
      have zero := (empty_iff _).mp empty
      omega
    obtain ⟨fewer, first⟩ := get_spec nonempty
    rw [get_skip] at fewer first
    refine ⟨?_, by omega⟩
    rw [queue] at first
    rw [← List.drop_drop, first]
    rfl

theorem no_wrap {i : Nat} (small : addr < 2 ^ 64) (before : ∀ j, j < i → u.writable ((addr + j) / pgSize) = true) :
    (addr + i) % 2 ^ 64 = addr + i := by
  apply Nat.mod_eq_of_lt
  cases i with
  | zero => exact small
  | succ i =>
    have below := u.writable_lt _ (before i (Nat.lt_succ_self i))
    unfold maxVa pgSize at below
    omega

theorem readLoop_eq {left i : Nat} (small : addr < 2 ^ 64) (reached : i ≤ pi.count)
    (before : ∀ j, j < i → u.writable ((addr + j) / pgSize) = true) :
    readLoop addr left i (pi.skip i) (u.write addr (pi.queue.take i)) =
      if span u.writable addr (min (i + left) pi.count) = min (i + left) pi.count then
        (min (i + left) pi.count, pi.skip (min (i + left) pi.count), u.write addr (pi.queue.take (min (i + left) pi.count)))
      else
        (span u.writable addr (min (i + left) pi.count), pi.skip (span u.writable addr (min (i + left) pi.count) + 1),
          u.write addr (pi.queue.take (span u.writable addr (min (i + left) pi.count)))) := by
  induction left generalizing i with
  | zero =>
    have all : min (i + 0) pi.count = i := by omega
    rw [readLoop, all, if_pos (span_eq_iff.mpr before)]
  | succ left ih =>
    obtain ⟨queue, count⟩ := Pipe.queue_skip reached
    rw [readLoop]
    by_cases empty : (pi.skip i).empty = true
    · have all : min (i + (left + 1)) pi.count = i := by
        have zero := (Pipe.empty_iff _).mp empty
        omega
      rw [if_pos empty, all, if_pos (span_eq_iff.mpr before)]
    have some : (pi.skip i).count ≠ 0 := fun zero => empty ((Pipe.empty_iff _).mpr zero)
    have taken : pi.queue.take i ++ [(pi.skip i).get.1] = pi.queue.take (i + 1) := by
      have first := (Pipe.get_spec (Bool.eq_false_of_not_eq_true empty)).2
      rw [queue] at first
      rw [List.take_add, first]
      rfl
    have stored : (u.write addr (pi.queue.take i)).write (addr + i) [(pi.skip i).get.1] = u.write addr (pi.queue.take (i + 1)) := by
      have length : (pi.queue.take i).length = i := by
        rw [List.length_take, Pipe.length_queue]
        omega
      rw [← taken, UserMemory.write_append, length]
    rw [if_neg empty]
    dsimp only
    by_cases writable : u.writable ((addr + i) / pgSize) = true
    · have copied : (u.write addr (pi.queue.take i)).copyout ((addr + i) % 2 ^ 64) [(pi.skip i).get.1] =
          (0, u.write addr (pi.queue.take (i + 1))) := by
        rw [UserMemory.copyout_one, no_wrap small before, stored]
        exact if_pos writable
      have more : i + (left + 1) = i + 1 + left := by omega
      rw [copied, Pipe.get_skip, if_neg (show ¬(0 : Int) = -1 by decide), more]
      apply ih (by omega)
      intro j below
      rcases Nat.lt_succ_iff_lt_or_eq.mp below with earlier | rfl
      · exact before j earlier
      · exact writable
    · have refused : (u.write addr (pi.queue.take i)).copyout ((addr + i) % 2 ^ 64) [(pi.skip i).get.1] =
          (-1, u.write addr (pi.queue.take i)) := by
        rw [UserMemory.copyout_one, no_wrap small before]
        exact if_neg writable
      have stop : span u.writable addr (min (i + (left + 1)) pi.count) = i :=
        span_eq ⟨by omega, before, fun _ => Bool.eq_false_of_not_eq_true writable⟩
      have fewer : ¬i = min (i + (left + 1)) pi.count := by omega
      rw [refused, Pipe.get_skip, stop, if_neg fewer, if_pos rfl]

end Loop

section Exact

/-- What the result of `piperead` says of the pipe and of the memory of the process. -/
structure Exact (pi : Pipe) (u : UserMemory (BitVec 8)) (addr : Nat) (r : Int) (pi' : Pipe) (u' : UserMemory (BitVec 8)) : Prop where
  read : 0 ≤ r → r ≤ pi.queue.length ∧ pi' = { pi with nread := pi'.nread } ∧ pi'.queue = pi.queue.drop r.toNat ∧
    u' = u.write addr (pi.queue.take r.toNat)
  refused : r < 0 → r = -1 ∧ pi' = pi ∧ u' = u

/-- `piperead` removes exactly the bytes that it returns, if it can store all of those that it comes to. -/
theorem piperead_exact_iff (pi : Pipe) (killed : Bool) (u : UserMemory (BitVec 8)) (n : Int) (small : addr < 2 ^ 64) :
    (∀ r pi' u', piperead pi killed u addr n = some (r, pi', u') → Exact pi u addr r pi' u') ↔
      ∀ i, i < min n.toNat pi.queue.length → u.writable ((addr + i) / pgSize) = true := by
  have loop := @readLoop_eq pi u addr n.toNat 0 small (Nat.zero_le _) (fun j below => absurd below (by omega))
  rw [Pipe.skip_zero, List.take_zero, UserMemory.write_nil, Nat.zero_add] at loop
  rw [Pipe.length_queue, ← span_eq_iff]
  have limit := @span_le u.writable addr (min n.toNat pi.count)
  have stop := (spans_span u.writable addr (min n.toNat pi.count)).stop
  by_cases waits : (pi.empty && pi.writeopen) = true
  · have zero := (Pipe.empty_iff pi).mp (Bool.and_eq_true_iff.mp waits).1
    have nothing : span u.writable addr (min n.toNat pi.count) = min n.toNat pi.count := by omega
    rw [piperead, if_pos waits]
    refine ⟨fun _ => nothing, fun _ r pi' u' returned => ?_⟩
    cases killed with
    | false => cases returned
    | true =>
      cases returned
      exact ⟨fun wrong => absurd wrong (by decide), fun _ => ⟨rfl, rfl, rfl⟩⟩
  rw [piperead, if_neg waits]
  constructor
  · intro always
    by_contra short
    rw [if_neg short] at loop
    rw [loop] at always
    have exact := always _ _ _ rfl
    have removed := (exact.read (Int.natCast_nonneg _)).2.2.1
    have length := congrArg List.length removed
    rw [Pipe.length_queue, List.length_drop, Pipe.length_queue, Int.toNat_natCast] at length
    have skipped := (@Pipe.queue_skip pi (span u.writable addr (min n.toNat pi.count) + 1) (by omega)).2
    omega
  · intro all r pi' u' returned
    rw [if_pos all] at loop
    rw [loop] at returned
    cases returned
    obtain ⟨queue, count⟩ := @Pipe.queue_skip pi (min n.toNat pi.count) (Nat.min_le_right _ _)
    refine ⟨fun _ => ⟨?_, rfl, ?_, ?_⟩, fun wrong => absurd wrong (by omega)⟩
    · rw [Pipe.length_queue]
      omega
    · rw [Int.toNat_natCast]
      exact queue
    · rw [Int.toNat_natCast]

def onePipe : Pipe := ⟨fun _ => 7, 0, 1, true, true⟩

def pageZero (writable : Bool) : UserMemory (BitVec 8) where
  readable j := j == 0
  writable j := j == 0 && writable
  byte _ := 0
  readable_lt j readable := by
    have zero : j = 0 := eq_of_beq readable
    subst zero
    decide
  writable_lt j granted := by
    have zero : j = 0 := eq_of_beq (Bool.and_eq_true_iff.mp granted).1
    subst zero
    decide

theorem piperead_exact_seven : ∃ pi' u', piperead onePipe false (pageZero true) 0 1 = some (1, pi', u') ∧ pi'.queue = [] ∧
    u' = (pageZero true).write 0 [7] := by
  have exact := (@piperead_exact_iff 0 onePipe false (pageZero true) 1 (by decide)).mpr (by decide)
  have copied : (pageZero true).copyout ((0 + 0) % 2 ^ 64) [onePipe.get.1] = (0, (pageZero true).write 0 [7]) := by
    rw [UserMemory.copyout_one]
    exact if_pos (by decide)
  have returned : piperead onePipe false (pageZero true) 0 1 = some (1, onePipe.get.2, (pageZero true).write 0 [7]) := by
    rw [piperead, if_neg (by decide), show (1 : Int).toNat = 0 + 1 from rfl, readLoop, if_neg (by decide)]
    dsimp only
    rw [copied]
    rfl
  obtain ⟨-, -, queue, stored⟩ := (exact _ _ _ returned).read (by decide)
  exact ⟨_, _, returned, queue, stored⟩

/-- The page at `0` is not writable: the byte is gone, and `0` is returned. -/
theorem piperead_loses_byte : ∃ pi' u', piperead onePipe false (pageZero false) 0 1 = some (0, pi', u') ∧
    onePipe.queue = [7] ∧ pi'.queue = [] ∧ ¬Exact onePipe (pageZero false) 0 0 pi' u' := by
  have refused : (pageZero false).copyout ((0 + 0) % 2 ^ 64) [onePipe.get.1] = (-1, pageZero false) := by
    rw [UserMemory.copyout_one]
    exact if_neg (by decide)
  refine ⟨onePipe.get.2, pageZero false, ?_, by decide, by decide, ?_⟩
  · rw [piperead, if_neg (by decide), show (1 : Int).toNat = 0 + 1 from rfl, readLoop, if_neg (by decide)]
    dsimp only
    rw [refused]
    rfl
  · intro exact
    have queue := (exact.read (Int.le_refl 0)).2.2.1
    exact absurd queue (by decide)

end Exact

section Steps

variable {k : Nat} {s : State k} {p : Fin k}

theorem readLoop_steps {left i : Nat} {n : Int} (place : (s.procs p).pc = .readCopy i n) (count : left = (n - i).toNat)
    (u : UserMemory (BitVec 8)) (addr : Nat) : ∃ t, Relation.ReflTransGen Step s t ∧
      (t.procs p).pc = .readDone (readLoop addr left i s.pipe u).1 ∧ t.pipe = (readLoop addr left i s.pipe u).2.1 := by
  induction left generalizing s i u with
  | zero =>
    refine ⟨_, .single (.readEnd place (Or.inl (by omega))), ?_, rfl⟩
    rw [State.go_self]
    rfl
  | succ left ih =>
    have more : (i : Int) < n := by omega
    rw [readLoop]
    by_cases empty : s.pipe.empty = true
    · rw [if_pos empty]
      refine ⟨_, .single (.readEnd place (Or.inr empty)), ?_, rfl⟩
      rw [State.go_self]
    have nonempty := Bool.eq_false_of_not_eq_true empty
    rw [if_neg empty]
    dsimp only
    by_cases fault : (u.copyout ((addr + i) % 2 ^ 64) [s.pipe.get.1]).1 = -1
    · rw [if_pos fault]
      refine ⟨_, .single (.readByte true place more nonempty), ?_, rfl⟩
      change ((s.go p (.readDone i)).procs p).pc = _
      rw [State.go_self]
    rw [if_neg fault]
    have step := Step.readByte false place more nonempty
    obtain ⟨t, steps, ended, pipe⟩ := @ih { s.go p (.readCopy (i + 1) n) with
      pipe := s.pipe.get.2
      dequeued := s.dequeued ++ [s.pipe.get.1] } (i + 1) (by
        change ((s.go p (.readCopy (i + 1) n)).procs p).pc = _
        rw [State.go_self]) (by omega) (u.copyout ((addr + i) % 2 ^ 64) [s.pipe.get.1]).2
    exact ⟨t, .head step steps, ended, pipe⟩

end Steps

end OShard.Pipes
