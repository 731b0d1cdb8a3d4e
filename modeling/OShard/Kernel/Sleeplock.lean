import OShard.Base.Monitor

namespace OShard.Sleeplock

open Monitor

variable {n : Nat}

/-- `struct sleeplock`, and the processes that have it. -/
structure Lock (n : Nat) where
  locked : Bool
  pid : BitVec 32
  holders : List (Fin n)

inductive Point where
  | acquiresleep
  | releasesleep
  | holdingsleep

def holdingsleep (lk : Lock n) (pid : BitVec 32) : Bool := lk.locked && lk.pid == pid

/-- The calls with the spinlock held. Only a process that has the lock calls `releasesleep`. -/
inductive Act (pid : Fin n → BitVec 32) (p : Fin n) : Point → Lock n → Move Point (Lock n) → Prop where
  | wait {lk} : lk.locked = true → Act pid p .acquiresleep lk (.sleep .acquiresleep)
  | take {lk} : lk.locked = false → Act pid p .acquiresleep lk (.leave ⟨true, pid p, p :: lk.holders⟩ false)
  | give {lk} : p ∈ lk.holders → Act pid p .releasesleep lk (.leave ⟨false, 0, lk.holders.erase p⟩ true)
  | look {lk} : Act pid p .holdingsleep lk (.leave lk false)

variable {pid : Fin n → BitVec 32}

def rules (pid : Fin n → BitVec 32) : Rules (Fin n) Point (Lock n) := ⟨fun _ _ => Eq, Act pid, Eq⟩

def Init (s : State (Fin n) Point (Lock n)) : Prop := Quiet s ∧ s.data = ⟨false, 0, []⟩

def spec (pid : Fin n → BitVec 32) : Spec Point (Lock n) where
  invariant lk := lk = ⟨false, 0, []⟩ ∨ ∃ p, lk = ⟨true, pid p, [p]⟩
  blocked _ lk := lk.locked = true

theorem sound : (spec pid).Sound (rules pid) := by
  constructor
  · rintro p k lk _ holds ⟨⟩
    exact ⟨holds, fun _ _ => id⟩
  · intro p k lk move holds act
    cases act with
    | wait locked => exact locked
    | take unlocked =>
      rcases holds with rfl | ⟨q, rfl⟩
      · exact ⟨.inr ⟨p, rfl⟩, fun _ _ _ => rfl⟩
      · cases unlocked
    | give mine =>
      rcases holds with rfl | ⟨q, rfl⟩
      · cases mine
      · rw [List.mem_singleton.mp mine]
        exact ⟨.inl (by simp), nofun⟩
    | look => exact ⟨holds, fun _ _ => id⟩
  · rintro lk _ holds ⟨⟩
    exact ⟨holds, fun _ _ => id⟩

/-- At most one process has the lock, it is the one for which `holdingsleep` says so, and the others sleep only while
    there is one. -/
theorem sleeplock_excludes {s : State (Fin n) Point (Lock n)} (distinct : Function.Injective pid)
    (reach : Transition.Reachable Init (Step (rules pid)) s) :
    (∀ p, holdingsleep s.data (pid p) = true ↔ p ∈ s.data.holders) ∧ (∀ p q, p ∈ s.data.holders → q ∈ s.data.holders → p = q) ∧
      ∀ p k, s.flows p = .asleep k → s.data.holders ≠ [] := by
  have holds := sound.reachable (fun s first => ⟨first.1, .inl first.2⟩) reach
  rcases holds.invariant with free | ⟨q, held⟩
  · refine ⟨?_, ?_, fun p k slept => ?_⟩
    · simp [free, holdingsleep]
    · simp [free]
    · have locked : s.data.locked = true := holds.asleep p k slept
      rw [free] at locked
      cases locked
  · refine ⟨fun p => ?_, ?_, ?_⟩
    · have same : pid q = pid p ↔ p = q := distinct.eq_iff.trans eq_comm
      simpa [held, holdingsleep] using same
    · simp [held]
    · simp [held]

/-- A process has the lock, and another one sleeps for it. -/
theorem sleeplock_excludes_two : ∃ s : State (Fin 2) Point (Lock 2), s.flows 1 = .asleep .acquiresleep ∧
    holdingsleep s.data 1 = true ∧ ∀ p q, p ∈ s.data.holders → q ∈ s.data.holders → p = q := by
  have start : Transition.Reachable Init (Step (rules fun p : Fin 2 => BitVec.ofNat 32 (p + 1)))
      ⟨⟨false, 0, []⟩, none, fun _ => .outside⟩ := .start ⟨⟨rfl, fun _ => rfl⟩, rfl⟩
  have first := (start.next (.call (p := 0) (k := .acquiresleep) rfl rfl)).next (.acquire (p := 0) rfl rfl)
  have taken := (first.next (.leave (p := 0) rfl (.take rfl))).next (.call (p := 1) (k := .acquiresleep) rfl rfl)
  have slept := (taken.next (.acquire (p := 1) rfl rfl)).next (.sleep (p := 1) rfl (.wait rfl))
  exact ⟨_, rfl, rfl, (sleeplock_excludes (by decide) slept).2.1⟩

end OShard.Sleeplock
