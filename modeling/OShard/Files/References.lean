import OShard.Files.Refinement

namespace OShard.Files

open Tally

variable {n : Nat}

def Pc.idle : Pc n → Bool
  | .unused | .user | .zombie => true
  | _ => false

def Quiet (s : State n) : Prop := ∀ p, (s.procs p).pc.idle = true

def State.holders (s : State n) (f : Nat) : Finset (Fin n × Fd) :=
  Finset.univ.filter fun slot => (s.procs slot.1).ofile slot.2 = some f

def Pc.closed : Pc n → Option Fd
  | .release _ after | .freePage _ _ after | .free _ after => after.slot
  | .exitClear fd => some fd
  | _ => none

/-- `f` is the open file of an end of the pipe at `pi` for which `pipeclose` has not been called. -/
def State.HoldsEnd (s : State n) (f pi : Nat) (writable : Bool) : Prop :=
  ∃ file, s.files f = some file ∧ file.type = .pipe ∧ file.pipe = pi ∧ file.writable = writable ∧ file.gone = false

def State.isOpen (s : State n) (pi : Nat) (writable : Bool) : Bool := (s.pipes pi).any (Pipe.isOpen · writable)

section Invariant

structure Invariant (s : State n) : Prop where
  shaped : Shaped s
  counted : Counted s
  ready : Ready s
  held : s.ledger.Held
  balanced : s.ledger.Balanced

theorem Invariant.init {s : State n} (init : Init s) : Invariant s := by
  have idle : ∀ p, (s.procs p).pc.skips = none ∧ (s.procs p).pc.owns = [] ∧ (s.procs p).pc.reaps = none ∧
      (s.procs p).pc.page = none ∧ (s.procs p).pc.forking = false ∧ (s.procs p).pc.Ready s.files := by
    intro p
    rcases init.pc p with place | place <;> rw [place] <;> exact ⟨rfl, rfl, rfl, rfl, rfl, trivial⟩
  refine ⟨⟨fun p => ?_, fun p child i place => ?_⟩, fun f => ⟨?_, ?_⟩, ⟨fun p => (idle p).2.2.2.2.2, ?_⟩, ?_, ?_⟩
  · unfold Proc.Shape
    rcases init.pc p with place | place <;> rw [place]
    · trivial
    · exact init.ofile p
  · have other := (idle p).2.2.2.2.1
    rw [place] at other
    cases other
  · rw [init.files f]
    apply Finset.sum_eq_zero
    intro p _
    unfold Proc.refs
    rw [slots_none (init.ofile p), (idle p).2.1]
    rfl
  · rw [init.files f]
    apply Finset.sum_eq_zero
    intro p _
    unfold Proc.reap
    rw [(idle p).2.2.1]
    rfl
  · intro f file live
    rw [init.files f] at live
    cases live
  · refine ⟨fun f pi writable holds => ?_, fun pi writable opened => ?_, fun f g pi writable holds => ?_, fun pi => ?_⟩
    · change endOf (s.files f) = _ at holds
      rw [init.files f] at holds
      cases holds
    · rw [Ledger.isOpen_none (init.pipes pi)] at opened
      cases opened
    · change endOf (s.files f) = _ at holds
      rw [init.files f] at holds
      cases holds
    · have empty : s.ledger.pipes pi = none := init.pipes pi
      rw [empty]
      change ∑ p, (s.procs p).frees pi = 0
      apply Finset.sum_eq_zero
      intro p _
      unfold Proc.frees
      rw [(idle p).2.2.2.1]
      rfl
  · refine ⟨fun f => ?_, fun pi => ?_, fun pi writable => ?_⟩
    · change s.trace.count _ = s.trace.count _ + (s.files f).isSome.toNat
      rw [init.trace, init.files f]
      rfl
    · change s.trace.count _ = s.trace.count _ + (s.pipes pi).isSome.toNat
      rw [init.trace, init.pipes pi]
      rfl
    · change s.trace.count _ = s.trace.count _ + _
      rw [init.trace, Ledger.isOpen_none (init.pipes pi)]
      rfl

theorem Invariant.step {s t : State n} (invariant : Invariant s) (step : Step s t) : Invariant t := by
  obtain ⟨shaped, counted, ready, held, balanced⟩ := invariant
  have moved := ledger_step shaped ready step
  refine ⟨shaped.step step, counted.step shaped step, ready.step shaped counted step, ?_, ?_⟩
  · rcases moved with same | change
    · rw [same]
      exact held
    · exact held.step change
  · rcases moved with same | change
    · rw [same]
      exact balanced
    · exact balanced.step held change

theorem invariant_of_reach {s : State n} (reach : Reach s) : Invariant s :=
  reach.invariant (fun _ init => .init init) fun _ _ invariant step => invariant.step step

end Invariant

section Results

variable {s : State n} {f pi : Nat} {file : File} {p : Fin n}

theorem card_holders (s : State n) (f : Nat) : (s.holders f).card = ∑ p, slots none (s.procs p).ofile f := by
  unfold State.holders slots
  rw [Finset.card_filter, Fintype.sum_prod_type]
  apply Finset.sum_congr rfl
  intro p _
  apply Finset.sum_congr rfl
  intro fd _
  simp

theorem refs_idle {proc : Proc n} (idle : proc.pc.idle = true) (f : Nat) : proc.refs f = slots none proc.ofile f := by
  have clear : proc.pc.skips = none ∧ proc.pc.owns = [] := by
    generalize proc.pc = pc at idle ⊢
    cases pc <;> first | exact ⟨rfl, rfl⟩ | cases idle
  unfold Proc.refs
  rw [clear.1, clear.2, List.count_nil, Nat.add_zero]

theorem Invariant.quiet (invariant : Invariant s) (quiet : Quiet s)
    (live : s.files f = some file) : file.ref = (s.holders f).card ∧ 1 ≤ file.ref := by
  obtain ⟨count, dying⟩ := invariant.counted f
  rw [live] at count dying
  have refs : s.refs f = file.ref := count
  have reapers : s.reapers f = if file.ref = 0 then 1 else 0 := dying
  have none : s.reapers f = 0 := by
    apply Finset.sum_eq_zero
    intro p _
    have idle := quiet p
    unfold Proc.reap
    generalize (s.procs p).pc = pc at idle ⊢
    cases pc <;> first | rfl | cases idle
  constructor
  · rw [card_holders, ← refs]
    apply Finset.sum_congr rfl
    intro p _
    exact refs_idle (quiet p) f
  · by_contra zero
    rw [none, if_pos (by omega)] at reapers
    cases reapers

theorem Invariant.stale (invariant : Invariant s) {q : Fin n} {fd : Fd}
    (reaps : (s.procs p).pc.reaps = some f) (held : (s.procs q).ofile fd = some f) : (s.procs q).pc.closed = some fd := by
  obtain ⟨file, live, zero⟩ := invariant.counted.reaped reaps
  have unowned : ¬1 ≤ (s.procs q).refs f := by
    intro positive
    obtain ⟨file', live', positive'⟩ := invariant.counted.owned positive
    rw [live] at live'
    cases live'
    omega
  have uncounted : ∀ fd', (s.procs q).ofile fd' = some f → (s.procs q).pc.skips = some fd' := by
    intro fd' held'
    by_contra counted
    have positive := slots_pos counted held'
    unfold Proc.refs at unowned
    omega
  have skipped := uncounted fd held
  cases place : (s.procs q).pc with
  | dup g fd' =>
    have shape := invariant.shaped.shapeOf place
    obtain ⟨own, fd'', other, held'⟩ := shape
    have last := uncounted
    rw [place] at skipped last
    cases skipped
    rw [held] at own
    cases own
    exact absurd (Option.some.inj (last fd'' held')).symm other
  | release | freePage | free | exitClear =>
    rw [place] at skipped
    exact skipped
  | _ =>
    rw [place] at skipped
    cases skipped

theorem endOf_iff {writable : Bool} : endOf (s.files f) = some (pi, writable) ↔ s.HoldsEnd f pi writable := by
  constructor
  · intro holds
    cases live : s.files f with
    | none =>
      rw [live] at holds
      cases holds
    | some file =>
      rw [live] at holds
      by_cases both : file.type = .pipe ∧ file.gone = false
      · have result : some (file.pipe, file.writable) = some (pi, writable) := (if_pos both).symm.trans holds
        cases result
        exact ⟨file, live, both.1, rfl, rfl, both.2⟩
      · have result : none = some (pi, writable) := (if_neg both).symm.trans holds
        cases result
  · rintro ⟨file, live, kind, rfl, rfl, kept⟩
    rw [live]
    exact if_pos ⟨kind, kept⟩

theorem isOpen_ledger (s : State n) (pi : Nat) (writable : Bool) : s.ledger.isOpen pi writable = s.isOpen pi writable := by
  unfold Ledger.isOpen State.isOpen
  have same : s.ledger.pipes pi = s.pipes pi := rfl
  rw [same]
  cases s.pipes pi with
  | none | some => rfl

theorem Invariant.reaper (invariant : Invariant s) (live : s.files f = some file)
    (zero : file.ref = 0) : ∃ p, (s.procs p).pc.reaps = some f := by
  obtain ⟨-, dying⟩ := invariant.counted f
  rw [live] at dying
  have reapers : s.reapers f = if file.ref = 0 then 1 else 0 := dying
  rw [if_pos zero] at reapers
  by_contra nobody
  have none : s.reapers f = 0 := by
    apply Finset.sum_eq_zero
    intro p _
    exact if_neg fun reaps => nobody ⟨p, reaps⟩
  omega

theorem Invariant.page (invariant : Invariant s) {after : After}
    (place : (s.procs p).pc = .freePage pi f after) : s.pipes pi = some ⟨false, false⟩ := by
  have part := le_sum (fun p => (s.procs p).frees pi) p
  have own : (s.procs p).frees pi = 1 := by
    unfold Proc.frees
    rw [place]
    exact if_pos rfl
  have freeing : 1 ≤ s.freeing pi := by
    unfold State.freeing
    omega
  exact (invariant.held.freed freeing).1

structure Accounted (s : State n) : Prop where
  /-- While no call is in progress, a live file counts the slots that hold it, and there is one. -/
  references : Quiet s → ∀ f file, s.files f = some file → file.ref = (s.holders f).card ∧ 1 ≤ file.ref
  /-- A file that was allocated has been freed once, or is live. -/
  files : ∀ f, s.trace.count (.filealloc f) = s.trace.count (.bdFree f) + (s.files f).isSome.toNat
  /-- `bd_free` finds a live file without references, held at most by slots that `exit` has closed. -/
  free : ∀ p f after, (s.procs p).pc = .free f after → (∃ file, s.files f = some file ∧ file.ref = 0) ∧
    ∀ q fd, (q, fd) ∈ s.holders f → (s.procs q).pc.closed = some fd
  /-- A file whose last reference is gone is being taken down. -/
  last : ∀ f file, s.files f = some file → file.ref = 0 → ∃ p, (s.procs p).pc.reaps = some f
  /-- For each page, `pipeclose` was called once per end, or the end is open. -/
  ends : ∀ pi writable,
    s.trace.count (.kalloc pi) = s.trace.count (.pipeclose pi writable) + (s.isOpen pi writable).toNat
  /-- An end is open as long as its one file has not gone away. -/
  holder : ∀ pi writable, s.isOpen pi writable = true ↔ ∃! f, s.HoldsEnd f pi writable
  /-- `pipeclose` is called on an open end, by a file without references. -/
  pipeclose : ∀ p f after file, (s.procs p).pc = .release f after → s.files f = some file → file.type = .pipe →
    file.ref = 0 ∧ s.isOpen file.pipe file.writable = true
  /-- A page was freed once, or is in use. -/
  pages : ∀ pi, s.trace.count (.kalloc pi) = s.trace.count (.kfree pi) + (s.pipes pi).isSome.toNat
  /-- `kfree` is called on a pipe whose ends are both closed. -/
  kfree : ∀ p pi f after, (s.procs p).pc = .freePage pi f after → s.pipes pi = some ⟨false, false⟩

theorem open_files_accounted {s : State n} (reach : Reach s) : Accounted s := by
  have invariant := invariant_of_reach reach
  refine ⟨?_, invariant.balanced.files, ?_, ?_, ?_, ?_, ?_, invariant.balanced.pages, ?_⟩
  · intro quiet f file live
    exact invariant.quiet quiet live
  · intro p f after place
    have reaps : (s.procs p).pc.reaps = some f := by
      rw [place]
      rfl
    refine ⟨invariant.counted.reaped reaps, fun q fd member => ?_⟩
    exact invariant.stale reaps (Finset.mem_filter.mp member).2
  · intro f file live zero
    exact invariant.reaper live zero
  · intro pi writable
    rw [← isOpen_ledger]
    exact invariant.balanced.ends pi writable
  · intro pi writable
    rw [← isOpen_ledger]
    constructor
    · intro opened
      obtain ⟨f, holds⟩ := invariant.held.owner pi writable opened
      refine ⟨f, endOf_iff.mp holds, fun g holds' => ?_⟩
      exact invariant.held.unique g f pi writable (endOf_iff.mpr holds') holds
    · rintro ⟨f, holds, -⟩
      exact invariant.held.isOpen f pi writable (endOf_iff.mpr holds)
  · intro p f after file place live kind
    obtain ⟨file', live', zero⟩ := invariant.counted.reaped (p := p) (f := f) (by rw [place]; rfl)
    rw [live] at live'
    cases live'
    have own := invariant.ready.own p
    rw [place] at own
    obtain ⟨file', live', kept⟩ := own
    rw [live] at live'
    cases live'
    rw [← isOpen_ledger]
    exact ⟨zero, invariant.held.isOpen f _ _ (endOf_iff.mpr ⟨file, live, kind, rfl, rfl, kept⟩)⟩
  · intro p pi f after place
    exact invariant.page place

def boot : State 1 := ⟨fun _ => ⟨fun _ => none, .user⟩, fun _ => none, fun _ => none, []⟩

theorem boot_init : Init boot := ⟨fun _ _ => rfl, fun _ => Or.inl rfl, fun _ => rfl, fun _ => rfl, rfl⟩

def first : Fd := ⟨0, by decide⟩

theorem reach_opened : ∃ s : State 1, Reach s ∧ (s.procs 0).pc = .user ∧ (s.procs 0).ofile first = some 7 ∧
    s.files 7 = some ⟨.inode, 1, true, false, 0, false⟩ := by
  have made := (Transition.Reachable.start boot_init).next (Step.filealloc 0 7 rfl rfl)
  have opened := made.next (Step.opened (p := 0) (f := 7) .inode true false rfl rfl
    (show fdalloc _ = some first from rfl) (Or.inl rfl))
  exact ⟨_, opened, rfl, rfl, rfl⟩

theorem open_files_accounted_one : ∃ s : State 1, Reach s ∧ Quiet s ∧ (s.files 7).isSome = true ∧ Accounted s := by
  obtain ⟨s, reach, user, -, live⟩ := reach_opened
  refine ⟨s, reach, fun p => ?_, ?_, open_files_accounted reach⟩
  · rw [Subsingleton.elim p 0, user]
    rfl
  · rw [live]
    rfl

/-- `exit` calls `fileclose` before it clears the slot, so that `bd_free` finds the file in it. -/
theorem exit_frees_held_file : ∃ s : State 1, Reach s ∧ ∃ p f after fd, (s.procs p).pc = .free f after ∧
    (p, fd) ∈ s.holders f := by
  obtain ⟨s, opened, user, slot, live⟩ := reach_opened
  have exiting := opened.next (Step.exit user)
  have closing := exiting.next (Step.exitFile (p := 0) (f := 7) (by decide : 0 < nofile) rfl slot)
  have dropped := closing.next (Step.fileclose (p := 0) (f := 7) rfl live rfl)
  have released := dropped.next (Step.iput (p := 0) (f := 7) rfl rfl nofun)
  exact ⟨_, released, 0, 7, _, first, rfl, Finset.mem_filter.mpr ⟨Finset.mem_univ _, slot⟩⟩

end Results

end OShard.Files
