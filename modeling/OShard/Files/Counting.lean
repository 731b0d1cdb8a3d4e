import OShard.Files.Model

namespace OShard.Files

open Tally Function

variable {n : Nat}

section References

def After.holds (f : Nat) : After → List Nat
  | .done => [f]
  | .close g => [f, g]
  | .exit _ => []

def After.rest : After → List Nat
  | .close g => [g]
  | _ => []

def Pc.owns : Pc n → List Nat
  | .opening f => [f]
  | .pipe0 rf => [rf]
  | .pipe1 rf wf | .pipe2 rf wf => [rf, wf]
  | .close f after => after.holds f
  | .release _ after | .freePage _ _ after | .free _ after => after.rest
  | _ => []

def After.slot : After → Option Fd
  | .exit fd => some fd
  | _ => none

/-- The slot that has not been counted yet, or is no longer: the new one in `dup`, the one that `exit` has closed
    and will clear. -/
def Pc.skips : Pc n → Option Fd
  | .dup _ fd => some fd
  | .release _ after | .freePage _ _ after | .free _ after => after.slot
  | .exitClear fd => some fd
  | _ => none

def slots (skip : Option Fd) (ofile : Fd → Option Nat) (f : Nat) : Nat :=
  ∑ fd, if skip ≠ some fd ∧ ofile fd = some f then 1 else 0

def Proc.refs (proc : Proc n) (f : Nat) : Nat := slots proc.pc.skips proc.ofile f + proc.pc.owns.count f

/-- The file that a process is taking down, after its last reference was dropped. -/
def Pc.reaps : Pc n → Option Nat
  | .release f _ | .freePage _ f _ | .free f _ => some f
  | _ => none

def Proc.reap (proc : Proc n) (f : Nat) : Nat := if proc.pc.reaps = some f then 1 else 0

def State.refs (s : State n) (f : Nat) : Nat := ∑ p, (s.procs p).refs f

def State.reapers (s : State n) (f : Nat) : Nat := ∑ p, (s.procs p).reap f

variable {ofile : Fd → Option Nat} {skip : Option Fd} {fd : Fd} {f : Nat} {s : State n} {p : Fin n}

theorem slots_update (skip : Option Fd) (ofile : Fd → Option Nat) (fd : Fd) (v : Option Nat) (f : Nat) :
    slots skip (update ofile fd v) f + (if skip ≠ some fd ∧ ofile fd = some f then 1 else 0) =
      slots skip ofile f + (if skip ≠ some fd ∧ v = some f then 1 else 0) :=
  sum_update (fun fd value => if skip ≠ some fd ∧ value = some f then 1 else 0) ofile fd v

theorem slots_skip (ofile : Fd → Option Nat) (fd : Fd) (f : Nat) :
    slots (some fd) ofile f + (if ofile fd = some f then 1 else 0) = slots none ofile f := by
  have cleared : slots (some fd) ofile f = slots none (update ofile fd none) f := by
    apply Finset.sum_congr rfl
    intro fd' _
    by_cases same : fd' = fd
    · simp [same]
    · have other : fd ≠ fd' := fun equal => same equal.symm
      simp [same, other]
  have change := slots_update none ofile fd none f
  rw [cleared]
  simpa using change

theorem slots_none (empty : ∀ fd, ofile fd = none) (skip : Option Fd) (f : Nat) : slots skip ofile f = 0 := by
  apply Finset.sum_eq_zero
  intro fd _
  simp [empty fd]

theorem slots_pos (counted : skip ≠ some fd) (held : ofile fd = some f) : 1 ≤ slots skip ofile f := by
  have part := le_sum (fun fd => if skip ≠ some fd ∧ ofile fd = some f then 1 else 0) fd
  simpa [counted, held, slots] using part

theorem slots_fill (counted : skip ≠ some fd) (empty : ofile fd = none) (f g : Nat) :
    slots skip (update ofile fd (some f)) g = slots skip ofile g + [f].count g := by
  have change := slots_update skip ofile fd (some f) g
  simp only [counted, empty, ne_eq, not_false_eq_true, true_and, reduceCtorEq, if_false, Option.some.injEq] at change
  rw [List.count_singleton]
  simpa using change

theorem slots_clear (held : ofile fd = some f) (g : Nat) :
    slots none (update ofile fd none) g + [f].count g = slots none ofile g := by
  have change := slots_update none ofile fd none g
  rw [List.count_singleton]
  simpa [held] using change

theorem slots_skipped (held : ofile fd = some f) (g : Nat) :
    slots (some fd) ofile g + [f].count g = slots none ofile g := by
  have change := slots_skip ofile fd g
  rw [held] at change
  rw [List.count_singleton]
  simpa using change

theorem slots_put (ofile : Fd → Option Nat) (fd : Fd) (v : Option Nat) (f : Nat) :
    slots (some fd) (update ofile fd v) f = slots (some fd) ofile f := by
  have change := slots_update (some fd) ofile fd v f
  simpa using change

theorem slots_skip_empty (empty : ofile fd = none) (f : Nat) : slots (some fd) ofile f = slots none ofile f := by
  have change := slots_skip ofile fd f
  simpa [empty] using change

def refOf : Option File → Nat
  | some file => file.ref
  | none => 0

def dyingOf : Option File → Nat
  | some file => if file.ref = 0 then 1 else 0
  | none => 0

/-- Every file counts its references, and one that has none left is being taken down by one process. -/
def Counted (s : State n) : Prop := ∀ f, s.refs f = refOf (s.files f) ∧ s.reapers f = dyingOf (s.files f)

theorem Counted.assign {t : State n} (counted : Counted s) {proc : Proc n} (procs : t.procs = update s.procs p proc)
    (refs : ∀ f, refOf (t.files f) + (s.procs p).refs f = refOf (s.files f) + proc.refs f)
    (reap : ∀ f, dyingOf (t.files f) + (s.procs p).reap f = dyingOf (s.files f) + proc.reap f) : Counted t := by
  intro f
  obtain ⟨count, dying⟩ := counted f
  have refs' := sum_update (fun (_ : Fin n) (proc : Proc n) => proc.refs f) s.procs p proc
  have reap' := sum_update (fun (_ : Fin n) (proc : Proc n) => proc.reap f) s.procs p proc
  have change := refs f
  have change' := reap f
  unfold State.refs at count ⊢
  unfold State.reapers at dying ⊢
  rw [procs]
  constructor
  · omega
  · omega

theorem Counted.owned (counted : Counted s) (held : 1 ≤ (s.procs p).refs f) :
    ∃ file, s.files f = some file ∧ 1 ≤ file.ref := by
  have part := le_sum (fun p => (s.procs p).refs f) p
  obtain ⟨count, -⟩ := counted f
  unfold State.refs at count
  cases file : s.files f with
  | none =>
    rw [file] at count
    change _ = 0 at count
    omega
  | some file' =>
    rw [file] at count
    change _ = file'.ref at count
    exact ⟨file', rfl, by omega⟩

theorem Counted.reaped (counted : Counted s) (reaps : (s.procs p).pc.reaps = some f) :
    ∃ file, s.files f = some file ∧ file.ref = 0 := by
  have part := le_sum (fun p => (s.procs p).reap f) p
  have own : (s.procs p).reap f = 1 := if_pos reaps
  obtain ⟨-, dying⟩ := counted f
  unfold State.reapers at dying
  cases file : s.files f with
  | none =>
    rw [file] at dying
    change _ = 0 at dying
    omega
  | some file' =>
    rw [file] at dying
    change _ = (if file'.ref = 0 then 1 else 0) at dying
    refine ⟨file', rfl, ?_⟩
    by_contra some
    rw [if_neg some] at dying
    omega

theorem Counted.reaper_unique (counted : Counted s) {q : Fin n}
    (first : (s.procs p).pc.reaps = some f) (second : (s.procs q).pc.reaps = some f) : p = q := by
  by_contra different
  have both := add_le_sum (fun p => (s.procs p).reap f) different
  have one : (s.procs p).reap f = 1 := if_pos first
  have two : (s.procs q).reap f = 1 := if_pos second
  obtain ⟨file, live, zero⟩ := counted.reaped first
  obtain ⟨-, dying⟩ := counted f
  rw [live] at dying
  change _ = (if file.ref = 0 then 1 else 0) at dying
  rw [if_pos zero] at dying
  unfold State.reapers at dying
  omega

end References

section Shapes

def After.Shape (ofile : Fd → Option Nat) (f : Nat) : After → Prop
  | .exit fd => ofile fd = some f ∧ ∀ fd' < fd, ofile fd' = none
  | _ => True

def Proc.Shape (proc : Proc n) : Prop :=
  match proc.pc with
  | .unused | .zombie => ∀ fd, proc.ofile fd = none
  | .dup f fd => proc.ofile fd = some f ∧ ∃ fd', fd' ≠ fd ∧ proc.ofile fd' = some f
  | .close f after | .release f after | .freePage _ f after | .free f after => after.Shape proc.ofile f
  | .exitClear fd => ∀ fd' < fd, proc.ofile fd' = none
  | .exit k => ∀ fd : Fd, fd.val < k → proc.ofile fd = none
  | _ => True

/-- The child of a `fork` belongs to its parent, and its table is filled from the front. -/
structure Shaped (s : State n) : Prop where
  shape : ∀ p, (s.procs p).Shape
  forks : ∀ p child i, (s.procs p).pc = .fork child i →
    (s.procs child).pc = .embryo p ∧ ∀ fd : Fd, i ≤ fd.val → (s.procs child).ofile fd = none

variable {s t : State n} {p child : Fin n} {i : Nat}

theorem Shaped.shapeOf (shaped : Shaped s) {pc : Pc n} (place : (s.procs p).pc = pc) :
    (⟨(s.procs p).ofile, pc⟩ : Proc n).Shape := by
  rw [← place]
  exact shaped.shape p

def Pc.embryonic : Pc n → Bool
  | .embryo _ => true
  | _ => false

def Pc.forking : Pc n → Bool
  | .fork _ _ => true
  | _ => false

theorem next_forking (after : After) : (after.next : Pc n).forking = false := by
  cases after <;> rfl

theorem shape_next {after : After} {ofile : Fd → Option Nat} {f : Nat} (shape : after.Shape ofile f) :
    (⟨ofile, after.next⟩ : Proc n).Shape := by
  cases after with
  | done => trivial
  | close g => trivial
  | exit fd => exact shape.2

variable (shaped : Shaped s)

include shaped

theorem Shaped.set {proc : Proc n}
    (procs : t.procs = update s.procs p proc) (running : (s.procs p).pc.embryonic = false) (shape : proc.Shape)
    (other : proc.pc.forking = false) : Shaped t := by
  obtain ⟨shapes, forks⟩ := shaped
  constructor
  all_goals
    rw [procs]
    grind [update_apply, Pc.embryonic, Pc.forking]

theorem Shaped.setFork (i : Nat) (ofile : Fd → Option Nat)
    (parent : (s.procs p).pc.embryonic = false) (free : ∀ q j, (s.procs q).pc = .fork child j → q = p)
    (procs : t.procs = update (update s.procs child ⟨ofile, .embryo p⟩) p
      ⟨(s.procs p).ofile, .fork child i⟩)
    (different : child ≠ p) (empty : ∀ fd : Fd, i ≤ fd.val → ofile fd = none) : Shaped t := by
  obtain ⟨shapes, forks⟩ := shaped
  have shape : (⟨(s.procs p).ofile, .fork child i⟩ : Proc n).Shape ∧ (⟨ofile, .embryo p⟩ : Proc n).Shape := ⟨trivial, trivial⟩
  constructor
  all_goals
    rw [procs]
    grind [update_apply, Pc.embryonic]

theorem Shaped.setForked (place : (s.procs p).pc = .fork child i) :
    Shaped ((s.go child .user).go p .user) := by
  obtain ⟨shapes, forks⟩ := shaped
  have shape : ∀ ofile, (⟨ofile, .user⟩ : Proc n).Shape := fun _ => trivial
  unfold State.go State.set
  constructor
  all_goals grind [update_apply]

theorem Shaped.other (place : (s.procs p).pc = .fork child i) :
    child ≠ p ∧ ∀ q j, (s.procs q).pc = .fork child j → q = p := by
  obtain ⟨shapes, forks⟩ := shaped
  grind

theorem Shaped.step (step : Step s t) : Shaped t := by
  cases step with
  | filealloc _ _ place | opened _ _ _ place | openFailed place | pipeRead _ _ place | pipeWrite _ place
  | pipeMade _ place | pipeDone place | pipeFailed place | filedup place | close place =>
    exact shaped.set rfl (by rw [place]; rfl) trivial rfl
  | dup place held slot =>
    rename_i p fd fd' f
    have different : fd ≠ fd' := by
      rintro rfl
      exact nomatch held.symm.trans (fdalloc_free slot)
    refine shaped.set rfl (by rw [place]; rfl) ⟨update_self _ _ _, fd, different, ?_⟩ rfl
    simpa [different] using held
  | fileclose place live result =>
    rename_i p f after file file'
    have shape := shaped.shapeOf place
    split
    · exact shaped.set rfl (by rw [place]; rfl) (shape_next shape) (next_forking after)
    · exact shaped.set rfl (by rw [place]; rfl) shape rfl
  | pipeclose place live kind page =>
    have shape := shaped.shapeOf place
    split <;> exact shaped.set rfl (by rw [place]; rfl) shape rfl
  | iput place | kfree place | wait place =>
    have shape := shaped.shapeOf place
    exact shaped.set rfl (by rw [place]; rfl) shape rfl
  | bdFree place =>
    rename_i p f after
    exact shaped.set rfl (by rw [place]; rfl) (shape_next (shaped.shapeOf place)) (next_forking after)
  | fork place unused =>
    rename_i p child
    have different : child ≠ p := by
      rintro rfl
      exact nomatch place.symm.trans unused
    have shape := shaped.shapeOf unused
    refine shaped.setFork 0 (s.procs child).ofile (by rw [place]; rfl) (fun q j forking => ?_) ?_ different fun fd _ => shape fd
    · exact nomatch unused.symm.trans (shaped.forks q child j forking).1
    · simp [State.go, State.set, different.symm]
  | forkEmpty bound place empty =>
    rename_i p child i
    obtain ⟨embryo, empty'⟩ := shaped.forks p child i place
    obtain ⟨different, only⟩ := shaped.other place
    refine shaped.setFork (i + 1) (s.procs child).ofile (by rw [place]; rfl) only ?_ different fun fd later => empty' fd (by omega)
    unfold State.go State.set
    rw [← embryo, update_eq_self]
  | forkFile bound place held live result =>
    rename_i p child i f file file'
    obtain ⟨embryo, empty⟩ := shaped.forks p child i place
    obtain ⟨different, only⟩ := shaped.other place
    refine shaped.setFork (i + 1) (update (s.procs child).ofile ⟨i, bound⟩ (some f)) (by rw [place]; rfl) only ?_ different
      fun fd later => ?_
    · simp [State.go, State.set, different.symm, embryo]
    · have other : fd ≠ ⟨i, bound⟩ := by
        rintro rfl
        exact absurd later (Nat.not_succ_le_self i)
      rw [update_of_ne other]
      exact empty fd (by omega)
  | forked place => exact shaped.setForked place
  | exit place => exact shaped.set rfl (by rw [place]; rfl) (fun fd bound => absurd bound (Nat.not_lt_zero _)) rfl
  | exitEmpty bound place empty =>
    rename_i p k
    have shape := shaped.shapeOf place
    refine shaped.set rfl (by rw [place]; rfl) (fun fd earlier => ?_) rfl
    by_cases last : fd = ⟨k, bound⟩
    · rw [last]
      exact empty
    · have before : fd.val ≠ k := fun same => last (Fin.ext same)
      exact shape fd (by omega)
  | exitFile bound place held =>
    have shape := shaped.shapeOf place
    exact shaped.set rfl (by rw [place]; rfl) ⟨held, fun fd earlier => shape fd earlier⟩ rfl
  | exitClear place =>
    rename_i p fd
    have shape := shaped.shapeOf place
    refine shaped.set rfl (by rw [place]; rfl) (fun fd' earlier => ?_) rfl
    by_cases last : fd' = fd
    · simp [last]
    · have before : fd'.val ≠ fd.val := fun same => last (Fin.ext same)
      dsimp only
      rw [update_of_ne last]
      exact shape fd' (show fd'.val < fd.val by omega)
  | exited place =>
    have shape := shaped.shapeOf place
    exact shaped.set rfl (by rw [place]; rfl) (fun fd => shape fd fd.isLt) rfl

end Shapes

section Steps

variable {proc : Proc n} {pc pc' : Pc n} {f : Nat} {file file' : File} {s t : State n} {p : Fin n} {after : After}

theorem Proc.refs_at (place : proc.pc = pc) (f : Nat) :
    proc.refs f = slots pc.skips proc.ofile f + pc.owns.count f := by
  unfold Proc.refs
  rw [place]

theorem map_ref_update {files : Nat → Option File} (live : files f = some file)
    (same : file'.ref = file.ref) (g : Nat) :
    (update files f (some file') g).map File.ref = (files g).map File.ref := by
  by_cases equal : g = f
  · simp [equal, live, same]
  · simp [equal]

section

variable (counted : Counted s)

include counted

theorem Counted.move (proc : Proc n) (procs : t.procs = update s.procs p proc)
    (files : ∀ f, (t.files f).map File.ref = (s.files f).map File.ref)
    (refs : ∀ f, proc.refs f = (s.procs p).refs f) (reaps : proc.pc.reaps = (s.procs p).pc.reaps) : Counted t := by
  have counts : ∀ f, refOf (t.files f) = refOf (s.files f) ∧ dyingOf (t.files f) = dyingOf (s.files f) := by
    intro f
    have same := files f
    cases before : s.files f <;> cases after : t.files f <;> simp_all [refOf, dyingOf]
  apply counted.assign procs
  · intro f
    rw [(counts f).1, refs]
  · intro f
    unfold Proc.reap
    rw [(counts f).2, reaps]

theorem Counted.go (place : (s.procs p).pc = pc)
    (procs : t.procs = update s.procs p ⟨(s.procs p).ofile, pc'⟩)
    (files : ∀ f, (t.files f).map File.ref = (s.files f).map File.ref) (skips : pc'.skips = pc.skips)
    (owns : pc'.owns = pc.owns) (reaps : pc'.reaps = pc.reaps) : Counted t := by
  refine counted.move ⟨(s.procs p).ofile, pc'⟩ procs files (fun f => ?_) (by rw [reaps, place])
  rw [Proc.refs_at place, ← skips, ← owns]
  rfl

theorem Counted.change (proc : Proc n) {file : Option File}
    (procs : t.procs = update s.procs p proc) (files : t.files = update s.files f file)
    (others : ∀ g, g ≠ f → proc.refs g = (s.procs p).refs g) (reapers : ∀ g, g ≠ f → proc.reap g = (s.procs p).reap g)
    (refs : refOf file + (s.procs p).refs f = refOf (s.files f) + proc.refs f)
    (reap : dyingOf file + (s.procs p).reap f = dyingOf (s.files f) + proc.reap f) : Counted t := by
  apply counted.assign procs
  all_goals
    intro g
    rw [files]
    grind [update_apply]

theorem Counted.filealloc
    (place : (s.procs p).pc = pc) (procs : t.procs = update s.procs p ⟨(s.procs p).ofile, pc'⟩)
    (files : t.files = update s.files f (some File.fresh)) (unused : s.files f = none)
    (skips : pc'.skips = pc.skips) (owns : ∀ g, pc'.owns.count g = pc.owns.count g + [f].count g)
    (reaps : pc.reaps = none) (reaps' : pc'.reaps = none) : Counted t := by
  have refs : ∀ g, (⟨(s.procs p).ofile, pc'⟩ : Proc n).refs g = (s.procs p).refs g + [f].count g := by
    intro g
    rw [Proc.refs_at place, Proc.refs, skips, owns, Nat.add_assoc]
  have idle : ∀ g, (⟨(s.procs p).ofile, pc'⟩ : Proc n).reap g = 0 ∧ (s.procs p).reap g = 0 := by
    simp [Proc.reap, place, reaps, reaps']
  refine counted.change ⟨(s.procs p).ofile, pc'⟩ procs files (fun g other => ?_) (fun g _ => ?_) ?_ ?_
  · simp [refs, other.symm]
  · rw [(idle g).1, (idle g).2]
  · simp [refs, unused, refOf, File.fresh, Nat.add_comm]
  · simp [idle, unused, dyingOf, File.fresh]

end

theorem refs_close {ofile : Fd → Option Nat} (shape : after.Shape ofile f) (g : Nat) :
    (⟨ofile, .close f after⟩ : Proc n).refs g = (⟨ofile, .release f after⟩ : Proc n).refs g + [f].count g := by
  unfold Proc.refs
  dsimp only [Pc.skips, Pc.owns]
  cases after with
  | done => simp only [After.slot, After.holds, After.rest, List.count_nil, Nat.add_zero]
  | close h =>
    simp only [After.slot, After.holds, After.rest, List.count_cons, List.count_nil]
    omega
  | exit fd =>
    have skipped := slots_skipped shape.1 g
    simp only [After.slot, After.holds, After.rest, List.count_nil] at skipped ⊢
    omega

theorem refs_next (ofile : Fd → Option Nat) (f : Nat) (after : After) (g : Nat) :
    (⟨ofile, after.next⟩ : Proc n).refs g = (⟨ofile, .release f after⟩ : Proc n).refs g := by
  cases after <;> rfl

theorem next_reaps (after : After) : (after.next : Pc n).reaps = none := by
  cases after <;> rfl

theorem Proc.refs_eq (place : proc.pc = pc) (f : Nat) :
    proc.refs f = (⟨proc.ofile, pc⟩ : Proc n).refs f := Proc.refs_at place f

theorem put_eq (result : file.put = .ok file') : 1 ≤ file.ref ∧ file' = { file with ref := file.ref - 1 } := by
  unfold File.put at result
  split at result
  · cases result
  · cases result
    exact ⟨by omega, rfl⟩

theorem dup_eq (result : file.dup = .ok file') : 1 ≤ file.ref ∧ file' = { file with ref := file.ref + 1 } := by
  unfold File.dup at result
  split at result
  · cases result
  · cases result
    exact ⟨by omega, rfl⟩

theorem Counted.fileclose (counted : Counted s)
    (shape : after.Shape (s.procs p).ofile f) (place : (s.procs p).pc = .close f after) (live : s.files f = some file)
    (result : file.put = .ok file') :
    Counted { s.go p (if 0 < file'.ref then after.next else .release f after) with
      files := update s.files f (some file') } := by
  obtain ⟨positive, rfl⟩ := put_eq result
  have before : ∀ g, (s.procs p).refs g = (⟨(s.procs p).ofile, .release f after⟩ : Proc n).refs g + [f].count g := by
    intro g
    rw [Proc.refs_eq place, refs_close shape]
  have idle : (s.procs p).pc.reaps = none := by
    rw [place]
    rfl
  dsimp only
  split
  · refine counted.change ⟨(s.procs p).ofile, after.next⟩ rfl rfl (fun g other => ?_) (fun g _ => ?_) ?_ ?_
    · simp [before, refs_next (n := n) _ f, other.symm]
    · simp [Proc.reap, idle, next_reaps]
    · simp only [before, refs_next (n := n) _ f, live, refOf, List.count_singleton_self]
      omega
    · have some : file.ref ≠ 0 := by omega
      have more : file.ref - 1 ≠ 0 := by omega
      simp [Proc.reap, idle, next_reaps, live, dyingOf, some, more]
  · refine counted.change ⟨(s.procs p).ofile, .release f after⟩ rfl rfl (fun g other => ?_) (fun g other => ?_) ?_ ?_
    · simp [before, other.symm]
    · simp [Proc.reap, place, Pc.reaps, other.symm]
    · simp only [before, live, refOf, List.count_singleton_self]
      omega
    · have some : file.ref ≠ 0 := by omega
      have last : file.ref - 1 = 0 := by omega
      simp [Proc.reap, place, Pc.reaps, live, dyingOf, some, last]

theorem Counted.bdFree (counted : Counted s) (place : (s.procs p).pc = .free f after) (trace : List Event) :
    Counted { s.go p after.next with files := update s.files f none, trace := trace } := by
  have own : (s.procs p).pc.reaps = some f := by
    rw [place]
    rfl
  obtain ⟨file, live, zero⟩ := counted.reaped own
  have refs : ∀ g, (⟨(s.procs p).ofile, after.next⟩ : Proc n).refs g = (s.procs p).refs g := by
    intro g
    rw [refs_next _ f, Proc.refs_eq place]
    rfl
  refine counted.change ⟨(s.procs p).ofile, after.next⟩ rfl rfl (fun g _ => refs g) (fun g other => ?_) ?_ ?_
  · simp [Proc.reap, own, next_reaps, other.symm]
  · simp [refs, live, refOf, zero]
  · simp [Proc.reap, own, next_reaps, live, dyingOf, zero]

theorem Counted.filedup (counted : Counted s) (proc : Proc n)
    (live : s.files f = some file) (result : file.dup = .ok file') (procs : t.procs = update s.procs p proc)
    (files : t.files = update s.files f (some file'))
    (refs : ∀ g, proc.refs g = (s.procs p).refs g + [f].count g) (reaps : proc.pc.reaps = (s.procs p).pc.reaps) :
    Counted t := by
  obtain ⟨positive, rfl⟩ := dup_eq result
  refine counted.change proc procs files (fun g other => ?_) (fun g _ => ?_) ?_ ?_
  · simp [refs, other.symm]
  · rw [Proc.reap, Proc.reap, reaps]
  · simp only [refs, live, refOf, List.count_singleton_self]
    omega
  · have some : file.ref ≠ 0 := by omega
    simp [Proc.reap, reaps, live, dyingOf, some]

theorem Counted.step (shaped : Shaped s) (counted : Counted s) (step : Step s t) : Counted t := by
  cases step with
  | filealloc p f place unused | pipeRead p f place unused =>
    exact counted.filealloc place rfl rfl unused rfl (fun g => (Nat.zero_add _).symm) rfl rfl
  | opened type readable writable place live slot kind =>
    rename_i p f fd file
    refine counted.move ⟨update (s.procs p).ofile fd (some f), .user⟩ rfl (map_ref_update live rfl) (fun g => ?_) (by rw [place]; rfl)
    rw [Proc.refs_at place]
    simp only [Proc.refs, Pc.skips, Pc.owns, List.count_nil, Nat.add_zero]
    rw [slots_fill (Option.some_ne_none fd).symm (fdalloc_free slot)]
  | pipeWrite wf place unused =>
    refine counted.filealloc place rfl rfl unused rfl (fun g => ?_) rfl rfl
    simp only [Pc.owns, List.count_cons, List.count_nil]
    omega
  | pipeMade pi place live live' unused =>
    rename_i p rf wf fr fw
    refine counted.go place rfl (fun g => ?_) rfl rfl rfl
    by_cases same : g = wf
    · simp [same, live']
    · dsimp only
      rw [update_of_ne same]
      apply map_ref_update live
      rfl
  | pipeDone place slot slot' =>
    rename_i p rf wf fd₀ fd₁
    refine counted.move ⟨update (update (s.procs p).ofile fd₀ (some rf)) fd₁ (some wf), .user⟩ rfl (fun f => rfl) (fun g => ?_)
      (by rw [place]; rfl)
    rw [Proc.refs_at place]
    have first := slots_fill (Option.some_ne_none fd₀).symm (fdalloc_free slot) rf g
    have second := slots_fill (Option.some_ne_none fd₁).symm (fdalloc_free slot') wf g
    simp only [Proc.refs, Pc.skips, Pc.owns, List.count_cons, List.count_nil] at first second ⊢
    omega
  | dup place held slot =>
    rename_i p fd fd' f
    refine counted.move ⟨update (s.procs p).ofile fd' (some f), .dup f fd'⟩ rfl (fun f => rfl) (fun g => ?_) (by rw [place]; rfl)
    rw [Proc.refs_at place]
    simp only [Proc.refs, Pc.skips, Pc.owns]
    rw [slots_put, slots_skip_empty (fdalloc_free slot)]
  | filedup place live result =>
    rename_i p f fd file file'
    have shape := shaped.shapeOf place
    refine counted.filedup ⟨(s.procs p).ofile, .user⟩ live result rfl rfl (fun g => ?_) (by rw [place]; rfl)
    rw [Proc.refs_at place]
    simp only [Proc.refs, Pc.skips, Pc.owns, List.count_nil, Nat.add_zero]
    rw [slots_skipped shape.1]
  | close place held =>
    rename_i p fd f
    refine counted.move ⟨update (s.procs p).ofile fd none, .close f .done⟩ rfl (fun f => rfl) (fun g => ?_) (by rw [place]; rfl)
    rw [Proc.refs_at place]
    simp only [Proc.refs, Pc.skips, Pc.owns, After.holds, List.count_nil, Nat.add_zero]
    rw [slots_clear held]
  | fileclose place live result => exact counted.fileclose (shaped.shapeOf place) place live result
  | pipeclose place live kind page =>
    split <;> exact counted.go place rfl (map_ref_update live rfl) rfl rfl rfl
  | iput place live kind => exact counted.go place rfl (map_ref_update live rfl) rfl rfl rfl
  | openFailed place | pipeFailed place | kfree place | forkEmpty _ place | exit place | exitEmpty _ place
  | exitFile _ place | exited place | wait place => exact counted.go place rfl (fun f => rfl) rfl rfl rfl
  | bdFree place => exact counted.bdFree place _
  | fork place unused =>
    rename_i p child
    have different : p ≠ child := by
      rintro rfl
      exact nomatch place.symm.trans unused
    have made : Counted (s.go child (.embryo p)) := counted.go unused rfl (fun f => rfl) rfl rfl rfl
    have parent : ((s.go child (.embryo p)).procs p).pc = .user := by
      rw [← place]
      exact congrArg Proc.pc (update_of_ne different _ _)
    exact made.go parent rfl (fun f => rfl) rfl rfl rfl
  | forkFile bound place held live result =>
    rename_i p child i f file file'
    obtain ⟨embryo, empty⟩ := shaped.forks p child i place
    have copied : Counted { s.set child ⟨update (s.procs child).ofile ⟨i, bound⟩ (some f), (s.procs child).pc⟩ with
        files := update s.files f (some file') } := by
      refine counted.filedup _ live result rfl rfl (fun g => ?_) rfl
      simp only [Proc.refs, embryo, Pc.skips, Pc.owns, List.count_nil, Nat.add_zero]
      rw [slots_fill (Option.some_ne_none _).symm (empty ⟨i, bound⟩ (Nat.le_refl i))]
    refine copied.go (?_ : _ = Pc.fork child i) rfl (fun f => rfl) rfl rfl rfl
    rw [← place]
    exact congrArg Proc.pc (update_of_ne (shaped.other place).1.symm _ _)
  | forked place =>
    rename_i p child
    obtain ⟨embryo, empty⟩ := shaped.forks p child nofile place
    have started : Counted (s.go child .user) := counted.go embryo rfl (fun f => rfl) rfl rfl rfl
    refine started.go (?_ : _ = Pc.fork child nofile) rfl (fun f => rfl) rfl rfl rfl
    rw [← place]
    exact congrArg Proc.pc (update_of_ne (shaped.other place).1.symm _ _)
  | exitClear place =>
    rename_i p fd
    refine counted.move ⟨update (s.procs p).ofile fd none, .exit (fd + 1)⟩ rfl (fun f => rfl) (fun g => ?_) (by rw [place]; rfl)
    rw [Proc.refs_at place]
    simp only [Proc.refs, Pc.skips, Pc.owns]
    rw [← slots_skip_empty (update_self fd none (s.procs p).ofile), slots_put]

end Steps

end OShard.Files
