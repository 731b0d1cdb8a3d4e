import OShard.Files.Ledger
import OShard.Files.Ready

namespace OShard.Files

open Tally Function

variable {n : Nat}

def endOf : Option File → Option (Nat × Bool)
  | some file => if file.type = .pipe ∧ file.gone = false then some (file.pipe, file.writable) else none
  | none => none

def Pc.page : Pc n → Option Nat
  | .freePage pi _ _ => some pi
  | _ => none

def Proc.frees (proc : Proc n) (pi : Nat) : Nat := if proc.pc.page = some pi then 1 else 0

def State.freeing (s : State n) (pi : Nat) : Nat := ∑ p, (s.procs p).frees pi

def State.ledger (s : State n) : Ledger :=
  ⟨fun f => (s.files f).isSome, fun f => endOf (s.files f), s.pipes, s.freeing, s.trace⟩

section Freeing

variable {s t : State n} {p : Fin n} {proc : Proc n}

theorem freeing_set (procs : t.procs = update s.procs p proc)
    (pi : Nat) : t.freeing pi + (s.procs p).frees pi = s.freeing pi + proc.frees pi := by
  unfold State.freeing
  rw [procs]
  exact sum_update (fun (_ : Fin n) (proc : Proc n) => proc.frees pi) s.procs p proc

theorem freeing_same (procs : t.procs = update s.procs p proc)
    (page : proc.pc.page = (s.procs p).pc.page) : t.freeing = s.freeing := by
  funext pi
  have change := freeing_set procs pi
  unfold Proc.frees at change
  rw [page] at change
  omega

theorem freeing_fork {child : Fin n} {proc' : Proc n}
    (procs : t.procs = update (update s.procs child proc') p proc) (page : proc.pc.page = none)
    (page' : proc'.pc.page = none) (before : (s.procs p).pc.page = none) (before' : (s.procs child).pc.page = none) :
    t.freeing = s.freeing := by
  have first : (s.set child proc').freeing = s.freeing := freeing_same rfl (page'.trans before'.symm)
  rw [← first]
  apply freeing_same procs
  rw [page]
  by_cases same : p = child
  · simp [State.set, same, page']
  · simp [State.set, same, before]

end Freeing

section Ledgers

variable {α β : Type*} {f pi : Nat} {s t : State n} {p : Fin n} {file file' : File} {after : After}

theorem map_update (g : α → β) (files : Nat → α) (f : Nat) (file : α) :
    (fun f' => g (update files f file f')) = update (fun f' => g (files f')) f (g file) :=
  comp_update g files f file

theorem map_keep {g : α → β} {files : Nat → α} {file : α} (same : g (files f) = g file) :
    (fun f' => g (update files f file f')) = fun f' => g (files f') := by
  rw [map_update, ← same]
  exact update_eq_self f (fun f' => g (files f'))

theorem ledger_go {proc : Proc n} (procs : t.procs = update s.procs p proc)
    (files : t.files = s.files) (pipes : t.pipes = s.pipes) (trace : t.trace = s.trace)
    (page : proc.pc.page = (s.procs p).pc.page) : t.ledger = s.ledger := by
  unfold State.ledger
  rw [files, pipes, trace, freeing_same procs page]

theorem ledger_edit (live : s.files f = some file)
    (files : t.files = update s.files f (some file')) (pipes : t.pipes = s.pipes) (trace : t.trace = s.trace)
    (ends : endOf (some file') = endOf (some file)) (freeing : t.freeing = s.freeing) : t.ledger = s.ledger := by
  unfold State.ledger
  rw [files, pipes, trace, freeing, map_keep (by simp [live]), map_keep (by rw [live, ends])]

theorem ledger_filealloc (unused : s.files f = none)
    (files : t.files = update s.files f (some File.fresh)) (pipes : t.pipes = s.pipes)
    (trace : t.trace = .filealloc f :: s.trace) (freeing : t.freeing = s.freeing) : Ledger.Step s.ledger t.ledger := by
  have absent : s.ledger.live f = false := by
    simp [State.ledger, unused]
  have result : t.ledger = { s.ledger with
      live := update s.ledger.live f true
      trace := .filealloc f :: s.ledger.trace } := by
    unfold State.ledger
    rw [files, pipes, trace, freeing, map_update, map_keep (g := endOf) (by rw [unused]; rfl)]
    rfl
  rw [result]
  exact .filealloc absent

theorem ledger_pipealloc {rf wf : Nat} {fr fw : File} (first : s.files rf = some File.fresh)
    (second : s.files wf = some File.fresh) (different : rf ≠ wf) (unused : s.pipes pi = none)
    (files : t.files = update (update s.files rf (some fr)) wf (some fw))
    (read : endOf (some fr) = some (pi, false)) (write : endOf (some fw) = some (pi, true))
    (pipes : t.pipes = update s.pipes pi (some ⟨true, true⟩)) (trace : t.trace = .kalloc pi :: s.trace)
    (freeing : t.freeing = s.freeing) : Ledger.Step s.ledger t.ledger := by
  have vacant : s.ledger.ends rf = none := congrArg endOf first
  have vacant' : s.ledger.ends wf = none := congrArg endOf second
  have result : t.ledger = { s.ledger with
      ends := update (update s.ledger.ends rf (some (pi, false))) wf (some (pi, true))
      pipes := update s.ledger.pipes pi (some ⟨true, true⟩)
      trace := .kalloc pi :: s.ledger.trace } := by
    unfold State.ledger
    rw [files, pipes, trace, freeing, map_keep (by simp [second, different.symm]), map_keep (by simp [first]), map_update, map_update,
      read, write]
  rw [result]
  exact .pipealloc vacant vacant' different unused

theorem ledger_pipeclose {pipe : Pipe}
    (place : (s.procs p).pc = .release f after) (live : s.files f = some file) (kept : file.gone = false)
    (kind : file.type = .pipe) (page : s.pipes file.pipe = some pipe)
    (procs : t.procs = update s.procs p ⟨(s.procs p).ofile,
      if pipe.close file.writable = ⟨false, false⟩ then .freePage file.pipe f after else .free f after⟩)
    (files : t.files = update s.files f (some { file with gone := true }))
    (pipes : t.pipes = update s.pipes file.pipe (some (pipe.close file.writable)))
    (trace : t.trace = .pipeclose file.pipe file.writable :: s.trace) : Ledger.Step s.ledger t.ledger := by
  have holds : s.ledger.ends f = some (file.pipe, file.writable) := by
    simp [State.ledger, live, endOf, kind, kept]
  have freeing : t.freeing = update s.freeing file.pipe
      (s.freeing file.pipe + if pipe.close file.writable = ⟨false, false⟩ then 1 else 0) := by
    funext pi
    have change := freeing_set procs pi
    simp only [Proc.frees, place, Pc.page, reduceCtorEq, if_false, Nat.add_zero] at change
    rw [change]
    by_cases same : pi = file.pipe
    · split <;> simp [same]
    · split <;> simp [same, Ne.symm same]
  have result : t.ledger = { s.ledger with
      ends := update s.ledger.ends f none
      pipes := update s.ledger.pipes file.pipe (some (pipe.close file.writable))
      freeing := update s.ledger.freeing file.pipe
        (s.ledger.freeing file.pipe + if pipe.close file.writable = ⟨false, false⟩ then 1 else 0)
      trace := .pipeclose file.pipe file.writable :: s.ledger.trace } := by
    have closed : endOf (some { file with gone := true }) = none := if_neg fun both => nomatch both.2
    unfold State.ledger
    rw [files, pipes, trace, freeing, map_keep (by simp [live]), map_update, closed]
  rw [result]
  exact .pipeclose holds page

theorem ledger_kfree (place : (s.procs p).pc = .freePage pi f after)
    (procs : t.procs = update s.procs p ⟨(s.procs p).ofile, .free f after⟩) (files : t.files = s.files)
    (pipes : t.pipes = update s.pipes pi none) (trace : t.trace = .kfree pi :: s.trace) :
    Ledger.Step s.ledger t.ledger := by
  have change : ∀ pi', t.freeing pi' + (if pi = pi' then 1 else 0) = s.freeing pi' := by
    intro pi'
    have change := freeing_set procs pi'
    unfold Proc.frees at change
    rw [place] at change
    simpa only [Pc.page, reduceCtorEq, if_false, Nat.add_zero, Option.some.injEq] using change
  have one := change pi
  rw [if_pos rfl] at one
  have freeing : t.freeing = update s.freeing pi (s.freeing pi - 1) := by
    funext pi'
    have here := change pi'
    grind [update_apply]
  have result : t.ledger = { s.ledger with
      pipes := update s.ledger.pipes pi none
      freeing := update s.ledger.freeing pi (s.ledger.freeing pi - 1)
      trace := .kfree pi :: s.ledger.trace } := by
    unfold State.ledger
    rw [files, pipes, trace, freeing]
  have positive : 1 ≤ s.freeing pi := by omega
  rw [result]
  exact .kfree positive

theorem ledger_bdFree (live : s.files f = some file) (gone : file.gone = true)
    (files : t.files = update s.files f none) (pipes : t.pipes = s.pipes)
    (trace : t.trace = .bdFree f :: s.trace) (freeing : t.freeing = s.freeing) : Ledger.Step s.ledger t.ledger := by
  have present : s.ledger.live f = true := by
    simp [State.ledger, live]
  have result : t.ledger = { s.ledger with
      live := update s.ledger.live f false
      trace := .bdFree f :: s.ledger.trace } := by
    unfold State.ledger
    rw [files, pipes, trace, freeing, map_update, map_keep (g := endOf) (by simp [live, endOf, gone])]
    rfl
  rw [result]
  exact .bdFree present

theorem next_page (after : After) : (after.next : Pc n).page = none := by
  cases after <;> rfl

theorem endOf_type (kind : file.type ≠ .pipe) (kind' : file'.type ≠ .pipe) :
    endOf (some file') = endOf (some file) := by
  have left : endOf (some file') = none := if_neg fun both => kind' both.1
  have right : endOf (some file) = none := if_neg fun both => kind both.1
  rw [left, right]

theorem ledger_step (shaped : Shaped s) (ready : Ready s) (step : Step s t) :
    t.ledger = s.ledger ∨ Ledger.Step s.ledger t.ledger := by
  cases step with
  | filealloc _ _ place unused | pipeRead _ _ place unused | pipeWrite _ place unused =>
    exact Or.inr (ledger_filealloc unused rfl rfl rfl (freeing_same rfl (by rw [place]; rfl)))
  | opened type readable writable place live slot kind =>
    rename_i p f fd file
    have own := ready.own p
    rw [place] at own
    have fresh : s.files f = some File.fresh := own
    rw [live] at fresh
    cases fresh
    refine Or.inl (ledger_edit live rfl rfl rfl (endOf_type nofun ?_) (freeing_same rfl (by rw [place]; rfl)))
    rcases kind with rfl | rfl <;> exact nofun
  | openFailed place | pipeDone place | pipeFailed place | dup place | close place | forkEmpty _ place | exit place
  | exitEmpty _ place | exitFile _ place | exitClear place | exited place | wait place =>
    exact Or.inl (ledger_go rfl rfl rfl rfl (by rw [place]; rfl))
  | pipeMade pi place live live' unused =>
    rename_i p rf wf fr fw
    have own := ready.own p
    rw [place] at own
    obtain ⟨first, second, different⟩ := own
    have read := live.symm.trans first
    have write := live'.symm.trans second
    cases read
    cases write
    exact Or.inr (ledger_pipealloc first second different unused rfl rfl rfl rfl rfl
      (freeing_same rfl (by rw [place]; rfl)))
  | filedup place live result =>
    obtain ⟨-, rfl⟩ := dup_eq result
    exact Or.inl (ledger_edit live rfl rfl rfl rfl (freeing_same rfl (by rw [place]; rfl)))
  | fileclose place live result =>
    rename_i p f after file file'
    obtain ⟨-, rfl⟩ := put_eq result
    refine Or.inl (ledger_edit live rfl rfl rfl rfl (freeing_same rfl ?_))
    dsimp only
    rw [place]
    split
    · exact next_page after
    · rfl
  | pipeclose place live kind page =>
    rename_i p f after file pipe
    have own := ready.own p
    rw [place] at own
    obtain ⟨file', live', kept⟩ := own
    rw [live] at live'
    cases live'
    exact Or.inr (ledger_pipeclose place live kept kind page rfl rfl rfl rfl)
  | iput place live kind =>
    exact Or.inl (ledger_edit live rfl rfl rfl (endOf_type kind kind) (freeing_same rfl (by rw [place]; rfl)))
  | kfree place => exact Or.inr (ledger_kfree place rfl rfl rfl rfl)
  | bdFree place =>
    rename_i p f after
    have own := ready.own p
    rw [place] at own
    obtain ⟨file, live, gone⟩ := own
    refine Or.inr (ledger_bdFree live gone rfl rfl rfl (freeing_same rfl ?_))
    rw [place]
    exact next_page after
  | fork place unused =>
    refine Or.inl ?_
    unfold State.ledger
    rw [freeing_fork rfl rfl rfl (by rw [place]; rfl) (by rw [unused]; rfl)]
    rfl
  | forkFile bound place held live result =>
    obtain ⟨-, rfl⟩ := dup_eq result
    obtain ⟨embryo, -⟩ := shaped.forks _ _ _ place
    refine Or.inl (ledger_edit live rfl rfl rfl rfl ?_)
    exact freeing_fork rfl rfl (by rw [embryo]; rfl) (by rw [place]; rfl) (by rw [embryo]; rfl)
  | forked place =>
    obtain ⟨embryo, -⟩ := shaped.forks _ _ _ place
    refine Or.inl ?_
    unfold State.ledger
    rw [freeing_fork rfl rfl rfl (by rw [place]; rfl) (by rw [embryo]; rfl)]
    rfl

end Ledgers

end OShard.Files
