import OShard.Files.Counting

namespace OShard.Files

open Tally Function

variable {n : Nat}

section Watching

def Pc.watches : Pc n → List Nat
  | .opening f | .pipe0 f => [f]
  | .pipe1 rf wf => [rf, wf]
  | .release f _ | .freePage _ f _ | .free f _ => [f]
  | _ => []

/-- A file that is being opened is as `filealloc` made it; `pipeclose` or `iput` is called once on one that is being
    taken down. -/
def Pc.Ready (files : Nat → Option File) : Pc n → Prop
  | .opening f | .pipe0 f => files f = some File.fresh
  | .pipe1 rf wf => files rf = some File.fresh ∧ files wf = some File.fresh ∧ rf ≠ wf
  | .release f _ => ∃ file, files f = some file ∧ file.gone = false
  | .freePage _ f _ | .free f _ => ∃ file, files f = some file ∧ file.gone = true
  | _ => True

structure Ready (s : State n) : Prop where
  own : ∀ p, (s.procs p).pc.Ready s.files
  kept : ∀ f file, s.files f = some file → 1 ≤ file.ref → file.gone = false

variable {s t : State n} {p : Fin n} {f : Nat}

theorem ready_congr {pc : Pc n} {files files' : Nat → Option File} (same : ∀ f ∈ pc.watches, files' f = files f)
    (ready : pc.Ready files) : pc.Ready files' := by
  cases pc <;> simp_all [Pc.Ready, Pc.watches]

/-- What a process may change: the files that it refers to or takes down, and unused ones. -/
def Touches (s : State n) (p : Fin n) (f : Nat) : Prop :=
  1 ≤ (s.procs p).refs f ∨ (s.procs p).pc.reaps = some f ∨ s.files f = none

theorem watched (ready : Ready s) (watch : f ∈ (s.procs p).pc.watches) :
    (s.files f = some File.fresh ∧ 1 ≤ (s.procs p).refs f) ∨ (s.procs p).pc.reaps = some f := by
  have own := ready.own p
  have refs := Proc.refs_at (rfl : (s.procs p).pc = (s.procs p).pc) f
  have counted : f ∈ (s.procs p).pc.owns → 1 ≤ (s.procs p).pc.owns.count f := List.count_pos_iff.mpr
  cases place : (s.procs p).pc with
  | opening g | pipe0 g =>
    rw [place] at watch own refs counted
    cases List.mem_singleton.mp watch
    exact Or.inl ⟨own, by have := counted watch; omega⟩
  | pipe1 rf wf =>
    rw [place] at watch own refs counted
    obtain ⟨first, second, -⟩ := own
    refine Or.inl ⟨?_, by have := counted watch; omega⟩
    rcases List.mem_pair.mp watch with rfl | rfl
    · exact first
    · exact second
  | release | freePage | free =>
    rw [place] at watch
    cases List.mem_singleton.mp watch
    exact Or.inr rfl
  | _ =>
    rw [place] at watch
    cases watch

variable (counted : Counted s)

include counted

theorem touches_watched (ready : Ready s) {q : Fin n}
    (touch : Touches s p f) (watch : f ∈ (s.procs q).pc.watches) : q = p := by
  by_contra different
  obtain ⟨count, dying⟩ := counted f
  have refs := add_le_sum (fun p => (s.procs p).refs f) different
  rcases watched ready watch with ⟨fresh, own⟩ | reaps
  · rw [fresh] at count dying
    change s.refs f = 1 at count
    change s.reapers f = 0 at dying
    unfold State.refs at count
    rcases touch with other | reaps | unused
    · omega
    · have part := le_sum (fun p => (s.procs p).reap f) p
      have one : (s.procs p).reap f = 1 := if_pos reaps
      unfold State.reapers at dying
      omega
    · rw [unused] at fresh
      cases fresh
  · obtain ⟨file, live, zero⟩ := counted.reaped reaps
    rcases touch with other | reaps' | unused
    · rw [live] at count
      change s.refs f = file.ref at count
      unfold State.refs at count
      omega
    · exact different (counted.reaper_unique reaps reaps')
    · rw [unused] at live
      cases live

theorem Ready.move (ready : Ready s) (p : Fin n)
    (touch : ∀ f, t.files f ≠ s.files f → Touches s p f)
    (others : ∀ q, q ≠ p → (t.procs q).pc = (s.procs q).pc ∨ (t.procs q).pc.watches = [])
    (own : (t.procs p).pc.Ready t.files) (kept : ∀ f file, t.files f = some file → 1 ≤ file.ref → file.gone = false) :
    Ready t := by
  refine ⟨fun q => ?_, kept⟩
  by_cases same : q = p
  · rw [same]
    exact own
  rcases others q same with kept | idle
  · rw [kept]
    apply ready_congr _ (ready.own q)
    intro f watch
    by_contra changed
    exact same (touches_watched counted ready (touch f changed) watch)
  · generalize (t.procs q).pc = pc at idle ⊢
    cases pc <;> trivial

theorem Ready.go (ready : Ready s) {proc : Proc n}
    (procs : t.procs = update s.procs p proc) (files : t.files = s.files) (own : proc.pc.Ready s.files) : Ready t := by
  refine ready.move counted p (fun f changed => ?_) (fun q other => ?_) ?_ (by rw [files]; exact ready.kept)
  · exact absurd (by rw [files]) changed
  · simp [procs, other]
  · simpa [procs, files] using own

theorem Ready.change (ready : Ready s) (proc : Proc n)
    {file : Option File} (procs : t.procs = update s.procs p proc)
    (files : t.files = update s.files f file) (touch : Touches s p f) (own : proc.pc.Ready t.files)
    (kept : ∀ file', file = some file' → 1 ≤ file'.ref → file'.gone = false) : Ready t := by
  refine ready.move counted p (fun g changed => ?_) (fun q other => ?_) (by simpa [procs] using own) (fun g file' live positive => ?_)
  · rw [files] at changed
    grind [update_apply]
  · simp [procs, other]
  · have old := ready.kept g file'
    rw [files] at live
    grind [update_apply]

end Watching

section Steps

variable {s t : State n} {p : Fin n} {f : Nat} {fd : Fd} {after : After} {proc : Proc n}

theorem next_ready (after : After) (files : Nat → Option File) : (after.next : Pc n).Ready files := by
  cases after <;> trivial

theorem touches_owned {pc : Pc n} (place : (s.procs p).pc = pc) (member : f ∈ pc.owns) : Touches s p f := by
  have refs := Proc.refs_at place f
  have positive : 1 ≤ pc.owns.count f := List.count_pos_iff.mpr member
  exact Or.inl (by omega)

theorem touches_held (counted : (s.procs p).pc.skips ≠ some fd)
    (held : (s.procs p).ofile fd = some f) : Touches s p f := by
  have refs := Proc.refs_at (rfl : (s.procs p).pc = (s.procs p).pc) f
  have positive := slots_pos counted held
  exact Or.inl (by omega)

theorem touches_close (shaped : Shaped s) (place : (s.procs p).pc = .close f after) : Touches s p f := by
  have shape := shaped.shapeOf place
  have refs := Proc.refs_eq place f
  rw [refs_close shape, List.count_cons_self] at refs
  exact Or.inl (by omega)

theorem touches_dup (shaped : Shaped s) (place : (s.procs p).pc = .dup f fd) : Touches s p f := by
  have shape := shaped.shapeOf place
  obtain ⟨-, fd', other, held⟩ := shape
  apply touches_held _ held
  rw [place]
  intro same
  exact other (Option.some.inj same).symm

section

variable (counted : Counted s)

include counted

theorem Ready.filealloc (ready : Ready s)
    (procs : t.procs = update s.procs p proc) (files : t.files = update s.files f (some File.fresh))
    (unused : s.files f = none) (own : proc.pc.Ready t.files) : Ready t := by
  refine ready.change counted proc procs files (Or.inr (Or.inr unused)) own (fun file' fresh _ => ?_)
  cases fresh
  rfl

theorem Ready.pipeMade (ready : Ready s) {rf wf pi : Nat} {fr fw : File}
    (place : (s.procs p).pc = .pipe1 rf wf) (live : s.files rf = some fr) (live' : s.files wf = some fw)
    (procs : t.procs = update s.procs p ⟨(s.procs p).ofile, .pipe2 rf wf⟩) (files : t.files = update
      (update s.files rf (some { fr with type := .pipe, readable := true, writable := false, pipe := pi }))
      wf (some { fw with type := .pipe, readable := false, writable := true, pipe := pi })) : Ready t := by
  have kept := ready.kept
  refine ready.move counted p (fun g changed => touches_owned place (List.mem_pair.mpr ?_)) (fun q other => ?_) ?_
    (fun g file' now positive => ?_)
  · rw [files] at changed
    grind [update_apply]
  · simp [procs, other]
  · rw [procs, update_self]
    trivial
  · rw [files] at now
    grind [update_apply]

theorem Ready.release (ready : Ready s)
    {file : File} {pc' : Pc n} (place : (s.procs p).pc = .release f after) (live : s.files f = some file)
    (procs : t.procs = update s.procs p ⟨(s.procs p).ofile, pc'⟩)
    (files : t.files = update s.files f (some { file with gone := true })) (own : pc'.Ready t.files) :
    Ready t := by
  have reaps : (s.procs p).pc.reaps = some f := by
    rw [place]
    rfl
  obtain ⟨file', live', zero⟩ := counted.reaped reaps
  rw [live] at live'
  cases live'
  refine ready.change counted _ procs files (Or.inr (Or.inl reaps)) own (fun file' result positive => ?_)
  cases result
  dsimp only at positive
  omega

theorem Ready.forks (ready : Ready s) {child : Fin n} {proc' : Proc n}
    (procs : t.procs = update (update s.procs child proc') p proc) (idle : proc.pc.watches = [])
    (idle' : proc'.pc.watches = []) (touch : ∀ f, t.files f ≠ s.files f → Touches s p f)
    (kept : ∀ f file, t.files f = some file → 1 ≤ file.ref → file.gone = false) : Ready t := by
  refine ready.move counted p touch (fun q other => ?_) ?_ kept
  · rw [procs]
    grind [update_apply]
  · rw [procs, update_self]
    generalize proc.pc = pc at idle ⊢
    cases pc <;> trivial

end

theorem Ready.step (shaped : Shaped s) (counted : Counted s) (ready : Ready s) (step : Step s t) : Ready t := by
  cases step with
  | filealloc p f place unused | pipeRead p f place unused =>
    refine ready.filealloc counted rfl rfl unused ?_
    exact update_self f (some File.fresh) s.files
  | opened type readable writable place live slot kind =>
    rename_i p f fd file
    have touch := touches_owned place (List.mem_singleton_self f)
    refine ready.change counted _ rfl rfl touch trivial (fun file' result positive => ?_)
    cases result
    exact ready.kept f file live positive
  | openFailed | pipeDone | pipeFailed | dup | close | forkEmpty | exit | exitEmpty | exitFile | exitClear | exited | wait =>
    exact ready.go counted rfl rfl trivial
  | pipeWrite wf place unused =>
    rename_i p rf
    have own := ready.own p
    rw [place] at own
    have fresh : s.files rf = some File.fresh := own
    have different : rf ≠ wf := by
      rintro rfl
      exact nomatch unused.symm.trans fresh
    refine ready.filealloc counted rfl rfl unused ⟨?_, update_self wf (some File.fresh) s.files, different⟩
    simpa [different] using fresh
  | pipeMade pi place live live' unused => exact ready.pipeMade counted place live live' rfl rfl
  | filedup place live result =>
    rename_i p f fd file file'
    obtain ⟨positive, rfl⟩ := dup_eq result
    refine ready.change counted _ rfl rfl (touches_dup shaped place) trivial (fun file' result _ => ?_)
    cases result
    exact ready.kept f file live positive
  | fileclose place live result =>
    rename_i p f after file file'
    obtain ⟨positive, rfl⟩ := put_eq result
    have kept := ready.kept f file live positive
    refine ready.change counted _ rfl rfl (touches_close shaped place) ?_ (fun file' result _ => ?_)
    · dsimp only
      split
      · exact next_ready after _
      · exact ⟨_, update_self _ _ _, kept⟩
    · cases result
      exact kept
  | pipeclose place live kind page =>
    rename_i p f after file pipe
    refine ready.release counted place live rfl rfl ?_
    split <;> exact ⟨_, update_self _ _ _, rfl⟩
  | iput place live kind => exact ready.release counted place live rfl rfl ⟨_, update_self _ _ _, rfl⟩
  | kfree place =>
    rename_i p pi f after
    have own := ready.own p
    rw [place] at own
    exact ready.go counted rfl rfl own
  | bdFree place =>
    rename_i p f after
    have reaps : (s.procs p).pc.reaps = some f := by
      rw [place]
      rfl
    refine ready.change counted _ rfl rfl (Or.inr (Or.inl reaps)) (next_ready after _) (fun file' result _ => ?_)
    cases result
  | fork | forked => exact ready.forks counted rfl rfl rfl (fun f changed => absurd rfl changed) ready.kept
  | forkFile bound place held live result =>
    rename_i p child i f file file'
    obtain ⟨positive, rfl⟩ := dup_eq result
    obtain ⟨embryo, -⟩ := shaped.forks p child i place
    refine ready.forks counted rfl rfl (by rw [embryo]; rfl) (fun g changed => ?_) (fun g file' now used => ?_)
    · by_cases same : g = f
      · rw [same]
        apply touches_held _ held
        rw [place]
        exact (Option.some_ne_none _).symm
      · exact absurd (update_of_ne same _ _) changed
    · by_cases same : g = f
      · rw [same] at now
        cases (update_self f _ s.files).symm.trans now
        exact ready.kept f file live positive
      · exact ready.kept g file' ((update_of_ne same _ _).symm.trans now) used

end Steps

end OShard.Files
