import OShard.Files.Model

namespace OShard.Files

open Function

/-- What the open files and pipes amount to: which files are live, which end of which pipe each one still has to
    close, the pages of pipes, and how many processes are about to free each page. -/
structure Ledger where
  live : Nat → Bool
  ends : Nat → Option (Nat × Bool)
  pipes : Nat → Option Pipe
  freeing : Nat → Nat
  trace : List Event

namespace Ledger

def isOpen (l : Ledger) (pi : Nat) (writable : Bool) : Bool :=
  match l.pipes pi with
  | some pipe => pipe.isOpen writable
  | none => false

inductive Step : Ledger → Ledger → Prop where
  | filealloc {l f} : l.live f = false →
      Step l { l with live := update l.live f true, trace := .filealloc f :: l.trace }
  | pipealloc {l rf wf pi} : l.ends rf = none → l.ends wf = none → rf ≠ wf → l.pipes pi = none →
      Step l { l with
        ends := update (update l.ends rf (some (pi, false))) wf (some (pi, true))
        pipes := update l.pipes pi (some ⟨true, true⟩)
        trace := .kalloc pi :: l.trace }
  | pipeclose {l f pi writable pipe} : l.ends f = some (pi, writable) →
      l.pipes pi = some pipe →
      Step l { l with
        ends := update l.ends f none
        pipes := update l.pipes pi (some (pipe.close writable))
        freeing := update l.freeing pi
          (l.freeing pi + if pipe.close writable = ⟨false, false⟩ then 1 else 0)
        trace := .pipeclose pi writable :: l.trace }
  | kfree {l pi} : 1 ≤ l.freeing pi →
      Step l { l with
        pipes := update l.pipes pi none
        freeing := update l.freeing pi (l.freeing pi - 1)
        trace := .kfree pi :: l.trace }
  | bdFree {l f} : l.live f = true → Step l { l with live := update l.live f false, trace := .bdFree f :: l.trace }

/-- An end of a pipe is open as long as its one file has not closed it, and a page without open ends is being freed. -/
structure Held (l : Ledger) : Prop where
  isOpen : ∀ f pi writable, l.ends f = some (pi, writable) → l.isOpen pi writable = true
  owner : ∀ pi writable, l.isOpen pi writable = true → ∃ f, l.ends f = some (pi, writable)
  unique : ∀ f g pi writable, l.ends f = some (pi, writable) → l.ends g = some (pi, writable) → f = g
  pages : ∀ pi, l.freeing pi = if l.pipes pi = some ⟨false, false⟩ then 1 else 0

structure Balanced (l : Ledger) : Prop where
  files : ∀ f, l.trace.count (.filealloc f) = l.trace.count (.bdFree f) + (l.live f).toNat
  pages : ∀ pi, l.trace.count (.kalloc pi) = l.trace.count (.kfree pi) + (l.pipes pi).isSome.toNat
  ends : ∀ pi writable,
    l.trace.count (.kalloc pi) = l.trace.count (.pipeclose pi writable) + (l.isOpen pi writable).toNat

variable {l l' : Ledger} {pi f : Nat} {pipe : Pipe} {writable : Bool} {α : Type*} {a : α}

theorem close_isOpen (pipe : Pipe) (writable writable' : Bool) :
    (pipe.close writable).isOpen writable' = (pipe.isOpen writable' && writable' != writable) := by
  unfold Pipe.close Pipe.isOpen
  cases writable <;> cases writable' <;> simp

theorem closed_iff (pipe : Pipe) : pipe = ⟨false, false⟩ ↔ ∀ writable, pipe.isOpen writable = false := by
  cases pipe
  simp [Pipe.isOpen]

theorem isOpen_some (page : l.pipes pi = some pipe) (writable : Bool) :
    l.isOpen pi writable = pipe.isOpen writable := by
  unfold isOpen
  rw [page]

theorem isOpen_none (page : l.pipes pi = none) (writable : Bool) : l.isOpen pi writable = false := by
  unfold isOpen
  rw [page]

theorem isOpen_update {pipe : Option Pipe} (pipes : l'.pipes = update l.pipes pi pipe) (pi' : Nat)
    (writable : Bool) : l'.isOpen pi' writable = if pi' = pi then pipe.elim false (·.isOpen writable) else l.isOpen pi' writable := by
  unfold isOpen
  rw [pipes]
  by_cases same : pi' = pi
  · cases pipe <;> simp [same]
  · simp [same]

section

variable (held : Held l)

include held

theorem Held.freed (freeing : 1 ≤ l.freeing pi) :
    l.pipes pi = some ⟨false, false⟩ ∧ l.freeing pi = 1 := by
  have page := held.pages pi
  split at page
  · exact ⟨by assumption, page⟩
  · omega

theorem Held.unheld (unused : l.pipes pi = none) (f : Nat) (writable : Bool) :
    l.ends f ≠ some (pi, writable) :=
  fun holds => nomatch (isOpen_none unused writable).symm.trans (held.isOpen f pi writable holds)

theorem Held.pipealloc {rf wf : Nat} (first : l.ends rf = none) (second : l.ends wf = none)
    (different : rf ≠ wf) (unused : l.pipes pi = none)
    (ends : l'.ends = update (update l.ends rf (some (pi, false))) wf (some (pi, true)))
    (pipes : l'.pipes = update l.pipes pi (some ⟨true, true⟩)) (freeing : l'.freeing = l.freeing) : Held l' := by
  have unheld := held.unheld unused
  have now := isOpen_update pipes
  have opened : ∀ writable, (⟨true, true⟩ : Pipe).isOpen writable = true := by decide
  obtain ⟨isOpen, owner, unique, pages⟩ := held
  constructor
  · simp only [ends, now]
    grind [update_apply]
  · intro pi' writable opened'
    rw [now] at opened'
    rw [ends]
    by_cases same : pi' = pi
    · cases writable with
      | false => exact ⟨rf, by simp [different, same]⟩
      | true => exact ⟨wf, by simp [same]⟩
    · obtain ⟨f, holds⟩ := owner pi' writable (by simpa [same] using opened')
      exact ⟨f, by grind [update_apply]⟩
  · simp only [ends]
    grind [update_apply]
  · simp only [pipes, freeing]
    grind [update_apply]

theorem Held.pipeclose
    (holds : l.ends f = some (pi, writable)) (page : l.pipes pi = some pipe) (ends : l'.ends = update l.ends f none)
    (pipes : l'.pipes = update l.pipes pi (some (pipe.close writable)))
    (freeing : l'.freeing = update l.freeing pi (l.freeing pi + if pipe.close writable = ⟨false, false⟩ then 1 else 0)) : Held l' := by
  have before := isOpen_some page
  have now := isOpen_update pipes
  simp only [Option.elim_some, close_isOpen, ← before] at now
  have live : pipe ≠ ⟨false, false⟩ := by
    intro closed
    exact nomatch ((closed_iff pipe).mp closed writable).symm.trans ((before writable).symm.trans (held.isOpen f pi writable holds))
  obtain ⟨isOpen, owner, unique, pages⟩ := held
  constructor
  · simp only [ends, now]
    grind [update_apply]
  · intro pi' writable' opened'
    rw [now] at opened'
    obtain ⟨g, holds'⟩ := owner pi' writable' (by grind)
    exact ⟨g, by rw [ends]; grind [update_apply]⟩
  · simp only [ends]
    grind [update_apply]
  · simp only [pipes, freeing]
    grind [update_apply]

theorem Held.kfree (one : 1 ≤ l.freeing pi) (ends : l'.ends = l.ends)
    (pipes : l'.pipes = update l.pipes pi none) (freeing : l'.freeing = update l.freeing pi (l.freeing pi - 1)) : Held l' := by
  obtain ⟨closed, last⟩ := held.freed one
  have before := isOpen_some closed
  have shut : ∀ writable, (⟨false, false⟩ : Pipe).isOpen writable = false := by decide
  have same : ∀ pi' writable, l'.isOpen pi' writable = l.isOpen pi' writable := by
    intro pi' writable
    rw [isOpen_update pipes]
    grind
  obtain ⟨isOpen, owner, unique, pages⟩ := held
  constructor
  · simp only [ends, same]
    exact isOpen
  · simp only [ends, same]
    exact owner
  · simp only [ends]
    exact unique
  · simp only [pipes, freeing]
    grind [update_apply]

theorem Held.step (step : Step l l') : Held l' := by
  cases step with
  | filealloc unused => exact ⟨held.isOpen, held.owner, held.unique, held.pages⟩
  | pipealloc first second different unused => exact held.pipealloc first second different unused rfl rfl rfl
  | pipeclose holds page => exact held.pipeclose holds page rfl rfl rfl
  | kfree freeing => exact held.kfree freeing rfl rfl rfl
  | bdFree live => exact ⟨held.isOpen, held.owner, held.unique, held.pages⟩

end

theorem count_event (event event' : Event) (trace : List Event) :
    (event :: trace).count event' = trace.count event' + if event = event' then 1 else 0 := by
  simp only [List.count_cons, beq_iff_eq]

theorem toNat_set [DecidableEq α] (flags : α → Bool) (unset : flags a = false) (b : α) :
    (update flags a true b).toNat = (flags b).toNat + if a = b then 1 else 0 := by
  by_cases same : a = b
  · simp [← same, unset]
  · simp [same, Ne.symm same]

theorem toNat_clear [DecidableEq α] (flags : α → Bool) (isSet : flags a = true) (b : α) :
    (update flags a false b).toNat + (if a = b then 1 else 0) = (flags b).toNat := by
  by_cases same : a = b
  · simp [← same, isSet]
  · simp [same, Ne.symm same]

theorem isSome_update (pipes : Nat → Option Pipe) (pi : Nat) (pipe : Option Pipe) (pi' : Nat) :
    (update pipes pi pipe pi').isSome = update (fun pi => (pipes pi).isSome) pi pipe.isSome pi' := by
  by_cases same : pi' = pi
  · simp [same]
  · simp [same]

section

variable (balanced : Balanced l)

include balanced

theorem Balanced.filealloc (unused : l.live f = false)
    (live : l'.live = update l.live f true) (pipes : l'.pipes = l.pipes) (trace : l'.trace = .filealloc f :: l.trace) : Balanced l' := by
  refine ⟨fun g => ?_, fun pi => ?_, fun pi writable => ?_⟩
  · have before := balanced.files g
    simp only [trace, live, count_event, reduceCtorEq, if_false, Nat.add_zero, Event.filealloc.injEq]
    rw [toNat_set l.live unused, before]
    omega
  · simpa [trace, pipes, count_event] using balanced.pages pi
  · simpa [trace, isOpen, pipes, count_event] using balanced.ends pi writable

theorem Balanced.bdFree (isLive : l.live f = true)
    (live : l'.live = update l.live f false) (pipes : l'.pipes = l.pipes) (trace : l'.trace = .bdFree f :: l.trace) : Balanced l' := by
  refine ⟨fun g => ?_, fun pi => ?_, fun pi writable => ?_⟩
  · have before := balanced.files g
    have cleared := toNat_clear l.live isLive g
    simp only [trace, live, count_event, reduceCtorEq, if_false, Nat.add_zero, Event.bdFree.injEq]
    omega
  · simpa [trace, pipes, count_event] using balanced.pages pi
  · simpa [trace, isOpen, pipes, count_event] using balanced.ends pi writable

theorem Balanced.pipealloc (unused : l.pipes pi = none) (live : l'.live = l.live)
    (pipes : l'.pipes = update l.pipes pi (some ⟨true, true⟩)) (trace : l'.trace = .kalloc pi :: l.trace) : Balanced l' := by
  refine ⟨fun g => ?_, fun pi' => ?_, fun pi' writable => ?_⟩
  · simpa [trace, live, count_event] using balanced.files g
  · have before := balanced.pages pi'
    have now := toNat_set (fun pi => (l.pipes pi).isSome) (a := pi) (by simp [unused]) pi'
    simp only [trace, pipes, count_event, reduceCtorEq, if_false, Nat.add_zero, Event.kalloc.injEq, isSome_update, Option.isSome_some]
    omega
  · have before := balanced.ends pi' writable
    have none := isOpen_none unused writable
    rw [isOpen_update pipes, trace]
    by_cases same : pi' = pi
    · cases writable <;> simp_all [Pipe.isOpen]
    · simp [same, Ne.symm same, before]

theorem Balanced.pipeclose
    (page : l.pipes pi = some pipe) (opened : l.isOpen pi writable = true) (live : l'.live = l.live)
    (pipes : l'.pipes = update l.pipes pi (some (pipe.close writable))) (trace : l'.trace = .pipeclose pi writable :: l.trace) :
    Balanced l' := by
  refine ⟨fun g => ?_, fun pi' => ?_, fun pi' writable' => ?_⟩
  · simpa [trace, live, count_event] using balanced.files g
  · have before := balanced.pages pi'
    by_cases same : pi' = pi
    · simpa [trace, pipes, count_event, same, page] using before
    · simpa [trace, pipes, count_event, same] using before
  · have before := balanced.ends pi' writable'
    rw [isOpen_update pipes, trace]
    by_cases same : pi' = pi
    · rw [isOpen_some page] at opened
      rw [same, isOpen_some page] at before
      by_cases ends : writable = writable'
      · simp_all [close_isOpen]
      · have other : (writable' != writable) = true := bne_iff_ne.mpr (Ne.symm ends)
        simp [same, before, close_isOpen, ends, other]
    · simp [same, Ne.symm same, before]

theorem Balanced.kfree (closed : l.pipes pi = some ⟨false, false⟩)
    (live : l'.live = l.live) (pipes : l'.pipes = update l.pipes pi none) (trace : l'.trace = .kfree pi :: l.trace) : Balanced l' := by
  refine ⟨fun g => ?_, fun pi' => ?_, fun pi' writable => ?_⟩
  · simpa [trace, live, count_event] using balanced.files g
  · have before := balanced.pages pi'
    have now := toNat_clear (fun pi => (l.pipes pi).isSome) (a := pi) (by simp [closed]) pi'
    simp only [trace, pipes, count_event, reduceCtorEq, if_false, Nat.add_zero, Event.kfree.injEq, isSome_update, Option.isSome_none]
    omega
  · have before := balanced.ends pi' writable
    have shut : (⟨false, false⟩ : Pipe).isOpen writable = false := by cases writable <;> rfl
    rw [isOpen_update pipes, trace]
    by_cases same : pi' = pi
    · simp_all [isOpen_some closed]
    · simp [same, before]

end

theorem Balanced.step (held : Held l) (balanced : Balanced l) (step : Step l l') : Balanced l' := by
  cases step with
  | filealloc unused => exact balanced.filealloc unused rfl rfl rfl
  | pipealloc first second different unused => exact balanced.pipealloc unused rfl rfl rfl
  | pipeclose holds page => exact balanced.pipeclose page (held.isOpen _ _ _ holds) rfl rfl rfl
  | kfree freeing => exact balanced.kfree (held.freed freeing).1 rfl rfl rfl
  | bdFree live => exact balanced.bdFree live rfl rfl rfl

end Ledger

end OShard.Files
