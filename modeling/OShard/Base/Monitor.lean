import OShard.Base.Transition

/-! Flows of control that share data under one lock, sleep on it and wake up the sleepers. -/

namespace Monitor

open Function

/-- Where a flow stands: at the point `k` of its call it is about to take the lock, has it, or sleeps without it. -/
inductive Place (κ : Type*) where
  | outside
  | waiting (k : κ)
  | inside (k : κ)
  | asleep (k : κ)

inductive Move (κ σ : Type*) where
  | go (k : κ) (data : σ) (wakes : Bool)
  | leave (data : σ) (wakes : Bool)
  | sleep (k : κ)

structure State (ι κ σ : Type*) where
  data : σ
  lock : Option ι
  flows : ι → Place κ

/-- What a flow may call, what it does next with the lock, and what happens beside the flows. -/
structure Rules (ι κ σ : Type*) where
  call : ι → κ → σ → σ → Prop
  act : ι → κ → σ → Move κ σ → Prop
  other : σ → σ → Prop

variable {ι κ σ : Type*} [DecidableEq ι]

def rouse : Bool → Place κ → Place κ
  | true, .asleep k => .waiting k
  | _, place => place

inductive Step (rules : Rules ι κ σ) : State ι κ σ → State ι κ σ → Prop where
  | call {s p k data} : s.flows p = .outside → rules.call p k s.data data →
      Step rules s { s with data := data, flows := update s.flows p (.waiting k) }
  | acquire {s p k} : s.flows p = .waiting k → s.lock = none →
      Step rules s { s with lock := some p, flows := update s.flows p (.inside k) }
  | go {s p k k' data wakes} : s.flows p = .inside k → rules.act p k s.data (.go k' data wakes) →
      Step rules s { s with data := data, flows := update (rouse wakes ∘ s.flows) p (.inside k') }
  | leave {s p k data wakes} : s.flows p = .inside k → rules.act p k s.data (.leave data wakes) →
      Step rules s ⟨data, none, update (rouse wakes ∘ s.flows) p .outside⟩
  | sleep {s p k k'} : s.flows p = .inside k → rules.act p k s.data (.sleep k') →
      Step rules s { s with lock := none, flows := update s.flows p (.asleep k') }
  | kill {s p k} : s.flows p = .asleep k → Step rules s { s with flows := update s.flows p (.waiting k) }
  | other {s data} : rules.other s.data data → Step rules s { s with data := data }

def Quiet (s : State ι κ σ) : Prop := s.lock = none ∧ ∀ p, s.flows p = .outside

/-- An invariant of the data, and what keeps the sleepers at a point asleep. -/
structure Spec (κ σ : Type*) where
  invariant : σ → Prop
  blocked : κ → σ → Prop

variable {rules : Rules ι κ σ} {spec : Spec κ σ} {s t : State ι κ σ} {p : ι} {place : Place κ} {data : σ} {wakes : Bool}

namespace Spec

structure Keeps (spec : Spec κ σ) (wakes : Bool) (data data' : σ) : Prop where
  invariant : spec.invariant data'
  blocked : ∀ k, wakes = false → spec.blocked k data → spec.blocked k data'

structure Sound (spec : Spec κ σ) (rules : Rules ι κ σ) : Prop where
  call : ∀ p k d d', spec.invariant d → rules.call p k d d' → spec.Keeps false d d'
  act : ∀ p k d move, spec.invariant d → rules.act p k d move →
    match move with
    | .go _ d' wakes | .leave d' wakes => spec.Keeps wakes d d'
    | .sleep k => spec.blocked k d
  other : ∀ d d', spec.invariant d → rules.other d d' → spec.Keeps false d d'

structure Holds (spec : Spec κ σ) (s : State ι κ σ) : Prop where
  invariant : spec.invariant s.data
  asleep : ∀ p k, s.flows p = .asleep k → spec.blocked k s.data

/-- One flow moves on, and the others are at most woken up. -/
theorem Holds.move {lock : Option ι} (holds : spec.Holds s) (keeps : spec.Keeps wakes s.data data)
    (own : ∀ k, place = .asleep k → spec.blocked k data) : spec.Holds ⟨data, lock, update (rouse wakes ∘ s.flows) p place⟩ := by
  refine ⟨keeps.invariant, fun q k slept => ?_⟩
  dsimp only at slept
  by_cases same : q = p
  · rw [same, update_self] at slept
    exact own k slept
  · rw [update_of_ne same, comp_apply] at slept
    cases there : s.flows q with
    | asleep k' =>
      cases wakes with
      | false =>
        rw [there] at slept
        cases slept
        exact keeps.blocked k rfl (holds.asleep q k there)
      | true =>
        rw [there] at slept
        cases slept
    | _ =>
      rw [there] at slept
      cases wakes <;> cases slept

theorem Sound.step (sound : spec.Sound rules) (holds : spec.Holds s) (step : Step rules s t) : spec.Holds t := by
  have still : spec.Keeps false s.data s.data := ⟨holds.invariant, fun _ _ => id⟩
  cases step with
  | call _ called => exact holds.move (sound.call _ _ _ _ holds.invariant called) nofun
  | acquire | kill => exact holds.move still nofun
  | go _ act | leave _ act => exact holds.move (sound.act _ _ _ _ holds.invariant act) nofun
  | sleep _ act =>
    apply holds.move still
    rintro _ ⟨⟩
    exact sound.act _ _ _ _ holds.invariant act
  | other moved =>
    have keeps := sound.other _ _ holds.invariant moved
    exact ⟨keeps.invariant, fun p k slept => keeps.blocked k rfl (holds.asleep p k slept)⟩

theorem Sound.reachable {init : State ι κ σ → Prop} (sound : spec.Sound rules) (start : ∀ s, init s → Quiet s ∧ spec.invariant s.data)
    (reached : Transition.Reachable init (Step rules) s) : spec.Holds s := by
  refine reached.invariant (fun s first => ?_) fun _ _ => sound.step
  obtain ⟨⟨-, outside⟩, holds⟩ := start s first
  exact ⟨holds, fun p k slept => nomatch (outside p).symm.trans slept⟩

end Spec

end Monitor
