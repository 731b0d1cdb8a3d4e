import OShard.Base.Separation

open Separation Assertion

/-- A program on a memory that others use too, cut at each of its accesses. -/
inductive Prog (α ρ : Type) where
  | done (r : ρ)
  | fail (message : String)
  | alloc (next : Option Nat → Prog α ρ)
  | free (a : Nat) (next : Prog α ρ)
  | read (a : Nat) (next : α → Prog α ρ)
  | modify (a : Nat) (change : α → α) (next : Prog α ρ)

namespace Prog

variable {α ρ σ ι : Type}

def bind : Prog α ρ → (ρ → Prog α σ) → Prog α σ
  | .done r, f => f r
  | .fail message, _ => .fail message
  | .alloc next, f => .alloc fun a => (next a).bind f
  | .free a next, f => .free a (next.bind f)
  | .read a next, f => .read a fun x => (next x).bind f
  | .modify a change next, f => .modify a change (next.bind f)

instance : Monad (Prog α) where
  pure := .done
  bind := bind

theorem bind_assoc {τ : Type} (p : Prog α ρ) (f : ρ → Prog α σ) (next : σ → Prog α τ) :
    (p >>= f) >>= next = p >>= fun r => f r >>= next := by
  change (p.bind f).bind next = p.bind fun r => (f r).bind next
  induction p with
  | done | fail => rfl
  | alloc _ ih => exact congrArg Prog.alloc (funext ih)
  | free a _ ih => exact congrArg (Prog.free a) ih
  | read a _ ih => exact congrArg (Prog.read a) (funext ih)
  | modify a change _ ih => exact congrArg (Prog.modify a change) ih

def allocate : Prog α (Option Nat) := .alloc .done

def release (a : Nat) : Prog α Unit := .free a (.done ())

def get (a : Nat) : Prog α α := .read a .done

def update (a : Nat) (change : α → α) : Prog α Unit := .modify a change (.done ())

def loop (n : Nat) (body : Nat → Prog α Unit) : Prog α Unit :=
  match n with
  | 0 => Pure.pure ()
  | n + 1 => do
    loop n body
    body n

/-- What an allocation may return: an address of the pool, or nothing, if it may fail. -/
structure Supply where
  pool : Finset Nat
  fails : Prop

/-- From a memory with which the program does nothing wrong, whatever it is given, and ends as `Q` says. What is
    allocated has anything in it. -/
def wp (supply : Supply) (Q : ρ → Assertion α) : Prog α ρ → Assertion α
  | .done r => Q r
  | .fail _ => fun _ => False
  | .alloc next => fun h =>
      (supply.fails → (next none).wp supply Q h) ∧ ∀ a ∈ supply.pool, h a = none → ∀ x, (next (some a)).wp supply Q (h.put a (some x))
  | .free a next => fun h => ∃ x, h a = some x ∧ next.wp supply Q (h.put a none)
  | .read a next => fun h => ∃ x, h a = some x ∧ (next x).wp supply Q h
  | .modify a change next => fun h => ∃ x, h a = some x ∧ next.wp supply Q (h.put a (some (change x)))

structure Triple (supply : Supply) (P : Assertion α) (p : Prog α ρ) (Q : ρ → Assertion α) : Prop where
  run : ∀ h, P h → p.wp supply Q h

section Rules

variable {supply : Supply} {P P' F : Assertion α} {p : Prog α ρ} {Q Q' : ρ → Assertion α} {f : ρ → Prog α σ}
  {R : σ → Assertion α} {h g : Heap α}

theorem wp_mono (weaker : ∀ r h, Q r h → Q' r h) (holds : p.wp supply Q h) : p.wp supply Q' h := by
  induction p generalizing h with
  | done r => exact weaker r h holds
  | fail => exact holds
  | alloc next ih => exact ⟨fun fails => ih none (holds.1 fails), fun a inside free x => ih (some a) (holds.2 a inside free x)⟩
  | free _ _ ih | modify _ _ _ ih =>
    obtain ⟨x, here, rest⟩ := holds
    exact ⟨x, here, ih rest⟩
  | read a next ih =>
    obtain ⟨x, here, rest⟩ := holds
    exact ⟨x, here, ih x rest⟩

theorem wp_bind (holds : p.wp supply (fun r => (f r).wp supply R) h) : (p >>= f).wp supply R h := by
  change (p.bind f).wp supply R h
  induction p generalizing h with
  | done | fail => exact holds
  | alloc next ih => exact ⟨fun fails => ih none (holds.1 fails), fun a inside free x => ih (some a) (holds.2 a inside free x)⟩
  | free _ _ ih | modify _ _ _ ih =>
    obtain ⟨x, here, rest⟩ := holds
    exact ⟨x, here, ih rest⟩
  | read a next ih =>
    obtain ⟨x, here, rest⟩ := holds
    exact ⟨x, here, ih x rest⟩

theorem wp_frame (apart : h.Apart g) (holds : p.wp supply Q h) (rest : F g) : p.wp supply (fun r => Q r * F) (h.union g) := by
  induction p generalizing h with
  | done r => exact ⟨h, g, apart, rfl, holds, rest⟩
  | fail => exact holds
  | alloc next ih =>
    refine ⟨fun fails => ih none apart (holds.1 fails), fun a inside free x => ?_⟩
    obtain ⟨mine, theirs⟩ := Heap.union_none.mp free
    rw [Heap.put_union theirs]
    exact ih (some a) (apart.put theirs _) (holds.2 a inside mine x)
  | free _ _ ih | modify _ _ _ ih =>
    obtain ⟨x, here, after⟩ := holds
    obtain ⟨there, theirs⟩ := Heap.union_left apart here
    refine ⟨x, there, ?_⟩
    rw [Heap.put_union theirs]
    exact ih (apart.put theirs _) after
  | read a next ih =>
    obtain ⟨x, here, after⟩ := holds
    exact ⟨x, (Heap.union_left apart here).1, ih x apart after⟩

abbrev Keeps (supply : Supply) (P : Assertion α) (p : Prog α ρ) : Prop := Triple supply P p fun _ => P

namespace Triple

theorem done {r : ρ} (entails : ∀ h, P h → Q r h) : Triple supply P (Pure.pure r) Q := ⟨entails⟩

theorem pure {r : ρ} (same : P = Q r) : Triple supply P (Pure.pure r) Q := same ▸ ⟨fun _ holds => holds⟩

theorem bind (first : Triple supply P p Q) (second : ∀ r, Triple supply (Q r) (f r) R) : Triple supply P (p >>= f) R := by
  constructor
  intro h holds
  exact wp_bind (wp_mono (fun r => (second r).run) (first.run h holds))

section

variable (triple : Triple supply P p Q)

include triple

theorem pre (entails : ∀ h, P' h → P h) : Triple supply P' p Q :=
  ⟨fun h holds => triple.run h (entails h holds)⟩

theorem post (weaker : ∀ r h, Q r h → Q' r h) : Triple supply P p Q' :=
  ⟨fun h holds => wp_mono weaker (triple.run h holds)⟩

theorem frame (F : Assertion α) : Triple supply (P * F) p fun r => Q r * F := by
  constructor
  rintro h ⟨left, right, apart, rfl, mine, rest⟩
  exact wp_frame apart (triple.run left mine) rest

end

theorem any {P : ι → Assertion α} (triple : ∀ i, Triple supply (P i) p Q) : Triple supply (any P) p Q := by
  constructor
  rintro h ⟨i, holds⟩
  exact (triple i).run h holds

theorem given {fact : Prop} (triple : fact → Triple supply P p Q) : Triple supply (given fact P) p Q :=
  ⟨fun h holds => (triple holds.1).run h holds.2⟩

theorem either (first : Triple supply P p Q) (second : Triple supply P' p Q) : Triple supply (either P P') p Q := by
  constructor
  rintro h (holds | holds)
  · exact first.run h holds
  · exact second.run h holds

theorem fact {fact : Prop} (follows : ∀ h, P h → fact) (triple : fact → Triple supply P p Q) : Triple supply P p Q :=
  ⟨fun h holds => (triple (follows h holds)).run h holds⟩

theorem loop {n : Nat} {body : Nat → Prog α Unit} (I : Nat → Assertion α)
    (step : ∀ i, i < n → Triple supply (I i) (body i) fun _ => I (i + 1)) : Triple supply (I 0) (loop n body) fun _ => I n := by
  induction n with
  | zero => exact done fun _ holds => holds
  | succ n ih =>
    apply bind (ih fun i below => step i (Nat.lt_succ_of_lt below))
    intro _
    exact step n (Nat.lt_succ_self n)

variable {a : Nat} {x : α}

theorem get : Triple supply (points a x) (get a) fun r => Assertion.given (r = x) (points a x) := by
  constructor
  rintro h rfl
  exact ⟨x, Heap.single_self, rfl, rfl⟩

theorem update (change : α → α) : Triple supply (points a x) (update a change) fun _ => points a (change x) := by
  constructor
  rintro h rfl
  refine ⟨x, Heap.single_self, ?_⟩
  rw [Heap.put_single]
  rfl

theorem release : Triple supply (points a x) (release a) fun _ => 1 := by
  constructor
  rintro h rfl
  refine ⟨x, Heap.single_self, ?_⟩
  rw [Heap.put_single, Heap.empty_put_none]
  rfl

def granted (supply : Supply) : Option Nat → Assertion α
  | none => Assertion.given supply.fails 1
  | some a => Assertion.given (a ∈ supply.pool) (Assertion.any (points a))

theorem allocate : Triple (α := α) supply 1 allocate (granted supply) := by
  constructor
  rintro h rfl
  refine ⟨fun fails => ⟨fails, rfl⟩, fun a inside _ x => ?_⟩
  exact ⟨inside, x, rfl⟩

theorem call {p : Prog α ρ} {Q : ρ → Assertion α} (first : Triple supply P p Q)
    (second : ∀ r, Triple supply (Q r * F) (f r) R) : Triple supply (P * F) (p >>= f) R :=
  bind (first.frame F) second

theorem fresh {p : Prog α ρ} {Q : ρ → Assertion α} (first : Triple supply 1 p Q)
    (second : ∀ r, Triple supply (Q r * F) (f r) R) : Triple supply F (p >>= f) R := by
  have framed := call first second
  rw [one_mul] at framed
  exact framed

theorem bindAllocate {f : Option Nat → Prog α σ} (refused : supply.fails → Triple supply F (f none) R)
    (got : ∀ a ∈ supply.pool, ∀ x, Triple supply (points a x * F) (f (some a)) R) : Triple supply F (Prog.allocate >>= f) R := by
  apply fresh allocate
  intro r
  cases r with
  | none =>
    rw [granted, given_mul, one_mul]
    exact given refused
  | some a =>
    rw [granted, given_mul, any_mul]
    apply given
    intro inside
    apply any
    exact got a inside

theorem bindGet {f : α → Prog α σ} (rest : Triple supply (points a x * F) (f x) R) :
    Triple supply (points a x * F) (Prog.get a >>= f) R := by
  apply call get
  intro r
  rw [given_mul]
  apply given
  rintro rfl
  exact rest

theorem bindUpdate {f : Unit → Prog α σ} {change : α → α} (rest : Triple supply (points a (change x) * F) (f ()) R) :
    Triple supply (points a x * F) (Prog.update a change >>= f) R :=
  call (update change) fun _ => rest

theorem bindRelease {f : Unit → Prog α σ} (rest : Triple supply F (f ()) R) :
    Triple supply (points a x * F) (Prog.release a >>= f) R := by
  apply call release
  intro _
  rw [one_mul]
  exact rest

end Triple

end Rules

section Steps

variable {supply : Supply} {p p' : Prog α ρ} {Q : ρ → Assertion α} {g g' h f : Heap α}

inductive Step (supply : Supply) : Heap α × Prog α ρ → Heap α × Prog α ρ → Prop where
  | refuse {g next} : supply.fails → Step supply (g, .alloc next) (g, next none)
  | grant {g next a} (x : α) : a ∈ supply.pool → g a = none →
      Step supply (g, .alloc next) (g.put a (some x), next (some a))
  | free {g next a x} : g a = some x → Step supply (g, .free a next) (g.put a none, next)
  | read {g next a x} : g a = some x → Step supply (g, .read a next) (g, next x)
  | modify {g next a x change} : g a = some x → Step supply (g, .modify a change next) (g.put a (some (change x)), next)

def Safe (g : Heap α) : Prog α ρ → Prop
  | .done _ | .alloc _ => True
  | .fail _ => False
  | .free a _ | .read a _ | .modify a _ _ => g a ≠ none

theorem step_acc (g : Heap α) (p : Prog α ρ) : Acc (fun c c' : Heap α × Prog α ρ => Step supply c' c) (g, p) := by
  induction p generalizing g with
  | done | fail => exact .intro _ nofun
  | alloc next ih =>
    constructor
    intro c step
    cases step with
    | refuse => exact ih none g
    | grant => exact ih _ _
  | free a next ih =>
    constructor
    intro c step
    cases step with
    | free => exact ih _
  | read a next ih =>
    constructor
    intro c step
    cases step with
    | read => exact ih _ g
  | modify a change next ih =>
    constructor
    intro c step
    cases step with
    | modify => exact ih _

theorem wp_safe (apart : h.Apart f) (holds : p.wp supply Q h) : p.Safe (h.union f) := by
  cases p with
  | done | alloc => trivial
  | fail => exact holds
  | free | read | modify =>
    obtain ⟨x, here, -⟩ := holds
    intro none
    rw [(Heap.union_left apart here).1] at none
    cases none

theorem wp_step (apart : h.Apart f) (holds : p.wp supply Q h) (step : Step supply (h.union f, p) (g', p')) :
    ∃ h', g' = h'.union f ∧ h'.Apart f ∧ p'.wp supply Q h' := by
  cases step with
  | refuse fails => exact ⟨h, rfl, apart, holds.1 fails⟩
  | grant x inside free =>
    obtain ⟨mine, theirs⟩ := Heap.union_none.mp free
    exact ⟨_, Heap.put_union theirs _, apart.put theirs _, holds.2 _ inside mine x⟩
  | free there =>
    obtain ⟨x, here, after⟩ := holds
    have theirs := (Heap.union_left apart here).2
    exact ⟨_, Heap.put_union theirs _, apart.put theirs _, after⟩
  | read there =>
    obtain ⟨x, here, after⟩ := holds
    cases there.symm.trans (Heap.union_left apart here).1
    exact ⟨h, rfl, apart, after⟩
  | modify there =>
    obtain ⟨x, here, after⟩ := holds
    obtain ⟨there', theirs⟩ := Heap.union_left apart here
    cases there.symm.trans there'
    exact ⟨_, Heap.put_union theirs _, apart.put theirs _, after⟩

end Steps

section Runs

variable {supply : Supply} {p p' : Prog α ρ} {f : ρ → Prog α σ} {Q : ρ → Assertion α} {g g' h frame : Heap α} {freed : List Nat}

def frees : Prog α ρ → List Nat
  | .free a _ => [a]
  | _ => []

inductive Run (supply : Supply) : Heap α × Prog α ρ → List Nat → Heap α × Prog α ρ → Prop where
  | refl (c : Heap α × Prog α ρ) : Run supply c [] c
  | step {g p c c' freed} : Step supply (g, p) c → Run supply c freed c' → Run supply (g, p) (p.frees ++ freed) c'

theorem Run.framed (apart : h.Apart frame) (holds : p.wp supply Q h) (run : Run supply (h.union frame, p) freed (g, p')) :
    ∃ h', g = h'.union frame ∧ h'.Apart frame ∧ p'.wp supply Q h' ∧ ∀ a ∈ freed, frame a = none := by
  generalize start : (h.union frame, p) = c at run
  generalize finish : (g, p') = c' at run
  induction run generalizing h p with
  | refl c =>
    subst start
    cases finish
    exact ⟨h, rfl, apart, holds, fun a inside => absurd inside List.not_mem_nil⟩
  | @step g₁ p₁ c₁ c₂ freed₁ step rest ih =>
    cases start
    obtain ⟨g₂, p₂⟩ := c₁
    obtain ⟨h₂, rfl, apart₂, holds₂⟩ := wp_step apart holds step
    obtain ⟨h', same, apart', holds', others⟩ := ih apart₂ holds₂ rfl finish
    refine ⟨h', same, apart', holds', ?_⟩
    intro a inside
    rcases List.mem_append.mp inside with now | later
    · cases p₁ with
      | free b next =>
        obtain ⟨x, here, -⟩ := holds
        cases List.mem_singleton.mp now
        exact (Heap.union_left apart here).2
      | done | fail | alloc | read | modify => cases now
    · exact others a later

theorem Run.wp (holds : p.wp supply Q h) (run : Run supply (h, p) freed (g, p')) : p'.wp supply Q g := by
  rw [← Heap.union_empty h] at run
  obtain ⟨h', rfl, -, holds', -⟩ := Run.framed (Heap.apart_empty h) holds run
  rw [Heap.union_empty]
  exact holds'

theorem Run.ended {r : ρ} {c : Heap α × Prog α ρ} (run : Run supply (h, .done r) freed c) : freed = [] ∧ c = (h, .done r) := by
  cases run with
  | refl => exact ⟨rfl, rfl⟩
  | step step => cases step

theorem Step.first {c : Heap α × Prog α σ} (step : Step supply (g, p >>= f) c) (unfinished : ∀ r, p ≠ .done r) :
    ∃ g' p', c = (g', p' >>= f) ∧ Step supply (g, p) (g', p') ∧ (p >>= f).frees = p.frees := by
  cases p with
  | done r => exact absurd rfl (unfinished r)
  | fail => cases step
  | alloc next =>
    cases step with
    | refuse fails => exact ⟨_, _, rfl, .refuse fails, rfl⟩
    | grant x inside free => exact ⟨_, _, rfl, .grant x inside free, rfl⟩
  | free a next =>
    cases step with
    | free here => exact ⟨_, _, rfl, .free here, rfl⟩
  | read a next =>
    cases step with
    | read here => exact ⟨_, _, rfl, .read here, rfl⟩
  | modify a change next =>
    cases step with
    | modify here => exact ⟨_, _, rfl, .modify here, rfl⟩

theorem Run.split {r : σ} (run : Run supply (h, p >>= f) freed (g, .done r)) : ∃ h' r' freed₁ freed₂,
    Run supply (h, p) freed₁ (h', .done r') ∧ Run supply (h', f r') freed₂ (g, .done r) ∧ freed = freed₁ ++ freed₂ := by
  generalize start : (h, p >>= f) = c at run
  generalize finish : (g, (.done r : Prog α σ)) = c' at run
  induction run generalizing h p with
  | refl c =>
    subst start
    cases p with
    | done r' => exact ⟨h, r', [], [], .refl _, .refl _, rfl⟩
    | fail | alloc | free | read | modify => cases finish
  | @step g₁ p₁ c₁ c₂ freed₁ step rest ih =>
    cases start
    by_cases ended : ∃ r', p = .done r'
    · obtain ⟨r', rfl⟩ := ended
      subst finish
      exact ⟨_, r', [], _, .refl _, .step step rest, rfl⟩
    · obtain ⟨g', p', rfl, first, same⟩ := step.first fun r' done => ended ⟨r', done⟩
      obtain ⟨h', r', freed₂, freed₃, one, two, rfl⟩ := ih rfl finish
      refine ⟨h', r', _, freed₃, .step first one, two, ?_⟩
      rw [same, List.append_assoc]

inductive Frugal : Prog α ρ → Prop where
  | done (r : ρ) : Frugal (.done r)
  | fail (message : String) : Frugal (.fail message)
  | free {a next} : Frugal next → Frugal (.free a next)
  | read {a next} : (∀ x, Frugal (next x)) → Frugal (.read a next)
  | modify {a change next} : Frugal next → Frugal (.modify a change next)

theorem Frugal.bind (first : p.Frugal) (second : ∀ r, (f r).Frugal) : (p >>= f).Frugal := by
  induction first with
  | done r => exact second r
  | fail message => exact .fail message
  | free _ ih => exact .free ih
  | read _ ih => exact .read ih
  | modify _ ih => exact .modify ih

theorem Frugal.loop {n : Nat} {body : Nat → Prog α Unit} (each : ∀ i, (body i).Frugal) : (loop n body).Frugal := by
  induction n with
  | zero => exact .done ()
  | succ n ih => exact Frugal.bind ih fun _ => each n

theorem Run.once (frugal : p.Frugal) (run : Run supply (g, p) freed (g', p')) (a : Nat) :
    freed.count a + (if g' a = none then 0 else 1) = if g a = none then 0 else 1 := by
  generalize start : (g, p) = c at run
  generalize finish : (g', p') = c' at run
  induction run generalizing g p with
  | refl c =>
    subst start
    cases finish
    exact Nat.zero_add _
  | @step g₁ p₁ c₁ c₂ freed₁ step rest ih =>
    cases start
    rw [List.count_append]
    cases step with
    | refuse | grant => cases frugal
    | @free _ next b x here =>
      cases frugal with
      | free rest =>
      have later := ih rest rfl finish
      change List.count a [b] + _ + _ = _
      by_cases same : a = b
      · subst same
        rw [Heap.put_self, if_pos rfl] at later
        rw [here, List.count_singleton_self, if_neg (Option.some_ne_none _)]
        omega
      · rw [Heap.put_other same] at later
        rw [List.count_singleton, if_neg (by simpa using Ne.symm same), Nat.zero_add]
        exact later
    | @read _ next b x here =>
      cases frugal with
      | read rest =>
      have later := ih (rest x) rfl finish
      change List.count a [] + _ + _ = _
      rw [List.count_nil, Nat.zero_add]
      exact later
    | @modify _ next b x change here =>
      cases frugal with
      | modify rest =>
      have later := ih rest rfl finish
      change List.count a [] + _ + _ = _
      rw [List.count_nil, Nat.zero_add]
      by_cases same : a = b
      · subst same
        rw [Heap.put_self, if_neg (Option.some_ne_none _)] at later
        rw [here, if_neg (Option.some_ne_none _)]
        exact later
      · rw [Heap.put_other same] at later
        exact later

end Runs

section Attempts

variable {supply : Supply} {P : Assertion α} {p p' : Prog α ρ} {f : ρ → Prog α σ} {Q : ρ → Assertion α} {g h : Heap α} {freed : List Nat}

def attempt : Prog α ρ → Prog α (Option ρ)
  | .done r => .done (some r)
  | .fail _ => .done none
  | .alloc next => .alloc fun a => (next a).attempt
  | .free a next => .free a next.attempt
  | .read a next => .read a fun x => (next x).attempt
  | .modify a change next => .modify a change next.attempt

def onwards (f : ρ → Prog α σ) : Option ρ → Prog α (Option σ)
  | none => .done none
  | some r => (f r).attempt

theorem attempt_bind : (p >>= f).attempt = p.attempt >>= onwards f := by
  change (p.bind f).attempt = p.attempt.bind (onwards f)
  induction p with
  | done | fail => rfl
  | alloc next ih => exact congrArg Prog.alloc (funext ih)
  | free a next ih => exact congrArg (Prog.free a) ih
  | read a next ih => exact congrArg (Prog.read a) (funext ih)
  | modify a change next ih => exact congrArg (Prog.modify a change) ih

/-- What holds where a program returns, and nothing where it stops with a message. -/
def returning (Q : ρ → Assertion α) : Option ρ → Assertion α
  | none => fun _ => True
  | some r => Q r

theorem wp_attempt (holds : p.wp supply Q h) : p.attempt.wp supply (returning Q) h := by
  induction p generalizing h with
  | done => exact holds
  | fail => exact False.elim holds
  | alloc next ih => exact ⟨fun fails => ih none (holds.1 fails), fun a inside free x => ih (some a) (holds.2 a inside free x)⟩
  | free _ _ ih | modify _ _ _ ih =>
    obtain ⟨x, here, rest⟩ := holds
    exact ⟨x, here, ih rest⟩
  | read a next ih =>
    obtain ⟨x, here, rest⟩ := holds
    exact ⟨x, here, ih x rest⟩

/-- From `P` the program does nothing wrong, and if it returns it ends as `Q` says. -/
def Returns (supply : Supply) (P : Assertion α) (p : Prog α ρ) (Q : ρ → Assertion α) : Prop :=
  Triple supply P p.attempt (returning Q)

namespace Returns

variable {R : σ → Assertion α}

theorem of (triple : Triple supply P p Q) : Returns supply P p Q := ⟨fun h holds => wp_attempt (triple.run h holds)⟩

theorem fail {message : String} : Returns supply P (.fail message : Prog α ρ) Q := ⟨fun _ _ => trivial⟩

theorem bind (first : Returns supply P p Q) (second : ∀ r, Returns supply (Q r) (f r) R) : Returns supply P (p >>= f) R := by
  rw [Returns, attempt_bind]
  apply Triple.bind first
  intro r
  cases r with
  | none => exact Triple.done fun _ _ => trivial
  | some r => exact second r

theorem post {Q' : ρ → Assertion α} (returns : Returns supply P p Q) (weaker : ∀ r h, Q r h → Q' r h) : Returns supply P p Q' := by
  apply Triple.post returns
  intro r h holds
  cases r with
  | none => trivial
  | some r => exact weaker r h holds

theorem frame (returns : Returns supply P p Q) (F : Assertion α) : Returns supply (P * F) p fun r => Q r * F := by
  apply Triple.post (Triple.frame returns F)
  intro r h holds
  cases r with
  | none => trivial
  | some r => exact holds

theorem call {F : Assertion α} (first : Returns supply P p Q) (second : ∀ r, Returns supply (Q r * F) (f r) R) :
    Returns supply (P * F) (p >>= f) R :=
  bind (first.frame F) second

theorem given {fact : Prop} (returns : fact → Returns supply P p Q) : Returns supply (given fact P) p Q := Triple.given returns

end Returns

theorem Step.attempt {c : Heap α × Prog α ρ} (step : Step supply (g, p) c) :
    Step supply (g, p.attempt) (c.1, c.2.attempt) ∧ p.attempt.frees = p.frees := by
  cases step with
  | refuse fails => exact ⟨.refuse fails, rfl⟩
  | grant x inside free => exact ⟨.grant x inside free, rfl⟩
  | free here => exact ⟨.free here, rfl⟩
  | read here => exact ⟨.read here, rfl⟩
  | modify here => exact ⟨.modify here, rfl⟩

theorem Run.attempt {c c' : Heap α × Prog α ρ} (run : Run supply c freed c') :
    Run supply (c.1, c.2.attempt) freed (c'.1, c'.2.attempt) := by
  induction run with
  | refl => exact .refl _
  | step step _ ih =>
    obtain ⟨step', same⟩ := step.attempt
    rw [← same]
    exact .step step' ih

theorem Returns.run {frame : Heap α} {r : ρ} (returns : Returns supply P p Q) (holds : P h) (apart : h.Apart frame)
    (run : Run supply (h.union frame, p) freed (g, .done r)) : ∃ h', g = h'.union frame ∧ h'.Apart frame ∧ Q r h' := by
  obtain ⟨h', same, apart', ended, -⟩ := Run.framed apart (Triple.run returns h holds) run.attempt
  exact ⟨h', same, apart', ended⟩

end Attempts

section Views

variable {supply : Supply} {p : Prog α ρ} {f : ρ → Prog α σ} {Q : ρ → Assertion α} {g h : Heap α}

def view (g : Heap α) : Prog α ρ → Option ρ
  | .done r => some r
  | .read a next =>
    match g a with
    | some x => view g (next x)
    | none => none
  | _ => none

inductive ReadOnly : Prog α ρ → Prop where
  | done (r : ρ) : ReadOnly (.done r)
  | fail (message : String) : ReadOnly (.fail message)
  | read {a next} : (∀ x, ReadOnly (next x)) → ReadOnly (.read a next)

theorem ReadOnly.bind (first : p.ReadOnly) (second : ∀ r, (f r).ReadOnly) : (p >>= f).ReadOnly := by
  induction first with
  | done r => exact second r
  | fail message => exact .fail message
  | read _ ih => exact .read ih

theorem ReadOnly.run {g' : Heap α} {p' : Prog α ρ} {freed : List Nat} (readOnly : p.ReadOnly) (run : Run supply (g, p) freed (g', p')) :
    g' = g := by
  generalize start : (g, p) = c at run
  generalize finish : (g', p') = c' at run
  induction run generalizing p with
  | refl c =>
    subst start
    cases finish
    rfl
  | step step _ ih =>
    cases start
    cases readOnly with
    | done | fail => cases step
    | read each =>
      cases step with
      | read => exact ih (each _) rfl finish

theorem ReadOnly.view_post (readOnly : p.ReadOnly) (holds : p.wp supply Q h) : ∃ r, Q r h ∧ ∀ g : Heap α, h.Within g → p.view g = some r := by
  induction readOnly with
  | done r => exact ⟨r, holds, fun _ _ => rfl⟩
  | fail => exact False.elim holds
  | read _ ih =>
    obtain ⟨x, here, after⟩ := holds
    obtain ⟨r, post, same⟩ := ih x after
    refine ⟨r, post, fun g within => ?_⟩
    rw [Prog.view, within _ _ here]
    exact same g within

theorem view_within {r : ρ} (seen : p.view h = some r) (within : h.Within g) : p.view g = some r := by
  induction p with
  | done => exact seen
  | fail | alloc | free | modify => cases seen
  | read a next ih =>
    rw [Prog.view] at seen
    cases here : h a with
    | none =>
      rw [here] at seen
      cases seen
    | some x =>
      rw [here] at seen
      rw [Prog.view, within a x here]
      exact ih x seen

theorem view_bind : (p >>= f).view g = (p.view g).bind fun r => (f r).view g := by
  change (p.bind f).view g = _
  induction p with
  | done | fail | alloc | free | modify => rfl
  | read a next ih =>
    rw [Prog.bind, Prog.view, Prog.view]
    cases g a with
    | none => rfl
    | some x => exact ih x

theorem wp_of_view {r : ρ} (seen : p.view g = some r) (holds : Q r g) : p.wp supply Q g := by
  induction p with
  | done r' =>
    cases seen
    exact holds
  | fail | alloc | free | modify => cases seen
  | read a next ih =>
    rw [Prog.view] at seen
    cases here : g a with
    | none =>
      rw [here] at seen
      cases seen
    | some x =>
      rw [here] at seen
      exact ⟨x, here, ih x seen⟩

theorem wp_view {R : σ → Assertion α} {r : ρ} (seen : p.view g = some r) (rest : (f r).wp supply R g) : (p >>= f).wp supply R g :=
  wp_bind (wp_of_view seen rest)

theorem Triple.look {R : σ → Assertion α} {r : ρ} (seen : ∀ h, g.Within h → p.view h = some r)
    (rest : Triple supply (exactly g * F) (f r) R) : Triple supply (exactly g * F) (p >>= f) R := by
  constructor
  intro h holds
  have after := rest.run h holds
  obtain ⟨_, right, apart, rfl, rfl, -⟩ := holds
  exact wp_view (seen _ (Heap.within_left apart)) after

end Views

section Follow

variable {supply : Supply}

/-- A run of at most so many accesses, with the answers to the allocations given. It stops where there is no answer. -/
def follow (pool : Finset Nat) (blank : α) : Nat → List (Option Nat) → Heap α → Prog α ρ → Heap α × Prog α ρ
  | n + 1, none :: answers, g, .alloc next => follow pool blank n answers g (next none)
  | n + 1, some a :: answers, g, .alloc next =>
    if a ∈ pool ∧ (g a).isNone then follow pool blank n answers (g.put a (some blank)) (next (some a)) else (g, .alloc next)
  | n + 1, answers, g, .free a next =>
    if (g a).isSome then follow pool blank n answers (g.put a none) next else (g, .free a next)
  | n + 1, answers, g, .read a next =>
    match g a with
    | some x => follow pool blank n answers g (next x)
    | none => (g, .read a next)
  | n + 1, answers, g, .modify a change next =>
    match g a with
    | some x => follow pool blank n answers (g.put a (some (change x))) next
    | none => (g, .modify a change next)
  | _, _, g, p => (g, p)

def result : Prog α ρ → Option ρ
  | .done r => some r
  | _ => none

theorem result_eq {p : Prog α ρ} {r : ρ} : p.result = some r ↔ p = .done r := by
  cases p with
  | done r' =>
    constructor
    · intro same
      cases same
      rfl
    · intro same
      cases same
      rfl
  | fail | alloc | free | read | modify => exact ⟨nofun, nofun⟩

theorem follow_run {blank : α} {n : Nat} {answers : List (Option Nat)} {g : Heap α} {p : Prog α ρ}
    (refusable : none ∈ answers → supply.fails) : ∃ freed, Run supply (g, p) freed (follow supply.pool blank n answers g p) := by
  induction n generalizing answers g p with
  | zero => exact ⟨[], .refl _⟩
  | succ n ih =>
    cases p with
    | done | fail => rcases answers with - | ⟨- | a, answers⟩ <;> exact ⟨[], .refl _⟩
    | alloc next =>
      rcases answers with - | ⟨answer, answers⟩
      · exact ⟨[], .refl _⟩
      have later : none ∈ answers → supply.fails := fun inside => refusable (List.mem_cons_of_mem _ inside)
      cases answer with
      | none =>
        obtain ⟨freed, run⟩ := ih later
        exact ⟨_, .step (.refuse (refusable List.mem_cons_self)) run⟩
      | some a =>
        rw [follow]
        split
        · rename_i fits
          obtain ⟨freed, run⟩ := ih later
          exact ⟨_, .step (.grant blank fits.1 (Option.isNone_iff_eq_none.mp fits.2)) run⟩
        · exact ⟨[], .refl _⟩
    | free a next =>
      rw [follow]
      split
      · rename_i there
        obtain ⟨x, here⟩ := Option.isSome_iff_exists.mp there
        obtain ⟨freed, run⟩ := ih refusable
        exact ⟨_, .step (.free here) run⟩
      · exact ⟨[], .refl _⟩
    | read a next =>
      rw [follow]
      split
      · rename_i x here
        obtain ⟨freed, run⟩ := ih refusable
        exact ⟨_, .step (.read here) run⟩
      · exact ⟨[], .refl _⟩
    | modify a change next =>
      rw [follow]
      split
      · rename_i x here
        obtain ⟨freed, run⟩ := ih refusable
        exact ⟨_, .step (.modify here) run⟩
      · exact ⟨[], .refl _⟩

theorem follow_done {blank : α} {n : Nat} {answers : List (Option Nat)} {g : Heap α} {p : Prog α ρ} {r : ρ}
    (refusable : none ∈ answers → supply.fails) (result : (follow supply.pool blank n answers g p).2.result = some r) :
    ∃ freed, Run supply (g, p) freed ((follow supply.pool blank n answers g p).1, .done r) := by
  rw [← result_eq.mp result]
  exact follow_run refusable

end Follow

end Prog
