import Mathlib

namespace Separation

open Function

variable {α ι : Type}

abbrev Heap (α : Type) := Nat → Option α

namespace Heap

def empty : Heap α := fun _ => none

def put (h : Heap α) (a : Nat) (contents : Option α) : Heap α := update h a contents

def single (a : Nat) (x : α) : Heap α := empty.put a (some x)

def Apart (left right : Heap α) : Prop := ∀ a, left a = none ∨ right a = none

def union (left right : Heap α) : Heap α := fun a => (left a).or (right a)

variable {left right other h : Heap α} {a : Nat} {x : α}

theorem Apart.symm (apart : left.Apart right) : right.Apart left := fun a => (apart a).symm

theorem apart_empty (h : Heap α) : h.Apart empty := fun _ => Or.inr rfl

theorem union_none : left.union right a = none ↔ left a = none ∧ right a = none := Option.or_eq_none_iff

theorem apart_union : (left.union right).Apart other ↔ left.Apart other ∧ right.Apart other := by
  constructor
  · intro apart
    constructor
    · intro a
      exact (apart a).imp_left fun none => (union_none.mp none).1
    · intro a
      exact (apart a).imp_left fun none => (union_none.mp none).2
  · rintro ⟨one, two⟩ a
    rcases one a with none | none
    · exact (two a).imp_left fun none' => union_none.mpr ⟨none, none'⟩
    · exact Or.inr none

theorem union_comm (apart : left.Apart right) : left.union right = right.union left := by
  funext a
  rcases apart a with none | none
  · simp [union, none]
  · simp [union, none]

theorem union_assoc : (left.union right).union other = left.union (right.union other) := by
  funext a
  exact Option.or_assoc

@[simp] theorem union_empty (h : Heap α) : h.union empty = h := by
  funext a
  exact Option.or_none

@[simp] theorem empty_union (h : Heap α) : empty.union h = h := by
  funext a
  exact Option.none_or

theorem union_cancel (apart : left.Apart other) (apart' : right.Apart other) (same : left.union other = right.union other) :
    left = right := by
  funext a
  have here := congrFun same a
  cases there : other a with
  | none =>
    simp only [union, there, Option.or_none] at here
    exact here
  | some x =>
    have mine := (apart a).resolve_right (by simp [there])
    have yours := (apart' a).resolve_right (by simp [there])
    rw [mine, yours]

theorem union_left (apart : left.Apart right) (here : left a = some x) : left.union right a = some x ∧ right a = none := by
  rcases apart a with none | none
  · rw [here] at none
    cases none
  · exact ⟨by simp [union, here], none⟩

@[simp] theorem put_self {contents : Option α} : h.put a contents a = contents := update_self _ _ _

theorem put_other {b : Nat} {contents : Option α} (other : b ≠ a) : h.put a contents b = h b := update_of_ne other _ _

@[simp] theorem single_self : single a x a = some x := put_self

theorem single_other {b : Nat} (other : b ≠ a) : single a x b = none := put_other other

theorem single_ne_none {b : Nat} : single a x b ≠ none ↔ b = a := by
  constructor
  · intro here
    by_contra other
    exact here (single_other other)
  · rintro rfl
    rw [single_self]
    exact Option.some_ne_none x

@[simp] theorem put_single (contents : Option α) : (single a x).put a contents = empty.put a contents :=
  update_idem _ _ _

@[simp] theorem empty_put_none : (empty : Heap α).put a none = empty := update_eq_self _ _

theorem put_union (free : right a = none) (contents : Option α) :
    (left.union right).put a contents = (left.put a contents).union right := by
  funext b
  by_cases same : b = a
  · rw [same]
    simp [union, free]
  · simp [union, put_other same]

theorem Apart.put (apart : left.Apart right) (free : right a = none) (contents : Option α) :
    (left.put a contents).Apart right := by
  intro b
  by_cases same : b = a
  · rw [same]
    exact Or.inr free
  · rw [put_other same]
    exact apart b

end Heap

/-- What is said of a part of a memory. The product says it of two parts that are apart. -/
def Assertion (α : Type) : Type := Heap α → Prop

namespace Assertion

variable {P Q R : Assertion α} {h : Heap α} {a : Nat} {x : α}

instance : Mul (Assertion α) := ⟨fun P Q h => ∃ left right : Heap α, left.Apart right ∧ h = left.union right ∧ P left ∧ Q right⟩

instance : One (Assertion α) := ⟨fun h => h = Heap.empty⟩

theorem comm (P Q : Assertion α) : P * Q = Q * P := by
  funext h
  apply propext
  constructor
  · rintro ⟨left, right, apart, rfl, one, two⟩
    exact ⟨right, left, apart.symm, Heap.union_comm apart, two, one⟩
  · rintro ⟨left, right, apart, rfl, one, two⟩
    exact ⟨right, left, apart.symm, Heap.union_comm apart, two, one⟩

theorem assoc (P Q R : Assertion α) : P * Q * R = P * (Q * R) := by
  funext h
  apply propext
  constructor
  · rintro ⟨-, right, apart, rfl, ⟨one, two, inner, rfl, first, second⟩, third⟩
    obtain ⟨outer, outer'⟩ := Heap.apart_union.mp apart
    refine ⟨one, two.union right, ?_, Heap.union_assoc, first, two, right, outer', rfl, second, third⟩
    exact (Heap.apart_union.mpr ⟨inner.symm, outer.symm⟩).symm
  · rintro ⟨left, -, apart, rfl, first, one, two, inner, rfl, second, third⟩
    obtain ⟨outer, outer'⟩ := Heap.apart_union.mp apart.symm
    refine ⟨left.union one, two, ?_, Heap.union_assoc.symm, ⟨left, one, outer.symm, rfl, first, second⟩, third⟩
    exact Heap.apart_union.mpr ⟨outer'.symm, inner⟩

theorem one_mul' (P : Assertion α) : 1 * P = P := by
  funext h
  apply propext
  constructor
  · rintro ⟨left, right, -, rfl, rfl, holds⟩
    rw [Heap.empty_union]
    exact holds
  · intro holds
    exact ⟨Heap.empty, h, (Heap.apart_empty h).symm, (Heap.empty_union h).symm, rfl, holds⟩

instance : CommMonoid (Assertion α) where
  mul_assoc := assoc
  one_mul := one_mul'
  mul_one := fun P => (comm P 1).trans (one_mul' P)
  mul_comm := comm

theorem mul_mono {P' Q' : Assertion α} (first : ∀ h, P h → P' h) (second : ∀ h, Q h → Q' h) (both : (P * Q) h) :
    (P' * Q') h := by
  obtain ⟨left, right, apart, union, one, two⟩ := both
  exact ⟨left, right, apart, union, first left one, second right two⟩

def exactly (h : Heap α) : Assertion α := fun g => g = h

def points (a : Nat) (x : α) : Assertion α := fun h => h = Heap.single a x

def given (fact : Prop) (P : Assertion α) : Assertion α := fun h => fact ∧ P h

theorem given_mul (fact : Prop) : given fact P * Q = given fact (P * Q) := by
  funext h
  apply propext
  constructor
  · rintro ⟨left, right, apart, union, ⟨holds, one⟩, two⟩
    exact ⟨holds, left, right, apart, union, one, two⟩
  · rintro ⟨holds, left, right, apart, union, one, two⟩
    exact ⟨left, right, apart, union, ⟨holds, one⟩, two⟩

theorem mul_given (fact : Prop) : P * given fact Q = given fact (P * Q) := by
  rw [mul_comm, given_mul, mul_comm]

def any (P : ι → Assertion α) : Assertion α := fun h => ∃ i, P i h

theorem any_mul (P : ι → Assertion α) : any P * Q = any fun i => P i * Q := by
  funext h
  apply propext
  constructor
  · rintro ⟨left, right, apart, union, ⟨i, one⟩, two⟩
    exact ⟨i, left, right, apart, union, one, two⟩
  · rintro ⟨i, left, right, apart, union, one, two⟩
    exact ⟨left, right, apart, union, ⟨i, one⟩, two⟩

theorem mul_any (P : ι → Assertion α) : Q * any P = any fun i => Q * P i := by
  rw [mul_comm, any_mul]
  simp only [mul_comm]

def either (P Q : Assertion α) : Assertion α := fun h => P h ∨ Q h

theorem either_mul : either P Q * R = either (P * R) (Q * R) := by
  funext h
  apply propext
  constructor
  · rintro ⟨left, right, apart, union, one | one, two⟩
    · exact Or.inl ⟨left, right, apart, union, one, two⟩
    · exact Or.inr ⟨left, right, apart, union, one, two⟩
  · rintro (⟨left, right, apart, union, one, two⟩ | ⟨left, right, apart, union, one, two⟩)
    · exact ⟨left, right, apart, union, Or.inl one, two⟩
    · exact ⟨left, right, apart, union, Or.inr one, two⟩

theorem prod_mono {κ : Type} {P Q : κ → Assertion α} {s : Finset κ} (each : ∀ i ∈ s, ∀ h, P i h → Q i h) (holds : (∏ i ∈ s, P i) h) :
    (∏ i ∈ s, Q i) h := by
  classical
  induction s using Finset.induction_on generalizing h with
  | empty => exact holds
  | insert k s outside ih =>
    rw [Finset.prod_insert outside] at holds ⊢
    have rest := fun h holds => ih (fun i inside => each i (Finset.mem_insert_of_mem inside)) (h := h) holds
    exact mul_mono (each k (Finset.mem_insert_self k s)) rest holds

theorem prod_any {κ : Type} {P : κ → ι → Assertion α} {s : Finset κ} [Nonempty ι] (holds : (∏ i ∈ s, any (P i)) h) :
    ∃ f : κ → ι, (∏ i ∈ s, P i (f i)) h := by
  classical
  induction s using Finset.induction_on generalizing h with
  | empty => exact ⟨fun _ => Classical.arbitrary ι, holds⟩
  | insert k s outside ih =>
    rw [Finset.prod_insert outside] at holds
    obtain ⟨left, right, apart, rfl, ⟨x, mine⟩, others⟩ := holds
    obtain ⟨f, each⟩ := ih others
    refine ⟨update f k x, ?_⟩
    have same : ∀ i ∈ s, P i (update f k x i) = P i (f i) := by
      intro i inside
      rw [update_of_ne]
      rintro rfl
      exact outside inside
    rw [Finset.prod_insert outside, Finset.prod_congr rfl same, update_self]
    exact ⟨left, right, apart, rfl, mine, each⟩

end Assertion

def Heap.Within (h g : Heap α) : Prop := ∀ a x, h a = some x → g a = some x

section Within

variable {h left right : Heap α} {a : Nat}

theorem Heap.Within.refl (h : Heap α) : h.Within h := fun _ _ here => here

theorem Heap.Within.trans {g f : Heap α} (first : h.Within g) (second : g.Within f) : h.Within f :=
  fun a x here => second a x (first a x here)

theorem Heap.within_left (apart : left.Apart right) : left.Within (left.union right) :=
  fun _ _ here => (Heap.union_left apart here).1

theorem Heap.within_right (apart : left.Apart right) : right.Within (left.union right) := by
  rw [Heap.union_comm apart]
  exact Heap.within_left apart.symm

theorem Heap.Within.ne_none {g : Heap α} (within : h.Within g) (here : h a ≠ none) : g a ≠ none := by
  obtain ⟨x, value⟩ := Option.ne_none_iff_exists'.mp here
  rw [within a x value]
  exact Option.some_ne_none x

theorem Heap.union_ne_none : left.union right a ≠ none ↔ left a ≠ none ∨ right a ≠ none := by
  rw [Ne, Heap.union_none, not_and_or]

end Within

structure Parts (g : Heap α) (parts : ι → Heap α) : Prop where
  apart : ∀ i j, i ≠ j → (parts i).Apart (parts j)
  whole : ∀ a x, g a = some x ↔ ∃ i, parts i a = some x

namespace Parts

variable {g : Heap α} {parts : ι → Heap α} {a : Nat}

def rest (g : Heap α) (part : Heap α) : Heap α := fun a => if (part a).isSome then none else g a

theorem rest_apart (g part : Heap α) : part.Apart (rest g part) := by
  intro a
  cases here : part a with
  | none => exact Or.inl rfl
  | some x =>
    right
    unfold rest
    rw [here]
    rfl

section Parts

variable (divided : Parts g parts)

include divided

theorem part_union (i : ι) : (parts i).union (rest g (parts i)) = g := by
  funext a
  unfold Heap.union rest
  cases here : parts i a with
  | none => rfl
  | some x => exact ((divided.whole a x).mpr ⟨i, here⟩).symm

theorem none_iff : g a = none ↔ ∀ i, parts i a = none := by
  constructor
  · intro none i
    cases here : parts i a with
    | none => rfl
    | some x =>
      rw [(divided.whole a x).mpr ⟨i, here⟩] at none
      cases none
  · intro none
    cases there : g a with
    | none => rfl
    | some x =>
      obtain ⟨i, here⟩ := (divided.whole a x).mp there
      rw [none i] at here
      cases here

theorem within (i : ι) : (parts i).Within g := fun a x here => (divided.whole a x).mpr ⟨i, here⟩

theorem exists_part (there : g a ≠ none) : ∃ i, parts i a ≠ none := by
  obtain ⟨x, value⟩ := Option.ne_none_iff_exists'.mp there
  obtain ⟨i, here⟩ := (divided.whole a x).mp value
  refine ⟨i, ?_⟩
  rw [here]
  exact Option.some_ne_none x

theorem part_unique {i j : ι} (here : parts i a ≠ none) (there : parts j a ≠ none) : i = j := by
  by_contra different
  rcases divided.apart i j different a with none | none
  · exact here none
  · exact there none

theorem rest_iff (i : ι) (x : α) : rest g (parts i) a = some x ↔ ∃ j, j ≠ i ∧ parts j a = some x := by
  unfold rest
  cases here : parts i a with
  | none =>
    change g a = some x ↔ _
    rw [divided.whole]
    constructor
    · rintro ⟨j, there⟩
      refine ⟨j, ?_, there⟩
      rintro rfl
      rw [here] at there
      cases there
    · rintro ⟨j, -, there⟩
      exact ⟨j, there⟩
  | some y =>
    constructor
    · exact nofun
    · rintro ⟨j, other, there⟩
      rcases divided.apart j i other a with none | none
      · rw [none] at there
        cases there
      · rw [none] at here
        cases here

end Parts

variable [DecidableEq ι]

theorem replace (divided : Parts g parts) {i : ι} {h : Heap α} (apart : h.Apart (rest g (parts i))) :
    Parts (h.union (rest g (parts i))) (update parts i h) := by
  have clear : ∀ j, j ≠ i → h.Apart (parts j) := by
    intro j other a
    rcases apart a with none | none
    · exact Or.inl none
    right
    cases there : parts j a with
    | none => rfl
    | some x =>
      rw [(divided.rest_iff i x).mpr ⟨j, other, there⟩] at none
      cases none
  constructor
  · intro j k different
    by_cases first : j = i
    · subst first
      rw [update_self, update_of_ne (Ne.symm different)]
      exact clear k (Ne.symm different)
    rw [update_of_ne first]
    by_cases second : k = i
    · subst second
      rw [update_self]
      exact (clear j first).symm
    · rw [update_of_ne second]
      exact divided.apart j k different
  · intro a x
    constructor
    · intro there
      rcases Option.or_eq_some_iff.mp there with mine | ⟨-, theirs⟩
      · refine ⟨i, ?_⟩
        rw [update_self]
        exact mine
      · obtain ⟨j, other, here⟩ := (divided.rest_iff i x).mp theirs
        refine ⟨j, ?_⟩
        rw [update_of_ne other]
        exact here
    · rintro ⟨j, here⟩
      by_cases same : j = i
      · subst same
        rw [update_self] at here
        exact (Heap.union_left apart here).1
      · rw [update_of_ne same] at here
        have theirs := (divided.rest_iff i x).mpr ⟨j, same, here⟩
        rw [Heap.union_comm apart]
        exact (Heap.union_left apart.symm theirs).1

theorem iff_point : Parts g parts ↔ ∀ a, (g a = none ∧ ∀ i, parts i a = none) ∨
    ∃ i, g a ≠ none ∧ parts i a = g a ∧ ∀ j, j ≠ i → parts j a = none := by
  constructor
  · intro divided a
    cases there : g a with
    | none => exact Or.inl ⟨rfl, divided.none_iff.mp there⟩
    | some x =>
      obtain ⟨i, here⟩ := (divided.whole a x).mp there
      refine Or.inr ⟨i, Option.some_ne_none x, here, fun j other => ?_⟩
      rcases divided.apart j i other a with none | none
      · exact none
      · rw [none] at here
        cases here
  · intro point
    constructor
    · intro i j different a
      rcases point a with ⟨-, none⟩ | ⟨k, -, -, none⟩
      · exact Or.inl (none i)
      · by_cases same : i = k
        · exact Or.inr (none j fun other => different (same.trans other.symm))
        · exact Or.inl (none i same)
    · intro a x
      rcases point a with ⟨nothing, none⟩ | ⟨k, -, here, none⟩
      · constructor
        · intro there
          rw [nothing] at there
          cases there
        · rintro ⟨i, there⟩
          rw [none i] at there
          cases there
      · constructor
        · intro there
          exact ⟨k, here.trans there⟩
        · rintro ⟨i, there⟩
          by_cases same : i = k
          · subst same
            exact here.symm.trans there
          · rw [none i same] at there
            cases there

theorem split (divided : Parts g parts) {i k : ι} {left right : Heap α} (other : k ≠ i) (empty : parts k = Heap.empty)
    (apart : left.Apart right) (whole : parts i = left.union right) :
    Parts g (update (update parts k right) i left) := by
  apply iff_point.mpr
  intro a
  rcases iff_point.mp divided a with ⟨nothing, none⟩ | ⟨m, there, here, none⟩
  · left
    have halves := none i
    rw [whole, Heap.union_none] at halves
    refine ⟨nothing, fun j => ?_⟩
    by_cases first : j = i
    · rw [first, update_self]
      exact halves.1
    rw [update_of_ne first]
    by_cases second : j = k
    · rw [second, update_self]
      exact halves.2
    · rw [update_of_ne second]
      exact none j
  right
  by_cases mine : m = i
  · subst mine
    rw [whole] at here
    rcases apart a with absent | absent
    · refine ⟨k, there, ?_, fun j different => ?_⟩
      · rw [update_of_ne other, update_self, ← here]
        unfold Heap.union
        rw [absent]
        rfl
      · by_cases first : j = m
        · rw [first, update_self]
          exact absent
        · rw [update_of_ne first, update_of_ne different]
          exact none j first
    · refine ⟨m, there, ?_, fun j different => ?_⟩
      · rw [update_self, ← here]
        unfold Heap.union
        rw [absent, Option.or_none]
      · rw [update_of_ne different]
        by_cases second : j = k
        · rw [second, update_self]
          exact absent
        · rw [update_of_ne second]
          exact none j different
  · have halves := none i (Ne.symm mine)
    rw [whole, Heap.union_none] at halves
    have full : m ≠ k := by
      rintro rfl
      rw [empty] at here
      exact there here.symm
    refine ⟨m, there, ?_, fun j different => ?_⟩
    · rw [update_of_ne mine, update_of_ne full]
      exact here
    · by_cases first : j = i
      · rw [first, update_self]
        exact halves.1
      rw [update_of_ne first]
      by_cases second : j = k
      · rw [second, update_self]
        exact halves.2
      · rw [update_of_ne second]
        exact none j different

theorem of_prod {P : ι → Assertion α} {s : Finset ι} {h : Heap α} (holds : (∏ i ∈ s, P i) h) :
    ∃ parts, Parts h parts ∧ (∀ i ∈ s, P i (parts i)) ∧ ∀ i, i ∉ s → parts i = Heap.empty := by
  induction s using Finset.induction_on generalizing h with
  | empty =>
    have nothing : h = Heap.empty := holds
    subst nothing
    refine ⟨fun _ => Heap.empty, iff_point.mpr fun a => Or.inl ⟨rfl, fun _ => rfl⟩, fun i inside => ?_, fun _ _ => rfl⟩
    exact absurd inside (Finset.notMem_empty i)
  | insert k s outside ih =>
    rw [Finset.prod_insert outside] at holds
    obtain ⟨left, right, apart, rfl, mine, others⟩ := holds
    obtain ⟨parts, divided, each, empty⟩ := ih others
    have same : rest right (parts k) = right := by
      funext a
      unfold rest
      rw [empty k outside]
      rfl
    have replaced := divided.replace (i := k) (h := left)
    rw [same] at replaced
    refine ⟨_, replaced apart, fun i inside => ?_, fun i out => ?_⟩
    · by_cases own : i = k
      · rw [own, update_self]
        exact mine
      · rw [update_of_ne own]
        exact each i ((Finset.mem_insert.mp inside).resolve_left own)
    · have own : i ≠ k := fun same => out (Finset.mem_insert.mpr (Or.inl same))
      rw [update_of_ne own]
      exact empty i fun inside => out (Finset.mem_insert.mpr (Or.inr inside))

end Parts

end Separation
