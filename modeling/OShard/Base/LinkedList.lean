import Mathlib

namespace LinkedList

open Function

structure Links (α : Type) where
  next : α → α
  prev : α → α

variable {α ι : Type}

/-- The nodes `xs` stand between `a` and `b`, each the successor of the one before it. -/
def Segment (m : Links α) : α → List α → α → Prop
  | a, [], b => m.next a = b ∧ m.prev b = a
  | a, x :: xs, b => m.next a = x ∧ m.prev x = a ∧ Segment m x xs b

/-- A circular list: the chain of `next` from the header visits `xs` and returns. -/
structure Ring (m : Links α) (header : α) (xs : List α) : Prop where
  linked : Segment m header xs header
  nodup : (header :: xs).Nodup

theorem Segment.congr {m m' : Links α} {a b : α} {xs : List α} (segment : Segment m a xs b)
    (next : ∀ c ∈ a :: xs, m'.next c = m.next c) (prev : ∀ c ∈ xs ++ [b], m'.prev c = m.prev c) :
    Segment m' a xs b := by
  induction xs generalizing a with
  | nil =>
    refine ⟨?_, ?_⟩
    · rw [next a (by simp)]; exact segment.1
    · rw [prev b (by simp)]; exact segment.2
  | cons x xs ih =>
    refine ⟨?_, ?_, ih segment.2.2 ?_ ?_⟩
    · rw [next a (by simp)]; exact segment.1
    · rw [prev x (by simp)]; exact segment.2.1
    · intro c member
      exact next c (List.mem_cons_of_mem _ member)
    · intro c member
      exact prev c (by simp at member ⊢; tauto)

theorem segment_append {m : Links α} {a b x : α} {xs ys : List α} :
    Segment m a (xs ++ x :: ys) b ↔ Segment m a xs x ∧ Segment m x ys b := by
  induction xs generalizing a with
  | nil => simp [Segment, and_assoc]
  | cons y xs ih => simp [Segment, ih, and_assoc]

theorem Segment.unique {m : Links α} {a b : α} {xs ys : List α} (first : Segment m a xs b)
    (second : Segment m a ys b) (freshFirst : b ∉ xs) (freshSecond : b ∉ ys) : xs = ys := by
  induction xs generalizing a ys with
  | nil =>
    cases ys with
    | nil => rfl
    | cons y ys =>
      have same : y = b := by rw [← second.1, first.1]
      exact absurd (by simp [same]) freshSecond
  | cons x xs ih =>
    cases ys with
    | nil =>
      have same : x = b := by rw [← first.1, second.1]
      exact absurd (by simp [same]) freshFirst
    | cons y ys =>
      have same : x = y := by rw [← first.1, second.1]
      subst same
      rw [ih first.2.2 second.2.2 (fun h => freshFirst (List.mem_cons_of_mem _ h))
        (fun h => freshSecond (List.mem_cons_of_mem _ h))]

theorem Ring.unique {m : Links α} {header : α} {xs ys : List α} (first : Ring m header xs)
    (second : Ring m header ys) : xs = ys :=
  first.linked.unique second.linked (List.nodup_cons.mp first.nodup).1 (List.nodup_cons.mp second.nodup).1

section Ring

variable {m : Links α} {header : α} {xs : List α} (ring : Ring m header xs)

include ring

theorem Ring.next_header : m.next header = xs.headD header := by
  cases xs with
  | nil => exact ring.linked.1
  | cons x xs => exact ring.linked.1

theorem Ring.empty_iff : m.next header = header ↔ xs = [] := by
  have nodup := ring.nodup
  rw [ring.next_header]
  cases xs with
  | nil => simp
  | cons x xs =>
    simp only [List.nodup_cons, List.mem_cons, not_or] at nodup
    simp only [List.headD_cons, List.cons_ne_nil, iff_false]
    exact fun same => nodup.1.1 same.symm

theorem Ring.frame {m' : Links α}
    (same : ∀ c ∈ header :: xs, m'.next c = m.next c ∧ m'.prev c = m.prev c) : Ring m' header xs := by
  refine ⟨ring.linked.congr (fun c member => (same c member).1) ?_, ring.nodup⟩
  intro c member
  exact (same c (by simp at member ⊢; tauto)).2

end Ring

theorem Ring.nil {m : Links α} {header : α} (next : m.next header = header)
    (prev : m.prev header = header) : Ring m header [] :=
  ⟨⟨next, prev⟩, by simp⟩

theorem Segment.prev_mem {m : Links α} {a b : α} {xs : List α} (segment : Segment m a xs b) : m.prev b ∈ a :: xs := by
  induction xs generalizing a with
  | nil => simp [segment.2]
  | cons x xs ih => exact List.mem_cons_of_mem _ (ih segment.2.2)

theorem Segment.next_mem {m : Links α} {a b : α} {xs : List α} (segment : Segment m a xs b) : m.next a ∈ xs ++ [b] := by
  cases xs with
  | nil => simp [segment.1]
  | cons x xs => simp [segment.1]

/-- A family of rings in one memory, no node of which belongs to two of them. -/
structure Rings (m : Links α) (headers : ι → α) (lists : ι → List α) (scope : ι → Prop) : Prop where
  ring : ∀ i, scope i → Ring m (headers i) (lists i)
  apart : ∀ i j, scope i → scope j → i ≠ j → ∀ c ∈ headers i :: lists i, c ∉ headers j :: lists j

theorem Rings.frame {m m' : Links α} {headers : ι → α} {lists : ι → List α} {scope : ι → Prop}
    (rings : Rings m headers lists scope)
    (same : ∀ i, scope i → ∀ c ∈ headers i :: lists i, m'.next c = m.next c ∧ m'.prev c = m.prev c) :
    Rings m' headers lists scope :=
  ⟨fun i inside => (rings.ring i inside).frame (same i inside), rings.apart⟩

variable [DecidableEq α] [DecidableEq ι]

def Links.setNext (m : Links α) (a b : α) : Links α := { m with next := update m.next a b }
def Links.setPrev (m : Links α) (a b : α) : Links α := { m with prev := update m.prev a b }

@[simp] theorem Links.setNext_next (m : Links α) (a b c : α) :
    (m.setNext a b).next c = if c = a then b else m.next c := by
  simp [setNext, update_apply]

@[simp] theorem Links.setNext_prev (m : Links α) (a b : α) : (m.setNext a b).prev = m.prev := rfl

@[simp] theorem Links.setPrev_prev (m : Links α) (a b c : α) :
    (m.setPrev a b).prev c = if c = a then b else m.prev c := by
  simp [setPrev, update_apply]

@[simp] theorem Links.setPrev_next (m : Links α) (a b : α) : (m.setPrev a b).next = m.next := rfl

theorem Ring.insert {m m' : Links α} {header e : α} {xs : List α} (ring : Ring m header xs) (fresh : e ∉ header :: xs)
    (next : ∀ c, m'.next c = if c = header then e else if c = e then m.next header else m.next c)
    (prev : ∀ c, m'.prev c = if c = m.next header then e else if c = e then header else m.prev c) :
    Ring m' header (e :: xs) := by
  have nodup := ring.nodup
  have away : e ≠ header := fun same => fresh (by simp [same])
  have outside : e ∉ xs := fun member => fresh (List.mem_cons_of_mem _ member)
  have apart : header ∉ xs := (List.nodup_cons.mp nodup).1
  refine ⟨?_, ?_⟩
  · cases xs with
    | nil =>
      have self : m.next header = header := ring.linked.1
      refine ⟨by simp [next], ?_, ?_, ?_⟩
      · simp [prev, self, away]
      · simp [next, away, self]
      · simp [prev, self]
    | cons x xs =>
      have succ : m.next header = x := ring.linked.1
      have tail : Segment m' x xs header := by
        have inner := (List.nodup_cons.mp nodup).2
        refine ring.linked.2.2.congr ?_ ?_
        · intro c member
          have first : c ≠ header := fun same => apart (same ▸ member)
          have second : c ≠ e := fun same => outside (same ▸ member)
          simp [next, first, second]
        · intro c member
          have first : c ≠ x := by
            rintro rfl
            rcases List.mem_append.mp member with member | member
            · exact (List.nodup_cons.mp inner).1 member
            · exact apart (by simp at member; simp [member])
          have second : c ≠ e := by
            rintro rfl
            simp only [List.mem_append, List.mem_singleton] at member
            rcases member with member | member
            · exact outside (List.mem_cons_of_mem _ member)
            · exact away member
          simp [prev, succ, first, second]
      refine ⟨by simp [next], ?_, ?_, ?_, tail⟩
      · have other : e ≠ x := fun same => outside (by simp [same])
        simp [prev, succ, other]
      · simp [next, away, succ]
      · simp [prev, succ]
  · exact List.nodup_cons.mpr ⟨by simpa [away.symm] using apart, List.nodup_cons.mpr
      ⟨outside, (List.nodup_cons.mp nodup).2⟩⟩

theorem Segment.redirect {m m' : Links α} {a b c : α} {xs : List α} (segment : Segment m a xs b)
    (distinct : (a :: xs).Nodup) (fresh : b ∉ xs) (next : ∀ d, m'.next d = if d = m.prev b then c else m.next d)
    (prevOld : ∀ d ∈ xs, m'.prev d = m.prev d) (prevNew : m'.prev c = m.prev b) : Segment m' a xs c := by
  induction xs generalizing a with
  | nil =>
    have last : m.prev b = a := segment.2
    exact ⟨by simp [next, last], by rw [prevNew, last]⟩
  | cons x xs ih =>
    have inner := segment.2.2.prev_mem
    have other : a ≠ m.prev b := fun same => (List.nodup_cons.mp distinct).1 (same ▸ inner)
    refine ⟨?_, ?_, ih segment.2.2 (List.nodup_cons.mp distinct).2
      (fun h => fresh (List.mem_cons_of_mem _ h)) (fun d member => prevOld d (List.mem_cons_of_mem _ member))⟩
    · rw [next, if_neg other]; exact segment.1
    · rw [prevOld x (by simp)]; exact segment.2.1

theorem Ring.erase {m m' : Links α} {header e : α} {xs ys : List α} (ring : Ring m header (xs ++ e :: ys))
    (next : ∀ c, m'.next c = if c = m.prev e then m.next e else m.next c)
    (prev : ∀ c, m'.prev c = if c = m.next e then m.prev e else m.prev c) : Ring m' header (xs ++ ys) := by
  have nodup := ring.nodup
  obtain ⟨before, after⟩ := segment_append.mp ring.linked
  have split : (header :: xs).Nodup ∧ (e :: ys).Nodup ∧ ∀ c ∈ header :: xs, c ∉ e :: ys := by
    have whole : ((header :: xs) ++ (e :: ys)).Nodup := by simpa using nodup
    obtain ⟨first, second, apart⟩ := List.nodup_append.mp whole
    exact ⟨first, second, fun c member other => apart c member c other rfl⟩
  obtain ⟨leftDistinct, rightDistinct, apart⟩ := split
  have beforeMem := before.prev_mem
  refine ⟨?_, ?_⟩
  · cases ys with
    | nil =>
      have succ : m.next e = header := after.1
      have freshE : e ∉ xs := fun h => apart e (List.mem_cons_of_mem _ h) (by simp)
      have headerOut : header ∉ xs := (List.nodup_cons.mp leftDistinct).1
      rw [List.append_nil]
      refine before.redirect leftDistinct freshE (by simpa [succ] using next) ?_ ?_
      · intro d member
        have other : d ≠ header := fun same => headerOut (same ▸ member)
        rw [prev, succ, if_neg other]
      · rw [prev, succ, if_pos rfl]
    | cons y ys =>
      have succ : m.next e = y := after.1
      have freshE : e ∉ xs := fun h => apart e (List.mem_cons_of_mem _ h) (by simp)
      have yOut : y ∉ header :: xs := fun h => apart y h (by simp)
      refine segment_append.mpr ⟨?_, ?_⟩
      · refine before.redirect leftDistinct freshE (by simpa [succ] using next) ?_ ?_
        · intro d member
          have other : d ≠ y := fun same => yOut (same ▸ List.mem_cons_of_mem _ member)
          rw [prev, succ, if_neg other]
        · rw [prev, succ, if_pos rfl]
      · refine after.2.2.congr ?_ ?_
        · intro c member
          have other : c ≠ m.prev e := by
            rintro rfl
            exact apart _ beforeMem (List.mem_cons_of_mem _ member)
          rw [next, if_neg other]
        · intro c member
          have other : c ≠ y := by
            rintro rfl
            rcases List.mem_append.mp member with member | member
            · exact (List.nodup_cons.mp (List.nodup_cons.mp rightDistinct).2).1 member
            · exact yOut (by simp at member; simp [member])
          rw [prev, succ, if_neg other]
  · have sublist : (xs ++ ys).Sublist (xs ++ e :: ys) :=
      List.Sublist.append (List.Sublist.refl xs) (List.sublist_cons_self e ys)
    exact (sublist.cons_cons header).nodup nodup

section Rings

variable {m m' : Links α} {headers : ι → α} {lists : ι → List α} {scope : ι → Prop} {i : ι} {e : α} (rings : Rings m headers lists scope) (inside : scope i)

include rings inside

theorem Rings.insert (fresh : ∀ j, scope j → e ∉ headers j :: lists j)
    (next : ∀ c, m'.next c = if c = headers i then e else if c = e then m.next (headers i) else m.next c)
    (prev : ∀ c, m'.prev c = if c = m.next (headers i) then e else if c = e then headers i else m.prev c) :
    Rings m' headers (update lists i (e :: lists i)) scope := by
  have first : m.next (headers i) ∈ headers i :: lists i := by
    have member := (rings.ring i inside).linked.next_mem
    simp only [List.mem_append, List.mem_singleton] at member
    simpa [or_comm] using member
  refine ⟨?_, ?_⟩
  · intro j within
    by_cases same : j = i
    · subst same
      rw [update_self]
      exact (rings.ring j within).insert (fresh j within) next prev
    rw [update_of_ne same]
    refine (rings.ring j within).frame ?_
    intro c member
    have outside := rings.apart j i within inside same c member
    have notHeader : c ≠ headers i := fun h => outside (by simp [h])
    have notFirst : c ≠ m.next (headers i) := fun h => outside (h ▸ first)
    have notNew : c ≠ e := fun h => fresh j within (h ▸ member)
    simp [next, prev, notHeader, notFirst, notNew]
  · intro j k hj hk different c member other
    have old : ∀ l, scope l → c ∈ headers l :: update lists i (e :: lists i) l →
        c = e ∧ l = i ∨ c ∈ headers l :: lists l := by
      intro l _ inList
      by_cases same : l = i
      · subst same
        rw [update_self] at inList
        simp only [List.mem_cons] at inList ⊢
        tauto
      · rw [update_of_ne same] at inList
        exact .inr inList
    rcases old j hj member with ⟨rfl, rfl⟩ | inFirst <;> rcases old k hk other with ⟨eq, rfl⟩ | inSecond
    · exact different rfl
    · exact fresh k hk inSecond
    · exact fresh j hj (eq ▸ inFirst)
    · exact rings.apart j k hj hk different c inFirst inSecond

theorem Rings.erase {xs ys : List α}
    (position : lists i = xs ++ e :: ys) (next : ∀ c, m'.next c = if c = m.prev e then m.next e else m.next c)
    (prev : ∀ c, m'.prev c = if c = m.next e then m.prev e else m.prev c) :
    Rings m' headers (update lists i (xs ++ ys)) scope := by
  have ring := rings.ring i inside
  rw [position] at ring
  obtain ⟨before, after⟩ := segment_append.mp ring.linked
  have prevIn : m.prev e ∈ headers i :: lists i := by
    rw [position]
    have member := before.prev_mem
    simp only [List.mem_cons, List.mem_append] at member ⊢
    tauto
  have nextIn : m.next e ∈ headers i :: lists i := by
    rw [position]
    have member := after.next_mem
    simp only [List.mem_cons, List.mem_append, List.not_mem_nil, or_false] at member ⊢
    tauto
  have shrink : ∀ l c, c ∈ headers l :: update lists i (xs ++ ys) l → c ∈ headers l :: lists l := by
    intro l c member
    by_cases same : l = i
    · subst same
      rw [update_self] at member
      rw [position]
      simp only [List.mem_cons, List.mem_append] at member ⊢
      tauto
    · rwa [update_of_ne same] at member
  refine ⟨?_, ?_⟩
  · intro j within
    by_cases same : j = i
    · subst same
      rw [update_self]
      exact ring.erase next prev
    rw [update_of_ne same]
    refine (rings.ring j within).frame ?_
    intro c member
    have outside := rings.apart j i within inside same c member
    have notPrev : c ≠ m.prev e := fun h => outside (h ▸ prevIn)
    have notNext : c ≠ m.next e := fun h => outside (h ▸ nextIn)
    simp [next, prev, notPrev, notNext]
  · intro j k hj hk different c member other
    exact rings.apart j k hj hk different c (shrink j c member) (shrink k c other)

end Rings

end LinkedList
