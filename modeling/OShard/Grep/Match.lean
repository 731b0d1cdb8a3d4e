import Mathlib

namespace OShard.Grep

section Matcher

mutual

/-- Strings are the characters before the NUL. -/
def matchhere (re text : List Char) : Bool :=
  match re with
  | [] => true
  | c :: '*' :: re => matchstar c re text
  | ['$'] => text.isEmpty
  | c :: re =>
    match text with
    | t :: text => (c == '.' || c == t) && matchhere re text
    | [] => false
termination_by (re.length, text.length, 0)

def matchstar (c : Char) (re text : List Char) : Bool :=
  matchhere re text ||
    match text with
    | t :: text => (t == c || c == '.') && matchstar c re text
    | [] => false
termination_by (re.length, text.length, 1)

end

def matchAny (re : List Char) : List Char → Bool
  | [] => matchhere re []
  | t :: text => matchhere re (t :: text) || matchAny re text

def matchText (re text : List Char) : Bool :=
  match re with
  | '^' :: re => matchhere re text
  | _ => matchAny re text

end Matcher

section Language

inductive Item where
  | star (c : Char)
  | stop
  | one (c : Char)
  deriving DecidableEq

def items : List Char → List Item
  | [] => []
  | c :: '*' :: re => .star c :: items re
  | ['$'] => [.stop]
  | c :: re => .one c :: items re

/-- What an item reads as a single character. -/
def Fits (c t : Char) : Prop := c = '.' ∨ c = t

/-- The items match `word`, behind which the text goes on with `rest`. -/
def Accepts (rest : List Char) : List Item → List Char → Prop
  | [], word => word = []
  | .star c :: more, word => ∃ run tail, word = run ++ tail ∧ (∀ t ∈ run, Fits c t) ∧ Accepts rest more tail
  | .stop :: more, word => word = [] ∧ rest = [] ∧ Accepts rest more word
  | .one c :: more, word => ∃ t tail, word = t :: tail ∧ Fits c t ∧ Accepts rest more tail

def Begins (re text : List Char) : Prop := ∃ word rest, text = word ++ rest ∧ Accepts rest (items re) word

variable {c : Char} {re text : List Char}

theorem begins_star : Begins (c :: '*' :: re) text ↔
    ∃ run tail, text = run ++ tail ∧ (∀ t ∈ run, Fits c t) ∧ Begins re tail := by
  constructor
  · rintro ⟨word, rest, rfl, run, tail, rfl, fits, more⟩
    exact ⟨run, tail ++ rest, List.append_assoc _ _ _, fits, tail, rest, rfl, more⟩
  · rintro ⟨run, _, rfl, fits, tail, rest, rfl, more⟩
    exact ⟨run ++ tail, rest, (List.append_assoc _ _ _).symm, run, tail, rfl, fits, more⟩

theorem begins_stop : Begins ['$'] text ↔ text = [] := by
  constructor
  · rintro ⟨word, rest, rfl, rfl, rfl, -⟩
    rfl
  · rintro rfl
    exact ⟨[], [], rfl, rfl, rfl, rfl⟩

theorem begins_one (single : items (c :: re) = .one c :: items re) :
    Begins (c :: re) text ↔ ∃ t tail, text = t :: tail ∧ Fits c t ∧ Begins re tail := by
  unfold Begins
  rw [single]
  constructor
  · rintro ⟨word, rest, rfl, t, tail, rfl, fits, more⟩
    exact ⟨t, tail ++ rest, rfl, fits, tail, rest, rfl, more⟩
  · rintro ⟨t, _, rfl, fits, tail, rest, rfl, more⟩
    exact ⟨t :: tail, rest, rfl, t, tail, rfl, fits, more⟩

theorem matchstar_iff (here : ∀ text, matchhere re text = true ↔ Begins re text) : matchstar c re text = true ↔
    ∃ run tail, text = run ++ tail ∧ (∀ t ∈ run, Fits c t) ∧ Begins re tail := by
  induction text with
  | nil =>
    rw [matchstar, Bool.or_false, here]
    constructor
    · exact fun begins => ⟨[], [], rfl, nofun, begins⟩
    · rintro ⟨run, tail, empty, -, begins⟩
      rw [(List.append_eq_nil_iff.mp empty.symm).2] at begins
      exact begins
  | cons t text ih =>
    rw [matchstar, Bool.or_eq_true, here, Bool.and_eq_true, ih, Bool.or_eq_true, beq_iff_eq, beq_iff_eq]
    constructor
    · rintro (begins | ⟨fits, run, tail, rfl, all, begins⟩)
      · exact ⟨[], t :: text, rfl, nofun, begins⟩
      · refine ⟨t :: run, tail, rfl, List.forall_mem_cons.mpr ⟨?_, all⟩, begins⟩
        exact fits.symm.imp_right Eq.symm
    · rintro ⟨run, tail, split, all, begins⟩
      cases run with
      | nil => exact Or.inl (split ▸ begins)
      | cons x run =>
        cases split
        obtain ⟨first, others⟩ := List.forall_mem_cons.mp all
        exact Or.inr ⟨first.symm.imp_left Eq.symm, run, tail, rfl, others, begins⟩

theorem matchhere_iff (re text : List Char) : matchhere re text = true ↔ Begins re text := by
  induction re using items.induct generalizing text with
  | case1 =>
    rw [matchhere]
    exact iff_of_true rfl ⟨[], text, rfl, rfl⟩
  | case2 c re ih =>
    rw [matchhere, begins_star]
    exact matchstar_iff ih
  | case3 =>
    rw [matchhere, begins_stop, List.isEmpty_iff]
  | case4 c re noStar noStop ih =>
    have single : items (c :: re) = .one c :: items re := by
      rw [items]
      · exact noStar
      · exact noStop
    rw [begins_one single]
    cases text with
    | nil =>
      rw [matchhere]
      · simp
      · exact noStar
      · exact noStop
    | cons t text =>
      rw [matchhere]
      · simp [ih, Fits]
      · exact noStar
      · exact noStop

theorem matchAny_iff : matchAny re text = true ↔ ∃ before tail, text = before ++ tail ∧ Begins re tail := by
  induction text with
  | nil =>
    rw [matchAny, matchhere_iff]
    constructor
    · exact fun begins => ⟨[], [], rfl, begins⟩
    · rintro ⟨before, tail, empty, begins⟩
      rw [(List.append_eq_nil_iff.mp empty.symm).2] at begins
      exact begins
  | cons t text ih =>
    rw [matchAny, Bool.or_eq_true, matchhere_iff, ih]
    constructor
    · rintro (begins | ⟨before, tail, rfl, begins⟩)
      · exact ⟨[], t :: text, rfl, begins⟩
      · exact ⟨t :: before, tail, rfl, begins⟩
    · rintro ⟨before, tail, split, begins⟩
      cases before with
      | nil => exact Or.inl (split ▸ begins)
      | cons x before =>
        cases split
        exact Or.inr ⟨before, tail, rfl, begins⟩

/-- The pattern as it is read: whether it begins with `^`, and its items. -/
def readPattern : List Char → Bool × List Item
  | '^' :: re => (true, items re)
  | re => (false, items re)

/-- `match` finds a place of the text, the first one under `^`, where the items of the pattern match. -/
theorem match_iff (re text : List Char) : matchText re text = true ↔
    ∃ before word rest, text = before ++ word ++ rest ∧ ((readPattern re).1 = true → before = []) ∧
      Accepts rest (readPattern re).2 word := by
  unfold matchText readPattern
  split
  · rw [matchhere_iff]
    constructor
    · rintro ⟨word, rest, rfl, accepts⟩
      exact ⟨[], word, rest, rfl, fun _ => rfl, accepts⟩
    · rintro ⟨before, word, rest, rfl, first, accepts⟩
      rw [first rfl]
      exact ⟨word, rest, rfl, accepts⟩
  · rw [matchAny_iff]
    constructor
    · rintro ⟨before, _, rfl, word, rest, rfl, accepts⟩
      exact ⟨before, word, rest, (List.append_assoc _ _ _).symm, nofun, accepts⟩
    · rintro ⟨before, word, rest, rfl, -, accepts⟩
      exact ⟨before, word ++ rest, List.append_assoc _ _ _, word, rest, rfl, accepts⟩

end Language

end OShard.Grep
