import OShard.Space.Model
import OShard.Base.Overlay

namespace OShard.Space

open Overlay

variable {β : Type} {good : Nat → Bool} {va len m n i : Nat}

section Span

/-- How many bytes from `va` on come before the first page that is not `good`, up to `len`. -/
def span (good : Nat → Bool) (va len : Nat) : Nat :=
  if _empty : len = 0 then 0
  else if good (va / pgSize) then
    let n := min (pgSize - (va - pgrounddown va)) len
    n + span good (pgrounddown va + pgSize) (len - n)
  else 0
termination_by len
decreasing_by
  have chunk := @chunk_pos va len (Nat.pos_of_ne_zero _empty)
  omega

theorem span_zero : span good va 0 = 0 := by
  rw [span, dif_pos rfl]

theorem span_bad (here : good (va / pgSize) = false) : span good va len = 0 := by
  rw [span, here]
  split
  · rfl
  · rfl

theorem span_good (some : len ≠ 0) (here : good (va / pgSize) = true) : span good va len =
    min (pgSize - (va - pgrounddown va)) len + span good (pgrounddown va + pgSize) (len - min (pgSize - (va - pgrounddown va)) len) := by
  rw [span, dif_neg some, if_pos here]

theorem same_page (less : i < pgSize - (va - pgrounddown va)) : (va + i) / pgSize = va / pgSize := by
  unfold pgrounddown pgSize at *
  omega

theorem next_page : va + (pgSize - (va - pgrounddown va)) = pgrounddown va + pgSize := by
  unfold pgrounddown pgSize
  omega

structure Spans (good : Nat → Bool) (va len m : Nat) : Prop where
  within : m ≤ len
  before : ∀ i, i < m → good ((va + i) / pgSize) = true
  stop : m < len → good ((va + m) / pgSize) = false

theorem Spans.unique {m' : Nat} (one : Spans good va len m) (two : Spans good va len m') : m = m' := by
  rcases Nat.lt_trichotomy m m' with less | same | more
  · have there := one.stop (Nat.lt_of_lt_of_le less two.within)
    rw [two.before m less] at there
    cases there
  · exact same
  · have there := two.stop (Nat.lt_of_lt_of_le more one.within)
    rw [one.before m' more] at there
    cases there

theorem spans_span (good : Nat → Bool) (va len : Nat) : Spans good va len (span good va len) := by
  induction len using Nat.strong_induction_on generalizing va with
  | _ len ih =>
    by_cases empty : len = 0
    · rw [empty, span_zero]
      exact ⟨Nat.le_refl _, nofun, nofun⟩
    by_cases here : good (va / pgSize) = true
    · have chunk := @chunk_pos va len (Nat.pos_of_ne_zero empty)
      have rest := ih (len - min (pgSize - (va - pgrounddown va)) len) (by omega) (pgrounddown va + pgSize)
      have inside := rest.within
      rw [span_good empty here]
      generalize span good (pgrounddown va + pgSize) (len - min (pgSize - (va - pgrounddown va)) len) = k at rest inside ⊢
      by_cases fits : len ≤ pgSize - (va - pgrounddown va)
      · rw [Nat.min_eq_right fits] at rest inside ⊢
        refine ⟨by omega, fun i less => ?_, fun less => absurd less (by omega)⟩
        rw [same_page (by omega)]
        exact here
      rw [Nat.min_eq_left (by omega)] at rest inside chunk ⊢
      have page := @next_page va
      refine ⟨by omega, fun i less => ?_, fun less => ?_⟩
      · by_cases first : i < pgSize - (va - pgrounddown va)
        · rw [same_page first]
          exact here
        · have later := rest.before (i - (pgSize - (va - pgrounddown va))) (by omega)
          have address : pgrounddown va + pgSize + (i - (pgSize - (va - pgrounddown va))) = va + i := by omega
          rw [address] at later
          exact later
      · have later := rest.stop (by omega)
        rw [← Nat.add_assoc, page]
        exact later
    · have bad := Bool.eq_false_of_not_eq_true here
      rw [span_bad bad]
      exact ⟨Nat.zero_le _, nofun, fun _ => bad⟩

theorem span_le : span good va len ≤ len := (spans_span good va len).within

theorem span_eq (spans : Spans good va len m) : span good va len = m := (spans_span good va len).unique spans

theorem span_eq_iff : span good va len = len ↔ ∀ i, i < len → good ((va + i) / pgSize) = true := by
  constructor
  · intro all i less
    apply (spans_span good va len).before
    rw [all]
    exact less
  · exact fun all => span_eq ⟨Nat.le_refl len, all, fun less => absurd less (Nat.lt_irrefl len)⟩

theorem span_add (first : span good va n = n) : span good va (n + m) = n + span good (va + n) m := by
  have rest := spans_span good (va + n) m
  apply span_eq
  refine ⟨Nat.add_le_add_left rest.within n, fun i less => ?_, fun less => ?_⟩
  · by_cases before : i < n
    · exact span_eq_iff.mp first i before
    · have later := rest.before (i - n) (by omega)
      rw [Nat.add_assoc, Nat.add_sub_cancel' (Nat.not_lt.mp before)] at later
      exact later
  · have later := rest.stop (by omega)
    rw [Nat.add_assoc] at later
    exact later

theorem span_add_stop (first : span good va n < n) : span good va (n + m) = span good va n := by
  have spans := spans_span good va n
  exact span_eq ⟨by omega, spans.before, fun _ => spans.stop first⟩

end Span

/-- The memory of a process as it sees it: the pages that it may read and write, all of them below `MAXVA`, and its bytes. -/
structure UserMemory (β : Type) where
  readable : Nat → Bool
  writable : Nat → Bool
  byte : Nat → β
  readable_lt : ∀ j, readable j = true → j < maxVa / pgSize
  writable_lt : ∀ j, writable j = true → j < maxVa / pgSize

namespace UserMemory

variable {u : UserMemory β} {src : List β}

def write (u : UserMemory β) (va : Nat) (src : List β) : UserMemory β := { u with byte := paste u.byte va src }

def copyin (u : UserMemory β) (srcva len : Nat) : Int × List β :=
  if _empty : len = 0 then (0, [])
  else if u.readable (srcva / pgSize) then
    let n := min (pgSize - (srcva - pgrounddown srcva)) len
    let rest := copyin u (pgrounddown srcva + pgSize) (len - n)
    (rest.1, segment u.byte srcva n ++ rest.2)
  else (-1, [])
termination_by len
decreasing_by
  have chunk := @chunk_pos srcva len (Nat.pos_of_ne_zero _empty)
  omega

def copyout (u : UserMemory β) (dstva : Nat) (src : List β) : Int × UserMemory β :=
  if _empty : src = [] then (0, u)
  else if u.writable (dstva / pgSize) then
    let n := min (pgSize - (dstva - pgrounddown dstva)) src.length
    copyout (u.write dstva (src.take n)) (pgrounddown dstva + pgSize) (src.drop n)
  else (-1, u)
termination_by src.length
decreasing_by
  have chunk := @chunk_pos dstva src.length (List.length_pos_iff.mpr _empty)
  rw [List.length_drop]
  omega

theorem write_nil : u.write va [] = u := by
  rw [write, paste_nil]

theorem write_append {later : List β} : u.write va (src ++ later) = (u.write va src).write (va + src.length) later := by
  rw [write, write, write, paste_append]

theorem copyout_one (u : UserMemory β) (va : Nat) (ch : β) :
    u.copyout va [ch] = if u.writable (va / pgSize) = true then (0, u.write va [ch]) else (-1, u) := by
  rw [copyout, dif_neg (List.cons_ne_nil _ _)]
  split
  · have chunk := @chunk_pos va 1 Nat.one_pos
    have all : min (pgSize - (va - pgrounddown va)) [ch].length = 1 := by
      rw [List.length_singleton]
      omega
    dsimp only
    rw [all, copyout, dif_pos (show [ch].drop 1 = [] from rfl)]
    rfl
  · rfl

theorem copyin_eq (u : UserMemory β) (va len : Nat) :
    u.copyin va len = (if span u.readable va len = len then 0 else -1, segment u.byte va (span u.readable va len)) := by
  induction len using Nat.strong_induction_on generalizing va with
  | _ len ih =>
    rw [copyin]
    by_cases empty : len = 0
    · rw [dif_pos empty, empty, span_zero, if_pos rfl, segment_zero]
    rw [dif_neg empty]
    by_cases here : u.readable (va / pgSize) = true
    · have chunk := @chunk_pos va len (Nat.pos_of_ne_zero empty)
      have rest := ih (len - min (pgSize - (va - pgrounddown va)) len) (by omega) (pgrounddown va + pgSize)
      rw [if_pos here, span_good empty here]
      dsimp only
      rw [rest]
      by_cases fits : len ≤ pgSize - (va - pgrounddown va)
      · rw [Nat.min_eq_right fits, Nat.sub_self, span_zero, if_pos rfl, Nat.add_zero, if_pos rfl, segment_zero, List.append_nil]
      have inside := @span_le u.readable (pgrounddown va + pgSize) (len - (pgSize - (va - pgrounddown va)))
      rw [Nat.min_eq_left (by omega), segment_add, next_page]
      congr 1
      apply if_congr _ rfl rfl
      omega
    · rw [if_neg here, span_bad (Bool.eq_false_of_not_eq_true here), if_neg (Ne.symm empty), segment_zero]

theorem copyout_eq (u : UserMemory β) (va : Nat) (src : List β) :
    u.copyout va src = (if span u.writable va src.length = src.length then 0 else -1, u.write va (src.take (span u.writable va src.length))) := by
  induction size : src.length using Nat.strong_induction_on generalizing u va src with
  | _ len ih =>
    rw [copyout]
    by_cases empty : src = []
    · have zero : len = 0 := by rw [← size, empty, List.length_nil]
      rw [dif_pos empty, zero, span_zero, if_pos rfl, List.take_zero, write_nil]
    have some : 0 < src.length := List.length_pos_iff.mpr empty
    rw [dif_neg empty]
    by_cases here : u.writable (va / pgSize) = true
    · have chunk := @chunk_pos va src.length some
      have length : (src.drop (min (pgSize - (va - pgrounddown va)) src.length)).length =
          len - min (pgSize - (va - pgrounddown va)) len := by rw [List.length_drop, size]
      have rest := ih _ (by omega) (u.write va (src.take (min (pgSize - (va - pgrounddown va)) src.length))) (pgrounddown va + pgSize) _ length
      change _ = (if span u.writable _ _ = _ then _ else _, write _ _ (List.take (span u.writable _ _) _)) at rest
      rw [if_pos here, rest, span_good (by omega) here, size]
      by_cases fits : len ≤ pgSize - (va - pgrounddown va)
      · rw [Nat.min_eq_right fits, Nat.sub_self, span_zero, if_pos rfl, Nat.add_zero, if_pos rfl, List.take_zero, write_nil]
      have inside := @span_le u.writable (pgrounddown va + pgSize) (len - (pgSize - (va - pgrounddown va)))
      rw [Nat.min_eq_left (by omega), List.take_add, write_append, List.length_take, Nat.min_eq_left (by omega), next_page]
      congr 1
      apply if_congr _ rfl rfl
      omega
    · rw [if_neg here, span_bad (Bool.eq_false_of_not_eq_true here), if_neg (by omega), List.take_zero, write_nil]

end UserMemory

end OShard.Space
