import OShard.Base.LinkedList
import OShard.Kernel.Machine

namespace OShard

open LinkedList

def lstInit (m : Links Nat) (lst : Nat) : Links Nat :=
  let m := m.setNext lst lst
  m.setPrev lst lst

def lstEmpty (m : Links Nat) (lst : Nat) : Bool := m.next lst == lst

def lstRemove (m : Links Nat) (e : Nat) : Links Nat :=
  let m := m.setNext (m.prev e) (m.next e)
  m.setPrev (m.next e) (m.prev e)

def lstPop (m : Links Nat) (lst : Nat) : Except Fault (Nat × Links Nat) :=
  if m.next lst = lst then .error (.panic "lst_pop")
  else
    let p := m.next lst
    .ok (p, lstRemove m p)

def lstPush (m : Links Nat) (lst p : Nat) : Links Nat :=
  let e := p
  let m := m.setNext e (m.next lst)
  let m := m.setPrev e lst
  let m := m.setPrev (m.next lst) p
  m.setNext lst e

theorem lstInit_ring (m : Links Nat) (lst : Nat) : Ring (lstInit m lst) lst [] :=
  Ring.nil (by simp [lstInit]) (by simp [lstInit])

theorem lstInit_other (m : Links Nat) {lst c : Nat} (other : c ≠ lst) :
    (lstInit m lst).next c = m.next c ∧ (lstInit m lst).prev c = m.prev c := by
  simp [lstInit, other]

section Lists

variable {ι : Type} [DecidableEq ι] {m : Links Nat} {headers : ι → Nat} {lists : ι → List Nat}
  {scope : ι → Prop} (rings : Rings m headers lists scope) {i : ι} (inside : scope i)

include rings inside

omit [DecidableEq ι] in
theorem lstEmpty_iff : lstEmpty m (headers i) = true ↔ lists i = [] := by
  rw [lstEmpty, beq_iff_eq]
  exact (rings.ring i inside).empty_iff

theorem lstRemove_rings {e : Nat} {xs ys : List Nat} (position : lists i = xs ++ e :: ys) :
    Rings (lstRemove m e) headers (Function.update lists i (xs ++ ys)) scope := by
  have ring := rings.ring i inside
  rw [position] at ring
  obtain ⟨before, after⟩ := segment_append.mp ring.linked
  have self : m.prev e ≠ e := by
    intro same
    have member := before.prev_mem
    rw [same] at member
    have nodup : ((headers i :: xs) ++ e :: ys).Nodup := by simpa using ring.nodup
    exact (List.nodup_append.mp nodup).2.2 e member e (by simp) rfl
  refine rings.erase inside position ?_ ?_
  · intro c
    simp [lstRemove]
  · intro c
    simp [lstRemove, self.symm]

theorem lstPop_rings {e : Nat} {ys : List Nat} (position : lists i = e :: ys) :
    ∃ m', lstPop m (headers i) = .ok (e, m') ∧ Rings m' headers (Function.update lists i ys) scope := by
  have ring := rings.ring i inside
  have nonempty : m.next (headers i) ≠ headers i := fun same => by
    rw [ring.empty_iff, position] at same
    cases same
  have first : m.next (headers i) = e := by rw [ring.next_header, position]; rfl
  have start : lists i = [] ++ e :: ys := position
  refine ⟨lstRemove m e, ?_, lstRemove_rings rings inside start⟩
  unfold lstPop
  rw [if_neg nonempty, first]

theorem lstPush_rings {e : Nat} (fresh : ∀ j, scope j → e ∉ headers j :: lists j) :
    Rings (lstPush m (headers i) e) headers (Function.update lists i (e :: lists i)) scope := by
  have away : e ≠ headers i := fun same => fresh i inside (by simp [same])
  refine rings.insert inside fresh ?_ ?_
  · intro c
    simp only [lstPush, Links.setNext_next, Links.setPrev_next]
  · intro c
    simp only [lstPush, Links.setNext_prev, Links.setPrev_prev, Links.setNext_next, Links.setPrev_next,
      if_neg away.symm]

/-- Seen as sequences, the lists are changed by push-front, pop-front and removal, and the other lists not at all. -/
theorem lists_refine_sequences : (lstEmpty m (headers i) = true ↔ lists i = []) ∧
    (∀ p, (∀ j, scope j → p ∉ headers j :: lists j) →
      Rings (lstPush m (headers i) p) headers (Function.update lists i (p :: lists i)) scope) ∧
    (∀ p rest, lists i = p :: rest →
      ∃ m', lstPop m (headers i) = .ok (p, m') ∧ Rings m' headers (Function.update lists i rest) scope) ∧
    ∀ e ∈ lists i, Rings (lstRemove m e) headers (Function.update lists i ((lists i).erase e)) scope := by
  refine ⟨lstEmpty_iff rings inside, fun p fresh => lstPush_rings rings inside fresh,
    fun p rest position => lstPop_rings rings inside position, fun e member => ?_⟩
  obtain ⟨xs, ys, position⟩ := List.append_of_mem member
  have nodup := (List.nodup_cons.mp (rings.ring i inside).nodup).2
  rw [position] at nodup ⊢
  have first : e ∉ xs := fun early => (List.nodup_append.mp nodup).2.2 e early e List.mem_cons_self rfl
  rw [List.erase_append_right _ first, List.erase_cons_head]
  exact lstRemove_rings rings inside position

end Lists

theorem lists_refine_sequences_two : ∃ m : Links Nat,
    Rings m (fun b : Bool => b.toNat) (fun _ => []) (fun _ => True) ∧
    Rings (lstPush m 1 9) (fun b : Bool => b.toNat) (Function.update (fun _ => []) true [9]) (fun _ => True) := by
  have rings : Rings ⟨id, id⟩ (fun b : Bool => b.toNat) (fun _ => []) (fun _ => True) :=
    ⟨fun _ _ => Ring.nil rfl rfl, by simp⟩
  refine ⟨_, rings, (lists_refine_sequences rings (i := true) trivial).2.1 9 ?_⟩
  decide

end OShard
