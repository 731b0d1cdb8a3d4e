import OShard.Space.Transfer

namespace OShard.Space

open Separation Assertion Prog Overlay

variable {ram : Ram} {supply : Supply} {root va level : Nat} {entry : Nat → Nat} {g h : Heap Page}

section Tables

/-- The tables that can be reached from `root` are there, and so are the pages that a process can read. -/
structure Present (g : Heap Page) (root : Nat) : Prop where
  tables : ∀ a, TablePage g 2 root a → g a ≠ none
  pages : ∀ va, va < maxVa → User (lookup g va 2 root) → g (pte2pa (lookup g va 2 root)) ≠ none ∧ pte2pa (lookup g va 2 root) ≠ 0

theorem UserSpace.present (space : UserSpace ram root entry h g) : Present g root := by
  constructor
  · intro a there
    obtain ⟨page, here⟩ := Option.ne_none_iff_exists'.mp ((space.table.page_iff space.within).mp there)
    exact (space.within a page here).trans_ne (Option.some_ne_none page)
  · intro va below user
    rw [space.lookup below] at user ⊢
    exact space.reads.page _ (UserSpace.below_iff.mp below) user

theorem lookup_page : lookup g (va / pgSize * pgSize) level root = lookup g va level root := by
  have same : ∀ level, px level (va / pgSize * pgSize) = px level va := by
    intro level
    rw [px_eq, px_eq, show va / pgSize * pgSize / 4096 = va / 4096 from Nat.mul_div_cancel _ (by decide)]
  induction level generalizing root with
  | zero => simp only [lookup, same]
  | succ level ih => simp only [lookup, same, ih]

theorem walkFrom_view (tables : ∀ a, TablePage g level root a → g a ≠ none) :
    ∃ r, (walkFrom va false level root).view g = some r ∧
      match r with
      | none => lookup g va level root = 0
      | some (t, k) => ∃ page, g t = some page ∧ page.word k = lookup g va level root := by
  induction level generalizing root with
  | zero =>
    obtain ⟨page, here⟩ := Option.ne_none_iff_exists'.mp (tables root .root)
    exact ⟨_, rfl, page, here, by rw [lookup, here]⟩
  | succ level ih =>
    obtain ⟨page, here⟩ := Option.ne_none_iff_exists'.mp (tables root .root)
    rw [walkFrom, view_bind, load_view here, lookup, here]
    dsimp only [Option.bind]
    by_cases valid : page.word (px (level + 1) va) &&& pteV ≠ 0
    · rw [if_pos valid, if_pos valid]
      exact ih fun a there => tables a (.child px_lt here valid there)
    · rw [if_neg valid, if_neg valid]
      exact ⟨none, rfl, rfl⟩

theorem Present.reads (present : Present g root) : ReadSpace root (fun j => lookup g (j * pgSize) 2 root) g := by
  refine ⟨fun va => ?_, fun j below user => present.pages _ (by unfold maxVa pgSize; omega) user⟩
  rw [walkaddr, userAddr]
  by_cases above : maxVa ≤ va
  · rw [if_pos above, if_pos above]
    rfl
  obtain ⟨r, seen, found⟩ := @walkFrom_view root va 2 g present.tables
  rw [if_neg above, if_neg above, view_bind, walk, if_neg above, seen, show lookup g (va / 4096 * pgSize) 2 root = _ from lookup_page]
  cases r with
  | none =>
    rw [found]
    rfl
  | some slot =>
    obtain ⟨page, here, word⟩ := found
    change (load slot.1 slot.2 >>= _ : Prog Page Nat).view g = _
    rw [view_bind, load_view here, word]
    dsimp only [Option.bind]
    split
    · rfl
    · split <;> rfl

end Tables

section Strings

def userByte (g : Heap Page) (root va : Nat) : Option Nat :=
  if va < maxVa ∧ User (lookup g va 2 root) then physical g (pte2pa (lookup g va 2 root)) (va % pgSize) else none

def Ends (g : Heap Page) (root va i : Nat) : Prop :=
  userByte g root (va + i) = some 0 ∧ ∀ j < i, ∃ b, b ≠ 0 ∧ userByte g root (va + j) = some b

def putBytes (r : List Nat × Bool) : List Nat := if r.2 then r.1 ++ [0] else r.1

def fetchstrLength (r : List Nat × Bool) : Int := if r.2 then ((putBytes r).takeWhile (· ≠ 0)).length else -1

abbrev Present.memory (g : Heap Page) (root : Nat) : UserMemory Nat := userMemory g fun j => lookup g (j * pgSize) 2 root

variable (present : Present g root)

include present

theorem Present.userByte : userByte g root va =
    if (memory g root).readable (va / pgSize) = true then some ((memory g root).byte va) else none := by
  have same : va < maxVa ∧ User (lookup g va 2 root) ↔ (memory g root).readable (va / pgSize) = true := by
    rw [UserSpace.readable_iff, lookup_page, ← UserSpace.below_iff]
  rw [Space.userByte]
  by_cases readable : (memory g root).readable (va / pgSize) = true
  · obtain ⟨below, user⟩ := UserSpace.readable_iff.mp readable
    rw [if_pos readable, if_pos (same.mpr readable), ← present.reads.physical_byte below user, lookup_page]
  · rw [if_neg readable, if_neg fun mapped => readable (same.mp mapped)]

theorem Present.ends_iff {max i : Nat} : i < max ∧ Ends g root va i ↔ i < span (memory g root).readable va max ∧
    (memory g root).byte (va + i) = 0 ∧ ∀ j < i, (memory g root).byte (va + j) ≠ 0 := by
  have spans := spans_span (memory g root).readable va max
  simp only [Ends, present.userByte]
  constructor
  · rintro ⟨below, zero, before⟩
    refine ⟨?_, by grind, by grind⟩
    by_contra beyond
    have stop := spans.stop (by omega)
    rcases Nat.lt_or_eq_of_le (Nat.not_lt.mp beyond) with less | same
    · obtain ⟨b, -, here⟩ := before _ less
      simp [stop] at here
    · simp [same ▸ stop] at zero
  · rintro ⟨below, zero, before⟩
    have all : ∀ j ≤ i, (memory g root).readable ((va + j) / pgSize) = true := fun j le => spans.before j (by omega)
    exact ⟨Nat.lt_of_lt_of_le below spans.within, by rw [if_pos (all i (Nat.le_refl i)), zero],
      fun j less => ⟨_, before j less, if_pos (all j less.le)⟩⟩

omit present in
theorem cut_segment {f : Nat → Nat} {o m i : Nat} (below : i < m) (zero : f (o + i) = 0) (before : ∀ j < i, f (o + j) ≠ 0) :
    cut (segment f o m) = (segment f o i, true) := by
  obtain ⟨k, rfl⟩ := Nat.exists_eq_add_of_lt below
  have plain : 0 ∉ segment f o i := by
    simpa [Overlay.segment] using before
  have start : segment f (o + i) (k + 1) = 0 :: segment f (o + i + 1) k := by
    rw [Nat.add_comm k, segment_add]
    simp [Overlay.segment, zero]
  rw [Nat.add_assoc, segment_add, cut_append, if_neg plain, start]
  simp [cut]

/-- `copyinstr` ends, without a panic. It returns 0 exactly if the string ends within `max` bytes that can be read, and has put
    it at `dst` then; otherwise too it writes no more than `max` bytes there. -/
theorem copyinstr_exact (srcva max : Nat) :
    Acc (fun c c' : Heap Page × Prog Page (List Nat × Bool) => Prog.Step supply c' c) (g, copyinstr root srcva max) ∧
    ∀ (freed : List Nat) (g' : Heap Page) (p' : Prog Page (List Nat × Bool)), Run supply (g, copyinstr root srcva max) freed (g', p') →
      p'.Safe g' ∧ ∀ r, p' = .done r → g' = g ∧ (putBytes r).length ≤ max ∧
        ((r.2 = true ∧ ∃ i < max, Ends g root srcva i ∧ fetchstrLength r = i ∧
            (putBytes r).map some = (List.range (i + 1)).map fun j => userByte g root (srcva + j)) ∨
          (r.2 = false ∧ fetchstrLength r = -1 ∧ ∀ i < max, ¬Ends g root srcva i)) := by
  refine ⟨step_acc _ _, fun freed g' p' run => ?_⟩
  have seen : (copyinstr root srcva max).wp supply (fun r g' => (r, g') = (_, g)) g :=
    wp_of_view (present.reads.copyinstr srcva max) rfl
  have holds := run.wp seen
  have safe := wp_safe (Heap.apart_empty g') holds
  rw [Heap.union_empty] at safe
  refine ⟨safe, ?_⟩
  rintro r rfl
  obtain ⟨rfl, rfl⟩ := Prod.mk.inj holds
  have spans := spans_span (Present.memory g' root).readable srcva max
  refine ⟨rfl, ?_⟩
  by_cases found : ∃ i, i < max ∧ Ends g' root srcva i
  · obtain ⟨i, below, here⟩ := found
    obtain ⟨inside, zero, before⟩ := present.ends_iff.mp ⟨below, here⟩
    have plain : ∀ b ∈ segment (Present.memory g' root).byte srcva i, decide (b ≠ 0) = true := by
      simpa [Overlay.segment] using before
    have put : putBytes (segment (Present.memory g' root).byte srcva i, true) = segment (Present.memory g' root).byte srcva (i + 1) := by
      rw [segment_add]
      simp [putBytes, Overlay.segment, zero]
    rw [cut_segment inside zero before, fetchstrLength, put, segment_length]
    refine ⟨below, .inl ⟨rfl, i, below, here, ?_, ?_⟩⟩
    · rw [if_pos rfl, segment_add, List.takeWhile_append_of_pos plain]
      simp [Overlay.segment, zero]
    · rw [Overlay.segment, List.map_map]
      refine List.map_congr_left fun j member => ?_
      rw [present.userByte, if_pos (spans.before j (by rw [List.mem_range] at member; omega))]
      rfl
  · have none : 0 ∉ segment (Present.memory g' root).byte srcva (span (Present.memory g' root).readable srcva max) := by
      classical
      simp only [Overlay.segment, List.mem_map, List.mem_range]
      intro some
      refine found ⟨Nat.find some, present.ends_iff.mpr ⟨(Nat.find_spec some).1, (Nat.find_spec some).2, fun j less zero => ?_⟩⟩
      exact Nat.find_min some less ⟨less.trans (Nat.find_spec some).1, zero⟩
    rw [cut, if_neg none, putBytes, if_neg Bool.false_ne_true, segment_length]
    exact ⟨spans.within, .inr ⟨rfl, rfl, fun i below here => found ⟨i, below, here⟩⟩⟩

end Strings

def oneString : Heap Page × Prog Page (List Nat × Bool) :=
  follow sixteenPages.pool Page.zero 20 [] (onePage.1.put 0x80200000 (some Page.zero)) (copyinstr 0x80100000 0x1FFF 2)

/-- The last byte of the page is a NUL, so the next page is not looked at. -/
theorem copyinstr_exact_last : ∃ freed g', Run (sixteenPages.supply True) (onePage.1.put 0x80200000 (some Page.zero),
    copyinstr 0x80100000 0x1FFF 2) freed (g', .done ([], true)) ∧ Ends (onePage.1.put 0x80200000 (some Page.zero)) 0x80100000 0x1FFF 0 := by
  obtain ⟨freed, run⟩ : ∃ freed, Run (sixteenPages.supply True) (onePage.1.put 0x80200000 (some Page.zero),
      copyinstr 0x80100000 0x1FFF 2) freed (oneString.1, .done ([], true)) :=
    follow_done (fun _ => trivial) (by decide +kernel)
  refine ⟨freed, oneString.1, run, ?_⟩
  rcases (((copyinstr_exact onePage_space.present _ _).2 _ _ _ run).2 _ rfl).2.2 with ⟨-, i, -, ends, length, -⟩ | ⟨wrong, -⟩
  · cases (Int.ofNat.inj length : 0 = i)
    exact ends
  · cases wrong

end OShard.Space
