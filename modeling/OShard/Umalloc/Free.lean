import OShard.Umalloc.Shape

namespace OShard.Umalloc

open CircularList Function

section Freed

variable {h : Heap} {start : Nat} {cells pre post : List Cell} {c : Cell} {p : Nat}
  {ys : List Nat} {h' : Heap} {d : Cell} {rest : List Cell}

theorem Shape.nodes (used : c.free = false) :
    h.base :: frees (pre ++ c :: post) = (h.base :: frees pre) ++ frees post := by
  rw [frees_append, frees_cons_false used]
  rfl

section

variable (shape : Shape h start (pre ++ c :: post))

include shape

theorem Shape.behind (used : c.free = false)
    (last : h.base :: frees pre = ys ++ [p]) :
    Behind (h.base :: frees (pre ++ c :: post)) c.addr p ∧ c.addr ∉ h.base :: frees (pre ++ c :: post) ∧
      h.base < c.addr := by
  obtain ⟨mid, front, back⟩ := tiled_append.mp shape.tiled
  obtain ⟨place, positive, rest⟩ := back
  have order := front.le
  have below := shape.below
  have lower : ∀ y ∈ h.base :: frees pre, y < c.addr := by
    intro y member
    rcases List.mem_cons.mp member with rfl | old
    · omega
    · obtain ⟨d, inside, -, rfl⟩ := mem_frees.mp old
      have bounds := front.bounds inside
      omega
  have upper : ∀ y ∈ frees post, c.addr < y := by
    intro y member
    obtain ⟨d, inside, -, rfl⟩ := mem_frees.mp member
    have bounds := rest.bounds inside
    omega
  have sorted := shape.sorted
  rw [Shape.nodes used] at sorted ⊢
  have inside : p ∈ h.base :: frees pre := by
    rw [last]
    exact List.mem_append_right _ List.mem_cons_self
  refine ⟨⟨List.mem_append_left _ inside, lower p inside, fun y member less => ?_⟩, fun member => ?_, by omega⟩
  · rcases List.mem_append.mp member with old | new
    · have first := (List.pairwise_append.mp sorted).1
      rw [last] at first old
      rcases List.mem_append.mp old with before | same
      · exact ((List.pairwise_append.mp first).2.2 y before p List.mem_cons_self).le
      · exact (List.mem_singleton.mp same).le
    · exact absurd (upper y new) (Nat.lt_asymm less)
  · rcases List.mem_append.mp member with old | new
    · exact absurd (lower _ old) (Nat.lt_irrefl _)
    · exact absurd (upper _ new) (Nat.lt_irrefl _)

/-- The state between the two joins: the block has become the cell `d` before `rest`, but `p` does not yet lead to it. -/
structure Joining (h h' : Heap) (p : Nat) (ys : List Nat) (c : Cell) (post : List Cell) (d : Cell) (rest : List Cell) :
    Prop where
  addr : d.addr = c.addr
  isFree : d.free = true
  lives : lives rest = lives post
  grown : c.units ≤ d.units
  fewer : (frees rest).length ≤ (frees post).length
  tiled : Tiled c.addr (d :: rest) h.sz
  sizes : ∀ e ∈ d :: rest, h'.size e.addr = e.units
  merged : Merged (d :: rest)
  ring : Ring (update h'.ptr p c.addr) (ys ++ p :: c.addr :: frees rest)
  kept : ∀ a, a ≠ c.addr → h'.size a = h.size a
  same : h'.base = h.base ∧ h'.sz = h.sz

theorem Shape.joinNext (used : c.free = false) (small : h.sz < 2 ^ 36) (last : h.base :: frees pre = ys ++ [p]) :
    ∃ h' d rest, joinNext h p c.addr = .ok h' ∧ Joining h h' p ys c post d rest := by
  obtain ⟨behind, fresh, above⟩ := shape.behind used last
  have inside := shape.member behind.1
  have next := shape.member (shape.ring.next_mem behind.1)
  obtain ⟨mid, front, back⟩ := tiled_append.mp shape.tiled
  obtain ⟨place, positive, rest⟩ := back
  rw [← place] at rest
  have block : c.addr + 16 ≤ h.sz := by
    have bound := rest.le
    omega
  have size : h.size c.addr = c.units := shape.sizes c (by simp)
  have ring := shape.ring
  have tail : Merged post := (List.isChain_append.mp shape.merged).2.1.tail
  rw [Shape.nodes used, last, List.append_assoc, List.singleton_append] at ring fresh
  have inserted := ring.insertAfter fresh
  have first : (ys ++ [p]).head? = some h.base := by
    rw [← last]
    rfl
  have apart : c.addr + 16 * c.units ≠ h.ptr p → Umalloc.joinNext h p c.addr = .ok (h.setPtr c.addr (h.ptr p)) := by
    intro far
    unfold Umalloc.joinNext
    rw [header_ok inside, header_ok block, size]
    exact if_neg far
  have sizes : ∀ e ∈ (⟨c.addr, c.units, true⟩ : Cell) :: post, h.size e.addr = e.units := by
    intro e member
    rcases List.mem_cons.mp member with rfl | old
    · exact size
    · exact shape.sizes e (by simp [old])
  cases post with
  | nil =>
    have link : h.ptr p = h.base := ring.next_last first
    exact ⟨_, ⟨c.addr, c.units, true⟩, [], apart (by omega), rfl, rfl, rfl, le_rfl, le_rfl, ⟨rfl, positive, rest⟩, sizes,
      List.isChain_singleton _, inserted, fun a other => rfl, rfl, rfl⟩
  | cons e post =>
    obtain ⟨place', positive', rest'⟩ := rest
    cases joined : e.free with
    | false =>
      have far : c.addr + 16 * c.units ≠ h.ptr p := by
        rw [frees_cons_false joined] at ring
        cases free : frees post with
        | nil =>
          rw [free] at ring
          have link : h.ptr p = h.base := ring.next_last first
          omega
        | cons a more =>
          rw [free] at ring
          have link : h.ptr p = a := ring.next_inner
          obtain ⟨d, member, -, rfl⟩ := mem_frees.mp (free ▸ List.mem_cons_self : a ∈ frees post)
          have bounds := rest'.bounds member
          omega
      exact ⟨_, ⟨c.addr, c.units, true⟩, e :: post, apart far, rfl, rfl, rfl, le_rfl, le_rfl,
        ⟨rfl, positive, place', positive', rest'⟩, sizes, List.isChain_cons_cons.mpr ⟨Or.inr joined, tail⟩, inserted, fun a other => rfl, rfl, rfl⟩
    | true =>
      rw [frees_cons_true joined] at ring inserted fresh
      have link : h.ptr p = e.addr := ring.next_inner
      have size' : h.size e.addr = e.units := shape.sizes e (by simp)
      have bound := rest'.le
      have sum : (c.units + e.units) % 2 ^ 32 = c.units + e.units := Nat.mod_eq_of_lt (by omega)
      have result : Umalloc.joinNext h p c.addr =
          .ok ((h.setSize c.addr (c.units + e.units)).setPtr c.addr (h.ptr e.addr)) := by
        unfold Umalloc.joinNext
        rw [header_ok inside, header_ok block, size]
        refine (if_pos (by rw [link, place']; rfl)).trans ?_
        rw [header_ok next, link, size', ← sum]
        rfl
      refine ⟨_, ⟨c.addr, c.units + e.units, true⟩, post, result, rfl, rfl, ?_, Nat.le_add_right _ _, ?_, ⟨rfl, ?_, ?_⟩, ?_, ?_,
        ?_, ?_, rfl, rfl⟩
      · rw [lives_cons_true joined]
      · rw [frees_cons_true joined]
        exact Nat.le_succ _
      · exact Nat.lt_of_lt_of_le positive (Nat.le_add_right _ _)
      · rw [Nat.mul_add, ← Nat.add_assoc]
        exact rest'
      · intro d member
        rcases List.mem_cons.mp member with rfl | old
        · exact update_self _ _ _
        · have bounds := rest'.bounds old
          have other : d.addr ≠ c.addr := by omega
          exact (update_of_ne other _ _).trans (shape.sizes d (by simp [old]))
      · cases post with
        | nil => exact List.isChain_singleton _
        | cons d post =>
          obtain ⟨neighbours, further⟩ := List.isChain_cons_cons.mp tail
          rw [joined] at neighbours
          exact List.isChain_cons_cons.mpr ⟨Or.inr (neighbours.resolve_left nofun), further⟩
      · -- the next cell is taken out behind the block that has been put in
        have taken : Ring (update (update (update h.ptr c.addr (h.ptr p)) p c.addr) c.addr
            (update (update h.ptr c.addr (h.ptr p)) p c.addr e.addr)) (ys ++ p :: c.addr :: frees post) := by
          have longer : ys ++ p :: c.addr :: e.addr :: frees post = (ys ++ [p]) ++ c.addr :: e.addr :: frees post := by
            rw [List.append_assoc]
            rfl
          rw [longer] at inserted
          have shorter := inserted.removeAfter
          rw [List.append_assoc] at shorter
          exact shorter
        have notBlock : e.addr ≠ c.addr := by omega
        have notPlace : e.addr ≠ p := by
          have lower := behind.2.1
          omega
        have order : c.addr ≠ p := Nat.ne_of_gt behind.2.1
        rw [update_of_ne notPlace, update_of_ne notBlock, update_comm order.symm,
          update_idem] at taken
        exact taken
      · intro a other
        exact update_of_ne other _ _

theorem Shape.split :
    Tiled start pre c.addr ∧ 0 < c.units ∧ Tiled (c.addr + 16 * c.units) post h.sz := by
  obtain ⟨mid, front, place, positive, rest⟩ := tiled_append.mp shape.tiled
  exact ⟨place ▸ front, positive, place ▸ rest⟩

theorem Shape.putBehind
    (used : c.free = false) (last : h.base :: frees pre = ys ++ [p]) (joining : Joining h h' p ys c post d rest)
    (busy : ∀ e, pre.getLast? = some e → e.free = false) :
    ∃ h'', joinPrevious h' p c.addr = .ok h'' ∧ h''.sz = h.sz ∧ h''.base = h.base ∧
      Shape { h'' with freep := p } start (pre ++ d :: rest) := by
  obtain ⟨behind, -, above⟩ := shape.behind used last
  obtain ⟨front, positive, back⟩ := shape.split
  obtain ⟨base, size⟩ := joining.same
  have inside := shape.member behind.1
  have block : c.addr + 16 ≤ h.sz := by
    have bound := back.le
    omega
  have member : p ∈ h.base :: frees pre := by
    rw [last]
    exact List.mem_append_right _ List.mem_cons_self
  have sizes : ∀ e ∈ pre, h'.size e.addr = e.units := by
    intro e inside
    have bounds := front.bounds inside
    rw [joining.kept e.addr (by omega)]
    exact shape.sizes e (List.mem_append_left _ inside)
  have far : p + headerBytes * h'.size p ≠ c.addr := by
    rcases List.mem_cons.mp member with rfl | free
    · rw [joining.kept _ (Nat.ne_of_lt above), shape.zero]
      exact Nat.ne_of_lt above
    obtain ⟨e, here, isFree, rfl⟩ := mem_frees.mp free
    rw [sizes e here]
    rcases List.eq_nil_or_concat pre with rfl | ⟨front', f, whole⟩
    · cases here
    rw [List.concat_eq_append] at whole
    subst whole
    have used' := busy f (List.getLast?_concat)
    obtain ⟨mid, front₁, place, positive', done⟩ := tiled_append.mp front
    have other : e ∈ front' := by
      rcases List.mem_append.mp here with old | same
      · exact old
      · rw [List.mem_singleton.mp same, used'] at isFree
        cases isFree
    have bounds := front₁.bounds other
    have ends : mid + 16 * f.units = c.addr := done
    unfold headerBytes
    omega
  have result : Umalloc.joinPrevious h' p c.addr = .ok (h'.setPtr p c.addr) := by
    unfold Umalloc.joinPrevious
    rw [header_ok (size ▸ inside), header_ok (size ▸ block)]
    exact if_neg far
  have nodes : h.base :: frees (pre ++ d :: rest) = ys ++ p :: c.addr :: frees rest := by
    rw [frees_append, frees_cons_true joining.isFree, joining.addr, ← List.cons_append, last, List.append_assoc]
    rfl
  refine ⟨_, result, size, base, ?_, ?_, ?_, ?_, ?_, ?_, ?_, ?_⟩
  · exact size ▸ tiled_append.mpr ⟨c.addr, front, joining.tiled⟩
  · intro e inside
    rcases List.mem_append.mp inside with old | new
    · exact sizes e old
    · exact joining.sizes e new
  · change Ring (update h'.ptr p c.addr) (h'.base :: frees (pre ++ d :: rest))
    rw [base, nodes]
    exact joining.ring
  · change h'.size h'.base = 0
    rw [base, joining.kept _ (Nat.ne_of_lt above), shape.zero]
  · change p ∈ h'.base :: frees (pre ++ d :: rest)
    rw [base, nodes]
    exact List.mem_append_right _ List.mem_cons_self
  · change h'.base + 16 ≤ start
    rw [base]
    exact shape.below
  · change 0 < h'.base
    rw [base]
    exact shape.positive
  · refine List.isChain_append.mpr ⟨(List.isChain_append.mp shape.merged).1, joining.merged, fun e ending f _ => ?_⟩
    exact Or.inl (busy e ending)

end

theorem Shape.joinPrevious {e : Cell}
    (shape : Shape h start (pre ++ [e] ++ c :: post)) (used : c.free = false) (small : h.sz < 2 ^ 36)
    (last : h.base :: frees (pre ++ [e]) = ys ++ [p]) (joining : Joining h h' p ys c post d rest) (isFree : e.free = true) :
    ∃ h'', joinPrevious h' p c.addr = .ok h'' ∧ h''.sz = h.sz ∧ h''.base = h.base ∧
      Shape { h'' with freep := p } start (pre ++ ⟨e.addr, e.units + d.units, true⟩ :: rest) := by
  obtain ⟨behind, -, above⟩ := shape.behind used last
  obtain ⟨front, positive, back⟩ := shape.split
  obtain ⟨mid, front₁, place, positive', done⟩ := tiled_append.mp front
  have ends : mid + 16 * e.units = c.addr := done
  obtain ⟨-, positive'', further⟩ := joining.tiled
  obtain ⟨base, size⟩ := joining.same
  have inside := shape.member behind.1
  have block : c.addr + 16 ≤ h.sz := by
    have bound := back.le
    omega
  rw [frees_append, frees_cons_true isFree, ← List.cons_append] at last
  obtain ⟨rfl, same⟩ := List.append_inj' last rfl
  have equal : e.addr = p := (List.cons.inj same).1
  subst equal
  have other : e.addr ≠ c.addr := Nat.ne_of_lt behind.2.1
  have left : h'.size e.addr = e.units := by
    rw [joining.kept _ other]
    exact shape.sizes e (by simp)
  have right : h'.size c.addr = d.units := by
    rw [← joining.addr]
    exact joining.sizes d List.mem_cons_self
  have sum : (e.units + d.units) % 2 ^ 32 = e.units + d.units := by
    have bound := further.le
    exact Nat.mod_eq_of_lt (by omega)
  have result : Umalloc.joinPrevious h' e.addr c.addr =
      .ok ((h'.setSize e.addr (e.units + d.units)).setPtr e.addr (h'.ptr c.addr)) := by
    unfold Umalloc.joinPrevious
    rw [header_ok (size ▸ inside), header_ok (size ▸ block), left, right, ← sum]
    exact if_pos (by rw [place]; exact ends)
  have nodes : h.base :: frees (pre ++ (⟨e.addr, e.units + d.units, true⟩ : Cell) :: rest) =
      (h.base :: frees pre) ++ e.addr :: frees rest := by
    rw [frees_append, frees_cons_true rfl]
    rfl
  have baseAway : h.base ≠ e.addr := by
    have below := shape.below
    have order := front₁.le
    omega
  refine ⟨_, result, size, base, ?_, ?_, ?_, ?_, ?_, ?_, ?_, ?_⟩
  · refine size ▸ tiled_append.mpr ⟨mid, front₁, place, Nat.lt_of_lt_of_le positive' (Nat.le_add_right _ _), ?_⟩
    rw [Nat.mul_add, ← Nat.add_assoc, ends]
    exact further
  · intro f inside'
    change update h'.size e.addr (e.units + d.units) f.addr = f.units
    rcases List.mem_append.mp inside' with old | new
    · have bounds := front₁.bounds old
      rw [update_of_ne (by omega), joining.kept _ (by omega)]
      exact shape.sizes f (by simp [old])
    · rcases List.mem_cons.mp new with rfl | later
      · exact update_self _ _ _
      · have bounds := further.bounds later
        rw [update_of_ne (by omega)]
        exact joining.sizes f (List.mem_cons_of_mem _ later)
  · change Ring (update h'.ptr e.addr (h'.ptr c.addr)) (h'.base :: frees (pre ++ _ :: rest))
    have taken := joining.ring.removeAfter
    rw [update_idem, update_of_ne other.symm] at taken
    rw [base, nodes]
    exact taken
  · change update h'.size e.addr (e.units + d.units) h'.base = 0
    rw [base, update_of_ne baseAway, joining.kept _ (Nat.ne_of_lt above), shape.zero]
  · change e.addr ∈ h'.base :: frees (pre ++ _ :: rest)
    rw [base, nodes]
    exact List.mem_append_right _ List.mem_cons_self
  · change h'.base + 16 ≤ start
    rw [base]
    exact shape.below
  · change 0 < h'.base
    rw [base]
    exact shape.positive
  · obtain ⟨first, -, -⟩ := List.isChain_append.mp shape.merged
    obtain ⟨first', -, seam⟩ := List.isChain_append.mp first
    have behindD : Merged rest := joining.merged.tail
    refine List.isChain_append.mpr ⟨first', ?_, fun f ending g head => ?_⟩
    · cases rest with
      | nil => exact List.isChain_singleton _
      | cons f rest =>
        have neighbours := (List.isChain_cons_cons.mp joining.merged).1
        rw [joining.isFree] at neighbours
        exact List.isChain_cons_cons.mpr ⟨Or.inr (neighbours.resolve_left nofun), behindD⟩
    · have neighbours := seam f ending e rfl
      rw [isFree] at neighbours
      exact Or.inl (neighbours.resolve_right nofun)

theorem Shape.free (shape : Shape h start (pre ++ c :: post)) (used : c.free = false) (small : h.sz < 2 ^ 36) :
    ∃ h' cells, Umalloc.free h (c.addr + 16) = .ok h' ∧ Shape h' start cells ∧ lives cells = lives pre ++ lives post ∧
      h'.sz = h.sz ∧ h'.base = h.base ∧ (frees cells).length ≤ (frees (pre ++ post)).length + 1 ∧
      ∃ d ∈ cells, d.free = true ∧ c.units ≤ d.units := by
  obtain ⟨ys, p, last⟩ : ∃ ys p, h.base :: frees pre = ys ++ [p] := by
    rcases List.eq_nil_or_concat (h.base :: frees pre) with none | ⟨ys, p, whole⟩
    · cases none
    · exact ⟨ys, p, whole.trans List.concat_eq_append⟩
  obtain ⟨behind, fresh, above⟩ := shape.behind used last
  have found := shape.findPlace above fresh behind
  obtain ⟨h', d, rest, first, joining⟩ := shape.joinNext used small last
  have result : ∀ {h''}, Umalloc.joinPrevious h' p c.addr = .ok h'' →
      Umalloc.free h (c.addr + 16) = .ok { h'' with freep := p } := by
    intro h'' second
    unfold Umalloc.free
    rw [show c.addr + 16 - headerBytes = c.addr from Nat.add_sub_cancel c.addr 16]
    dsimp only
    rw [found]
    change (do
      let h ← Umalloc.joinNext h p c.addr
      let h ← Umalloc.joinPrevious h p c.addr
      return { h with freep := p } : Except Fault Heap) = _
    rw [first]
    change (do
      let h ← Umalloc.joinPrevious h' p c.addr
      return { h with freep := p } : Except Fault Heap) = _
    rw [second]
    rfl
  by_cases busy : ∀ e, pre.getLast? = some e → e.free = false
  · obtain ⟨h'', second, size, base, final⟩ := shape.putBehind used last joining busy
    refine ⟨_, _, result second, final, ?_, size, base, ?_, d, by simp, joining.isFree, joining.grown⟩
    · rw [lives_append, lives_cons_true joining.isFree, joining.lives]
    · have fewer := joining.fewer
      rw [frees_append, frees_append, frees_cons_true joining.isFree, List.length_append, List.length_append, List.length_cons]
      omega
  push Not at busy
  obtain ⟨e, ending, isFree⟩ := busy
  obtain ⟨front, rfl⟩ := List.getLast?_eq_some_iff.mp ending
  rw [Bool.ne_false_iff] at isFree
  obtain ⟨h'', second, size, base, final⟩ := shape.joinPrevious used small last joining isFree
  refine ⟨_, _, result second, final, ?_, size, base, ?_, ⟨e.addr, e.units + d.units, true⟩, by simp, rfl,
    Nat.le_trans joining.grown (Nat.le_add_left _ _)⟩
  · rw [lives_append, lives_cons_true rfl, lives_append, lives_cons_true isFree, joining.lives]
    exact congrArg (· ++ lives post) (List.append_nil _).symm
  · have fewer := joining.fewer
    rw [frees_append, frees_append, frees_append, frees_cons_true rfl, frees_cons_true isFree, List.length_append,
      List.length_append, List.length_append, List.length_cons, List.length_cons]
    omega

end Freed

end OShard.Umalloc
