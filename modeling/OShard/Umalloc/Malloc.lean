import OShard.Umalloc.Free

namespace OShard.Umalloc

open CircularList Function

section Malloc

variable {h : Heap} {start : Nat} {cells pre post : List Cell} {c : Cell} {p nunits : Nat}

theorem Shape.take (shape : Shape h start cells) (grants : Bool) (positive : 0 < nunits) {prevp : Nat}
    (member : prevp ∈ h.base :: frees cells) (fits : nunits ≤ h.size (h.ptr prevp)) (fuel : Nat) :
    ∃ r h' cells', search grants nunits (fuel + 1) h prevp (h.ptr prevp) = .ok (r, h') ∧ r ≠ 0 ∧ Shape h' start cells' ∧
      (lives cells').Perm ((r, nunits) :: lives cells) ∧ h'.sz = h.sz ∧ h'.base = h.base := by
  have here := shape.ring.next_mem member
  have inside := shape.member here
  have inside' := shape.member member
  -- the cell is not `base`, whose size is 0
  obtain ⟨c, found, isFree, place⟩ : ∃ c ∈ cells, c.free = true ∧ c.addr = h.ptr prevp := by
    rcases List.mem_cons.mp here with base | old
    · rw [base, shape.zero] at fits
      omega
    · exact mem_frees.mp old
  obtain ⟨pre, post, rfl⟩ := List.append_of_mem found
  rw [← place] at fits inside here ⊢
  have size := shape.sizes c found
  rw [size] at fits
  obtain ⟨front, cellPositive, back⟩ := shape.split
  have bound := back.le
  have below := shape.below
  have order := front.le
  have nodes : h.base :: frees (pre ++ c :: post) = (h.base :: frees pre) ++ c.addr :: frees post := by
    rw [frees_append, frees_cons_true isFree]
    rfl
  obtain ⟨first, second, seam⟩ := List.isChain_append.mp shape.merged
  have before : ∀ e, pre.getLast? = some e → e.free = false := by
    intro e ending
    have neighbours := seam e ending c rfl
    rw [isFree] at neighbours
    exact neighbours.resolve_right nofun
  by_cases exact' : c.units = nunits
  · -- the predecessor in the list leads past the cell
    obtain ⟨ys, q, last⟩ : ∃ ys q, h.base :: frees pre = ys ++ [q] := by
      rcases List.eq_nil_or_concat (h.base :: frees pre) with none | ⟨ys, q, whole⟩
      · cases none
      · exact ⟨ys, q, whole.trans List.concat_eq_append⟩
    have ring := shape.ring
    rw [nodes, last, List.append_assoc, List.singleton_append] at ring
    have same : prevp = q := by
      refine shape.ring.next_injective member ?_ (place.symm.trans ring.next_inner.symm)
      rw [nodes, last]
      simp
    subst same
    have removed := ring.removeAfter
    have nodes' : h.base :: frees (pre ++ (⟨c.addr, c.units, false⟩ : Cell) :: post) = ys ++ prevp :: frees post := by
      rw [frees_append, frees_cons_false rfl, ← List.cons_append, last, List.append_assoc]
      rfl
    have result : search grants nunits (fuel + 1) h prevp c.addr =
        .ok (c.addr + 16, { h.setPtr prevp (h.ptr c.addr) with freep := prevp }) := by
      rw [search, header_ok inside, size]
      refine (if_pos fits).trans ((if_pos exact').trans ?_)
      rw [header_ok inside']
      rfl
    refine ⟨_, _, pre ++ ⟨c.addr, c.units, false⟩ :: post, result, Nat.succ_ne_zero _,
      ⟨tiled_append.mpr ⟨c.addr, front, rfl, cellPositive, back⟩, ?_, ?_, shape.zero, ?_, below, shape.positive, ?_⟩, ?_, rfl,
      rfl⟩
    · intro e inside''
      rcases List.mem_append.mp inside'' with old | new
      · exact shape.sizes e (List.mem_append_left _ old)
      · rcases List.mem_cons.mp new with rfl | later
        · exact size
        · exact shape.sizes e (by simp [later])
    · change Ring (update h.ptr prevp (h.ptr c.addr)) (h.base :: frees (pre ++ _ :: post))
      rw [nodes']
      exact removed
    · change prevp ∈ h.base :: frees (pre ++ _ :: post)
      rw [nodes']
      simp
    · refine List.isChain_append.mpr ⟨first, ?_, fun e ending f _ => Or.inl (before e ending)⟩
      cases post with
      | nil => exact List.isChain_singleton _
      | cons e post => exact List.isChain_cons_cons.mpr ⟨Or.inl rfl, second.tail⟩
    · rw [lives_append, lives_append, lives_cons_false rfl, lives_cons_true isFree, exact']
      exact List.perm_middle
  · -- the end of the cell is cut off
    have away : c.addr + 16 * (c.units - nunits) ≠ c.addr := by omega
    have apart : ∀ e ∈ pre ++ post, e.addr ≠ c.addr ∧ e.addr ≠ c.addr + 16 * (c.units - nunits) := by
      intro e member
      rcases List.mem_append.mp member with old | new
      · have bounds := front.bounds old
        omega
      · have bounds := back.bounds new
        omega
    have result : search grants nunits (fuel + 1) h prevp c.addr =
        .ok (c.addr + 16 * (c.units - nunits) + 16, { (h.setSize c.addr (c.units - nunits)).setSize
          (c.addr + 16 * (c.units - nunits)) nunits with freep := prevp }) := by
      rw [search, header_ok inside, size]
      refine (if_pos fits).trans ((if_neg exact').trans ?_)
      have block : c.addr + 16 * (c.units - nunits) + 16 ≤ (h.setSize c.addr (c.units - nunits)).sz := by
        change _ ≤ h.sz
        omega
      dsimp only [headerBytes]
      rw [header_ok block]
      rfl
    refine ⟨_, _, pre ++ ⟨c.addr, c.units - nunits, true⟩ :: ⟨c.addr + 16 * (c.units - nunits), nunits, false⟩ :: post,
      result, Nat.succ_ne_zero _, ⟨tiled_append.mpr ⟨c.addr, front, rfl, ?_, rfl, positive, ?_⟩, ?_, ?_, ?_, ?_, below,
      shape.positive, ?_⟩, ?_, rfl, rfl⟩
    · change 0 < c.units - nunits
      omega
    · change Tiled (c.addr + 16 * (c.units - nunits) + 16 * nunits) post h.sz
      rw [Nat.add_assoc, ← Nat.mul_add, Nat.sub_add_cancel fits]
      exact back
    · intro e inside''
      change update (update h.size c.addr (c.units - nunits)) (c.addr + 16 * (c.units - nunits)) nunits
        e.addr = e.units
      rcases List.mem_append.mp inside'' with old | new
      · have others := apart e (List.mem_append_left _ old)
        rw [update_of_ne others.2, update_of_ne others.1]
        exact shape.sizes e (List.mem_append_left _ old)
      rcases List.mem_cons.mp new with rfl | later
      · rw [update_of_ne away.symm, update_self]
      rcases List.mem_cons.mp later with rfl | last
      · exact update_self _ _ _
      · have others := apart e (List.mem_append_right _ last)
        rw [update_of_ne others.2, update_of_ne others.1]
        exact shape.sizes e (by simp [last])
    · change Ring h.ptr (h.base :: frees (pre ++ _ :: _ :: post))
      rw [frees_append, frees_cons_true rfl, frees_cons_false rfl, ← List.cons_append]
      exact nodes ▸ shape.ring
    · change update (update h.size c.addr (c.units - nunits)) (c.addr + 16 * (c.units - nunits)) nunits
        h.base = 0
      rw [update_of_ne (by omega), update_of_ne (by omega)]
      exact shape.zero
    · change prevp ∈ h.base :: frees (pre ++ _ :: _ :: post)
      rw [frees_append, frees_cons_true rfl, frees_cons_false rfl, ← List.cons_append]
      exact nodes ▸ member
    · refine List.isChain_append.mpr ⟨first, List.isChain_cons_cons.mpr ⟨Or.inr rfl, ?_⟩,
        fun e ending f _ => Or.inl (before e ending)⟩
      cases post with
      | nil => exact List.isChain_singleton _
      | cons e post => exact List.isChain_cons_cons.mpr ⟨Or.inl rfl, second.tail⟩
    · rw [lives_append, lives_append, lives_cons_true rfl, lives_cons_false rfl, lives_cons_true isFree]
      exact List.perm_middle

theorem search_walk {prevp k : Nat} (grants : Bool) (fuel : Nat) (inside : ∀ j < k, h.ptr^[j] (h.ptr prevp) + 16 ≤ h.sz)
    (pass : ∀ j < k, h.size (h.ptr^[j] (h.ptr prevp)) < nunits ∧ h.ptr^[j] (h.ptr prevp) ≠ h.freep) :
    search grants nunits (fuel + k) h prevp (h.ptr prevp) =
      search grants nunits fuel h (h.ptr^[k] prevp) (h.ptr^[k] (h.ptr prevp)) := by
  induction k generalizing prevp with
  | zero => rfl
  | succ k ih =>
    have here : h.ptr prevp + 16 ≤ h.sz := inside 0 (Nat.succ_pos k)
    obtain ⟨less, other⟩ : h.size (h.ptr prevp) < nunits ∧ h.ptr prevp ≠ h.freep := pass 0 (Nat.succ_pos k)
    rw [← Nat.add_assoc, search, header_ok here]
    refine (if_neg (Nat.not_le_of_lt less)).trans ((if_neg other).trans ?_)
    exact ih (fun j lower => inside (j + 1) (Nat.succ_lt_succ lower)) fun j lower => pass (j + 1) (Nat.succ_lt_succ lower)

theorem sysSbrk_grows (grants : Bool) {sz n : Nat} (positive : 0 < n) (small : sz + n < 2 ^ 64) :
    sysSbrk grants sz n = (sz, sz + n) ∨ sysSbrk grants sz n = (failure, sz) := by
  have whole : (((sz : Int) + n) % 2 ^ 64).toNat = sz + n := by omega
  have sign : (0 : Int) < n := by omega
  have grow : growproc grants sz n = if uvmalloc grants sz (sz + n) = 0 then none else some (uvmalloc grants sz (sz + n)) := by
    unfold growproc
    rw [whole]
    exact if_pos sign
  have order : ¬ sz + n < sz := by omega
  unfold uvmalloc at grow
  rw [if_neg order] at grow
  unfold sysSbrk
  rw [grow]
  by_cases page : sz + n ≤ pgRoundUp sz ∨ grants = true
  · rw [if_pos page, if_neg (by omega)]
    exact Or.inl rfl
  · rw [if_neg page]
    exact Or.inr rfl

theorem Shape.extend (shape : Shape h start cells) {nu : Nat} (positive : 0 < nu) :
    Shape (({ h with sz := h.sz + 16 * nu } : Heap).setSize h.sz nu) start (cells ++ ⟨h.sz, nu, false⟩ :: []) := by
  have order := shape.tiled.le
  have below := shape.below
  have nodes : frees (cells ++ (⟨h.sz, nu, false⟩ : Cell) :: []) = frees cells := by
    rw [frees_append, frees_cons_false rfl]
    exact List.append_nil _
  refine ⟨tiled_append.mpr ⟨h.sz, shape.tiled, rfl, positive, rfl⟩, ?_, ?_, ?_, ?_, below, shape.positive, ?_⟩
  · intro e member
    change update h.size h.sz nu e.addr = e.units
    rcases List.mem_append.mp member with old | new
    · have bounds := shape.tiled.bounds old
      rw [update_of_ne (by omega)]
      exact shape.sizes e old
    · rw [List.mem_singleton.mp new]
      exact update_self _ _ _
  · rw [nodes]
    exact shape.ring
  · change update h.size h.sz nu h.base = 0
    rw [update_of_ne (by omega)]
    exact shape.zero
  · rw [nodes]
    exact shape.freep
  · exact List.isChain_append.mpr ⟨shape.merged, List.isChain_singleton _, fun e _ f last => by
      cases last
      exact Or.inr rfl⟩

theorem atLeast_bounds {nu : Nat} (few : nu < 2 ^ 27) : atLeast nu < 2 ^ 27 ∧ nu ≤ atLeast nu ∧ 0 < atLeast nu := by
  unfold atLeast
  split <;> omega

variable (shape : Shape h start cells)

include shape

theorem Shape.morecore (grants : Bool) (small : h.sz ≤ ramBytes) {nu : Nat} (few : nu < 2 ^ 27) :
    Umalloc.morecore grants h nu = .ok (0, h) ∨
    ∃ h' cells', Umalloc.morecore grants h nu = .ok (h'.freep, h') ∧ Shape h' start cells' ∧ lives cells' = lives cells ∧
      h'.base = h.base ∧ (frees cells').length ≤ (frees cells).length + 1 ∧ ∃ d ∈ cells', d.free = true ∧ nu ≤ d.units := by
  obtain ⟨bound, upper, positive⟩ := atLeast_bounds few
  unfold ramBytes at small
  have argument : toInt (atLeast nu * headerBytes : Nat) = (16 * atLeast nu : Nat) := by
    rw [Nat.mul_comm]
    exact toInt_nat (by unfold headerBytes; omega)
  unfold Umalloc.morecore
  rw [argument]
  generalize atLeast nu = more at *
  rcases sysSbrk_grows grants (show 0 < 16 * more by omega) (show h.sz + 16 * more < 2 ^ 64 by omega) with grown | failed
  · right
    have extended := shape.extend positive
    obtain ⟨h', cells', result, final, live, -, base, count, found⟩ := extended.free rfl (by change h.sz + 16 * more < _; omega)
    rw [grown]
    have block : h.sz + 16 ≤ ({ h with sz := h.sz + 16 * more } : Heap).sz := by
      change _ ≤ h.sz + 16 * more
      omega
    have adopted : adopt h more h.sz (h.sz + 16 * more) = .ok (h'.freep, h') := by
      unfold adopt
      dsimp only
      rw [if_neg (by unfold failure; omega), header_ok block]
      change (Umalloc.free (({ h with sz := h.sz + 16 * more } : Heap).setSize h.sz more) (h.sz + 16) >>= fun h =>
        Except.ok (h.freep, h)) = _
      rw [result]
      rfl
    refine ⟨h', cells', adopted, final, ?_, base, ?_, ?_⟩
    · rw [live]
      exact List.append_nil _
    · rw [List.append_nil] at count
      exact count
    · obtain ⟨d, member, isFree, large⟩ := found
      exact ⟨d, member, isFree, Nat.le_trans upper large⟩
  · left
    have adopted : adopt h more failure h.sz = .ok (0, h) := by
      unfold adopt
      exact if_pos rfl
    rw [failed]
    exact adopted

theorem Shape.found (grants : Bool) (positive : 0 < nunits) {a : Nat} (member : a ∈ h.base :: frees cells)
    (large : nunits ≤ h.size a) {fuel : Nat} (enough : (h.base :: frees cells).length ≤ fuel) :
    ∃ r h' cells', Umalloc.search grants nunits fuel h h.freep (h.ptr h.freep) = .ok (r, h') ∧ r ≠ 0 ∧
      Shape h' start cells' ∧ (lives cells').Perm ((r, nunits) :: lives cells) ∧ h'.base = h.base := by
  obtain ⟨k, bound, found, first⟩ := shape.ring.round shape.freep (nunits ≤ h.size ·) member large
  have nodes := shape.ring.iterate_mem (shape.ring.next_mem shape.freep)
  obtain ⟨rest, budget⟩ : ∃ rest, fuel = rest + 1 + k := ⟨fuel - 1 - k, by omega⟩
  rw [budget, search_walk grants _ (fun j _ => shape.member (nodes j))
    fun j lower => ⟨Nat.lt_of_not_le (first j lower).1, (first j lower).2⟩]
  rw [← iterate_succ_apply, iterate_succ_apply'] at found ⊢
  obtain ⟨r, h', cells', result, nonzero, final, perm, -, base⟩ :=
    shape.take grants positive (shape.ring.iterate_mem shape.freep k) found rest
  exact ⟨r, h', cells', result, nonzero, final, perm, base⟩

theorem Shape.search (grants : Bool) (small : h.sz ≤ ramBytes) (positive : 0 < nunits) (few : nunits < 2 ^ 27) :
    Umalloc.search grants nunits (2 * h.sz + 4) h h.freep (h.ptr h.freep) = .ok (0, h) ∨
    ∃ r h' cells', Umalloc.search grants nunits (2 * h.sz + 4) h h.freep (h.ptr h.freep) = .ok (r, h') ∧ r ≠ 0 ∧
      Shape h' start cells' ∧ (lives cells').Perm ((r, nunits) :: lives cells) ∧ h'.base = h.base := by
  have length := shape.length_le
  by_cases fits : ∃ a ∈ h.base :: frees cells, nunits ≤ h.size a
  · obtain ⟨a, member, large⟩ := fits
    exact Or.inr (shape.found grants positive member large (by omega))
  push Not at fits
  -- the walk comes back to where it started, and asks for more
  obtain ⟨k, bound, back, first⟩ := shape.ring.round shape.freep (· = h.freep) shape.freep rfl
  have nodes := shape.ring.iterate_mem (shape.ring.next_mem shape.freep)
  obtain ⟨rest, budget⟩ : ∃ rest, 2 * h.sz + 4 = rest + 1 + k := ⟨2 * h.sz + 3 - k, by omega⟩
  have round : Umalloc.search grants nunits (2 * h.sz + 4) h h.freep (h.ptr h.freep) =
      Umalloc.morecore grants h nunits >>= fun r =>
        if r.1 = 0 then .ok (0, r.2) else r.2.header r.1 >>= fun q => Umalloc.search grants nunits rest r.2 r.1 q.1 := by
    rw [budget, search_walk grants _ (fun j _ => shape.member (nodes j)) fun j lower => ⟨fits _ (nodes j), (first j lower).2⟩, back,
      Umalloc.search, header_ok (shape.member shape.freep)]
    exact (if_neg (Nat.not_le_of_lt (fits _ shape.freep))).trans (if_pos rfl)
  rw [round]
  rcases shape.morecore grants small few with
    failed | ⟨h', cells', grown, shape', live, base, count, d, member, isFree, large⟩
  · left
    rw [failed]
    rfl
  right
  have nonzero : h'.freep ≠ 0 := by
    have inside := shape'.sorted
    rcases List.mem_cons.mp shape'.freep with same | old
    · rw [same]
      exact Nat.ne_of_gt shape'.positive
    · exact Nat.ne_of_gt (Nat.lt_trans shape'.positive ((List.pairwise_cons.mp inside).1 _ old))
  rw [grown]
  change ∃ r h'' cells'', (if h'.freep = 0 then Except.ok (0, h') else
    h'.header h'.freep >>= fun q => Umalloc.search grants nunits rest h' h'.freep q.1) = .ok (r, h'') ∧ _
  rw [if_neg nonzero, header_ok (shape'.member shape'.freep)]
  rw [List.length_cons] at length bound
  have node : d.addr ∈ h'.base :: frees cells' := List.mem_cons_of_mem _ (mem_frees.mpr ⟨d, member, isFree, rfl⟩)
  have fit : nunits ≤ h'.size d.addr := by
    rw [shape'.sizes d member]
    exact large
  obtain ⟨r, h'', cells'', result, nonzero', final, perm, base'⟩ :=
    shape'.found grants positive node fit (show _ ≤ rest by rw [List.length_cons]; omega)
  exact ⟨r, h'', cells'', result, nonzero', final, live ▸ perm, base'.trans base⟩

end Malloc

end OShard.Umalloc
