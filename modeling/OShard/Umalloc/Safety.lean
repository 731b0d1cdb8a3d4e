import OShard.Umalloc.Malloc

namespace OShard.Umalloc

open CircularList

/-- The free list as a circular list of blocks by increasing address, none of which touches the next. -/
structure FreeList (h : Heap) (blocks : List Nat) : Prop where
  ring : Ring h.ptr (h.base :: blocks)
  freep : h.freep ∈ h.base :: blocks
  increasing : (h.base :: blocks).Pairwise (· < ·)
  apart : blocks.Pairwise fun a b => a + 16 * h.size a < b

/-- What the user of the allocator relies on, for a heap that begins at `start`. -/
structure Sound (h : Heap) (start : Nat) (live : List (Nat × Nat)) (blocks : List Nat) : Prop where
  list : FreeList h blocks
  inside : ∀ e ∈ live, start ≤ e.1 ∧ e.1 + e.2 ≤ h.sz
  disjoint : live.Pairwise fun e e' => e.1 + e.2 ≤ e'.1 ∨ e'.1 + e'.2 ≤ e.1
  headers : ∀ e ∈ live, ∀ a ∈ h.base :: blocks, a + 16 ≤ e.1 ∨ e.1 + e.2 ≤ a
  total : 16 * ((blocks.map h.size).sum + (live.map fun e => h.size (e.1 - 16)).sum) = h.sz - start

section Blocks

variable {h : Heap} {start : Nat} {cells : List Cell} {live : List (Nat × Nat)}

def Held (cells : List Cell) (live : List (Nat × Nat)) : Prop :=
  (lives cells).Perm (live.map fun e => (e.1, unitsFor e.2))

theorem unitsFor_fits (n : Nat) : n + 16 ≤ 16 * unitsFor n := by
  unfold unitsFor headerBytes
  omega

theorem mem_lives {e : Nat × Nat} : e ∈ lives cells ↔ ∃ c ∈ cells, c.free = false ∧ (c.addr + 16, c.units) = e := by
  simp only [lives, List.mem_map, List.mem_filter, Bool.not_eq_true', and_assoc]

theorem Held.cell (held : Held cells live) {e : Nat × Nat} (member : e ∈ live) :
    ∃ c ∈ cells, c.free = false ∧ c.addr + 16 = e.1 ∧ c.units = unitsFor e.2 := by
  have image := held.mem_iff.mpr (List.mem_map_of_mem member)
  obtain ⟨c, inside, used, same⟩ := mem_lives.mp image
  obtain ⟨addr, units⟩ := Prod.mk.inj same
  exact ⟨c, inside, used, addr, units⟩

theorem Tiled.apart {lo hi : Nat} (tiled : Tiled lo cells hi) {c d : Cell} (first : c ∈ cells) (second : d ∈ cells) :
    c = d ∨ c.addr + 16 * c.units ≤ d.addr ∨ d.addr + 16 * d.units ≤ c.addr := by
  induction cells generalizing lo with
  | nil => cases first
  | cons e cells ih =>
    obtain ⟨place, positive, rest⟩ := tiled
    rcases List.mem_cons.mp first with rfl | old
    · rcases List.mem_cons.mp second with rfl | old'
      · exact Or.inl rfl
      · have bounds := rest.bounds old'
        exact Or.inr (Or.inl (by omega))
    · rcases List.mem_cons.mp second with rfl | old'
      · have bounds := rest.bounds old
        exact Or.inr (Or.inr (by omega))
      · exact ih rest old old'

theorem Tiled.lives_apart {lo hi : Nat} (tiled : Tiled lo cells hi) :
    (lives cells).Pairwise fun e e' => e.1 + 16 * e.2 ≤ e'.1 ∨ e'.1 + 16 * e'.2 ≤ e.1 := by
  induction cells generalizing lo with
  | nil => exact List.Pairwise.nil
  | cons c cells ih =>
    obtain ⟨place, positive, rest⟩ := tiled
    cases isFree : c.free with
    | true =>
      rw [lives_cons_true isFree]
      exact ih rest
    | false =>
      rw [lives_cons_false isFree]
      refine List.pairwise_cons.mpr ⟨fun e member => ?_, ih rest⟩
      obtain ⟨d, inside, -, rfl⟩ := mem_lives.mp member
      have bounds := rest.bounds inside
      exact Or.inl (by dsimp only; omega)

theorem Shape.frees_apart (shape : Shape h start cells) : (frees cells).Pairwise fun a b => a + 16 * h.size a < b := by
  have sizes := shape.sizes
  have merged := shape.merged
  have tiled := shape.tiled
  clear shape
  induction cells generalizing start with
  | nil => exact List.Pairwise.nil
  | cons c cells ih =>
    obtain ⟨place, positive, rest⟩ := tiled
    have tail := ih (fun d member => sizes d (List.mem_cons_of_mem _ member)) merged.tail rest
    cases isFree : c.free with
    | false =>
      rw [frees_cons_false isFree]
      exact tail
    | true =>
      rw [frees_cons_true isFree]
      refine List.pairwise_cons.mpr ⟨fun a member => ?_, tail⟩
      rw [sizes c List.mem_cons_self]
      -- the next cell is in use, so that the next free one lies behind it
      cases cells with
      | nil => cases member
      | cons d cells =>
        have busy := (List.isChain_cons_cons.mp merged).1
        rw [isFree] at busy
        rw [frees_cons_false (busy.resolve_left nofun)] at member
        obtain ⟨e, inside, -, rfl⟩ := mem_frees.mp member
        obtain ⟨place', positive', rest'⟩ := rest
        have bounds := rest'.bounds inside
        omega

theorem units_split (cells : List Cell) :
    ((cells.filter Cell.free).map Cell.units).sum + ((lives cells).map Prod.snd).sum = (cells.map Cell.units).sum := by
  induction cells with
  | nil => rfl
  | cons c cells ih =>
    cases isFree : c.free with
    | true =>
      rw [lives_cons_true isFree, List.filter_cons_of_pos isFree, List.map_cons, List.map_cons, List.sum_cons, List.sum_cons]
      omega
    | false =>
      rw [lives_cons_false isFree, List.filter_cons_of_neg (by rw [isFree]; exact Bool.false_ne_true), List.map_cons,
        List.map_cons, List.sum_cons, List.sum_cons]
      omega

theorem Shape.sound (shape : Shape h start cells) (held : Held cells live) : Sound h start live (frees cells) := by
  have tiled := shape.tiled
  have below := shape.below
  refine ⟨⟨shape.ring, shape.freep, shape.sorted, shape.frees_apart⟩, ?_, ?_, ?_, ?_⟩
  · intro e member
    obtain ⟨c, inside, -, place, units⟩ := held.cell member
    have bounds := tiled.bounds inside
    have fits := unitsFor_fits e.2
    omega
  · have apart := (held.pairwise_iff fun {a b} far => Or.symm far).mp tiled.lives_apart
    rw [List.pairwise_map] at apart
    refine apart.imp fun {e e'} far => ?_
    have fits := unitsFor_fits e.2
    have fits' := unitsFor_fits e'.2
    dsimp only at far
    omega
  · intro e member a node
    obtain ⟨c, inside, used, place, units⟩ := held.cell member
    have bounds := tiled.bounds inside
    have fits := unitsFor_fits e.2
    rcases List.mem_cons.mp node with rfl | free
    · omega
    obtain ⟨d, inside', isFree, rfl⟩ := mem_frees.mp free
    have bounds' := tiled.bounds inside'
    rcases tiled.apart inside inside' with rfl | before | behind
    · rw [used] at isFree
      cases isFree
    · omega
    · omega
  · have sizes : (frees cells).map h.size = (cells.filter Cell.free).map Cell.units := by
      unfold frees
      rw [List.map_map]
      exact List.map_congr_left fun c member => shape.sizes c (List.mem_filter.mp member).1
    have blocks : (live.map fun e => h.size (e.1 - 16)).sum = ((lives cells).map Prod.snd).sum := by
      rw [(held.map Prod.snd).sum_eq, List.map_map]
      refine congrArg List.sum (List.map_congr_left fun e member => ?_)
      obtain ⟨c, inside, -, place, units⟩ := held.cell member
      rw [← place, Nat.add_sub_cancel, shape.sizes c inside, units]
      rfl
    rw [sizes, blocks, units_split, tiled.total]

end Blocks

section Runs

variable {h₀ h : Heap} {live : List (Nat × Nat)}

inductive Good (h₀ : Heap) : Heap → List (Nat × Nat) → Prop where
  | fresh : Good h₀ h₀ []
  | shaped {h : Heap} {live : List (Nat × Nat)} (cells : List Cell) (shape : Shape h h₀.sz cells) (held : Held cells live)
      (small : h.sz ≤ ramBytes) : Good h₀ h live

theorem Fresh.shape (fresh : Fresh h₀) :
    Shape { (h₀.setPtr h₀.base h₀.base).setSize h₀.base 0 with freep := h₀.base } h₀.sz [] := by
  refine ⟨rfl, nofun, ring_singleton (Function.update_self _ _ _), Function.update_self _ _ _, List.mem_cons_self,
    fresh.inside, fresh.base, List.isChain_nil⟩

theorem small_request {n : Nat} (admitted : n ≤ 2 ^ 31 - 32) : 0 < unitsFor n ∧ unitsFor n < 2 ^ 27 := by
  unfold unitsFor headerBytes
  omega

theorem Shape.malloc {start : Nat} {cells : List Cell} (shape : Shape h start cells) (held : Held cells live)
    (small : h.sz ≤ ramBytes) {n : Nat} (admitted : n ≤ 2 ^ 31 - 32) (grants : Bool) :
    ∃ r h' cells', Umalloc.search grants (unitsFor n) (2 * h.sz + 4) h h.freep (h.ptr h.freep) = .ok (r, h') ∧
      Shape h' start cells' ∧ Held cells' (if r = 0 then live else (r, n) :: live) := by
  obtain ⟨positive, few⟩ := small_request admitted
  rcases shape.search grants small positive few with none | ⟨r, h', cells', result, nonzero, shape', perm, -⟩
  · exact ⟨0, h, cells, none, shape, held⟩
  · refine ⟨r, h', cells', result, shape', ?_⟩
    rw [if_neg nonzero]
    exact perm.trans (List.Perm.cons _ held)

theorem Good.malloc (fresh : Fresh h₀) (good : Good h₀ h live) {n : Nat} (admitted : n ≤ 2 ^ 31 - 32) (grants : Bool) :
    ∃ r h' cells', Umalloc.malloc grants h n = .ok (r, h') ∧ Shape h' h₀.sz cells' ∧
      Held cells' (if r = 0 then live else (r, n) :: live) := by
  have call : ∀ {g : Heap} {cells}, Shape g h₀.sz cells → Held cells live → g.sz ≤ ramBytes →
      (if h.freep = 0 then { (h.setPtr h.base h.base).setSize h.base 0 with freep := h.base } else h) = g →
      ∃ r h' cells', Umalloc.malloc grants h n = .ok (r, h') ∧ Shape h' h₀.sz cells' ∧
        Held cells' (if r = 0 then live else (r, n) :: live) := by
    intro g cells shape held small begins
    obtain ⟨r, h', cells', result, shape', held'⟩ := shape.malloc held small admitted grants
    refine ⟨r, h', cells', ?_, shape', held'⟩
    unfold Umalloc.malloc
    dsimp only
    rw [begins, header_ok (shape.member shape.freep)]
    exact result
  cases good with
  | fresh =>
    refine call fresh.shape List.Perm.nil fresh.fits ?_
    exact if_pos fresh.freep
  | shaped cells shape held small =>
    refine call shape held small (if_neg ?_)
    rcases List.mem_cons.mp shape.freep with same | old
    · rw [same]
      exact Nat.ne_of_gt shape.positive
    · exact Nat.ne_of_gt (Nat.lt_trans shape.positive ((List.pairwise_cons.mp shape.sorted).1 _ old))

theorem Good.free (good : Good h₀ h live) {e : Nat × Nat} (member : e ∈ live) :
    ∃ h', Umalloc.free h e.1 = .ok h' ∧ Good h₀ h' (live.erase e) := by
  cases good with
  | fresh => cases member
  | shaped cells shape held small =>
    obtain ⟨c, inside, used, place, units⟩ := held.cell member
    obtain ⟨pre, post, rfl⟩ := List.append_of_mem inside
    have bound : h.sz < 2 ^ 36 := by
      unfold ramBytes at small
      omega
    obtain ⟨h', cells', result, shape', rest, size, -⟩ := shape.free used bound
    rw [place] at result
    refine ⟨h', result, .shaped cells' shape' ?_ (size ▸ small)⟩
    have order := (List.perm_cons_erase member).map fun e : Nat × Nat => (e.1, unitsFor e.2)
    have whole := held.trans order
    rw [lives_append, lives_cons_false used, place, units] at whole
    unfold Held
    rw [rest]
    exact (List.perm_middle.symm.trans whole).cons_inv

theorem Good.write (good : Good h₀ h live) {ptr size : Nat → Nat}
    (kept : ∀ a, ¬ Touched live a → ptr a = h.ptr a ∧ size a = h.size a) :
    Good h₀ { h with ptr := ptr, size := size } live := by
  cases good with
  | fresh =>
    have same : ∀ a, ptr a = h₀.ptr a ∧ size a = h₀.size a := fun a => kept a nofun
    have ptrs : ptr = h₀.ptr := funext fun a => (same a).1
    have sizes : size = h₀.size := funext fun a => (same a).2
    rw [ptrs, sizes]
    exact .fresh
  | shaped cells shape held small =>
    have tiled := shape.tiled
    have below := shape.below
    have headers : ∀ c ∈ cells, ¬ Touched live c.addr := by
      rintro c inside ⟨e, member, lower, upper⟩
      obtain ⟨d, inside', -, place, units⟩ := held.cell member
      have bounds := tiled.bounds inside
      have fits := unitsFor_fits e.2
      unfold headerBytes at upper
      rcases tiled.apart inside inside' with rfl | before | behind
      · omega
      · omega
      · omega
    have base : ¬ Touched live h.base := by
      rintro ⟨e, member, lower, upper⟩
      obtain ⟨d, inside', -, place, units⟩ := held.cell member
      have bounds := tiled.bounds inside'
      unfold headerBytes at upper
      omega
    refine .shaped cells ⟨tiled, ?_, ?_, ?_, shape.freep, below, shape.positive, shape.merged⟩ held small
    · intro c inside
      exact (kept _ (headers c inside)).2.trans (shape.sizes c inside)
    · refine shape.ring.congr fun a node => (kept a ?_).1
      rcases List.mem_cons.mp node with rfl | free
      · exact base
      · obtain ⟨c, inside, -, rfl⟩ := mem_frees.mp free
        exact headers c inside
    · exact (kept _ base).2.trans shape.zero

theorem Run.good (fresh : Fresh h₀) (run : Run (· ≤ 2 ^ 31 - 32) h₀ h live) : Good h₀ h live := by
  induction run with
  | init => exact .fresh
  | malloc grants run _ admitted small result ih =>
    obtain ⟨r, h', cells', call, shape, held⟩ := ih.malloc fresh admitted grants
    rw [call] at result
    cases result
    exact .shaped cells' shape held small
  | free run member result ih =>
    obtain ⟨h', call, good⟩ := ih.free member
    rw [call] at result
    cases result
    exact good
  | write run kept ih => exact ih.write kept

/-- As long as no request is for more than `2 ^ 31 - 32` bytes, the allocator is sound after every call, and every
    call returns. -/
theorem umalloc_sound (fresh : Fresh h₀) (run : Run (· ≤ 2 ^ 31 - 32) h₀ h live) :
    ((h = h₀ ∧ live = []) ∨ ∃ blocks, Sound h h₀.sz live blocks) ∧
    (∀ e ∈ live, ∃ h', free h e.1 = .ok h') ∧
    ∀ n ≤ 2 ^ 31 - 32, ∀ grants, ∃ r h', malloc grants h n = .ok (r, h') := by
  have good := run.good fresh
  refine ⟨?_, fun e member => ?_, fun n admitted grants => ?_⟩
  · cases good with
    | fresh => exact Or.inl ⟨rfl, rfl⟩
    | shaped cells shape held small => exact Or.inr ⟨_, shape.sound held⟩
  · obtain ⟨h', call, -⟩ := good.free member
    exact ⟨h', call⟩
  · obtain ⟨r, h', -, call, -⟩ := good.malloc fresh admitted grants
    exact ⟨r, h', call⟩

def fourPages : Heap := ⟨fun _ => 0, fun _ => 0, 8000, 0, 16384⟩

theorem fourPages_fresh : Fresh fourPages := ⟨rfl, by decide, by decide, by decide, by decide⟩

/-- Two blocks, of which the first is freed again. -/
theorem umalloc_sound_two :
    ∃ h live, Run (· ≤ 2 ^ 31 - 32) fourPages h live ∧ live = [(81776, 100)] ∧
      ((h = fourPages ∧ live = []) ∨ ∃ blocks, Sound h fourPages.sz live blocks) := by
  obtain ⟨⟨r, h⟩, first, rest⟩ := returns_ok (show returns (malloc true fourPages 1)
    (fun one => one.1 == 81904 && one.2.sz == 81920 && returns (malloc true one.2 100)
      fun two => two.1 == 81776 && two.2.sz == 81920 && returns (free two.2 81904) fun _ => true) = true by decide +kernel)
  obtain ⟨both, more⟩ := Bool.and_eq_true_iff.mp rest
  obtain ⟨one, size⟩ := Bool.and_eq_true_iff.mp both
  obtain ⟨⟨r', h'⟩, second, rest'⟩ := returns_ok more
  obtain ⟨both', more'⟩ := Bool.and_eq_true_iff.mp rest'
  obtain ⟨two, size'⟩ := Bool.and_eq_true_iff.mp both'
  obtain ⟨h'', third, -⟩ := returns_ok more'
  have r_eq : r = 81904 := eq_of_beq one
  have r'_eq : r' = 81776 := eq_of_beq two
  have bound : h.sz ≤ ramBytes := (eq_of_beq size : h.sz = 81920) ▸ by decide
  have bound' : h'.sz ≤ ramBytes := (eq_of_beq size' : h'.sz = 81920) ▸ by decide
  subst r_eq r'_eq
  have run : Run (· ≤ 2 ^ 31 - 32) fourPages h [(81904, 1)] := Run.malloc true Run.init (by decide) (by decide) bound first
  have run' : Run (· ≤ 2 ^ 31 - 32) fourPages h' [(81776, 100), (81904, 1)] :=
    Run.malloc true run (by decide) (by decide) bound' second
  have run'' : Run (· ≤ 2 ^ 31 - 32) fourPages h'' [(81776, 100)] := Run.free (e := (81904, 1)) run' (by simp) third
  exact ⟨h'', _, run'', rfl, (umalloc_sound fourPages_fresh run'').1⟩

/-- For the largest request `sbrk` is asked for 16 bytes, and the block begins where the process ends. -/
theorem umalloc_overcommits :
    ∃ h, malloc true fourPages (2 ^ 32 - 1) = .ok (16400, h) ∧ h.sz = 16400 ∧
      Run (fun _ => True) fourPages h [(16400, 2 ^ 32 - 1)] ∧
      ¬ ((h = fourPages ∧ [(16400, 2 ^ 32 - 1)] = []) ∨ ∃ blocks, Sound h fourPages.sz [(16400, 2 ^ 32 - 1)] blocks) := by
  obtain ⟨⟨r, h⟩, result, rest⟩ := returns_ok (show returns (malloc true fourPages (2 ^ 32 - 1))
    (fun one => one.1 == 16400 && one.2.sz == 16400) = true by decide +kernel)
  obtain ⟨value, size⟩ := Bool.and_eq_true_iff.mp rest
  have r_eq : r = 16400 := eq_of_beq value
  have ends : h.sz = 16400 := eq_of_beq size
  subst r_eq
  refine ⟨h, result, ends, Run.malloc true Run.init (by decide) trivial (ends ▸ by decide) result, ?_⟩
  rintro (⟨-, none⟩ | ⟨blocks, sound⟩)
  · cases none
  · have bounds := (sound.inside (16400, 2 ^ 32 - 1) List.mem_cons_self).2
    rw [ends] at bounds
    exact absurd bounds (by decide)

end Runs

end OShard.Umalloc
