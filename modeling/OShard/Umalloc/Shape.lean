import OShard.Base.CircularList
import OShard.Umalloc.Model

namespace OShard.Umalloc

open CircularList

structure Cell where
  addr : Nat
  units : Nat
  free : Bool

def Tiled : Nat → List Cell → Nat → Prop
  | lo, [], hi => lo = hi
  | lo, c :: cells, hi => c.addr = lo ∧ 0 < c.units ∧ Tiled (lo + 16 * c.units) cells hi

def frees (cells : List Cell) : List Nat := (cells.filter Cell.free).map Cell.addr

def lives (cells : List Cell) : List (Nat × Nat) :=
  (cells.filter fun c => !c.free).map fun c => (c.addr + 16, c.units)

def Merged (cells : List Cell) : Prop := cells.IsChain fun a b => a.free = false ∨ b.free = false

/-- The heap of a process from `start` to its end, as the allocator sees it. -/
structure Shape (h : Heap) (start : Nat) (cells : List Cell) : Prop where
  tiled : Tiled start cells h.sz
  sizes : ∀ c ∈ cells, h.size c.addr = c.units
  ring : Ring h.ptr (h.base :: frees cells)
  zero : h.size h.base = 0
  freep : h.freep ∈ h.base :: frees cells
  below : h.base + 16 ≤ start
  positive : 0 < h.base
  merged : Merged cells

section Tiles

variable {lo hi : Nat} {cells pre post : List Cell} {c : Cell}

theorem tiled_append : Tiled lo (pre ++ post) hi ↔ ∃ mid, Tiled lo pre mid ∧ Tiled mid post hi := by
  induction pre generalizing lo with
  | nil =>
    constructor
    · exact fun tiled => ⟨lo, rfl, tiled⟩
    · rintro ⟨mid, rfl, tiled⟩
      exact tiled
  | cons c pre ih =>
    rw [List.cons_append, Tiled, ih]
    constructor
    · rintro ⟨place, positive, mid, first, second⟩
      exact ⟨mid, ⟨place, positive, first⟩, second⟩
    · rintro ⟨mid, ⟨place, positive, first⟩, second⟩
      exact ⟨place, positive, mid, first, second⟩

theorem Tiled.le (tiled : Tiled lo cells hi) : lo ≤ hi := by
  induction cells generalizing lo with
  | nil => exact Nat.le_of_eq tiled
  | cons c cells ih =>
    have rest := ih tiled.2.2
    omega

theorem Tiled.bounds (tiled : Tiled lo cells hi) (member : c ∈ cells) :
    lo ≤ c.addr ∧ 0 < c.units ∧ c.addr + 16 * c.units ≤ hi := by
  induction cells generalizing lo with
  | nil => cases member
  | cons d cells ih =>
    obtain ⟨place, positive, rest⟩ := tiled
    rcases List.mem_cons.mp member with rfl | old
    · exact ⟨Nat.le_of_eq place.symm, positive, place ▸ rest.le⟩
    · obtain ⟨lower, positive', upper⟩ := ih rest old
      exact ⟨by omega, positive', upper⟩

theorem frees_append : frees (pre ++ post) = frees pre ++ frees post := by
  unfold frees
  rw [List.filter_append, List.map_append]

theorem frees_cons_true (isFree : c.free = true) : frees (c :: cells) = c.addr :: frees cells := by
  unfold frees
  rw [List.filter_cons_of_pos isFree, List.map_cons]

theorem frees_cons_false (used : c.free = false) : frees (c :: cells) = frees cells := by
  unfold frees
  rw [List.filter_cons_of_neg (by rw [used]; exact Bool.false_ne_true)]

theorem lives_append : lives (pre ++ post) = lives pre ++ lives post := by
  unfold lives
  rw [List.filter_append, List.map_append]

theorem lives_cons_true (isFree : c.free = true) : lives (c :: cells) = lives cells := by
  unfold lives
  rw [List.filter_cons_of_neg (by rw [isFree]; exact Bool.false_ne_true)]

theorem lives_cons_false (used : c.free = false) : lives (c :: cells) = (c.addr + 16, c.units) :: lives cells := by
  unfold lives
  rw [List.filter_cons_of_pos (by rw [used]; rfl), List.map_cons]

theorem mem_frees {a : Nat} : a ∈ frees cells ↔ ∃ c ∈ cells, c.free = true ∧ c.addr = a := by
  simp only [frees, List.mem_map, List.mem_filter, and_assoc]

variable (tiled : Tiled lo cells hi)

include tiled

theorem Tiled.frees_sorted : (frees cells).Pairwise (· < ·) := by
  induction cells generalizing lo with
  | nil => exact List.Pairwise.nil
  | cons c cells ih =>
    obtain ⟨place, positive, rest⟩ := tiled
    cases isFree : c.free with
    | false =>
      rw [frees_cons_false isFree]
      exact ih rest
    | true =>
      rw [frees_cons_true isFree]
      refine List.pairwise_cons.mpr ⟨fun a member => ?_, ih rest⟩
      obtain ⟨d, inside, -, rfl⟩ := mem_frees.mp member
      have bound := (rest.bounds inside).1
      omega

theorem Tiled.length_le : lo + cells.length ≤ hi := by
  induction cells generalizing lo with
  | nil => exact Nat.le_of_eq tiled
  | cons c cells ih =>
    have rest := ih tiled.2.2
    have positive := tiled.2.1
    rw [List.length_cons]
    omega

theorem Tiled.total : 16 * (cells.map Cell.units).sum = hi - lo := by
  induction cells generalizing lo with
  | nil =>
    have same : lo = hi := tiled
    rw [same, Nat.sub_self]
    rfl
  | cons c cells ih =>
    obtain ⟨place, positive, rest⟩ := tiled
    have tail := ih rest
    have bound := rest.le
    rw [List.map_cons, List.sum_cons]
    omega

end Tiles

section Headers

variable {h : Heap} {start : Nat} {cells pre post : List Cell} {c : Cell} {a p : Nat}

theorem header_ok (bound : a + 16 ≤ h.sz) : h.header a = .ok (h.ptr a, h.size a) := by
  have up : h.sz ≤ pgRoundUp h.sz := by
    unfold pgRoundUp pgSize
    omega
  exact if_pos (Nat.le_trans bound up)

theorem Shape.member (shape : Shape h start cells) (inside : a ∈ h.base :: frees cells) : a + 16 ≤ h.sz := by
  have order := shape.tiled.le
  have below := shape.below
  rcases List.mem_cons.mp inside with rfl | old
  · omega
  · obtain ⟨c, inside', -, rfl⟩ := mem_frees.mp old
    have bounds := shape.tiled.bounds inside'
    omega

theorem Shape.sorted (shape : Shape h start cells) : (h.base :: frees cells).Pairwise (· < ·) := by
  refine List.pairwise_cons.mpr ⟨fun a member => ?_, shape.tiled.frees_sorted⟩
  obtain ⟨c, inside, -, rfl⟩ := mem_frees.mp member
  have bounds := shape.tiled.bounds inside
  have below := shape.below
  omega

def Stop (h : Heap) (bp p : Nat) : Prop :=
  (p < bp ∧ bp < h.ptr p) ∨ (h.ptr p ≤ p ∧ (p < bp ∨ bp < h.ptr p))

instance (h : Heap) (bp : Nat) : DecidablePred (Stop h bp) := fun p =>
  inferInstanceAs (Decidable ((p < bp ∧ bp < h.ptr p) ∨ (h.ptr p ≤ p ∧ (p < bp ∨ bp < h.ptr p))))

theorem findPlace_walk {bp k : Nat} (fuel : Nat) (enough : k < fuel) (inside : ∀ j ≤ k, h.ptr^[j] p + 16 ≤ h.sz)
    (stop : Stop h bp (h.ptr^[k] p)) (first : ∀ j < k, ¬ Stop h bp (h.ptr^[j] p)) :
    findPlace h bp fuel p = .ok (h.ptr^[k] p) := by
  induction k generalizing p fuel with
  | zero =>
    obtain ⟨fuel, rfl⟩ := Nat.exists_eq_succ_of_ne_zero (Nat.ne_of_gt enough)
    have within : p + 16 ≤ h.sz := inside 0 (Nat.le_refl 0)
    rw [findPlace, header_ok within]
    rcases stop with between | wrap
    · exact if_pos between
    · by_cases between : p < bp ∧ bp < h.ptr p
      · exact if_pos between
      · exact (if_neg between).trans (if_pos wrap)
  | succ k ih =>
    obtain ⟨fuel, rfl⟩ := Nat.exists_eq_succ_of_ne_zero (Nat.ne_of_gt (Nat.lt_of_le_of_lt (Nat.zero_le _) enough))
    have here := first 0 (Nat.succ_pos k)
    have within : p + 16 ≤ h.sz := inside 0 (Nat.zero_le _)
    rw [findPlace, header_ok within, Function.iterate_succ_apply]
    refine (if_neg fun between => here (Or.inl between)).trans ((if_neg fun wrap => here (Or.inr wrap)).trans ?_)
    exact ih fuel (Nat.lt_of_succ_lt_succ enough) (fun j lower => inside (j + 1) (Nat.succ_le_succ lower)) stop
      fun j lower => first (j + 1) (Nat.succ_lt_succ lower)

def Behind (nodes : List Nat) (bp p : Nat) : Prop := p ∈ nodes ∧ p < bp ∧ ∀ y ∈ nodes, y < bp → y ≤ p

variable (shape : Shape h start cells)

include shape

theorem Shape.stop_iff {bp : Nat} (above : h.base < bp) (fresh : bp ∉ h.base :: frees cells)
    (member : p ∈ h.base :: frees cells) : Stop h bp p ↔ Behind (h.base :: frees cells) bp p := by
  unfold Stop Behind
  rcases shape.ring.next_of_sorted shape.sorted member with ⟨wrap, largest⟩ | ⟨up, gap⟩
  · rw [wrap]
    constructor
    · rintro (between | ⟨-, lower | upper⟩)
      · omega
      · exact ⟨member, lower, fun y inside _ => largest y inside⟩
      · omega
    · rintro ⟨-, lower, -⟩
      exact Or.inr ⟨largest _ List.mem_cons_self, Or.inl lower⟩
  · constructor
    · rintro (⟨lower, upper⟩ | ⟨down, -⟩)
      · refine ⟨member, lower, fun y inside below => ?_⟩
        rcases gap y inside with le | ge
        · exact le
        · omega
      · omega
    · rintro ⟨-, lower, most⟩
      refine Or.inl ⟨lower, ?_⟩
      by_contra upper
      have inside := shape.ring.next_mem member
      have other : h.ptr p ≠ bp := fun same => fresh (same ▸ inside)
      have bound := most _ inside (by omega)
      omega

theorem Shape.length_le : (h.base :: frees cells).length ≤ h.sz := by
  have count : (frees cells).length ≤ cells.length := by
    unfold frees
    rw [List.length_map]
    exact List.length_filter_le _ _
  have room := shape.tiled.length_le
  have below := shape.below
  rw [List.length_cons]
  omega

theorem Shape.findPlace {bp : Nat} (above : h.base < bp) (fresh : bp ∉ h.base :: frees cells)
    (behind : Behind (h.base :: frees cells) bp p) : findPlace h bp (h.sz + 1) h.freep = .ok p := by
  obtain ⟨k, bound, stop, first⟩ := shape.ring.search shape.freep (Stop h bp) behind.1 ((shape.stop_iff above fresh behind.1).mpr behind)
  have nodes := shape.ring.iterate_mem shape.freep
  have found := findPlace_walk (h.sz + 1) (Nat.lt_succ_of_le (Nat.le_trans bound.le shape.length_le))
    (fun j _ => shape.member (nodes j)) stop first
  obtain ⟨-, lower, most⟩ := (shape.stop_iff above fresh (nodes k)).mp stop
  rw [found, Nat.le_antisymm (behind.2.2 _ (nodes k) lower) (most p behind.1 behind.2.1)]

end Headers

end OShard.Umalloc
