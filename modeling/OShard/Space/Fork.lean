import OShard.Space.Held

namespace OShard.Space

open Separation Assertion Prog

variable {ram : Ram} {fails : Prop} {i n old new sz : Nat} {top top' entry : Nat → Nat} {data : Nat → Page} {g m : Heap Page}

/-- The first `i` pages of a child: they have the flags and the contents of the parent's. -/
def Copies (ram : Ram) (new i : Nat) (top entry : Nat → Nat) (data : Nat → Page) : Assertion Page :=
  Among ram new i top fun entry' data' => ∀ j, j < i → pteFlags (entry' j) = pteFlags (entry j) ∧ data' j = data j

theorem Copies.push {mem : Nat} (leaf : Leaf (entry i)) (inside : mem ∈ ram.pool) :
    Triple (ram.supply fails) (points mem (data i) * Copies ram new i top entry data)
      (mappages new (i * pgSize) pgSize mem (pteFlags (entry i))) fun r =>
        if r = 0 then Copies ram new (i + 1) top entry data
        else given (r = -1 ∧ fails) (points mem (data i) * Copies ram new i top entry data) := by
  apply mappages_among inside pteFlags_lt leaf.2
  intro entry' data' same j below
  by_cases last : j = i
  · rw [last, Function.update_self, Function.update_self, pteFlags_pte pteFlags_lt]
    exact ⟨leaf.flags_valid, rfl⟩
  · rw [Function.update_of_ne last, Function.update_of_ne last]
    exact same j (by omega)

theorem Copies.memory {h : Heap Page} (copies : Copies ram new i top entry data h) : Memory ram new i top anyPte h := by
  obtain ⟨_, _, _, held⟩ := copies
  exact held.memory

theorem uvmcopy_err {F : Assertion Page} {total : Nat} :
    Triple (ram.supply fails) (F * Copies ram new i top entry data) (uvmunmap new 0 (i * pgSize / pgSize) true >>= fun _ => Pure.pure (-1 : Int))
      fun r => if r = 0 then F * Copies ram new total top entry data else given (r = -1) (F * Memory ram new 0 top anyPte) := by
  have unmapped := @uvmunmap_memory ram fails new i top anyPte 0 (Nat.zero_le i)
  rw [Nat.zero_mul, Nat.sub_zero] at unmapped
  rw [Nat.mul_div_cancel i (by decide), mul_comm]
  apply Triple.call (unmapped.pre fun h copies => copies.memory)
  intro _
  rw [mul_comm]
  exact Triple.done fun h holds => ⟨rfl, holds⟩

theorem uvmcopyFrom_copies {left : Nat} (held : Held ram old n top entry data m) (part : m.Within g) (within : i + left ≤ n) :
    Triple (ram.supply fails) (exactly g * Copies ram new i top' entry data) (uvmcopyFrom old new left (i * pgSize)) fun r =>
      if r = 0 then exactly g * Copies ram new (i + left) top' entry data
      else given (r = -1) (exactly g * Memory ram new 0 top' anyPte) := by
  induction left generalizing i with
  | zero =>
    rw [uvmcopyFrom]
    exact Triple.pure rfl
  | succ left ih =>
    have below : i < n := by omega
    obtain ⟨⟨shape, -⟩, table, pages, apart, rfl, walks, contents⟩ := held
    have range := userPages_eq
    have bound := shape.bound
    obtain ⟨leaf, -⟩ := shape.leaf i below
    have inside : i * pgSize < maxVa := by
      unfold maxVa pgSize
      omega
    obtain ⟨r, walked⟩ := walks.walk inside
    have parts : ∀ h, g.Within h → table.Within h ∧ pages.Within h := fun h whole =>
      ⟨(Heap.within_left apart).trans (part.trans whole), (Heap.within_right apart).trans (part.trans whole)⟩
    have index : i * pgSize / 4096 = i := Nat.mul_div_cancel i (by decide)
    rw [index] at walked
    have there : pages (pte2pa (entry i)) = some (data i) := by
      rw [← Finset.mul_prod_erase _ _ (Finset.mem_range.mpr below)] at contents
      obtain ⟨one, two, apart', rfl, rfl, -⟩ := contents
      exact (Heap.union_left apart' Heap.single_self).1
    rw [uvmcopyFrom]
    apply Triple.look fun h whole => (walked h (parts h whole).1).1
    cases r with
    | none => exact absurd (walked g (parts g (Heap.Within.refl g)).1).2 leaf.nonzero
    | some slot =>
      obtain ⟨t, k⟩ := slot
      apply Triple.look fun h whole => by
        obtain ⟨page, here, word⟩ := (walked h (parts h whole).1).2
        exact word ▸ load_view here
      rw [if_neg leaf.valid]
      apply Triple.bindAllocate
      · exact fun _ => uvmcopy_err
      intro mem inside junk
      rw [mul_left_comm]
      apply Triple.look fun h whole => get_view ((parts h whole).2 _ _ there)
      rw [mul_left_comm]
      apply Triple.bindUpdate
      rw [mul_left_comm, mul_comm]
      apply Triple.call (Copies.push leaf inside)
      intro r
      by_cases success : r = 0
      · have next : i + (left + 1) = i + 1 + left := by omega
        rw [if_pos success, if_neg (not_not.mpr success), ← Nat.succ_mul, next, mul_comm]
        exact ih (by omega)
      rw [if_neg success, if_pos success, given_mul]
      apply Triple.given
      intro _
      rw [mul_assoc]
      apply Triple.bindRelease
      rw [mul_comm]
      exact uvmcopy_err

theorem uvmcopy_copies (held : Held ram old (pages sz) top entry data m) (part : m.Within g) :
    Triple (ram.supply fails) (exactly g * Memory ram new 0 top' anyPte) (uvmcopy old new sz) fun r =>
      if r = 0 then exactly g * Copies ram new (pages sz) top' entry data
      else given (r = -1) (exactly g * Memory ram new 0 top' anyPte) := by
  have copied := @uvmcopyFrom_copies ram fails 0 (pages sz) old new top top' entry data g m (pages sz) held part (by omega)
  rw [Nat.zero_mul, Nat.zero_add] at copied
  apply copied.pre
  intro h holds
  refine mul_mono (fun _ exact => exact) (fun h memory => ?_) holds
  obtain ⟨entry', data', held'⟩ := memory.held
  exact ⟨entry', data', nofun, held'⟩

end OShard.Space
