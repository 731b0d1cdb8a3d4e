import OShard.Space.Held
import OShard.Space.UserMemory

namespace OShard.Space

open Separation Assertion Prog Overlay

variable {ram : Ram} {fails : Prop} {supply : Supply} {root va n : Nat} {top entry : Nat → Nat} {ok : Nat → Prop} {g h : Heap Page}

/-- The result of `copyin` with the bytes that it has put at `dst`. -/
def copyinUpto (pagetable srcva len : Nat) : Prog Page (Int × List Nat) :=
  if _empty : len = 0 then return (0, [])
  else do
    let va0 := pgrounddown srcva
    let pa0 ← walkaddr pagetable va0
    if pa0 = 0 then return (-1, [])
    else
      let n := min (pgSize - (srcva - va0)) len
      let page ← get pa0
      let (r, rest) ← copyinUpto pagetable (va0 + pgSize) (len - n)
      return (r, page.bytes (srcva - va0) n ++ rest)
termination_by len
decreasing_by
  have chunk := @chunk_pos srcva len (Nat.pos_of_ne_zero _empty)
  omega

theorem copyin_upto (root srcva len : Nat) : copyin root srcva len =
    copyinUpto root srcva len >>= fun r => Pure.pure (if r.1 = 0 then some r.2 else none) := by
  induction len using Nat.strong_induction_on generalizing srcva with
  | _ len ih =>
    rw [copyin, copyinUpto]
    by_cases empty : len = 0
    · rw [dif_pos empty, dif_pos empty]
      rfl
    have chunk := @chunk_pos srcva len (Nat.pos_of_ne_zero empty)
    rw [dif_neg empty, dif_neg empty]
    dsimp only
    rw [Prog.bind_assoc]
    congr 1
    funext pa0
    by_cases unmapped : pa0 = 0
    · rw [if_pos unmapped, if_pos unmapped]
      rfl
    rw [if_neg unmapped, if_neg unmapped, Prog.bind_assoc]
    congr 1
    funext page
    rw [ih _ (by omega), Prog.bind_assoc, Prog.bind_assoc]
    congr 1
    funext r
    obtain ⟨value, rest⟩ := r
    by_cases zero : value = 0
    · rw [if_pos zero]
      change Prog.done _ = Prog.done _
      rw [if_pos zero]
    · rw [if_neg zero]
      change Prog.done _ = Prog.done _
      rw [if_neg zero]

theorem walkaddr_readOnly (root va : Nat) : (walkaddr root va).ReadOnly := by
  rw [walkaddr]
  split
  · exact .done _
  apply ReadOnly.bind
  · exact walk_readOnly root va
  intro r
  cases r with
  | none => exact .done _
  | some found =>
    apply ReadOnly.read
    intro page
    change (if _ then _ else _ : Prog Page _).ReadOnly
    split
    · exact .done _
    split
    · exact .done _
    · exact .done _

section Views

def User (pte : Nat) : Prop := pte &&& pteV ≠ 0 ∧ pte &&& pteU ≠ 0

instance (pte : Nat) : Decidable (User pte) := inferInstanceAs (Decidable (_ ∧ _))

/-- A memory with a page table, of which `h` are the pages, whose user pages are there, distinct, and no pages of the table. -/
structure UserSpace (ram : Ram) (root : Nat) (entry : Nat → Nat) (h g : Heap Page) : Prop where
  table : Table ram 2 root entry h
  within : h.Within g
  page : ∀ j, j < 2 ^ 26 → User (entry j) → g (pte2pa (entry j)) ≠ none ∧ h (pte2pa (entry j)) = none ∧ pte2pa (entry j) ≠ 0
  distinct : ∀ i j, i < 2 ^ 26 → j < 2 ^ 26 → User (entry i) → User (entry j) → pte2pa (entry i) = pte2pa (entry j) → i = j

/-- `g'` is `g` after some stores to user pages. -/
def Stored (entry : Nat → Nat) : Heap Page → Heap Page → Prop :=
  Relation.ReflTransGen fun g g' => ∃ j page, j < 2 ^ 26 ∧ User (entry j) ∧ g' = g.put (pte2pa (entry j)) (some page)

structure ReadSpace (root : Nat) (entry : Nat → Nat) (g : Heap Page) : Prop where
  walkaddr : ∀ va, (walkaddr root va).view g = some (userAddr entry va)
  page : ∀ j, j < 2 ^ 26 → User (entry j) → g (pte2pa (entry j)) ≠ none ∧ pte2pa (entry j) ≠ 0

def userMemory (g : Heap Page) (entry : Nat → Nat) : UserMemory Nat where
  readable j := decide (j < 2 ^ 26 ∧ User (entry j))
  writable j := decide (j < 2 ^ 26 ∧ User (entry j) ∧ entry j &&& pteW ≠ 0)
  byte va :=
    if va / pgSize < 2 ^ 26 ∧ User (entry (va / pgSize)) then
      match g (pte2pa (entry (va / pgSize))) with
      | none => 0
      | some page => page (va % pgSize)
    else 0
  readable_lt _ readable := (of_decide_eq_true readable).1
  writable_lt _ writable := (of_decide_eq_true writable).1

namespace UserSpace

variable {j k : Nat} {page : Page}

section

variable (space : UserSpace ram root entry h g)

include space

theorem reads : ReadSpace root entry g := by
  refine ⟨fun va => ?_, fun j below user => ⟨(space.page j below user).1, (space.page j below user).2.2⟩⟩
  obtain ⟨r, post, seen⟩ := (walkaddr_readOnly root va).view_post ((@walkaddr_spec ram True root entry va).run h space.table)
  rw [seen g space.within, post.1]

theorem put (below : j < 2 ^ 26) (user : User (entry j)) (page : Page) :
    UserSpace ram root entry h (g.put (pte2pa (entry j)) (some page)) := by
  have apart := (space.page j below user).2.1
  constructor
  · exact space.table
  · intro a x here
    have other : a ≠ pte2pa (entry j) := by
      rintro rfl
      rw [apart] at here
      cases here
    rw [Heap.put_other other]
    exact space.within a x here
  · intro i below' user'
    obtain ⟨there, rest⟩ := space.page i below' user'
    refine ⟨?_, rest⟩
    by_cases same : pte2pa (entry i) = pte2pa (entry j)
    · rw [same, Heap.put_self]
      nofun
    · rw [Heap.put_other same]
      exact there
  · exact space.distinct

theorem userMemory_put {bytes : List Nat} (below : va / pgSize < 2 ^ 26)
    (user : User (entry (va / pgSize))) (here : g (pte2pa (entry (va / pgSize))) = some page)
    (fits : bytes.length ≤ pgSize - (va - pgrounddown va)) :
    userMemory (g.put (pte2pa (entry (va / pgSize))) (some (page.write (va - pgrounddown va) bytes))) entry =
      (userMemory g entry).write va bytes := by
  unfold UserMemory.write userMemory
  congr 1
  funext a
  dsimp only
  by_cases mapped : a / pgSize < 2 ^ 26 ∧ User (entry (a / pgSize))
  · rw [if_pos mapped]
    by_cases same : a / pgSize = va / pgSize
    · rw [same, Heap.put_self]
      change paste page (va - pgrounddown va) bytes (a % pgSize) = _
      by_cases inside : va ≤ a ∧ a < va + bytes.length
      · obtain ⟨i, rfl⟩ := Nat.exists_eq_add_of_le inside.1
        have offset : (va + i) % pgSize = va - pgrounddown va + i := by
          unfold pgrounddown pgSize at *
          omega
        have less : i < bytes.length := by omega
        rw [offset, paste_inside less, paste_inside less]
      · have outside : a < va ∨ va + bytes.length ≤ a := by omega
        have outside' : a % pgSize < va - pgrounddown va ∨ va - pgrounddown va + bytes.length ≤ a % pgSize := by
          unfold pgrounddown pgSize at *
          omega
        rw [paste_outside outside, paste_outside outside', if_pos mapped, same, here]
    · have other : pte2pa (entry (a / pgSize)) ≠ pte2pa (entry (va / pgSize)) :=
        fun equal => same (space.distinct _ _ mapped.1 below mapped.2 user equal)
      have outside : a < va ∨ va + bytes.length ≤ a := by
        unfold pgrounddown pgSize at *
        omega
      rw [Heap.put_other other, paste_outside outside, if_pos mapped]
  · have outside : a < va ∨ va + bytes.length ≤ a := by
      by_contra inside
      have page : a / pgSize = va / pgSize := by
        unfold pgrounddown pgSize at *
        omega
      rw [page] at mapped
      exact mapped ⟨below, user⟩
    rw [if_neg mapped, paste_outside outside, if_neg mapped]

end

theorem not_above (below : ¬maxVa ≤ pgrounddown va) : va / pgSize < 2 ^ 26 := by
  unfold maxVa pgrounddown pgSize at *
  omega

theorem pgrounddown_page : pgrounddown va / 4096 = va / pgSize := Nat.mul_div_cancel _ (by decide)

theorem writable_iff : (userMemory g entry).writable j = true ↔ j < 2 ^ 26 ∧ User (entry j) ∧ entry j &&& pteW ≠ 0 :=
  decide_eq_true_iff

theorem readable_iff : (userMemory g entry).readable j = true ↔ j < 2 ^ 26 ∧ User (entry j) := decide_eq_true_iff

theorem copyout (space : UserSpace ram root entry h g) (dstva : Nat) (src : List Nat) :
    (Space.copyout root dstva src).wp supply (fun r g' => ((userMemory g entry).copyout dstva src) = (r, userMemory g' entry) ∧
      UserSpace ram root entry h g' ∧ Stored entry g g') g := by
  induction size : src.length using Nat.strong_induction_on generalizing g dstva src with
  | _ len ih =>
    rw [Space.copyout, UserMemory.copyout]
    by_cases empty : src = []
    · rw [dif_pos empty, dif_pos empty]
      exact ⟨rfl, space, .refl⟩
    rw [dif_neg empty, dif_neg empty]
    by_cases above : maxVa ≤ pgrounddown dstva
    · have denied : ¬(userMemory g entry).writable (dstva / pgSize) = true := by
        rw [writable_iff]
        unfold maxVa pgrounddown pgSize at above
        unfold pgSize
        omega
      rw [if_pos above, if_neg denied]
      exact ⟨rfl, space, .refl⟩
    have below := not_above above
    rw [if_neg above]
    obtain ⟨r, walked⟩ := space.table.walk (Nat.not_le.mp above)
    obtain ⟨seen, found⟩ := walked g space.within
    apply wp_view seen
    rw [pgrounddown_page] at found
    cases r with
    | none =>
      have denied : ¬(userMemory g entry).writable (dstva / pgSize) = true := by
        rw [writable_iff, found]
        exact fun valid => absurd rfl valid.2.2
      rw [if_neg denied]
      exact ⟨rfl, space, .refl⟩
    | some slot =>
      obtain ⟨t, k⟩ := slot
      obtain ⟨page, here, word⟩ := found
      apply wp_view (load_view here)
      rw [word]
      by_cases denied : entry (dstva / pgSize) &&& pteV = 0 ∨ entry (dstva / pgSize) &&& pteU = 0 ∨ entry (dstva / pgSize) &&& pteW = 0
      · have refused : ¬(userMemory g entry).writable (dstva / pgSize) = true := by
          rw [writable_iff]
          rintro ⟨-, ⟨valid, user⟩, write⟩
          rcases denied with zero | zero | zero
          · exact valid zero
          · exact user zero
          · exact write zero
        rw [if_pos denied, if_neg refused]
        exact ⟨rfl, space, .refl⟩
      have user : User (entry (dstva / pgSize)) :=
        ⟨fun zero => denied (Or.inl zero), fun zero => denied (Or.inr (Or.inl zero))⟩
      have granted : (userMemory g entry).writable (dstva / pgSize) = true :=
        writable_iff.mpr ⟨below, user, fun zero => denied (Or.inr (Or.inr zero))⟩
      rw [if_neg denied, if_pos granted]
      obtain ⟨contents, there⟩ := Option.ne_none_iff_exists'.mp (space.page _ below user).1
      refine ⟨contents, there, ?_⟩
      have some : 0 < src.length := List.length_pos_iff.mpr empty
      have chunk := @chunk_pos dstva src.length some
      have short : (src.take (min (pgSize - (dstva - pgrounddown dstva)) src.length)).length ≤ pgSize - (dstva - pgrounddown dstva) := by
        rw [List.length_take]
        omega
      have less : (src.drop (min (pgSize - (dstva - pgrounddown dstva)) src.length)).length < len := by
        rw [List.length_drop]
        omega
      have stored := space.userMemory_put below user there short
      apply wp_mono _ (ih _ less (space.put below user _) (pgrounddown dstva + pgSize) _ rfl)
      rintro r g' ⟨same, space', later⟩
      rw [stored] at same
      exact ⟨same, space', .head ⟨_, _, below, user, rfl⟩ later⟩

end UserSpace

namespace ReadSpace

open UserSpace

variable {k : Nat} {page : Page}

theorem userAddr_readable (space : ReadSpace root entry g) (readable : (userMemory g entry).readable (va / pgSize) = true) :
    userAddr entry (pgrounddown va) = pte2pa (entry (va / pgSize)) ∧ pte2pa (entry (va / pgSize)) ≠ 0 := by
  obtain ⟨below, user⟩ := readable_iff.mp readable
  have inside : ¬maxVa ≤ pgrounddown va := by
    unfold maxVa pgrounddown pgSize at *
    omega
  rw [userAddr, if_neg inside, pgrounddown_page, if_neg user.1, if_neg user.2]
  exact ⟨rfl, (space.page _ below user).2⟩

theorem userAddr_refused (refused : ¬(userMemory g entry).readable (va / pgSize) = true) : userAddr entry (pgrounddown va) = 0 := by
  rw [readable_iff] at refused
  rw [userAddr]
  by_cases above : maxVa ≤ pgrounddown va
  · rw [if_pos above]
  rw [if_neg above, pgrounddown_page]
  by_cases valid : entry (va / pgSize) &&& pteV = 0
  · rw [if_pos valid]
  · rw [if_neg valid]
    by_cases user : entry (va / pgSize) &&& pteU = 0
    · rw [if_pos user]
    · exact absurd ⟨not_above above, valid, user⟩ refused

theorem byte_of (below : va / pgSize < 2 ^ 26) (user : User (entry (va / pgSize)))
    (here : g (pte2pa (entry (va / pgSize))) = some page) (less : k < pgSize - (va - pgrounddown va)) :
    (userMemory g entry).byte (va + k) = page (va - pgrounddown va + k) := by
  have offset : (va + k) % pgSize = va - pgrounddown va + k := by
    unfold pgrounddown pgSize at *
    omega
  change (if (va + k) / pgSize < 2 ^ 26 ∧ User (entry ((va + k) / pgSize)) then _ else _) = _
  rw [same_page less, if_pos ⟨below, user⟩, here, offset]

theorem page_view {ρ : Type} (space : ReadSpace root entry g) (srcva : Nat) (missing : Prog Page ρ) (next : Page → Prog Page ρ)
    (readable : (userMemory g entry).readable (srcva / pgSize) = true) :
    ∃ page : Page, (Space.walkaddr root (pgrounddown srcva) >>= fun pa0 => if pa0 = 0 then missing else get pa0 >>= next).view g =
        (next page).view g ∧
      ∀ n ≤ pgSize - (srcva - pgrounddown srcva), page.bytes (srcva - pgrounddown srcva) n = segment (userMemory g entry).byte srcva n := by
  obtain ⟨below, user⟩ := readable_iff.mp readable
  obtain ⟨address, nonzero⟩ := space.userAddr_readable readable
  obtain ⟨page, there⟩ := Option.ne_none_iff_exists'.mp (space.page _ below user).1
  refine ⟨page, ?_, fun n fits => segment_congr fun k less => (byte_of below user there (by omega)).symm⟩
  rw [view_bind, space.walkaddr]
  change (if userAddr entry (pgrounddown srcva) = 0 then _ else _ : Prog Page ρ).view g = _
  rw [address, if_neg nonzero, view_bind, get_view there]
  rfl

theorem missing_view {ρ : Type} (space : ReadSpace root entry g) (srcva : Nat) (missing : Prog Page ρ) (next : Nat → Prog Page ρ)
    (refused : ¬(userMemory g entry).readable (srcva / pgSize) = true) :
    (Space.walkaddr root (pgrounddown srcva) >>= fun pa0 => if pa0 = 0 then missing else next pa0).view g = missing.view g := by
  rw [view_bind, space.walkaddr, userAddr_refused refused]
  rfl

theorem copyin (space : ReadSpace root entry g) (srcva len : Nat) :
    (copyinUpto root srcva len).view g = some ((userMemory g entry).copyin srcva len) := by
  induction len using Nat.strong_induction_on generalizing srcva with
  | _ len ih =>
    rw [copyinUpto, UserMemory.copyin]
    by_cases empty : len = 0
    · rw [dif_pos empty, dif_pos empty]
      rfl
    rw [dif_neg empty, dif_neg empty]
    dsimp only
    by_cases readable : (userMemory g entry).readable (srcva / pgSize) = true
    · have chunk := @chunk_pos srcva len (Nat.pos_of_ne_zero empty)
      obtain ⟨page, seen, bytes⟩ := space.page_view srcva (Pure.pure (-1, [])) _ readable
      rw [if_pos readable, seen, view_bind, ih _ (by omega), ← bytes _ (Nat.min_le_left _ _)]
      rfl
    · rw [if_neg readable, space.missing_view srcva _ _ readable]
      rfl

theorem copyin_view (space : ReadSpace root entry g) (srcva len : Nat) : ∃ r, (Space.copyin root srcva len).view g = some r := by
  rw [copyin_upto, view_bind, space.copyin]
  exact ⟨_, rfl⟩

end ReadSpace

def cut (bytes : List Nat) : List Nat × Bool := if 0 ∈ bytes then (bytes.takeWhile (· ≠ 0), true) else (bytes, false)

theorem cut_append (first rest : List Nat) : cut (first ++ rest) =
    if 0 ∈ first then (first.takeWhile (· ≠ 0), true) else (first ++ (cut rest).1, (cut rest).2) := by
  unfold cut
  by_cases here : 0 ∈ first
  · obtain ⟨before, after, rfl, fresh⟩ := List.eq_append_cons_of_mem here
    have plain : ∀ b ∈ before, decide (b ≠ 0) = true := fun b member => decide_eq_true fun zero => fresh (zero ▸ member)
    rw [if_pos here, if_pos (List.mem_append_left _ here), List.append_assoc, List.takeWhile_append_of_pos plain,
      List.takeWhile_append_of_pos plain]
    rfl
  · have plain : ∀ b ∈ first, decide (b ≠ 0) = true := fun b member => decide_eq_true fun zero => here (zero ▸ member)
    rw [if_neg here]
    by_cases later : 0 ∈ rest
    · rw [if_pos (List.mem_append_right _ later), if_pos later, List.takeWhile_append_of_pos plain]
    · rw [if_neg (by simp [here, later]), if_neg later]

theorem ReadSpace.copyinstr (space : ReadSpace root entry g) (srcva max : Nat) : (copyinstr root srcva max).view g =
    some (cut (segment (userMemory g entry).byte srcva (span (userMemory g entry).readable srcva max))) := by
  induction max using Nat.strong_induction_on generalizing srcva with
  | _ max ih =>
    rw [Space.copyinstr]
    by_cases empty : max = 0
    · rw [dif_pos empty, empty, span_zero]
      rfl
    rw [dif_neg empty]
    dsimp only
    by_cases readable : (userMemory g entry).readable (srcva / pgSize) = true
    · have chunk := @chunk_pos srcva max (Nat.pos_of_ne_zero empty)
      obtain ⟨page, seen, bytes⟩ := space.page_view srcva (Pure.pure ([], false)) _ readable
      rw [seen, bytes _ (Nat.min_le_left _ _), span_good empty readable, segment_add, cut_append]
      split
      · rfl
      rw [view_bind, ih _ (by omega)]
      by_cases fits : max ≤ pgSize - (srcva - pgrounddown srcva)
      · rw [Nat.min_eq_right fits, Nat.sub_self, span_zero]
        rfl
      · rw [Nat.min_eq_left (by omega), next_page]
        rfl
    · rw [space.missing_view srcva _ _ readable, span_bad (Bool.eq_false_of_not_eq_true readable)]
      rfl

end Views

section Memory

theorem data_parts (shape : Shape n top ok entry) (data : Data ram entry h) :
    ∃ parts, Parts h parts ∧ (∀ k a, parts k a ≠ none ↔ k < n ∧ a = pte2pa (entry k)) ∧ ∀ k, k < n → pte2pa (entry k) ∈ ram.pool := by
  have bound := shape.bound
  obtain ⟨parts, divided, each, empty⟩ := Parts.of_prod data
  have present : ∀ k, k < n → pte2pa (entry k) ∈ ram.pool ∧ ∃ junk, parts k = Heap.single (pte2pa (entry k)) junk := by
    intro k below
    have backed := each k (Finset.mem_range.mpr (Nat.lt_of_lt_of_le below bound))
    rw [Space.backed, if_neg (shape.leaf k below).1.nonzero] at backed
    exact backed
  refine ⟨parts, divided, fun k a => ?_, fun k below => (present k below).1⟩
  by_cases below : k < n
  · obtain ⟨-, junk, single⟩ := present k below
    rw [single, Heap.single_ne_none]
    exact (and_iff_right below).symm
  have nothing : parts k = Heap.empty := by
    by_cases low : k < userPages
    · have backed := each k (Finset.mem_range.mpr low)
      rw [Space.backed, if_pos (shape.empty k low (Nat.not_lt.mp below))] at backed
      exact backed
    · exact empty k fun inside => low (Finset.mem_range.mp inside)
  rw [nothing]
  constructor
  · exact fun some => absurd rfl some
  · exact fun all => absurd all.1 below

variable {k : Nat} (shape : Shape n top ok entry)

include shape

theorem update_user {change : Page → Page} (below : k < n) :
    Keeps (ram.supply fails) (Table ram 2 root entry * Data ram entry) (update (pte2pa (entry k)) change) := by
  apply page_bind shape below
  intro inside junk
  apply ((Triple.update change).frame _).post
  exact fun _ h holds => page_return shape below inside holds

variable (hidden : Hidden top)

include hidden

theorem Shape.userSpace {t d : Heap Page} (apart : t.Apart d) (table : Table ram 2 root entry t) (data : Data ram entry d)
    (within : (t.union d).Within g) : UserSpace ram root entry t g := by
  obtain ⟨parts, divided, mine, inside⟩ := data_parts shape data
  refine ⟨table, (Heap.within_left apart).trans within, fun j _ user => ?_, fun i j _ _ user user' same => ?_⟩
  · have below := shape.user hidden user.2
    have here := (divided.within j).ne_none ((mine j _).mpr ⟨below, rfl⟩)
    exact ⟨((Heap.within_right apart).trans within).ne_none here, (apart _).resolve_right here, ram.nonzero _ (inside j below)⟩
  · exact divided.part_unique ((mine i _).mpr ⟨shape.user hidden user.2, rfl⟩) ((mine j _).mpr ⟨shape.user hidden user'.2, same⟩)

theorem reads_keep {ρ : Type} {p : Prog Page ρ} (seen : ∀ h, ReadSpace root entry h → ∃ r, p.view h = some r) :
    Keeps (ram.supply fails) (Table ram 2 root entry * Data ram entry) p := by
  constructor
  intro h holds
  obtain ⟨t, d, apart, rfl, table, data⟩ := id holds
  obtain ⟨r, same⟩ := seen _ (shape.userSpace hidden apart table data (Heap.Within.refl _)).reads
  exact wp_of_view same holds

theorem copyin_spec (srcva len : Nat) : Keeps (ram.supply fails) (Table ram 2 root entry * Data ram entry) (copyin root srcva len) :=
  reads_keep shape hidden fun _ space => space.copyin_view srcva len

theorem copyinstr_spec (srcva max : Nat) :
    Keeps (ram.supply fails) (Table ram 2 root entry * Data ram entry) (copyinstr root srcva max) :=
  reads_keep shape hidden fun _ space => ⟨_, space.copyinstr srcva max⟩

theorem copyout_spec (dstva : Nat) (src : List Nat) :
    Keeps (ram.supply fails) (Table ram 2 root entry * Data ram entry) (copyout root dstva src) := by
  constructor
  intro h holds
  obtain ⟨t, d, apart, rfl, table, data⟩ := id holds
  apply wp_mono _ ((shape.userSpace hidden apart table data (Heap.Within.refl _)).copyout dstva src)
  rintro r g ⟨-, -, stored⟩
  induction stored with
  | refl => exact holds
  | tail _ last ih =>
    obtain ⟨j, page, below, user, rfl⟩ := last
    obtain ⟨x, -, kept⟩ := (@update_user ram True root _ _ _ _ _ shape (fun _ => page) (shape.user hidden user.2)).run _ ih
    exact kept

end Memory

end OShard.Space
