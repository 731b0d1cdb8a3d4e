import OShard.Space.Pte

namespace OShard.Space

open Separation Assertion Prog

/-- The pages that `kalloc` returns, and that of the trampoline, which is none of them. There are fewer than it would
    take to reach `TRAPFRAME`. -/
structure Ram where
  pool : Finset Nat
  trampoline : Nat
  aligned : ∀ pa ∈ pool, pa % 4096 = 0
  bounded : ∀ pa ∈ pool, pa < 2 ^ 56
  nonzero : ∀ pa ∈ pool, pa ≠ 0
  small : pool.card < trapframeVa / pgSize
  text : trampoline ∉ pool
  textAligned : trampoline % 4096 = 0
  textBounded : trampoline < 2 ^ 56

def Ram.supply (ram : Ram) (fails : Prop) : Supply := ⟨ram.pool, fails⟩

def page (ram : Ram) (pa : Nat) : Assertion Page := given (pa ∈ ram.pool) (any (points pa))

/-- What stands behind an entry of a table: nothing, or a table of the level below. -/
def kid (table : Nat → (Nat → Nat) → Assertion Page) (size : Nat) (child : Option Nat) (entry : Nat → Nat) : Assertion Page :=
  match child with
  | none => given (∀ j, j < size → entry j = 0) 1
  | some pa => table pa entry

def kidsOf (table : Nat → (Nat → Nat) → Assertion Page) (size : Nat) (kids : Nat → Option Nat) (entry : Nat → Nat)
    (slots : Finset Nat) : Assertion Page :=
  ∏ i ∈ slots, kid table size (kids i) fun j => entry (size * i + j)

/-- A table with its lower tables. Its entries for pages, over all the lower tables, are the words `entry`. -/
def Table (ram : Ram) : Nat → Nat → (Nat → Nat) → Assertion Page
  | 0, root, entry => any fun page => given (root ∈ ram.pool ∧ ∀ i, i < 512 → page.word i = entry i) (points root page)
  | level + 1, root, entry => any fun page => any fun kids : Nat → Option Nat =>
      given (root ∈ ram.pool ∧ ∀ i, i < 512 → page.word i = link (kids i))
        (points root page * kidsOf (Table ram level) (512 ^ (level + 1)) kids entry (Finset.range 512))

/-- The table with one of its entries in hand: whatever the word of the entry becomes, it is a table again. -/
def Cell (ram : Ram) (level root : Nat) (entry : Nat → Nat) (index pa i : Nat) : Assertion Page :=
  any fun page => any fun rest : Assertion Page =>
    given (page.word i = entry index ∧ ∀ page' : Page, (∀ j, j ≠ i → page'.word j = page.word j) →
        ∀ h, (points pa page' * rest) h → Table ram level root (Function.update entry index (page'.word i)) h)
      (points pa page * rest)

variable {ram : Ram} {fails : Prop} {level root : Nat} {entry entry' : Nat → Nat} {h : Heap Page} {kids kids' : Nat → Option Nat}

section Shape

variable {i size : Nat} {table : Nat → (Nat → Nat) → Assertion Page}

theorem slot_lt {j : Nat} (slot : i < 512) (below : j < 512 ^ (level + 1)) :
    512 ^ (level + 1) * i + j < 512 ^ (level + 1 + 1) := by
  calc 512 ^ (level + 1) * i + j < 512 ^ (level + 1) * (i + 1) := by rw [Nat.mul_succ]; omega
    _ ≤ 512 ^ (level + 1) * 512 := Nat.mul_le_mul_left _ slot
    _ = 512 ^ (level + 1 + 1) := (pow_succ _ _).symm

theorem Table.congr (same : ∀ j, j < 512 ^ (level + 1) → entry j = entry' j) (table : Table ram level root entry h) :
    Table ram level root entry' h := by
  induction level generalizing root entry entry' h with
  | zero =>
    obtain ⟨page, ⟨inside, words⟩, points⟩ := table
    refine ⟨page, ⟨inside, fun i below => ?_⟩, points⟩
    rw [words i below, same i (by simpa using below)]
  | succ level ih =>
    obtain ⟨page, kids, facts, points⟩ := table
    refine ⟨page, kids, facts, ?_⟩
    have kids_eq : kidsOf (Table ram level) (512 ^ (level + 1)) kids entry (Finset.range 512) =
        kidsOf (Table ram level) (512 ^ (level + 1)) kids entry' (Finset.range 512) := by
      apply Finset.prod_congr rfl
      intro i member
      have same' := fun j below => same _ (slot_lt (j := j) (Finset.mem_range.mp member) below)
      funext g
      apply propext
      cases kids i with
      | none =>
        constructor
        · exact fun holds => ⟨fun j below => (same' j below).symm.trans (holds.1 j below), holds.2⟩
        · exact fun holds => ⟨fun j below => (same' j below).trans (holds.1 j below), holds.2⟩
      | some child =>
        constructor
        · exact ih same'
        · exact ih fun j below => (same' j below).symm
    rw [← kids_eq]
    exact points

theorem kid_none : kid table size none entry = given (∀ j, j < size → entry j = 0) 1 := rfl

theorem kid_some {child : Nat} : kid table size (some child) entry = table child entry := rfl

theorem kid_congr {child : Option Nat} (same : ∀ j, j < 512 ^ (level + 1) → entry j = entry' j) :
    kid (Table ram level) (512 ^ (level + 1)) child entry = kid (Table ram level) (512 ^ (level + 1)) child entry' := by
  funext g
  apply propext
  cases child with
  | none =>
    constructor
    · exact fun holds => ⟨fun j below => (same j below).symm.trans (holds.1 j below), holds.2⟩
    · exact fun holds => ⟨fun j below => (same j below).trans (holds.1 j below), holds.2⟩
  | some child =>
    constructor
    · exact Table.congr same
    · exact Table.congr fun j below => (same j below).symm

theorem kidsOf_split (slot : i < 512) :
    kidsOf (Table ram level) (512 ^ (level + 1)) kids entry (Finset.range 512) =
      kid (Table ram level) (512 ^ (level + 1)) (kids i) (fun j => entry (512 ^ (level + 1) * i + j)) *
        kidsOf (Table ram level) (512 ^ (level + 1)) kids entry ((Finset.range 512).erase i) :=
  (Finset.mul_prod_erase _ _ (Finset.mem_range.mpr slot)).symm

theorem kidsOf_congr (same : ∀ x, x ≠ i → kids' x = kids x)
    (entries : ∀ x j, x ≠ i → j < 512 ^ (level + 1) → entry' (512 ^ (level + 1) * x + j) = entry (512 ^ (level + 1) * x + j)) :
    kidsOf (Table ram level) (512 ^ (level + 1)) kids' entry' ((Finset.range 512).erase i) =
      kidsOf (Table ram level) (512 ^ (level + 1)) kids entry ((Finset.range 512).erase i) := by
  apply Finset.prod_congr rfl
  intro x member
  have other := Finset.ne_of_mem_erase member
  rw [same x other]
  exact kid_congr fun j below => entries x j other below

theorem Table.inside (table : Table ram level root entry h) : root ∈ ram.pool := by
  cases level with
  | zero =>
    obtain ⟨page, ⟨inside, -⟩, -⟩ := table
    exact inside
  | succ level =>
    obtain ⟨page, kids, ⟨inside, -⟩, -⟩ := table
    exact inside

theorem table_given : Table ram level root entry = given (root ∈ ram.pool) (Table ram level root entry) := by
  funext h
  exact propext ⟨fun table => ⟨table.inside, table⟩, fun both => both.2⟩

theorem table_zero (inside : root ∈ ram.pool) (empty : ∀ j, j < 512 ^ (level + 1) → entry j = 0)
    (holds : points root Page.zero h) : Table ram level root entry h := by
  cases level with
  | zero =>
    refine ⟨Page.zero, ⟨inside, fun i below => ?_⟩, holds⟩
    rw [Page.word_zero, empty i (by simpa using below)]
  | succ level =>
    refine ⟨Page.zero, fun _ => none, ⟨inside, fun i _ => Page.word_zero⟩, ?_⟩
    have ones : ∀ i ∈ Finset.range 512,
        kid (Table ram level) (512 ^ (level + 1)) none (fun j => entry (512 ^ (level + 1) * i + j)) = 1 := by
      intro i member
      funext g
      apply propext
      constructor
      · exact fun holds => holds.2
      · exact fun one => ⟨fun j below => empty _ (slot_lt (Finset.mem_range.mp member) below), one⟩
    rw [kidsOf, Finset.prod_congr rfl ones, Finset.prod_const_one, mul_one]
    exact holds

end Shape

section Access

variable {pa i value va : Nat} {alloc : Bool} {supply : Supply}

theorem load_spec {page : Page} : Triple supply (points pa page) (load pa i) fun r => given (r = page.word i) (points pa page) := by
  apply Triple.bind Triple.get
  intro r
  apply Triple.given
  rintro rfl
  exact Triple.done fun _ holds => ⟨rfl, holds⟩

theorem store_spec {page : Page} : Triple supply (points pa page) (store pa i value) fun _ => points pa (page.setWord i value) :=
  Triple.update _

theorem Cell.load (index : Nat) : Triple supply (Cell ram level root entry index pa i) (load pa i) fun r =>
    given (r = entry index) (Cell ram level root entry index pa i) := by
  apply Triple.any
  intro page
  apply Triple.any
  intro rest
  apply Triple.given
  rintro ⟨word, close⟩
  apply (load_spec.frame rest).post
  rintro r h ⟨left, right, apart, union, ⟨rfl, one⟩, two⟩
  exact ⟨word, page, rest, ⟨word, close⟩, left, right, apart, union, one, two⟩

theorem Cell.store {index : Nat} (small : value < 2 ^ 64) : Triple supply (Cell ram level root entry index pa i) (store pa i value)
    fun _ => Table ram level root (Function.update entry index value) := by
  apply Triple.any
  intro page
  apply Triple.any
  intro rest
  apply Triple.given
  rintro ⟨-, close⟩
  apply (store_spec.frame rest).post
  intro _ h holds
  have closed := close (page.setWord i value) (fun j other => Page.word_setWord_other other) h holds
  rw [Page.word_setWord_self small] at closed
  exact closed

theorem Cell.table {index : Nat} (cell : Cell ram level root entry index pa i h) : Table ram level root entry h := by
  obtain ⟨page, rest, ⟨word, close⟩, holds⟩ := cell
  have closed := close page (fun _ _ => rfl) h holds
  rw [word, Function.update_eq_self] at closed
  exact closed

theorem Table.slot {page : Page} (inside : root ∈ ram.pool) (words : ∀ x, x < 512 → page.word x = link (kids x)) (slot : i < 512)
    (holds : (points root page * (kid (Table ram level) (512 ^ (level + 1)) (kids i) (fun j => entry (512 ^ (level + 1) * i + j)) *
      kidsOf (Table ram level) (512 ^ (level + 1)) kids entry ((Finset.range 512).erase i))) h) :
    Table ram (level + 1) root entry h := by
  rw [← kidsOf_split slot] at holds
  exact ⟨page, kids, ⟨inside, words⟩, holds⟩

theorem Cell.lift {page : Page} {child index : Nat} (inside : root ∈ ram.pool)
    (words : ∀ x, x < 512 → page.word x = link (kids x)) {slot : Nat} (below : slot < 512) (here : kids slot = some child)
    (small : index < 512 ^ (level + 1))
    (holds : (Cell ram level child (fun j => entry (512 ^ (level + 1) * slot + j)) index pa i *
      (points root page * kidsOf (Table ram level) (512 ^ (level + 1)) kids entry ((Finset.range 512).erase slot))) h) :
    Cell ram (level + 1) root entry (512 ^ (level + 1) * slot + index) pa i h := by
  obtain ⟨left, right, apart, rfl, ⟨low, rest, ⟨word, close⟩, one⟩, two⟩ := holds
  refine ⟨low, rest * (points root page *
    kidsOf (Table ram level) (512 ^ (level + 1)) kids entry ((Finset.range 512).erase slot)), ⟨word, ?_⟩, ?_⟩
  · intro page' same g holds
    rw [← mul_assoc] at holds
    have lower := mul_mono (close page' same) (fun _ holds => holds) holds
    have others : kidsOf (Table ram level) (512 ^ (level + 1)) kids
          (Function.update entry (512 ^ (level + 1) * slot + index) (page'.word i)) ((Finset.range 512).erase slot) =
        kidsOf (Table ram level) (512 ^ (level + 1)) kids entry ((Finset.range 512).erase slot) := by
      apply kidsOf_congr (fun _ _ => rfl)
      intro x j other small'
      apply Function.update_of_ne
      intro equal
      apply other
      have left := Nat.mul_add_div (Nat.pos_of_ne_zero (by positivity : 512 ^ (level + 1) ≠ 0)) x j
      rw [equal, Nat.mul_add_div (by positivity), Nat.div_eq_of_lt small, Nat.div_eq_of_lt small'] at left
      omega
    have entries : (fun j => Function.update entry (512 ^ (level + 1) * slot + index) (page'.word i) (512 ^ (level + 1) * slot + j)) =
        Function.update (fun j => entry (512 ^ (level + 1) * slot + j)) index (page'.word i) := by
      funext j
      by_cases equal : j = index
      · rw [equal, Function.update_self, Function.update_self]
      · rw [Function.update_of_ne equal, Function.update_of_ne (by omega)]
    refine Table.slot inside words below ?_
    rw [others, here, mul_left_comm]
    change (Table ram level child _ * _) g
    rw [entries]
    exact lower
  · rw [← mul_assoc]
    exact ⟨left, right, apart, rfl, one, two⟩

theorem walkFrom_spec : Triple (ram.supply fails) (Table ram level root entry) (walkFrom va alloc level root) fun r =>
    match r with
    | none => given ((alloc = false → entry (index level va) = 0) ∧ (alloc = true → fails)) (Table ram level root entry)
    | some (pa, i) => Cell ram level root entry (index level va) pa i := by
  induction level generalizing root entry with
  | zero =>
    apply Triple.any
    intro page
    apply Triple.given
    rintro ⟨inside, words⟩
    apply Triple.done
    intro h holds
    refine ⟨page, 1, ⟨?_, fun page' same g holds' => ?_⟩, ?_⟩
    · rw [words _ px_lt, index_zero]
    · rw [mul_one] at holds'
      refine ⟨page', ⟨inside, fun i below => ?_⟩, holds'⟩
      rw [index_zero]
      by_cases equal : i = px 0 va
      · rw [equal, Function.update_self]
      · rw [Function.update_of_ne equal, same i equal, words i below]
    · rw [mul_one]
      exact holds
  | succ level ih =>
    apply Triple.any
    intro page
    apply Triple.any
    intro kids
    apply Triple.given
    rintro ⟨inside, words⟩
    have slot := @px_lt (level + 1) va
    -- The walk in the lower table, with what it leaves behind.
    have descend : ∀ {page : Page} {kids : Nat → Option Nat} {child : Nat}, (∀ x, x < 512 → page.word x = link (kids x)) →
        kids (px (level + 1) va) = some child →
        Triple (ram.supply fails)
          (Table ram level child (fun j => entry (512 ^ (level + 1) * px (level + 1) va + j)) *
            (points root page * kidsOf (Table ram level) (512 ^ (level + 1)) kids entry
              ((Finset.range 512).erase (px (level + 1) va))))
          (walkFrom va alloc level child) fun r =>
            match r with
            | none => given ((alloc = false → entry (index (level + 1) va) = 0) ∧ (alloc = true → fails))
                (Table ram (level + 1) root entry)
            | some (pa, i) => Cell ram (level + 1) root entry (index (level + 1) va) pa i := by
      intro page kids child words here
      apply (ih.frame _).post
      intro r g after
      rw [index_succ]
      cases r with
      | none =>
        simp only at after ⊢
        rw [given_mul] at after
        refine ⟨after.1, Table.slot inside words slot ?_⟩
        rw [here, mul_left_comm]
        exact after.2
      | some found => exact Cell.lift inside words slot here index_lt after
    rw [kidsOf_split slot]
    apply Triple.bind (load_spec.frame _)
    intro pte
    rw [given_mul]
    apply Triple.given
    rintro rfl
    rw [words _ slot]
    cases here : kids (px (level + 1) va) with
    | some child =>
      have valid : link (some child) &&& pteV ≠ 0 := by
        rw [and_flags (by decide), link_flags]
        decide
      rw [if_pos valid, mul_left_comm, kid_some, table_given, given_mul]
      apply Triple.given
      intro inside'
      rw [link_pa (ram.aligned child inside')]
      exact descend words here
    | none =>
      have invalid : ¬link none &&& pteV ≠ 0 := by decide
      rw [if_neg invalid, kid_none, given_mul, one_mul, mul_given]
      apply Triple.given
      intro zeros
      have whole : ∀ h, (points root page * kidsOf (Table ram level) (512 ^ (level + 1)) kids entry
          ((Finset.range 512).erase (px (level + 1) va))) h → Table ram (level + 1) root entry h := by
        intro h holds
        apply Table.slot inside words slot
        rw [here, kid_none, given_mul, one_mul, mul_given]
        exact ⟨zeros, holds⟩
      cases alloc with
      | false =>
        rw [if_pos rfl]
        apply Triple.done
        intro h holds
        refine ⟨⟨fun _ => ?_, nofun⟩, whole h holds⟩
        rw [index_succ]
        exact zeros _ index_lt
      | true =>
        rw [if_neg (by decide)]
        -- A new table goes into the slot, and the walk goes on there.
        apply Triple.bindAllocate
        · exact fun failed => Triple.done fun h holds => ⟨⟨nofun, fun _ => failed⟩, whole h holds⟩
        intro child inside' junk
        have others : ∀ x, x ≠ px (level + 1) va → Function.update kids (px (level + 1) va) (some child) x = kids x :=
          fun x other => Function.update_of_ne other _ _
        have words' : ∀ x, x < 512 → (page.setWord (px (level + 1) va) (link (some child))).word x =
            link (Function.update kids (px (level + 1) va) (some child) x) := by
          intro x below
          by_cases equal : x = px (level + 1) va
          · rw [equal, Page.word_setWord_self (link_lt (ram.bounded child inside')), Function.update_self]
          · rw [Page.word_setWord_other equal, Function.update_of_ne equal, words x below]
        apply Triple.bindUpdate
        rw [mul_left_comm]
        apply Triple.bindUpdate
        rw [mul_left_comm, ← kidsOf_congr others fun _ _ _ _ => rfl]
        apply (descend words' (Function.update_self _ _ _)).pre
        exact fun h holds => mul_mono (fun g => table_zero inside' zeros) (fun _ holds => holds) holds

end Access

section Free

def Remaining (ram : Ram) (level root : Nat) (kids : Nat → Option Nat) (entry : Nat → Nat) (i : Nat) : Assertion Page :=
  any fun page => given (∀ x, i ≤ x → x < 512 → page.word x = link (kids x))
    (points root page * kidsOf (Table ram level) (512 ^ (level + 1)) kids entry (Finset.Ico i 512))

theorem freewalk_slot {i : Nat} (below : i < 512) (empty : ∀ j, j < 512 ^ (level + 1) → entry (512 ^ (level + 1) * i + j) = 0)
    (lower : ∀ {child : Nat} {entry : Nat → Nat}, (∀ j, j < 512 ^ (level + 1) → entry j = 0) →
      Triple (ram.supply fails) (Table ram level child entry) (freewalk (level + 1) child) fun _ => 1) :
    Triple (ram.supply fails) (Remaining ram level root kids entry i)
      (do
        let pte ← load root i
        if pte &&& pteV ≠ 0 ∧ pte &&& (pteR ||| pteW ||| pteX) = 0 then
          freewalk (level + 1) (pte2pa pte)
          store root i 0
        else if pte &&& pteV ≠ 0 then .fail "freewalk: leaf")
      fun _ => Remaining ram level root kids entry (i + 1) := by
  apply Triple.any
  intro page
  apply Triple.given
  intro words
  have others : ∀ x, i + 1 ≤ x → x < 512 → page.word x = link (kids x) := fun x above => words x (Nat.le_of_succ_le above)
  have split : kidsOf (Table ram level) (512 ^ (level + 1)) kids entry (Finset.Ico i 512) =
      kid (Table ram level) (512 ^ (level + 1)) (kids i) (fun j => entry (512 ^ (level + 1) * i + j)) *
        kidsOf (Table ram level) (512 ^ (level + 1)) kids entry (Finset.Ico (i + 1) 512) :=
    Finset.prod_eq_prod_Ico_succ_bot below _
  rw [split]
  apply Triple.call load_spec
  intro pte
  rw [given_mul]
  apply Triple.given
  rintro rfl
  rw [words i (Nat.le_refl i) below]
  cases kids i with
  | none =>
    rw [kid_none, given_mul, one_mul, mul_given, if_neg (by decide), if_neg (by decide)]
    apply Triple.given
    intro _
    exact Triple.done fun h holds => ⟨page, others, holds⟩
  | some child =>
    have table : link (some child) &&& pteV ≠ 0 ∧ link (some child) &&& (pteR ||| pteW ||| pteX) = 0 := by
      constructor
      · rw [and_flags (by decide), link_flags]
        decide
      · rw [and_flags (by decide), link_flags]
        decide
    rw [if_pos table, kid_some, mul_left_comm, table_given, given_mul]
    apply Triple.given
    intro inside
    rw [link_pa (ram.aligned child inside)]
    apply Triple.call (lower empty)
    intro _
    rw [one_mul]
    apply (store_spec.frame _).post
    intro _ h holds
    refine ⟨page.setWord i 0, fun x above small => ?_, holds⟩
    rw [Page.word_setWord_other (by omega), others x above small]

theorem freewalk_spec (empty : ∀ j, j < 512 ^ (level + 1) → entry j = 0) :
    Triple (ram.supply fails) (Table ram level root entry) (freewalk (level + 1) root) fun _ => 1 := by
  induction level generalizing root entry with
  | zero =>
    apply Triple.any
    intro page
    apply Triple.given
    rintro ⟨-, words⟩
    rw [freewalk]
    apply Triple.bind (Triple.loop (fun _ => points root page) fun i below => ?_)
    · exact fun _ => Triple.release
    apply Triple.bind load_spec
    intro pte
    apply Triple.given
    rintro rfl
    rw [words i below, empty i (by simpa using below), if_neg (by decide), if_neg (by decide)]
    exact Triple.pure rfl
  | succ level ih =>
    apply Triple.any
    intro page
    apply Triple.any
    intro kids
    apply Triple.given
    rintro ⟨-, words⟩
    have start : ∀ h, (points root page * kidsOf (Table ram level) (512 ^ (level + 1)) kids entry (Finset.range 512)) h →
        Remaining ram level root kids entry 0 h := by
      intro h holds
      rw [Finset.range_eq_Ico] at holds
      exact ⟨page, fun x _ below => words x below, holds⟩
    rw [freewalk]
    apply Triple.bind ((Triple.loop (Remaining ram level root kids entry) fun i below => ?_).pre start)
    · intro _
      apply Triple.any
      intro page
      apply Triple.given
      intro _
      rw [kidsOf, Finset.Ico_self, Finset.prod_empty, mul_one]
      exact Triple.release
    · exact freewalk_slot below (fun j small => empty _ (slot_lt below small)) ih

end Free

end OShard.Space
