import OShard.Space.Copy

namespace OShard.Space

open Separation Assertion Prog

variable {ram : Ram} {fails : Prop} {root n pa perm : Nat} {top entry : Nat → Nat} {data : Nat → Page} {page : Page} {h : Heap Page}

def Held (ram : Ram) (root n : Nat) (top entry : Nat → Nat) (data : Nat → Page) : Assertion Page :=
  given (Shape n top anyPte entry ∧ ∀ i, i < n → pte2pa (entry i) ∈ ram.pool)
    (Table ram 2 root entry * ∏ i ∈ Finset.range n, points (pte2pa (entry i)) (data i))

theorem Memory.held (memory : Memory ram root n top anyPte h) : ∃ entry data, Held ram root n top entry data h := by
  obtain ⟨entry, shape, left, right, apart, rfl, table, pages⟩ := memory
  rw [Data.pages shape] at pages
  have inside : ∀ i, i < n → pte2pa (entry i) ∈ ram.pool := by
    intro i below
    rw [← Finset.mul_prod_erase _ _ (Finset.mem_range.mpr below)] at pages
    obtain ⟨one, two, -, -, ⟨inside, -⟩, -⟩ := pages
    exact inside
  obtain ⟨data, contents⟩ := prod_any (prod_mono (fun i _ h (page : page ram (pte2pa (entry i)) h) => page.2) pages)
  exact ⟨entry, data, ⟨shape, inside⟩, left, right, apart, rfl, table, contents⟩

theorem Held.backed (held : Held ram root n top entry data h) :
    Shape n top anyPte entry ∧ (Table ram 2 root entry * Data ram entry) h := by
  obtain ⟨⟨shape, inside⟩, holds⟩ := held
  refine ⟨shape, mul_mono (fun _ table => table) (fun _ pages => ?_) holds⟩
  rw [Data.pages shape]
  exact prod_mono (fun i member _ here => ⟨inside i (Finset.mem_range.mp member), data i, here⟩) pages

theorem Held.memory (held : Held ram root n top entry data h) : Memory ram root n top anyPte h := ⟨entry, held.backed⟩

theorem Held.push (inside : pa ∈ ram.pool) (small : perm < 1024) (some : perm &&& (pteR ||| pteW ||| pteX) ≠ 0)
    (room : n < userPages) (shape : Shape n top anyPte entry) (pooled : ∀ i, i < n → pte2pa (entry i) ∈ ram.pool)
    (holds : (Table ram 2 root (Function.update entry n (pa2pte pa ||| perm ||| pteV)) *
      (points pa page * ∏ i ∈ Finset.range n, points (pte2pa (entry i)) (data i))) h) :
    Held ram root (n + 1) top (Function.update entry n (pa2pte pa ||| perm ||| pteV)) (Function.update data n page) h := by
  have leaf : Leaf (pa2pte pa ||| perm ||| pteV) := leaf_pte small some
  have address := @pte2pa_pte pa perm small (ram.aligned pa inside)
  refine ⟨⟨shape.push room leaf (pte_lt small (ram.bounded pa inside)) trivial, fun i below => ?_⟩, ?_⟩
  · by_cases last : i = n
    · rw [last, Function.update_self, address]
      exact inside
    · rw [Function.update_of_ne last]
      exact pooled i (by omega)
  · have others : ∀ i ∈ Finset.range n, points (pte2pa (Function.update entry n (pa2pte pa ||| perm ||| pteV) i)) (Function.update data n page i) =
        points (pte2pa (entry i)) (data i) := by
      intro i member
      have other : i ≠ n := Nat.ne_of_lt (Finset.mem_range.mp member)
      rw [Function.update_of_ne other, Function.update_of_ne other]
    rw [Finset.prod_range_succ, Finset.prod_congr rfl others, Function.update_self, Function.update_self, address,
      mul_comm (∏ i ∈ Finset.range n, points (pte2pa (entry i)) (data i))]
    exact holds

theorem mappages_held (inside : pa ∈ ram.pool) (small : perm < 1024) (some : perm &&& (pteR ||| pteW ||| pteX) ≠ 0) :
    Triple (ram.supply fails) (points pa page * Held ram root n top entry data) (mappages root (n * pgSize) pgSize pa perm) fun r =>
      if r = 0 then Held ram root (n + 1) top (Function.update entry n (pa2pte pa ||| perm ||| pteV)) (Function.update data n page)
      else given (r = -1 ∧ fails) (points pa page * Held ram root n top entry data) := by
  rw [Held, mul_given]
  apply Triple.given
  rintro ⟨shape, pooled⟩
  apply (mappages_next shape inside small _).post
  · intro r h holds
    by_cases success : r = 0
    · rw [if_pos success] at holds ⊢
      exact Held.push inside small some holds.1 shape pooled holds.2
    · rw [if_neg success] at holds ⊢
      exact ⟨holds.1, ⟨shape, pooled⟩, holds.2⟩
  · intro h holds
    rw [mul_comm (Table ram 2 root entry)] at holds
    apply @count_pages ram n entry h pa (Table ram 2 root entry)
    refine mul_mono (fun _ here => ⟨inside, page, here⟩) (fun h rest => ?_) holds
    refine mul_mono (fun h pages => ?_) (fun _ table => table) rest
    exact prod_mono (fun i member g here => ⟨pooled i (Finset.mem_range.mp member), data i, here⟩) pages

def Among (ram : Ram) (root n : Nat) (top : Nat → Nat) (known : (Nat → Nat) → (Nat → Page) → Prop) : Assertion Page :=
  any fun entry => any fun data => given (known entry data) (Held ram root n top entry data)

theorem mappages_among {known known' : (Nat → Nat) → (Nat → Page) → Prop} (inside : pa ∈ ram.pool) (small : perm < 1024)
    (some : perm &&& (pteR ||| pteW ||| pteX) ≠ 0) (next : ∀ entry data, known entry data →
      known' (Function.update entry n (pa2pte pa ||| perm ||| pteV)) (Function.update data n page)) :
    Triple (ram.supply fails) (points pa page * Among ram root n top known) (mappages root (n * pgSize) pgSize pa perm) fun r =>
      if r = 0 then Among ram root (n + 1) top known'
      else given (r = -1 ∧ fails) (points pa page * Among ram root n top known) := by
  rw [Among, mul_any]
  apply Triple.any
  intro entry
  rw [mul_any]
  apply Triple.any
  intro data
  rw [mul_given]
  apply Triple.given
  intro fact
  apply (mappages_held inside small some).post
  intro r h holds
  by_cases success : r = 0
  · rw [if_pos success] at holds ⊢
    exact ⟨_, _, next entry data fact, holds⟩
  · rw [if_neg success] at holds ⊢
    refine ⟨holds.1, entry, ?_⟩
    exact mul_mono (fun _ here => here) (fun h held => ⟨data, fact, held⟩) holds.2

theorem uvmclear_held {i : Nat} (below : i < n) : Triple (ram.supply fails) (Held ram root n top entry data) (uvmclear root (i * pgSize))
    fun _ => Held ram root n top (Function.update entry i (entry i &&& (2 ^ 64 - 1 - pteU))) data := by
  apply Triple.given
  rintro ⟨shape, inside⟩
  have range := userPages_eq
  have bound := shape.bound
  obtain ⟨leaf, small, -⟩ := shape.leaf i below
  obtain ⟨leaf', small', same⟩ := clear_user leaf small
  have address : ∀ j, pte2pa (Function.update entry i (entry i &&& (2 ^ 64 - 1 - pteU)) j) = pte2pa (entry j) := by
    intro j
    by_cases here : j = i
    · rw [here, Function.update_self, same]
    · rw [Function.update_of_ne here]
  apply walk_there (by omega) leaf.nonzero
  intro t k
  apply Triple.call (Cell.load i)
  intro pte
  rw [given_mul]
  apply Triple.given
  rintro rfl
  apply ((Cell.store small').frame _).post
  intro _ h holds
  refine ⟨⟨shape.replace below leaf' small', fun j less => ?_⟩, ?_⟩
  · rw [address]
    exact inside j less
  · simp only [address]
    exact holds

theorem uvmclear_spec {i : Nat} (below : i < n) : Keeps (ram.supply fails) (Memory ram root n top anyPte) (uvmclear root (i * pgSize)) := by
  constructor
  intro h memory
  obtain ⟨entry, data, held⟩ := memory.held
  exact wp_mono (fun _ _ => Held.memory) ((uvmclear_held below).run h held)

section Walk

variable {g : Heap Page}

theorem load_view {t k : Nat} (here : g t = some page) : (load t k).view g = some (page.word k) := by
  rw [load, view_bind, Prog.get, Prog.view, here]
  rfl

theorem get_view {a : Nat} (here : g a = some page) : (get a : Prog Page Page).view g = some page := by
  rw [Prog.get, Prog.view, here]
  rfl

theorem walkFrom_readOnly (va level root : Nat) : (walkFrom va false level root).ReadOnly := by
  induction level generalizing root with
  | zero => exact .done _
  | succ level ih =>
    apply ReadOnly.read
    intro page
    change (if _ then _ else _ : Prog Page _).ReadOnly
    split
    · exact ih _
    · exact .done _

theorem walk_readOnly (root va : Nat) : (walk root va false).ReadOnly := by
  rw [walk]
  split
  · exact .fail _
  · exact walkFrom_readOnly va 2 root

theorem Table.walk {va : Nat} (table : Table ram 2 root entry h) (below : va < maxVa) :
    ∃ r, ∀ g, h.Within g → (Space.walk root va false).view g = some r ∧
      match r with
      | none => entry (va / 4096) = 0
      | some (t, k) => ∃ page, g t = some page ∧ page.word k = entry (va / 4096) := by
  obtain ⟨r, post, seen⟩ := (walk_readOnly root va).view_post ((@walk_at ram True root entry false va below).run h table)
  refine ⟨r, fun g within => ⟨seen g within, ?_⟩⟩
  cases r with
  | none => exact post.1.1 rfl
  | some found =>
    obtain ⟨page, rest, ⟨word, -⟩, left, right, apart, rfl, rfl, -⟩ := post
    exact ⟨page, within _ _ (Heap.union_left apart Heap.single_self).1, word⟩

end Walk

end OShard.Space
