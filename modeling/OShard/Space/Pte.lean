import OShard.Space.Model

namespace OShard.Space

section Words

theorem littleEndian_congr {n : Nat} {bytes bytes' : Nat → Nat} (same : ∀ k, k < n → bytes k = bytes' k) :
    littleEndian n bytes = littleEndian n bytes' := by
  induction n generalizing bytes bytes' with
  | zero => rfl
  | succ n ih =>
    have rest := ih fun k below => same (k + 1) (Nat.succ_lt_succ below)
    rw [littleEndian, littleEndian, same 0 (Nat.succ_pos n), rest]

theorem littleEndian_bytes (n value : Nat) : littleEndian n (fun k => value / 256 ^ k % 256) = value % 256 ^ n := by
  induction n generalizing value with
  | zero => simp [littleEndian, Nat.mod_one]
  | succ n ih =>
    have shift : ∀ k, value / 256 ^ (k + 1) % 256 = value / 256 / 256 ^ k % 256 := by
      intro k
      rw [pow_succ', ← Nat.div_div_eq_div_mul]
    rw [littleEndian, littleEndian_congr fun k _ => shift k, ih, pow_zero, Nat.div_one, pow_succ', Nat.mod_mul]

namespace Page

variable {page : Page} {i j value : Nat}

theorem word_setWord_self (small : value < 2 ^ 64) : (page.setWord i value).word i = value := by
  have bytes : ∀ k, k < 8 → page.setWord i value (8 * i + k) = value / 256 ^ k % 256 := by
    intro k below
    have index : (8 * i + k) / 8 = i := by omega
    have offset : (8 * i + k) % 8 = k := by omega
    rw [setWord, if_pos index, offset]
  rw [word, littleEndian_congr bytes, littleEndian_bytes]
  apply Nat.mod_eq_of_lt
  norm_num
  omega

theorem word_setWord_other (other : j ≠ i) : (page.setWord i value).word j = page.word j := by
  apply littleEndian_congr
  intro k below
  apply if_neg
  omega

@[simp] theorem word_zero : Page.zero.word i = 0 := rfl

end Page

end Words

section Pte

variable {pa pte perm flags : Nat}

theorem pteFlags_eq : pteFlags pte = pte % 1024 := Nat.and_two_pow_sub_one_eq_mod pte 10

theorem pte2pa_eq : pte2pa pte = pte / 1024 * 4096 := by
  rw [pte2pa, Nat.shiftLeft_eq, Nat.shiftRight_eq_div_pow]

theorem and_flags (inside : flags &&& 0x3FF = flags) : pte &&& flags = pteFlags pte &&& flags := by
  conv_lhs => rw [← inside, Nat.and_comm flags, ← Nat.and_assoc]
  rfl

section

variable (small : perm < 1024)

include small

theorem pte_eq : pa2pte pa ||| perm ||| pteV = pa / 4096 * 1024 + (perm ||| pteV) := by
  have flags : perm ||| pteV < 2 ^ 10 := Nat.or_lt_two_pow small (by decide)
  rw [Nat.or_assoc, pa2pte, ← Nat.shiftLeft_add_eq_or_of_lt flags, Nat.shiftLeft_eq, Nat.shiftRight_eq_div_pow]

theorem pte2pa_pte (aligned : pa % 4096 = 0) : pte2pa (pa2pte pa ||| perm ||| pteV) = pa := by
  have flags : perm ||| pteV < 2 ^ 10 := Nat.or_lt_two_pow small (by decide)
  rw [pte_eq small, pte2pa_eq]
  omega

theorem pteFlags_pte : pteFlags (pa2pte pa ||| perm ||| pteV) = perm ||| pteV := by
  have flags : perm ||| pteV < 2 ^ 10 := Nat.or_lt_two_pow small (by decide)
  rw [pte_eq small, pteFlags_eq]
  omega

theorem pte_lt (bounded : pa < 2 ^ 56) : pa2pte pa ||| perm ||| pteV < 2 ^ 64 := by
  have flags : perm ||| pteV < 2 ^ 10 := Nat.or_lt_two_pow small (by decide)
  rw [pte_eq small]
  omega

end

def link : Option Nat → Nat
  | none => 0
  | some child => pa2pte child ||| pteV

theorem link_some : link (some pa) = pa2pte pa ||| 0 ||| pteV := by
  rw [Nat.or_zero]
  rfl

theorem link_flags : pteFlags (link (some pa)) = pteV := by
  rw [link_some, pteFlags_pte (by decide)]
  rfl

theorem link_pa (aligned : pa % 4096 = 0) : pte2pa (link (some pa)) = pa := by
  rw [link_some, pte2pa_pte (by decide) aligned]

theorem link_lt (bounded : pa < 2 ^ 56) : link (some pa) < 2 ^ 64 := by
  rw [link_some]
  exact pte_lt (by decide) bounded

def Leaf (pte : Nat) : Prop := pteFlags pte &&& pteV ≠ 0 ∧ pteFlags pte &&& (pteR ||| pteW ||| pteX) ≠ 0

theorem Leaf.nonzero (leaf : Leaf pte) : pte ≠ 0 := by
  rintro rfl
  exact leaf.1 rfl

theorem Leaf.valid (leaf : Leaf pte) : pte &&& pteV ≠ 0 := by
  rw [and_flags (by decide)]
  exact leaf.1

theorem Leaf.not_table (leaf : Leaf pte) : pteFlags pte ≠ pteV := by
  intro only
  apply leaf.2
  rw [only]
  decide

theorem leaf_pte (small : perm < 1024) (some : perm &&& (pteR ||| pteW ||| pteX) ≠ 0) :
    Leaf (pa2pte pa ||| perm ||| pteV) := by
  rw [Leaf, pteFlags_pte small]
  constructor
  · rw [Nat.and_or_distrib_right]
    exact fun zero => absurd (Nat.or_eq_zero_iff.mp zero).2 (by decide)
  · rw [Nat.and_or_distrib_right]
    exact fun zero => some (Nat.or_eq_zero_iff.mp zero).1

theorem pteFlags_lt : pteFlags pte < 1024 := by
  rw [pteFlags_eq]
  omega

theorem Leaf.flags_valid (leaf : Leaf pte) : pteFlags pte ||| pteV = pteFlags pte := by
  have odd : pteFlags pte % 2 = 1 := by
    have valid : pteFlags pte &&& 1 ≠ 0 := leaf.1
    rw [Nat.and_one_is_mod] at valid
    omega
  rw [← Nat.div_add_mod (pteFlags pte) 2, odd]
  exact (Nat.two_pow_add_eq_or_of_lt (by decide : 1 < 2 ^ 1) _).symm ▸ by simp [pteV]

end Pte

section Index

variable {level va : Nat}

theorem px_eq : px level va = va / 4096 / 512 ^ level % 512 := by
  have power : 2 ^ (12 + 9 * level) = 4096 * 512 ^ level := by
    rw [pow_add, pow_mul]
    norm_num
  rw [px, Nat.shiftRight_eq_div_pow, power, ← Nat.div_div_eq_div_mul]
  exact Nat.and_two_pow_sub_one_eq_mod _ 9

theorem px_lt : px level va < 512 := by
  rw [px_eq]
  omega

def index (level va : Nat) : Nat := va / 4096 % 512 ^ (level + 1)

theorem index_lt : index level va < 512 ^ (level + 1) := Nat.mod_lt _ (by positivity)

theorem index_zero : index 0 va = px 0 va := by
  rw [px_eq, index]
  simp

theorem index_succ : index (level + 1) va = 512 ^ (level + 1) * px (level + 1) va + index level va := by
  rw [px_eq, index, index, pow_succ 512 (level + 1), Nat.mod_mul]
  ring

theorem index_top (below : va < maxVa) : index 2 va = va / 4096 := by
  apply Nat.mod_eq_of_lt
  unfold maxVa at below
  omega

end Index

end OShard.Space
