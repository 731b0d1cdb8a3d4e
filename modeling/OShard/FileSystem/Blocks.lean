import OShard.Base.BitArray
import OShard.FileSystem.Model

/-! The free map, and the blocks that an inode holds. -/

namespace OShard.FileSystem

open Bytes Overlay Mkfs Fs

variable {fs fs' : Fs} {ip ip' : Inode} {b c bn : Nat}

section Map

def Fs.used (fs : Fs) (b : Nat) : Bool := BitArray.bit (fs.blocks (fs.bblock b)) 0 (b % bpb)

def Fs.datastart (fs : Fs) : Nat := fs.sb.bmapstart + fs.sb.size / bpb + 1

structure Layout (fs : Fs) : Prop where
  inodes : fs.sb.inodestart + fs.sb.ninodes / ipb < fs.sb.bmapstart
  room : fs.datastart ≤ fs.sb.size
  size_lt : fs.sb.size < 2 ^ 32
  reserved : ∀ b, b < fs.datastart → fs.used b = true

variable {block : Area} {size left bi k : Nat}

theorem and_mask (block : Area) (k : Nat) : block (k / 8) &&& mask k = 0 ↔ BitArray.bit block 0 k = false := by
  have clear := BitArray.clear_iff_bit block 0 k
  rw [Nat.zero_add] at clear
  exact clear

theorem freeBit_some (found : freeBit block size b left bi = some k) :
    bi ≤ k ∧ k < bi + left ∧ b + k < size ∧ BitArray.bit block 0 k = false := by
  induction left generalizing bi with
  | zero => cases found
  | succ left ih =>
    unfold freeBit at found
    split at found
    · rename_i inside
      split at found
      · rename_i clear
        cases found
        exact ⟨Nat.le_refl _, by omega, inside, (and_mask block _).mp clear⟩
      · obtain ⟨low, high, rest⟩ := ih found
        exact ⟨by omega, by omega, rest⟩
    · cases found

theorem freeBit_none (full : freeBit block size b left bi = none) (low : bi ≤ k) (high : k < bi + left)
    (inside : b + k < size) : BitArray.bit block 0 k = true := by
  induction left generalizing bi with
  | zero => omega
  | succ left ih =>
    unfold freeBit at full
    rw [if_pos (by omega)] at full
    split at full
    · cases full
    rename_i set
    rcases Nat.eq_or_lt_of_le low with rfl | above
    · rw [and_mask, Bool.not_eq_false] at set
      exact set
    · exact ih full above (by omega)

def Fs.take (fs : Fs) (b : Nat) : Fs := (fs.mark b).bzero b

theorem bblock_add {f : Fs} (aligned : b % bpb = 0) (below : bi < bpb) : f.bblock (b + bi) = f.bblock b ∧ (b + bi) % bpb = bi := by
  have quotient : (b + bi) / bpb = b / bpb := by
    unfold bpb bsize at *
    omega
  refine ⟨by rw [Fs.bblock, Fs.bblock, quotient], ?_⟩
  rw [Nat.add_mod, aligned, Nat.zero_add, Nat.mod_mod, Nat.mod_eq_of_lt below]

theorem ballocFrom_spec (fs : Fs) (b : Nat) (aligned : b % bpb = 0) :
    (fs.ballocFrom b = (0, fs) ∧ ∀ c, b ≤ c → c < fs.sb.size → fs.used c = true) ∨
      ∃ c, c < fs.sb.size ∧ fs.used c = false ∧ fs.ballocFrom b = (c, fs.take c) := by
  fun_induction Fs.ballocFrom fs b with
  | case1 b below bi found =>
    obtain ⟨-, inside, less, clear⟩ := freeBit_some found
    rw [Nat.zero_add] at inside
    obtain ⟨block, rest⟩ := bblock_add (f := fs) aligned inside
    refine Or.inr ⟨b + bi, less, ?_, rfl⟩
    rw [Fs.used, block, rest]
    exact clear
  | case2 b below full ih =>
    rcases ih (by simpa using aligned) with ⟨none, rest⟩ | found
    · refine Or.inl ⟨none, fun c low high => ?_⟩
      by_cases here : c < b + bpb
      · obtain ⟨bi, rfl⟩ := Nat.exists_eq_add_of_le low
        have below : bi < bpb := by omega
        obtain ⟨block, index⟩ := bblock_add (f := fs) aligned below
        rw [Fs.used, block, index]
        exact freeBit_none full (Nat.zero_le bi) (by omega) high
      · exact rest c (Nat.not_lt.mp here) high
    · exact Or.inr found
  | case3 b above => exact Or.inl ⟨rfl, fun c low high => absurd high (by omega)⟩

theorem balloc_spec (fs : Fs) : (fs.balloc = (0, fs) ∧ ∀ c, c < fs.sb.size → fs.used c = true) ∨
    ∃ c, c < fs.sb.size ∧ fs.used c = false ∧ fs.balloc = (c, fs.take c) := by
  rcases ballocFrom_spec fs 0 (Nat.zero_mod _) with ⟨none, full⟩ | found
  · exact Or.inl ⟨none, fun c => full c (Nat.zero_le c)⟩
  · exact Or.inr found

namespace Layout

section Layout

variable (layout : Layout fs)

include layout

theorem bblock_eq (inside : b < fs.sb.size) : fs.bblock b = b / bpb + fs.sb.bmapstart := by
  have room := layout.room
  have small := layout.size_lt
  have le : b / bpb ≤ fs.sb.size / bpb := Nat.div_le_div_right (Nat.le_of_lt inside)
  unfold Fs.datastart at room
  exact Nat.mod_eq_of_lt (by omega)

theorem bblock_lt (inside : b < fs.sb.size) : fs.sb.bmapstart ≤ fs.bblock b ∧ fs.bblock b < fs.datastart := by
  have le : b / bpb ≤ fs.sb.size / bpb := Nat.div_le_div_right (Nat.le_of_lt inside)
  rw [layout.bblock_eq inside, Fs.datastart]
  exact ⟨Nat.le_add_left _ _, by rw [Nat.add_comm (b / bpb)]; exact Nat.lt_succ_of_le (Nat.add_le_add_left le _)⟩

theorem data_of_free (free : fs.used b = false) : fs.datastart ≤ b := by
  by_contra below
  rw [layout.reserved b (Nat.not_le.mp below)] at free
  cases free

theorem free_ne_zero (free : fs.used b = false) : b ≠ 0 :=
  Nat.ne_of_gt (Nat.lt_of_lt_of_le (Nat.succ_pos _) (layout.data_of_free free))

theorem iblock_lt {inum : Nat} (inside : inum < fs.sb.ninodes) : fs.iblock inum < fs.sb.bmapstart := by
  have le : inum / ipb ≤ fs.sb.ninodes / ipb := Nat.div_le_div_right (Nat.le_of_lt inside)
  have before := layout.inodes
  exact Nat.lt_of_le_of_lt (Nat.mod_le _ _) (by omega)

theorem bblock_ne (inside : c < fs.sb.size) (data : fs.datastart ≤ b) : fs.bblock c ≠ b :=
  Nat.ne_of_lt (Nat.lt_of_lt_of_le (layout.bblock_lt inside).2 data)

theorem used_take (inside : b < fs.sb.size) (free : fs.used b = false) (inside' : c < fs.sb.size) :
    (fs.take b).used c = (fs.used c || decide (c = b)) := by
  have apart := layout.bblock_ne inside' (layout.data_of_free free)
  have view : (fs.take b).used c = BitArray.bit ((fs.mark b).blocks (fs.bblock c)) 0 (c % bpb) :=
    congrArg (fun block => BitArray.bit block 0 (c % bpb)) (Function.update_of_ne apart _ _)
  rw [view]
  by_cases same : fs.bblock c = fs.bblock b
  · have set := BitArray.bit_set (fs.blocks (fs.bblock b)) 0 (b % bpb) 0 (c % bpb)
    rw [Nat.zero_add] at set
    have marked : (fs.mark b).blocks (fs.bblock c) = Function.update (fs.blocks (fs.bblock b)) (b % bpb / 8)
        (fs.blocks (fs.bblock b) (b % bpb / 8) ||| BitArray.mask (b % bpb)) := by
      rw [same]
      exact Function.update_self _ _ _
    have bits : BitArray.SameBit 0 (b % bpb) 0 (c % bpb) ↔ c = b := by
      rw [layout.bblock_eq inside, layout.bblock_eq inside'] at same
      unfold BitArray.SameBit bpb bsize at *
      omega
    rw [marked, set, decide_eq_decide.mpr bits, Fs.used, same]
  · have other : c ≠ b := fun equal => same (by rw [equal])
    have kept : (fs.mark b).blocks (fs.bblock c) = fs.blocks (fs.bblock c) := Function.update_of_ne same _ _
    rw [kept, decide_eq_false other, Bool.or_false, Fs.used]

end Layout

end Layout

theorem take_self : (fs.take b).blocks b = fun _ => 0 := Function.update_self _ _ _

theorem take_other (other : c ≠ b) (unmapped : fs.bblock b ≠ c) : (fs.take b).blocks c = fs.blocks c := by
  have first : (fs.take b).blocks c = (fs.mark b).blocks c := Function.update_of_ne other _ _
  rw [first]
  exact Function.update_of_ne (Ne.symm unmapped) _ _

def Fs.free (fs : Fs) : Finset Nat := (Finset.range fs.sb.size).filter fun b => fs.used b = false

end Map

section Words

theorem word_setWord (block : Area) (i : Nat) {v : Nat} (small : v < 2 ^ 32) : word (setWord block i v) i = v := by
  have held : word (setWord block i v) i = v % 256 ^ 4 := by
    apply load_digits
    intro j below
    have length : j < ((List.range 4).map (digit v)).length := by simpa using below
    rw [setWord, paste_inside length]
    simp
  rw [held]
  exact Nat.mod_eq_of_lt small

theorem word_setWord_other (block : Area) {i j : Nat} (v : Nat) (other : j ≠ i) : word (setWord block i v) j = word block j := by
  apply load_congr
  intro k below
  have length : ((List.range 4).map (digit v)).length = 4 := by simp
  exact paste_outside (by omega)

theorem word_zero (j : Nat) : word (fun _ => 0#8) j = 0 := load_zero fun _ _ => rfl

end Words

section Places

/-- The indirect block of an inode, or one of its blocks of data; `0` if there is none. -/
def place (fs : Fs) (ip : Inode) : Option Nat → Nat
  | none => ip.addrs ndirect
  | some bn => address fs ip bn

/-- The blocks of the inode are blocks of data, in use, and no two of them the same. -/
structure Good (fs : Fs) (ip : Inode) : Prop where
  layout : Layout fs
  inum : ip.inum < fs.sb.ninodes
  data : ∀ p, place fs ip p ≠ 0 → fs.datastart ≤ place fs ip p ∧ place fs ip p < fs.sb.size ∧ fs.used (place fs ip p) = true
  distinct : ∀ p q, place fs ip p ≠ 0 → place fs ip p = place fs ip q → p = q

structure Adds (fs : Fs) (ip : Inode) (fs' : Fs) (ip' : Inode) (p : Option Nat) (b : Nat) : Prop where
  sb : fs'.sb = fs.sb
  size : ip'.size = ip.size
  inum : ip'.inum = ip.inum
  data : fs.datastart ≤ b
  inside : b < fs.sb.size
  free : fs.used b = false
  used : ∀ c, c < fs.sb.size → fs'.used c = (fs.used c || decide (c = b))
  place : ∀ q, place fs' ip' q = if q = p then b else place fs ip q
  kept : ∀ bn, address fs ip bn ≠ 0 → fs'.blocks (address fs ip bn) = fs.blocks (address fs ip bn)

namespace Good

variable {p q : Option Nat}

variable (good : Good fs ip)

include good

theorem ne_free (there : place fs ip p ≠ 0) (free : fs.used b = false) : place fs ip p ≠ b := by
  intro same
  have used := (good.data p there).2.2
  rw [same, free] at used
  cases used

theorem take_kept (inside : b < fs.sb.size) (free : fs.used b = false) (there : place fs ip p ≠ 0) :
    (fs.take b).blocks (place fs ip p) = fs.blocks (place fs ip p) :=
  take_other (good.ne_free there free) (good.layout.bblock_ne inside (good.data p there).1)

theorem addEntry {i : Nat} (inside : b < fs.sb.size) (free : fs.used b = false)
    (which : (i < ndirect ∧ p = some i) ∨ (i = ndirect ∧ p = none)) (absent : ip.addrs i = 0) : Adds fs ip (fs.take b) (ip.setAddr i b) p b where
  sb := rfl
  size := rfl
  inum := rfl
  data := good.layout.data_of_free free
  inside := inside
  free := free
  used c inside' := good.layout.used_take inside free inside'
  kept bn there := good.take_kept (p := some bn) inside free there
  place q := by
    rcases which with ⟨below, rfl⟩ | ⟨rfl, rfl⟩
    · have other : ndirect ≠ i := Nat.ne_of_gt below
      cases q with
      | none => simp [place, Inode.setAddr, other]
      | some bn =>
        by_cases same : bn = i
        · simp [place, address, Inode.setAddr, same, below]
        by_cases first : bn < ndirect
        · simp [place, address, Inode.setAddr, same, first]
        by_cases pointer : ip.addrs ndirect = 0
        · simp [place, address, Inode.setAddr, same, first, other, pointer]
        · have kept := good.take_kept (p := none) inside free pointer
          simp only [place] at kept
          simp [place, address, Inode.setAddr, same, first, other, kept]
    · cases q with
      | none => simp [place, Inode.setAddr]
      | some bn =>
        by_cases first : bn < ndirect
        · have other : bn ≠ ndirect := Nat.ne_of_lt first
          simp [place, address, Inode.setAddr, first, other]
        · simp [place, address, Inode.setAddr, first, absent, take_self, word_zero]

theorem addIndirect {j : Nat} (inside : b < fs.sb.size) (free : fs.used b = false) (pointer : ip.addrs ndirect ≠ 0)
    (below : j < nindirect) :
    Adds fs ip (((fs.take b).put (ip.addrs ndirect) (setWord ((fs.take b).blocks (ip.addrs ndirect)) j b)).logWrite (ip.addrs ndirect)) ip
      (some (ndirect + j)) b where
  sb := rfl
  size := rfl
  inum := rfl
  data := good.layout.data_of_free free
  inside := inside
  free := free
  used c inside' := by
    have apart := good.layout.bblock_ne inside' (good.data none pointer).1
    have same : ((fs.take b).put (ip.addrs ndirect) (setWord ((fs.take b).blocks (ip.addrs ndirect)) j b)).used c = (fs.take b).used c :=
      congrArg (fun block => BitArray.bit block 0 (c % bpb)) (Function.update_of_ne apart _ _)
    exact same.trans (good.layout.used_take inside free inside')
  kept bn there := by
    have apart : address fs ip bn ≠ ip.addrs ndirect := fun same => Option.some_ne_none _ (good.distinct (some bn) none there same)
    exact (Function.update_of_ne apart _ _).trans (good.take_kept (p := some bn) inside free there)
  place q := by
    have small : b < 2 ^ 32 := Nat.lt_trans inside good.layout.size_lt
    have kept : (fs.take b).blocks (ip.addrs ndirect) = fs.blocks (ip.addrs ndirect) := good.take_kept (p := none) inside free pointer
    cases q with
    | none => simp [place]
    | some bn =>
      by_cases first : bn < ndirect
      · have other : bn ≠ ndirect + j := by omega
        simp [place, address, first, other]
      · by_cases same : bn = ndirect + j
        · simp [place, address, same, below, pointer, Fs.put, Fs.logWrite, word_setWord _ _ small]
        · have other : bn - ndirect ≠ j := by omega
          simp [place, address, first, same, pointer, Fs.put, Fs.logWrite, word_setWord_other _ _ other, kept]

end Good

namespace Adds

variable {p : Option Nat}

theorem good (adds : Adds fs ip fs' ip' p b) (good : Good fs ip) : Good fs' ip' where
  layout := by
    have start : fs'.datastart = fs.datastart := by rw [Fs.datastart, Fs.datastart, adds.sb]
    obtain ⟨inodes, room, size_lt, reserved⟩ := good.layout
    refine ⟨adds.sb ▸ inodes, by rw [start, adds.sb]; exact room, adds.sb ▸ size_lt, fun c below => ?_⟩
    rw [start] at below
    rw [adds.used c (Nat.lt_of_lt_of_le below room), reserved c below, Bool.true_or]
  inum := by
    rw [adds.inum, adds.sb]
    exact good.inum
  data q there := by
    have start : fs'.datastart = fs.datastart := by rw [Fs.datastart, Fs.datastart, adds.sb]
    rw [adds.place] at there ⊢
    split at there
    · rw [if_pos ‹_›, start, adds.sb, adds.used b adds.inside]
      exact ⟨adds.data, adds.inside, by simp⟩
    · obtain ⟨data, inside, used⟩ := good.data q there
      rw [if_neg ‹_›, start, adds.sb, adds.used _ inside, used, Bool.true_or]
      exact ⟨data, inside, rfl⟩
  distinct q r there same := by
    rw [adds.place] at there
    rw [adds.place, adds.place] at same
    split at same
    · split at same
      · exact (‹q = p›).trans (‹r = p›).symm
      · rw [if_pos ‹q = p›] at there
        exact absurd same.symm (good.ne_free (same ▸ there) adds.free)
    · rw [if_neg ‹¬q = p›] at there
      split at same
      · exact absurd same (good.ne_free there adds.free)
      · exact good.distinct q r there same

theorem free_card (adds : Adds fs ip fs' ip' p b) : fs'.free.card + 1 = fs.free.card := by
  have member : b ∈ fs.free := by simp [Fs.free, adds.inside, adds.free]
  have erased : fs'.free = fs.free.erase b := by
    ext c
    simp only [Fs.free, Finset.mem_filter, Finset.mem_range, Finset.mem_erase, adds.sb]
    constructor
    · rintro ⟨inside, free⟩
      rw [adds.used c inside, Bool.or_eq_false_iff, decide_eq_false_iff_not] at free
      exact ⟨free.2, inside, free.1⟩
    · rintro ⟨other, inside, free⟩
      exact ⟨inside, by rw [adds.used c inside, free, decide_eq_false other, Bool.or_false]⟩
  rw [erased, Finset.card_erase_add_one member]

end Adds

def need (fs : Fs) (ip : Inode) (W : Finset (Option Nat)) : Nat := (W.filter fun p => place fs ip p = 0).card

theorem Adds.need {p : Option Nat} {W : Finset (Option Nat)} (adds : Adds fs ip fs' ip' p b) (good : Good fs ip) (wanted : p ∈ W)
    (absent : FileSystem.place fs ip p = 0) : need fs' ip' W + 1 = need fs ip W := by
  have member : p ∈ W.filter fun p => FileSystem.place fs ip p = 0 := by simp [wanted, absent]
  have erased : (W.filter fun q => FileSystem.place fs' ip' q = 0) = (W.filter fun q => FileSystem.place fs ip q = 0).erase p := by
    ext q
    by_cases same : q = p
    · have nonzero := good.layout.free_ne_zero adds.free
      simp [adds.place, same, nonzero]
    · simp [adds.place, same]
  rw [FileSystem.need, FileSystem.need, erased, Finset.card_erase_add_one member]

end Places

section Bmap

variable {p : Option Nat}

structure Grown (fs : Fs) (ip : Inode) (fs' : Fs) (ip' : Inode) : Prop where
  good : Good fs' ip'
  sb : fs'.sb = fs.sb
  size : ip'.size = ip.size
  inum : ip'.inum = ip.inum
  place : ∀ p, place fs ip p ≠ 0 → place fs' ip' p = place fs ip p
  kept : ∀ bn, address fs ip bn ≠ 0 → fs'.blocks (address fs ip bn) = fs.blocks (address fs ip bn)

theorem Grown.refl (good : Good fs ip) : Grown fs ip fs ip := ⟨good, rfl, rfl, rfl, fun _ _ => rfl, fun _ _ => rfl⟩

theorem Grown.trans {fs₁ : Fs} {ip₁ : Inode} (first : Grown fs ip fs₁ ip₁) (second : Grown fs₁ ip₁ fs' ip') : Grown fs ip fs' ip' where
  good := second.good
  sb := second.sb.trans first.sb
  size := second.size.trans first.size
  inum := second.inum.trans first.inum
  place p there := by
    have same := first.place p there
    exact (second.place p (same ▸ there)).trans same
  kept bn there := by
    have same : address fs₁ ip₁ bn = address fs ip bn := first.place (some bn) there
    have later := second.kept bn (same ▸ there)
    rw [same] at later
    exact later.trans (first.kept bn there)

theorem Adds.grown (adds : Adds fs ip fs' ip' p b) (good : Good fs ip) (absent : FileSystem.place fs ip p = 0) :
    Grown fs ip fs' ip' where
  good := adds.good good
  sb := adds.sb
  size := adds.size
  inum := adds.inum
  place q there := by
    have other : q ≠ p := fun same => there (same ▸ absent)
    rw [adds.place, if_neg other]
  kept := adds.kept

structure Fills (fs : Fs) (ip : Inode) (fs' : Fs) (ip' : Inode) (p : Option Nat) : Prop where
  grown : Grown fs ip fs' ip'
  enough : ∀ W, p ∈ W → need fs ip W ≤ fs.free.card → place fs' ip' p ≠ 0 ∧ need fs' ip' W ≤ fs'.free.card

theorem Fills.present (good : Good fs ip) (there : place fs ip p ≠ 0) : Fills fs ip fs ip p :=
  ⟨Grown.refl good, fun _ _ enough => ⟨there, enough⟩⟩

theorem Fills.full (good : Good fs ip) (absent : place fs ip p = 0) (full : ∀ c, c < fs.sb.size → fs.used c = true) :
    Fills fs ip fs ip p := by
  refine ⟨Grown.refl good, fun W wanted enough => ?_⟩
  have none : fs.free = ∅ := by
    ext c
    simpa [Fs.free] using full c
  have member : p ∈ W.filter fun p => place fs ip p = 0 := by simp [wanted, absent]
  have some := Finset.card_pos.mpr ⟨p, member⟩
  rw [none, Finset.card_empty] at enough
  exact absurd enough (Nat.not_le.mpr some)

theorem Adds.fills (adds : Adds fs ip fs' ip' p b) (good : Good fs ip) (absent : FileSystem.place fs ip p = 0) :
    Fills fs ip fs' ip' p := by
  refine ⟨adds.grown good absent, fun W wanted enough => ⟨?_, ?_⟩⟩
  · rw [adds.place, if_pos rfl]
    exact good.layout.free_ne_zero adds.free
  · have blocks := adds.free_card
    have places := adds.need good wanted absent
    omega

theorem direct_fills (good : Good fs ip) {i : Nat} (which : (i < ndirect ∧ p = some i) ∨ (i = ndirect ∧ p = none)) :
    ∃ fs' ip', direct fs ip i = (place fs' ip' p, fs', ip') ∧ Fills fs ip fs' ip' p := by
  have entry : ∀ fs (ip : Inode), place fs ip p = ip.addrs i := by
    intro fs ip
    rcases which with ⟨below, rfl⟩ | ⟨rfl, rfl⟩
    · simp [place, address, below]
    · rfl
  unfold direct
  split
  · rename_i absent
    have zero := (entry fs ip).trans absent
    rcases balloc_spec fs with ⟨none, full⟩ | ⟨c, inside, free, some⟩
    · rw [none]
      exact ⟨fs, ip, by simp [zero], Fills.full good zero full⟩
    have nonzero := good.layout.free_ne_zero free
    have adds := good.addEntry inside free which absent
    rw [some]
    refine ⟨fs.take c, ip.setAddr i c, ?_, adds.fills good zero⟩
    simp [nonzero, adds.place]
  · rename_i present
    exact ⟨fs, ip, by rw [entry], Fills.present good (by rw [entry]; exact present)⟩

theorem indirect_fills (good : Good fs ip) {j : Nat} (pointer : ip.addrs ndirect ≠ 0) (below : j < nindirect) :
    ∃ fs', indirect fs (ip.addrs ndirect) j = (address fs' ip (ndirect + j), fs') ∧ Fills fs ip fs' ip (some (ndirect + j)) := by
  have entry : ∀ fs, address fs ip (ndirect + j) = word (fs.blocks (ip.addrs ndirect)) j := by
    intro fs
    simp [address, below, pointer]
  unfold indirect
  split
  · rename_i absent
    have zero := (entry fs).trans absent
    rcases balloc_spec fs with ⟨none, full⟩ | ⟨c, inside, free, some⟩
    · rw [none]
      exact ⟨fs, by simp [zero], Fills.full good zero full⟩
    have nonzero := good.layout.free_ne_zero free
    have adds := good.addIndirect inside free pointer below
    have new := adds.place (Option.some (ndirect + j))
    rw [some]
    refine ⟨_, ?_, adds.fills good zero⟩
    simp only [nonzero, if_false]
    rw [if_pos rfl] at new
    exact congrArg (Prod.mk · _) new.symm
  · rename_i present
    exact ⟨fs, by rw [entry], Fills.present good (by rw [place, entry]; exact present)⟩

theorem bmap_grown (good : Good fs ip) (below : bn < maxfile) : ∃ fs' ip', bmap fs ip bn = .ok (address fs' ip' bn, fs', ip') ∧ Grown fs ip fs' ip' ∧
    ∀ W, some bn ∈ W → (ndirect ≤ bn → none ∈ W) → need fs ip W ≤ fs.free.card → address fs' ip' bn ≠ 0 ∧ need fs' ip' W ≤ fs'.free.card := by
  unfold bmap
  split
  · rename_i first
    obtain ⟨fs', ip', found, fills⟩ := direct_fills good (Or.inl ⟨first, rfl⟩)
    exact ⟨fs', ip', by rw [found]; rfl, fills.grown, fun W wanted _ => fills.enough W wanted⟩
  rename_i above
  have high := Nat.not_lt.mp above
  have entry : bn - ndirect < nindirect := by
    unfold maxfile at below
    omega
  obtain ⟨fs₁, ip₁, found, fills⟩ := direct_fills good (Or.inr ⟨rfl, rfl⟩)
  rw [if_pos entry, found]
  dsimp only
  split
  · rename_i none
    have zero : address fs₁ ip₁ bn = 0 := by
      have pointer : ip₁.addrs ndirect = 0 := none
      simp [address, above, pointer]
    exact ⟨fs₁, ip₁, by rw [zero], fills.grown, fun W _ wanted enough => absurd none (fills.enough W (wanted high) enough).1⟩
  · rename_i pointer
    obtain ⟨fs', found', fills'⟩ := indirect_fills fills.grown.good pointer entry
    rw [Nat.add_sub_cancel' high] at found' fills'
    refine ⟨fs', ip₁, by rw [place, found'], fills.grown.trans fills'.grown, fun W wanted wanted' enough => ?_⟩
    exact fills'.enough W wanted (fills.enough W (wanted' high) enough).2

theorem bmap_present (there : address fs ip bn ≠ 0) : bmap fs ip bn = .ok (address fs ip bn, fs, ip) := by
  unfold address at there
  split at there
  · rename_i first
    simp [bmap, address, first, direct, there]
  rename_i above
  split at there
  · rename_i inside
    simp [bmap, address, above, inside, direct, indirect, there]
  · exact absurd rfl there

end Bmap

section Stores

variable {data : Area}

theorem put_self : (fs.put b data).blocks b = data := Function.update_self _ _ _

theorem put_other (other : c ≠ b) : (fs.put b data).blocks c = fs.blocks c := Function.update_of_ne other _ _

theorem place_put (p : Option Nat) (other : ip.addrs ndirect ≠ 0 → ip.addrs ndirect ≠ b) : place (fs.put b data) ip p = place fs ip p := by
  cases p with
  | none => rfl
  | some bn =>
    by_cases pointer : ip.addrs ndirect = 0
    · simp [place, address, pointer]
    · simp [place, address, Fs.put, other pointer]

theorem used_put (other : fs.bblock c ≠ b) : (fs.put b data).used c = fs.used c :=
  congrArg (fun block => BitArray.bit block 0 (c % bpb)) (Function.update_of_ne other _ _)

structure Stores (fs : Fs) (ip : Inode) (b : Nat) : Prop where
  unmapped : ∀ c, c < fs.sb.size → fs.bblock c ≠ b
  pointer : ip.addrs ndirect ≠ 0 → ip.addrs ndirect ≠ b

namespace Stores

variable (stores : Stores fs ip b)

include stores

theorem good (good : Good fs ip) : Good (fs.put b data) ip where
  layout := by
    obtain ⟨inodes, room, size_lt, reserved⟩ := good.layout
    exact ⟨inodes, room, size_lt, fun c below => (used_put (stores.unmapped c (Nat.lt_of_lt_of_le below room))).trans (reserved c below)⟩
  inum := good.inum
  data p there := by
    rw [place_put p stores.pointer] at there ⊢
    obtain ⟨low, inside, used⟩ := good.data p there
    exact ⟨low, inside, (used_put (stores.unmapped _ inside)).trans used⟩
  distinct p q there same := by
    rw [place_put p stores.pointer] at there same
    rw [place_put q stores.pointer] at same
    exact good.distinct p q there same

theorem need (W : Finset (Option Nat)) : need (fs.put b data) ip W = need fs ip W := by
  simp only [FileSystem.need, place_put _ stores.pointer]

theorem free : (fs.put b data).free = fs.free := by
  apply Finset.filter_congr
  intro c member
  rw [used_put (stores.unmapped c (Finset.mem_range.mp member))]

end Stores

theorem Good.storesData (good : Good fs ip) (there : address fs ip bn ≠ 0) : Stores fs ip (address fs ip bn) :=
  ⟨fun _ inside => good.layout.bblock_ne inside (good.data (some bn) there).1,
    fun pointer same => nomatch good.distinct none (some bn) pointer same⟩

theorem Good.storesInode (good : Good fs ip) : Stores fs ip (fs.iblock ip.inum) := by
  have before := good.layout.iblock_lt good.inum
  refine ⟨fun c inside => Nat.ne_of_gt (Nat.lt_of_lt_of_le before (good.layout.bblock_lt inside).1), fun pointer same => ?_⟩
  have data : fs.datastart ≤ ip.addrs ndirect := (good.data none pointer).1
  have start : fs.sb.bmapstart < fs.datastart := Nat.lt_succ_of_le (Nat.le_add_right _ _)
  omega

end Stores

end OShard.FileSystem
