import OShard.Mkfs.Main

/-! The kernel's invariant of a disk, and that the finished image has it unless its root directory fills its last block. -/

namespace OShard.Mkfs

open Bytes Function

namespace Kernel

inductive Slot where
  | direct (i : Nat)
  | table
  | entry (j : Nat)
  deriving DecidableEq, Repr

def slotAddr (disk : Disk) (ip : Dinode) : Slot → Nat
  | .direct i => if i < ndirect then ip.addrs i else 0
  | .table => ip.addrs ndirect
  | .entry j => if j < nindirect ∧ ip.addrs ndirect ≠ 0 then load 4 (view (disk (ip.addrs ndirect))) (4 * j) else 0

def Allocated (disk : Disk) (inum : Nat) : Prop := inum < (readsb disk).ninodes ∧ (dinode disk inum).type ≠ 0

def Refers (disk : Disk) (inum : Nat) (slot : Slot) (b : Nat) : Prop :=
  Allocated disk inum ∧ b ≠ 0 ∧ slotAddr disk (dinode disk inum) slot = b

def Mapped (disk : Disk) (ip : Dinode) : Prop := ∀ bn < (ip.size + bsize - 1) / bsize, address disk ip bn ≠ 0

structure WellFormed (disk : Disk) : Prop where
  once : ∀ inum slot inum' slot' b, Refers disk inum slot b → Refers disk inum' slot' b → inum = inum' ∧ slot = slot'
  range : ∀ inum slot b, Refers disk inum slot b → nmeta ≤ b ∧ b < fssize
  bitmap : ∀ b < fssize, (readsb disk).bit disk b = true ↔ b < nmeta ∨ ∃ inum slot, Refers disk inum slot b
  mapped : ∀ inum, Allocated disk inum → Mapped disk (dinode disk inum)

def Slot.of (bn : Nat) : Slot := if bn < ndirect then .direct bn else .entry (bn - ndirect)

variable {disk : Disk} {ip : Dinode} {off n : Nat}

theorem bmap_ok {bn : Nat} (mapped : address disk ip bn ≠ 0) : bmap disk ip bn = .ok (address disk ip bn) := by
  have below : bn < maxfile := by
    by_contra beyond
    have order : ndirect ≤ maxfile := by decide
    apply mapped
    rw [address, if_neg (by omega), if_pos (.inl (by omega))]
  rw [bmap, if_pos below, if_neg mapped]

theorem readLoop_returns (mapped : Mapped disk ip) (inside : off + n ≤ ip.size) :
    ∃ bytes, readLoop disk ip off n = .ok bytes := by
  induction n using Nat.strongRecOn generalizing off with
  | _ n ih =>
    rw [readLoop]
    by_cases done : n = 0
    · exact ⟨[], if_pos done⟩
    have room : 0 < bsize - off % bsize := by
      unfold bsize
      omega
    have below : off / bsize < (ip.size + bsize - 1) / bsize := by
      unfold bsize at *
      omega
    obtain ⟨rest, ran⟩ : ∃ rest, readLoop disk ip (off + min n (bsize - off % bsize)) (n - min n (bsize - off % bsize)) =
        .ok rest := ih _ (by omega) (by omega)
    rw [if_neg done, bmap_ok (mapped _ below)]
    exact ⟨_, by
      change (readLoop disk ip _ _ >>= _) = _
      rw [ran]
      rfl⟩

theorem readi_returns (mapped : Mapped disk ip) (small : off < 2 ^ 32)
    (short : n < 2 ^ 32) : ∃ bytes, readi disk ip off n = .ok bytes := by
  rw [readi]
  split
  · exact ⟨[], rfl⟩
  · rename_i inside
    apply readLoop_returns mapped
    split <;> omega

end Kernel

open Kernel

namespace Holds

variable {disk : Disk} {din : Dinode} {node : Node} {slot : Slot} {b : Nat} (holds : Holds disk din.addrs node)

include holds

theorem address (bn : Nat) : Kernel.address disk din bn = node.blocks.getD bn 0 := by
  have short := holds.short
  rw [Kernel.address]
  split
  · rename_i direct
    exact holds.direct bn direct
  split
  · rename_i many absent
    rw [holds.table] at absent
    rcases absent with beyond | untabled
    · rw [List.getD_eq_default _ _ (by omega)]
    · have few := holds.untabled untabled
      rw [List.getD_eq_default _ _ (by omega)]
  · rename_i many present
    rw [not_or, holds.table] at present
    have index : bn - ndirect < nindirect := by
      have whole : maxfile = ndirect + nindirect := rfl
      omega
    have same : ndirect + (bn - ndirect) = bn := by omega
    rw [holds.table, holds.entries present.2 _ index, same]

theorem slotAddr_of (bn : Nat) (below : bn < maxfile) : slotAddr disk din (Slot.of bn) = node.blocks.getD bn 0 := by
  rw [← holds.address bn, Slot.of, Kernel.address]
  by_cases direct : bn < ndirect
  · rw [if_pos direct, if_pos direct, slotAddr, if_pos direct]
  have index : bn - ndirect < nindirect := by
    have whole : maxfile = ndirect + nindirect := rfl
    omega
  rw [if_neg direct, if_neg direct, slotAddr]
  by_cases untabled : din.addrs ndirect = 0
  · rw [if_neg (fun both => both.2 untabled), if_pos (.inr untabled)]
  · rw [if_pos ⟨index, untabled⟩, if_neg (by omega)]

theorem slot_cases (refers : slotAddr disk din slot = b) (used : b ≠ 0) :
    (slot = .table ∧ node.table = b) ∨ ∃ k < node.blocks.length, slot = Slot.of k ∧ node.blocks.getD k 0 = b := by
  have whole : maxfile = ndirect + nindirect := rfl
  have inside : ∀ bn, slot = Slot.of bn → bn < maxfile →
      ∃ k < node.blocks.length, slot = Slot.of k ∧ node.blocks.getD k 0 = b := by
    intro bn here below
    have value := holds.slotAddr_of bn below
    rw [← here, refers] at value
    refine ⟨bn, ?_, here, value.symm⟩
    have present := (not_congr (show node.blocks.getD bn 0 = 0 ↔ _ from holds.block_eq_zero)).mp (by rw [← value]; exact used)
    omega
  cases slot with
  | table =>
    left
    rw [← holds.table]
    exact ⟨rfl, refers⟩
  | direct i =>
    right
    by_cases below : i < ndirect
    · apply inside i _ (by omega)
      rw [Slot.of, if_pos below]
    · rw [slotAddr, if_neg below] at refers
      exact absurd refers.symm used
  | entry j =>
    right
    by_cases below : j < nindirect
    · apply inside (ndirect + j) _ (by omega)
      rw [Slot.of, if_neg (by omega), Nat.add_sub_cancel_left]
    · rw [slotAddr, if_neg (fun both => below both.1)] at refers
      exact absurd refers.symm used

theorem slot_owned (refers : slotAddr disk din slot = b) (used : b ≠ 0) : b ∈ node.owned := by
  rcases holds.slot_cases refers used with ⟨_, here⟩ | ⟨k, below, _, here⟩
  · rw [← here]
    apply Node.table_mem_owned
    rw [here]
    exact used
  · rw [← here]
    exact Node.mem_owned_of_block (block_mem below)

theorem owned_slot (mine : b ∈ node.owned) : b ≠ 0 ∧ ∃ slot, slotAddr disk din slot = b := by
  have block : b ∈ node.blocks → b ≠ 0 ∧ ∃ slot, slotAddr disk din slot = b := by
    intro there
    obtain ⟨k, below, here⟩ := List.getElem_of_mem there
    have short := holds.short
    refine ⟨fun zero => holds.nonzero (zero ▸ there), Slot.of k, ?_⟩
    rw [holds.slotAddr_of k (by omega), List.getD_eq_getElem _ _ below, here]
  by_cases untabled : node.table = 0
  · rw [Node.owned, if_pos untabled] at mine
    exact block mine
  · rw [Node.owned, if_neg untabled] at mine
    rcases List.mem_cons.mp mine with rfl | there
    · exact ⟨untabled, .table, holds.table⟩
    · exact block there

theorem slot_unique (nodup : node.owned.Nodup) {slot' : Slot}
    (refers : slotAddr disk din slot = b) (refers' : slotAddr disk din slot' = b) (used : b ≠ 0) : slot = slot' := by
  have apart : ∀ k < node.blocks.length, node.blocks.getD k 0 = b → node.table ≠ b := by
    intro k below here there
    have member := block_mem below
    rw [here, ← there] at member
    exact Node.table_not_block nodup (there ▸ used) member
  rcases holds.slot_cases refers used with ⟨this, here⟩ | ⟨k, below, this, here⟩
  · rcases holds.slot_cases refers' used with ⟨that, there⟩ | ⟨k', below', that, there⟩
    · rw [this, that]
    · exact absurd here (apart k' below' there)
  rcases holds.slot_cases refers' used with ⟨that, there⟩ | ⟨k', below', that, there⟩
  · exact absurd there (apart k below here)
  · rw [List.getD_eq_getElem _ _ below] at here
    rw [List.getD_eq_getElem _ _ below'] at there
    have same := (Node.nodup_blocks nodup).getElem_inj_iff.mp (here.trans there.symm)
    rw [this, that, same]

end Holds

theorem view_super {o : Nat} (below : o < 32) : view (format.disk 1) o = sb.bytes.getD o 0 := by
  have length : sb.bytes.length = 32 := by decide
  have written : format.disk 1 = pack (blit zeroes 0 sb.bytes) := by simp only [format, update_self]
  rw [written, view_pack _ (by unfold bsize; omega), blit_inside (by omega) (by omega), Nat.sub_zero]

theorem readsb_super {disk : Disk} (super : disk 1 = format.disk 1) : readsb disk = sb := by
  have field : ∀ o, o + 4 ≤ 32 → load 4 (view (disk 1)) o = load 4 (fun o => sb.bytes.getD o 0) o := by
    intro o inside
    apply load_congr
    intro j below
    rw [super, view_super (by omega)]
  rw [readsb, loadSuperblock, field 0 (by omega), field 4 (by omega), field 8 (by omega), field 12 (by omega),
    field 16 (by omega), field 20 (by omega), field 24 (by omega), field 28 (by omega)]
  decide

namespace Image

variable {s : State} {nodes : List Node}

theorem dinode (image : Image s nodes) (inum : Nat) : Kernel.dinode s.disk inum = inode s.disk inum := by
  rw [Kernel.dinode, readsb_super image.super]
  rfl

theorem allocated (image : Image s nodes) {inum : Nat} (allocated : Allocated s.disk inum) :
    ∃ i node, inum = i + 1 ∧ nodes[i]? = some node := by
  obtain ⟨below, typed⟩ := allocated
  rw [readsb_super image.super] at below
  rw [image.dinode] at typed
  by_cases vacant : inum = 0 ∨ nodes.length < inum
  · exact absurd (image.vacant inum below vacant) typed
  · have index : inum - 1 < nodes.length := by omega
    exact ⟨inum - 1, nodes[inum - 1], by omega, List.getElem?_eq_getElem index⟩

theorem split (_image : Image s nodes) {i : Nat} {node : Node} (there : nodes[i]? = some node) :
    ∃ pre post, nodes = pre ++ node :: post ∧ pre.length = i := by
  obtain ⟨below, here⟩ := List.getElem?_eq_some_iff.mp there
  refine ⟨nodes.take i, nodes.drop (i + 1), ?_, ?_⟩
  · rw [← here, List.getElem_cons_drop, List.take_append_drop]
  · rw [List.length_take]
    omega

theorem once (image : Image s nodes) {inum inum' b : Nat} {slot slot' : Slot} (refers : Refers s.disk inum slot b)
    (refers' : Refers s.disk inum' slot' b) : inum = inum' ∧ slot = slot' := by
  obtain ⟨alive, used, here⟩ := refers
  obtain ⟨alive', _, here'⟩ := refers'
  obtain ⟨i, node, rfl, there⟩ := image.allocated alive
  obtain ⟨i', node', rfl, there'⟩ := image.allocated alive'
  rw [image.dinode] at here here'
  have stored := image.inodes i node there
  have stored' := image.inodes i' node' there'
  obtain ⟨pre, post, whole, index⟩ := image.split there
  subst whole
  by_cases same : i' = i
  · subst same
    rw [there] at there'
    injection there' with same
    subst same
    exact ⟨rfl, stored.holds.slot_unique image.ready.nodup here here' used⟩
  · have member := mem_of_getElem?_middle (by omega) there'
    exact absurd (stored.holds.slot_owned here used) (image.separate member (stored'.holds.slot_owned here' used))

theorem referred (image : Image s nodes) (types : ∀ node ∈ nodes, node.type ≠ 0) {b : Nat} :
    (∃ inum slot, Refers s.disk inum slot b) ↔ nmeta ≤ b ∧ b < s.freeblock := by
  constructor
  · rintro ⟨inum, slot, alive, used, here⟩
    obtain ⟨i, node, rfl, there⟩ := image.allocated alive
    rw [image.dinode] at here
    exact image.owned_range (List.mem_of_getElem? there) ((image.inodes i node there).holds.slot_owned here used)
  · intro range
    have member : b ∈ nodes.flatMap Node.owned := by
      rw [image.owned.mem_iff, List.mem_range'_1]
      omega
    obtain ⟨node, present, mine⟩ := List.mem_flatMap.mp member
    obtain ⟨i, below, here⟩ := List.getElem_of_mem present
    have there : nodes[i]? = some node := List.getElem?_eq_some_iff.mpr ⟨below, here⟩
    have stored := image.inodes i node there
    obtain ⟨used, slot, refers⟩ := stored.holds.owned_slot mine
    have few := image.few
    refine ⟨i + 1, slot, ⟨?_, ?_⟩, used, ?_⟩
    · rw [readsb_super image.super]
      change i + 1 < ninodes
      omega
    · rw [image.dinode, stored.type]
      exact types node present
    · rw [image.dinode]
      exact refers

end Image

theorem bit_set (buf : Sector) {i b : Nat} (below : i < bsize * 8) (inside : b < bsize * 8) :
    (view (pack (update (view buf) (i / 8) (view buf (i / 8) ||| (1 : Byte) <<< (i % 8)))) (b / 8)).getLsbD (b % 8) =
      ((view buf (b / 8)).getLsbD (b % 8) || decide (b = i)) := by
  have byte : b / 8 < bsize := by omega
  rw [view_pack _ byte]
  by_cases same : b / 8 = i / 8
  · have bit : (1#8 <<< (i % 8)).getLsbD (b % 8) = decide (b = i) := by
      have small : b % 8 < 8 := by omega
      by_cases here : b = i
      · subst here
        rw [BitVec.getLsbD_shiftLeft, decide_eq_true small, Nat.sub_self, decide_eq_false (Nat.lt_irrefl _)]
        simp
      rw [BitVec.getLsbD_shiftLeft, decide_eq_false here]
      by_cases before : b % 8 < i % 8
      · rw [decide_eq_true before]
        simp
      · have apart : b % 8 - i % 8 ≠ 0 := by omega
        rw [BitVec.getLsbD_one, decide_eq_false apart]
        simp
    rw [same, update_self, BitVec.getLsbD_or]
    exact congrArg _ bit
  · have other : b ≠ i := fun here => same (congrArg (· / 8) here)
    rw [update_of_ne same, decide_eq_false other, Bool.or_false]

theorem bitmap_bit {used b : Nat} (fits : used ≤ bsize * 8) (inside : b < bsize * 8) :
    (view (State.bitmap used) (b / 8)).getLsbD (b % 8) = decide (b < used) := by
  induction used with
  | zero =>
    change (view (pack zeroes) (b / 8)).getLsbD (b % 8) = decide (b < 0)
    rw [view_zeroes, decide_eq_false (Nat.not_lt_zero b)]
    exact BitVec.getLsbD_zero
  | succ used ih =>
    rw [State.bitmap, List.range_succ, List.foldl_append]
    change (view (pack (update (view (State.bitmap used)) (used / 8)
      (view (State.bitmap used) (used / 8) ||| (1 : Byte) <<< (used % 8)))) (b / 8)).getLsbD (b % 8) = _
    rw [bit_set (State.bitmap used) fits inside, ih (by omega), ← Bool.decide_or]
    exact decide_eq_decide.mpr (by omega)

namespace Finished

variable {s : State} {root : Node} {nodes : List Node} {files : List File} (finished : Finished s root nodes files)

include finished

theorem types : ∀ node ∈ root :: nodes, node.type ≠ 0 := by
  intro node there
  rcases List.mem_cons.mp there with rfl | there
  · rw [finished.type]
    decide
  · obtain ⟨i, here⟩ := List.getElem?_of_mem there
    obtain ⟨_, _, type, _⟩ := finished.copies.node here
    rw [type]
    decide

theorem bit {b : Nat} (below : b < fssize) : (readsb s.disk).bit s.disk b = decide (b < s.freeblock) := by
  have within := finished.image.within
  have bound : fssize = 2000 := rfl
  have unit : bsize * 8 = 8192 := rfl
  have block : b / (bsize * 8) = 0 := Nat.div_eq_of_lt (by omega)
  have offset : b % (bsize * 8) = b := Nat.mod_eq_of_lt (by omega)
  have bits := @bitmap_bit s.freeblock b (by omega) (by omega)
  have byte : b / 8 < bsize := by
    have size : bsize = 1024 := rfl
    omega
  rw [readsb_super finished.image.super, Superblock.bit, block, offset, Nat.zero_add, finished.bitmap, view_pack _ byte]
  exact bits

theorem root_covered : (root.size + bsize - 1) / bsize ≤ root.blocks.length ↔ (files.length + 2) % 64 ≠ 0 := by
  have image : Image s ([] ++ root :: nodes) := finished.image
  have room := image.stored.holds.room
  have tight := image.stored.tight
  have length : root.content.length = 16 * (files.length + 2) := by
    rw [finished.content, length_directory, List.length_map]
  rw [finished.size]
  rw [length] at room tight ⊢
  unfold bsize at *
  omega

theorem file_covered {node : Node} (there : node ∈ nodes) : (node.size + bsize - 1) / bsize ≤ node.blocks.length := by
  obtain ⟨i, here⟩ := List.getElem?_of_mem there
  obtain ⟨_, _, _, _, sized⟩ := finished.copies.node here
  have room := (finished.image.inodes (i + 1) node here).holds.room
  rw [sized]
  unfold bsize at *
  omega

theorem mapped :
    (∀ inum, Allocated s.disk inum → Mapped s.disk (dinode s.disk inum)) ↔ (files.length + 2) % 64 ≠ 0 := by
  have image := finished.image
  have address : ∀ i node, (root :: nodes)[i]? = some node → ∀ bn,
      Kernel.address s.disk (dinode s.disk (i + 1)) bn ≠ 0 ↔ bn < node.blocks.length := by
    intro i node there bn
    have holds := (image.inodes i node there).holds
    rw [image.dinode, holds.address, Ne, holds.block_eq_zero]
    omega
  rw [← finished.root_covered]
  constructor
  · intro mapped
    have stored := image.inodes 0 root rfl
    have alive : Allocated s.disk 1 := by
      refine ⟨?_, ?_⟩
      · rw [readsb_super image.super]
        decide
      · rw [image.dinode, stored.type, finished.type]
        decide
    have below := mapped 1 alive
    rw [Mapped, image.dinode, stored.size] at below
    by_contra short
    have hole := (address 0 root rfl root.blocks.length).not.mpr (Nat.lt_irrefl _)
    rw [image.dinode] at hole
    exact hole (below _ (by omega))
  · intro covered inum alive bn below
    obtain ⟨i, node, rfl, there⟩ := image.allocated alive
    rw [address i node there]
    rw [image.dinode, (image.inodes i node there).size] at below
    have enough : (node.size + bsize - 1) / bsize ≤ node.blocks.length := by
      rcases List.mem_cons.mp (List.mem_of_getElem? there) with rfl | member
      · exact covered
      · exact finished.file_covered member
    omega

theorem wellFormed (uneven : (files.length + 2) % 64 ≠ 0) : WellFormed s.disk where
  once := fun _ _ _ _ _ refers refers' => finished.image.once refers refers'
  range := by
    intro inum slot b refers
    have range := (finished.image.referred finished.types).mp ⟨inum, slot, refers⟩
    exact ⟨range.1, Nat.lt_of_lt_of_le range.2 finished.image.within⟩
  bitmap := by
    intro b below
    have start := finished.image.start
    rw [finished.bit below, decide_eq_true_iff, finished.image.referred finished.types]
    omega
  mapped := finished.mapped.mpr uneven

end Finished

/-- The image has the kernel's invariant, and reading never allocates, unless the entries of the root directory fill its last
    block: then rounding its size up adds a block that is not there. -/
theorem image_wellFormed {s : State} (files : List File) (few : files.length < ninodes - 1) (accepted : main files = .ok s) :
    (WellFormed s.disk ∧ ∀ inum, Allocated s.disk inum → ∀ off < 2 ^ 32, ∀ n < 2 ^ 32,
      ∃ bytes, readi s.disk (dinode s.disk inum) off n = .ok bytes) ↔ (files.length + 2) % 64 ≠ 0 := by
  obtain ⟨root, nodes, finished⟩ := (main_outcome files few).returned accepted
  constructor
  · rintro ⟨wellFormed, _⟩
    exact finished.mapped.mp wellFormed.mapped
  · intro room
    have wellFormed := finished.wellFormed room
    refine ⟨wellFormed, ?_⟩
    intro inum alive off small n short
    exact readi_returns (wellFormed.mapped inum alive) small short

def sampleFile : File where
  path := chars "user/_cat"
  reads := [chars "text"]
  terminated := by decide
  blocks := by decide

theorem image_wellFormed_one : ∃ s, main [sampleFile] = .ok s ∧ WellFormed s.disk := by
  have fine : ¬Refused [sampleFile] := by
    unfold Refused
    decide
  obtain ⟨s, accepted, _⟩ := (main_outcome [sampleFile] (by decide)).succeeds fine
  exact ⟨s, accepted, ((image_wellFormed [sampleFile] (by decide) accepted).mpr (by decide)).1⟩

def letter (i : Nat) : Byte := BitVec.ofNat 8 (97 + i % 26)

theorem letter_ne (i : Nat) : (0 : Byte) ≠ letter i ∧ slash ≠ letter i := by
  have all : ∀ n < 26, (0 : Byte) ≠ BitVec.ofNat 8 (97 + n) ∧ slash ≠ BitVec.ofNat 8 (97 + n) := by decide
  exact all _ (Nat.mod_lt _ (by decide))

theorem no_reads : ∀ r ∈ ([] : List (List Byte)), r ≠ [] ∧ r.length ≤ bsize := nofun

def emptyFile (i : Nat) : File where
  path := [letter i, letter (i / 26)]
  reads := []
  terminated := by
    rw [List.mem_cons, List.mem_singleton, not_or]
    exact ⟨(letter_ne i).1, (letter_ne (i / 26)).1⟩
  blocks := no_reads

/-- With 62 files the root directory has 64 entries in its one block, and a size of two blocks. -/
theorem full_root_block : ∃ s, main ((List.range 62).map emptyFile) = .ok s ∧ ¬WellFormed s.disk ∧
    (dinode s.disk rootIno).size = 2 * bsize ∧ address s.disk (dinode s.disk rootIno) 1 = 0 := by
  have fine : ¬Refused ((List.range 62).map emptyFile) := by
    rintro (⟨file, there, bad⟩ | full)
    · obtain ⟨i, _, rfl⟩ := List.mem_map.mp there
      rcases bad with slashed | big
      · have inside := mem_shortname slashed
        rw [emptyFile, List.mem_cons, List.mem_singleton] at inside
        rcases inside with same | same
        · exact (letter_ne i).2 same
        · exact (letter_ne (i / 26)).2 same
      · exact absurd big (Nat.not_lt_zero _)
    · exact absurd full (by decide)
  obtain ⟨s, accepted, root, nodes, finished⟩ := (main_outcome _ (by decide)).succeeds fine
  have stored := finished.image.inodes 0 root rfl
  have length : root.content.length = bsize := by
    rw [finished.content, length_directory]
    decide
  have one : root.blocks.length ≤ 1 := by
    have tight := stored.tight
    rw [length] at tight
    unfold bsize at tight
    omega
  refine ⟨s, accepted, ?_, ?_, ?_⟩
  · intro wellFormed
    exact absurd (finished.mapped.mp wellFormed.mapped) (by decide)
  · rw [finished.image.dinode]
    change (inode s.disk (0 + 1)).size = _
    rw [stored.size, finished.size, length]
    decide
  · rw [finished.image.dinode]
    change Kernel.address s.disk (inode s.disk (0 + 1)) 1 = 0
    rw [stored.holds.address, List.getD_eq_default _ _ one]

end OShard.Mkfs
