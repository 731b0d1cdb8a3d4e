import OShard.Mkfs.Append
import OShard.Mkfs.Kernel

/-! The image that `mkfs` builds, as the list of its files in the order of their inodes. -/

namespace OShard.Mkfs

open Bytes

def inode (disk : Disk) (inum : Nat) : Dinode := loadDinode (view (disk (sb.iblock inum))) (inum % ipb)

structure Stored (disk : Disk) (din : Dinode) (node : Node) : Prop where
  type : din.type = node.type
  size : din.size = node.size
  holds : Holds disk din.addrs node
  tight : bsize * node.blocks.length < node.content.length + bsize

structure Image (s : State) (nodes : List Node) : Prop where
  count : s.freeinode = nodes.length + 1
  few : nodes.length < ninodes
  inodes : ∀ i node, nodes[i]? = some node → Stored s.disk (inode s.disk (i + 1)) node
  vacant : ∀ inum < ninodes, inum = 0 ∨ nodes.length < inum → (inode s.disk inum).type = 0
  owned : (nodes.flatMap Node.owned).Perm (List.range' nmeta (s.freeblock - nmeta))
  start : nmeta ≤ s.freeblock
  within : s.freeblock ≤ fssize
  clean : ∀ b, s.freeblock ≤ b → ∀ o, view (s.disk b) o = 0
  super : s.disk 1 = format.disk 1

variable {din din' : Dinode} {inum : Nat} {disk disk' : Disk} {node : Node}

theorem Dinode.Agrees.trans {din'' : Dinode} (first : din.Agrees din') (second : din'.Agrees din'') :
    din.Agrees din'' where
  type := first.type.trans second.type
  size := first.size.trans second.size
  addrs := fun k below => (first.addrs k below).trans (second.addrs k below)

theorem loadDinode_pack (buf : Area) {i : Nat} (below : i < ipb) :
    (loadDinode (view (pack buf)) i).Agrees (loadDinode buf i) := by
  have bound : i < 16 := below
  have same : ∀ o w, o + w ≤ 64 → load w (view (pack buf)) (64 * i + o) = load w buf (64 * i + o) := by
    intro o w inside
    apply load_congr
    intro j small
    apply view_pack
    unfold bsize
    omega
  refine ⟨same 0 2 (by omega), same 8 4 (by omega), ?_⟩
  intro k small
  have top : k ≤ 12 := small
  change load 4 _ (64 * i + 12 + 4 * k) = load 4 _ (64 * i + 12 + 4 * k)
  rw [Nat.add_assoc]
  exact same _ 4 (by omega)

theorem slot_lt (inum : Nat) : inum % ipb < ipb := Nat.mod_lt _ (by decide)

def State.putInode (s : State) (inum : Nat) (din : Dinode) : State :=
  s.wsect (sb.iblock inum) (storeDinode (view (s.disk (sb.iblock inum))) (inum % ipb) din)

theorem putInode_block (s : State) (inum : Nat) (din : Dinode) :
    (s.putInode inum din).disk (sb.iblock inum) = pack (storeDinode (view (s.disk (sb.iblock inum))) (inum % ipb) din) :=
  Function.update_self _ _ _

theorem putInode_elsewhere (s : State) {b : Nat} (din : Dinode) (elsewhere : b ≠ sb.iblock inum) :
    (s.putInode inum din).disk b = s.disk b := Function.update_of_ne elsewhere _ _

theorem inode_self (s : State) (inum : Nat) (type : din.type < 2 ^ 16) (size : din.size < 2 ^ 32)
    (addrs : ∀ k ≤ ndirect, din.addrs k < 2 ^ 32) : (inode (s.putInode inum din).disk inum).Agrees din := by
  rw [inode, putInode_block]
  exact (loadDinode_pack _ (slot_lt inum)).trans (loadDinode_storeDinode _ _ type size addrs)

theorem Dinode.Agrees.refl (din : Dinode) : din.Agrees din := ⟨rfl, rfl, fun _ _ => rfl⟩

theorem inode_other (s : State) {other : Nat} (din : Dinode) (differs : other ≠ inum) :
    (inode (s.putInode inum din).disk other).Agrees (inode s.disk other) := by
  by_cases together : sb.iblock other = sb.iblock inum
  · have slots : other % ipb ≠ inum % ipb := by
      intro same
      apply differs
      have quotient : other / ipb = inum / ipb := Nat.add_right_cancel together
      rw [← Nat.div_add_mod other ipb, ← Nat.div_add_mod inum ipb, quotient, same]
    rw [inode, inode, together, putInode_block]
    exact (loadDinode_pack _ (slot_lt other)).trans (loadDinode_storeDinode_other _ din slots)
  · rw [inode, inode, putInode_elsewhere s din together]
    exact Dinode.Agrees.refl _

theorem Holds.congr {addrs addrs' : Nat → Nat} (holds : Holds disk addrs node)
    (blocks : ∀ b ∈ node.owned, disk' b = disk b) (same : ∀ k ≤ ndirect, addrs' k = addrs k) : Holds disk' addrs' node where
  direct := by
    intro i below
    rw [same i (Nat.le_of_lt below), holds.direct i below]
  table := by rw [same _ (Nat.le_refl _), holds.table]
  untabled := holds.untabled
  entries := by
    intro tabled j below
    rw [blocks _ (Node.table_mem_owned tabled), holds.entries tabled j below]
  short := holds.short
  nonzero := holds.nonzero
  data := by
    intro k below
    have index : k / bsize < node.blocks.length := by
      unfold bsize at *
      omega
    rw [blocks _ (Node.mem_owned_of_block (Holds.block_mem index)), holds.data k below]
  room := holds.room

theorem Stored.congr (stored : Stored disk din node)
    (blocks : ∀ b ∈ node.owned, disk' b = disk b) (agrees : din'.Agrees din) : Stored disk' din' node where
  type := agrees.type.trans stored.type
  size := agrees.size.trans stored.size
  holds := stored.holds.congr blocks agrees.addrs
  tight := stored.tight

theorem iblock_range (below : inum < ninodes) : 1 < sb.iblock inum ∧ sb.iblock inum < sb.bmapstart := by
  have bound : inum < 200 := below
  change 1 < inum / 16 + 32 ∧ inum / 16 + 32 < 45
  omega

theorem rsect_iblock (s : State) (below : inum < ninodes) :
    s.rsect (sb.iblock inum) = .ok (view (s.disk (sb.iblock inum))) := by
  have range := (iblock_range below).2
  rw [State.rsect, if_pos (Nat.lt_trans range (by decide))]

theorem rinode_ok (s : State) (below : inum < ninodes) : s.rinode inum = .ok (inode s.disk inum) := by
  rw [State.rinode, rsect_iblock s below]
  rfl

theorem winode_ok (s : State) (below : inum < ninodes) (din : Dinode) :
    s.winode inum din = .ok (s.putInode inum din) := by
  rw [State.winode, rsect_iblock s below]
  rfl

namespace Image

variable {s : State} {nodes pre post : List Node} {node : Node} {b i n : Nat} {other node' : Node}

theorem owned_range (image : Image s nodes) (there : node ∈ nodes) (mine : b ∈ node.owned) :
    nmeta ≤ b ∧ b < s.freeblock := by
  have member : b ∈ nodes.flatMap Node.owned := List.mem_flatMap.mpr ⟨node, there, mine⟩
  have start := image.start
  have range := List.mem_range'_1.mp (image.owned.mem_iff.mp member)
  omega

theorem nodup (image : Image s nodes) : (nodes.flatMap Node.owned).Nodup := image.owned.nodup_iff.mpr List.nodup_range'

theorem flatMap_middle (pre : List Node) (node : Node) (post : List Node) :
    ((pre ++ node :: post).flatMap Node.owned).Perm (node.owned ++ (pre ++ post).flatMap Node.owned) := by
  have rotated : (pre ++ node :: post).Perm (node :: (pre ++ post)) := List.perm_middle
  have flat := rotated.flatMap_right Node.owned
  rw [List.flatMap_cons] at flat
  exact flat

section

variable (image : Image s (pre ++ node :: post))

include image

theorem separate (there : other ∈ pre ++ post)
    (theirs : b ∈ other.owned) : b ∉ node.owned := by
  intro mine
  have nodup := (flatMap_middle pre node post).nodup_iff.mp image.nodup
  have apart := (List.nodup_append.mp nodup).2.2 b mine b (List.mem_flatMap.mpr ⟨other, there, theirs⟩)
  exact apart rfl

theorem stored : Stored s.disk (inode s.disk (pre.length + 1)) node := by
  apply image.inodes
  rw [List.getElem?_append_right (Nat.le_refl _), Nat.sub_self]
  rfl

theorem ready : Ready s (inode s.disk (pre.length + 1)).addrs node where
  holds := image.stored.holds
  nodup := (List.nodup_append.mp ((flatMap_middle pre node post).nodup_iff.mp image.nodup)).1
  taken := fun _ mine => (image.owned_range (List.mem_append_right _ List.mem_cons_self) mine).2
  clean := image.clean
  start := Nat.lt_of_lt_of_le (by decide) image.start

end

theorem getElem?_middle (other : i ≠ pre.length) (node node' : Node) :
    (pre ++ node' :: post)[i]? = (pre ++ node :: post)[i]? := by
  by_cases before : i < pre.length
  · rw [List.getElem?_append_left before, List.getElem?_append_left before]
  · obtain ⟨m, after⟩ : ∃ m, i - pre.length = m + 1 := ⟨i - pre.length - 1, by omega⟩
    rw [List.getElem?_append_right (by omega), List.getElem?_append_right (by omega), after, List.getElem?_cons_succ,
      List.getElem?_cons_succ]

theorem mem_of_getElem?_middle (differs : i ≠ pre.length)
    (there : (pre ++ node :: post)[i]? = some other) : other ∈ pre ++ post := by
  by_cases before : i < pre.length
  · rw [List.getElem?_append_left before] at there
    exact List.mem_append_left _ (List.mem_of_getElem? there)
  · obtain ⟨m, after⟩ : ∃ m, i - pre.length = m + 1 := ⟨i - pre.length - 1, by omega⟩
    rw [List.getElem?_append_right (by omega), after, List.getElem?_cons_succ] at there
    exact List.mem_append_right _ (List.mem_of_getElem? there)

theorem flatMap_replace {more : List Nat} (owned : node'.owned.Perm (node.owned ++ more)) :
    ((pre ++ node' :: post).flatMap Node.owned).Perm ((pre ++ node :: post).flatMap Node.owned ++ more) := by
  have new := (flatMap_middle pre node' post).trans (owned.append_right _)
  have old := (flatMap_middle pre node post).append_right more
  apply new.trans
  apply List.Perm.trans _ old.symm
  rw [List.append_assoc, List.append_assoc]
  exact List.perm_append_comm.append_left _

theorem range_extend {m : Nat} (start : nmeta ≤ m) (order : m ≤ n) :
    List.range' nmeta (m - nmeta) ++ List.range' m (n - m) = List.range' nmeta (n - nmeta) := by
  obtain ⟨i, here⟩ := Nat.exists_eq_add_of_le start
  obtain ⟨j, there⟩ := Nat.exists_eq_add_of_le order
  rw [there, here, Nat.add_sub_cancel_left, Nat.add_sub_cancel_left, List.range'_append_1, Nat.add_assoc,
    Nat.add_sub_cancel_left]

theorem inum_lt (image : Image s (pre ++ node :: post)) : pre.length + 1 < ninodes := by
  have few := image.few
  rw [List.length_append, List.length_cons] at few
  omega

theorem addrs_lt {disk : Disk} {addrs : Nat → Nat} (holds : Holds disk addrs node)
    (taken : ∀ b ∈ node.owned, b < n) (positive : 0 < n) {k : Nat} (below : k ≤ ndirect) : addrs k < n := by
  by_cases last : k = ndirect
  · rw [last, holds.table]
    by_cases untabled : node.table = 0
    · rw [untabled]
      exact positive
    · exact taken _ (Node.table_mem_owned untabled)
  · rw [holds.direct k (by omega)]
    by_cases there : k < node.blocks.length
    · exact taken _ (Node.mem_owned_of_block (Holds.block_mem there))
    · rw [List.getD_eq_default _ _ (by omega)]
      exact positive

theorem replace {s' : State} {din : Dinode} (image : Image s (pre ++ node :: post))
    (grows : Grows s node.owned s' node'.owned) (within : s'.freeblock ≤ fssize) (stored : Stored s'.disk din node')
    (typed : node'.type < 2 ^ 16) (sized : node'.size < 2 ^ 32) :
    Image (s'.putInode (pre.length + 1) din) (pre ++ node' :: post) := by
  have length : (pre ++ node' :: post).length = (pre ++ node :: post).length := by
    rw [List.length_append, List.length_append, List.length_cons, List.length_cons]
  have start := image.start
  have order := grows.le
  have range := iblock_range image.inum_lt
  have metadata : sb.bmapstart < nmeta := by decide
  have span := fun b mine => image.owned_range (b := b) (List.mem_append_right pre List.mem_cons_self) mine
  -- Sectors below `nmeta` change only by the inode that is written at the end.
  have kept : ∀ b < nmeta, s'.disk b = s.disk b := by
    intro b below
    apply grows.others b (by omega)
    intro mine
    have above := (span b mine).1
    omega
  have unwritten : ∀ b, nmeta ≤ b → (s'.putInode (pre.length + 1) din).disk b = s'.disk b :=
    fun b above => putInode_elsewhere s' din (by omega)
  have ready' := image.ready.grow grows stored.holds
  have mine : ∀ b ∈ node'.owned, nmeta ≤ b := by
    intro b there
    rcases grows.mem.mp there with old | new
    · exact (span b old).1
    · omega
  have others : ∀ other, other < ninodes → other ≠ pre.length + 1 →
      (inode (s'.putInode (pre.length + 1) din).disk other).Agrees (inode s.disk other) := by
    intro other below differs
    have same : inode s'.disk other = inode s.disk other := by
      rw [inode, inode, kept _ (Nat.lt_trans (iblock_range below).2 metadata)]
    rw [← same]
    exact inode_other s' din differs
  refine ⟨?_, ?_, ?_, ?_, ?_, Nat.le_trans start order, within, ?_, ?_⟩
  · rw [length, ← image.count]
    exact grows.freeinode
  · rw [length]
    exact image.few
  · intro i found there
    by_cases here : i = pre.length
    · rw [here, List.getElem?_append_right (Nat.le_refl _), Nat.sub_self] at there
      injection there with same
      subst same
      have addrs : ∀ k ≤ ndirect, din.addrs k < 2 ^ 32 := by
        intro k below
        have bound := addrs_lt stored.holds ready'.taken ready'.start below
        unfold fssize at within
        omega
      have self := inode_self s' (pre.length + 1) (stored.type ▸ typed) (stored.size ▸ sized) addrs
      rw [here]
      exact stored.congr (fun b there => unwritten b (mine b there)) self
    · rw [getElem?_middle here node] at there
      have below : i + 1 < ninodes := by
        have bound := (List.getElem?_eq_some_iff.mp there).1
        have few := image.few
        omega
      apply (image.inodes i found there).congr _ (others (i + 1) below (by omega))
      intro b theirs
      have above := image.owned_range (List.mem_of_getElem? there) theirs
      rw [unwritten b above.1]
      exact grows.others b above.2 (image.separate (mem_of_getElem?_middle here there) theirs)
  · intro other below none
    rw [length, List.length_append, List.length_cons] at none
    rw [(others other below (by omega)).type]
    apply image.vacant other below
    rw [List.length_append, List.length_cons]
    exact none
  · have perm := (flatMap_replace grows.owned).trans (image.owned.append_right _)
    rw [range_extend start order] at perm
    exact perm
  · intro b beyond o
    have above : s'.freeblock ≤ b := beyond
    rw [unwritten b (by omega)]
    exact ready'.clean b above o
  · rw [← image.super, ← kept 1 (by decide)]
    exact putInode_elsewhere s' din (by omega)

theorem iappend {p : List Byte} (image : Image s (pre ++ node :: post)) (typed : node.type < 2 ^ 16)
    (sized : node.size = node.content.length) : Outcome (s.iappend (pre.length + 1) p) (Overflows s node p) fun s' =>
      ∃ node', Image s' (pre ++ node' :: post) ∧ node'.type = node.type ∧ node'.content = node.content ++ p ∧
        node'.size = node'.content.length ∧ s'.freeblock ≤ s.freeblock + 2 * turns node.content.length p.length := by
  have stored := image.stored
  have outcome := image.ready.appendLoop p stored.tight image.within
  rw [State.iappend, rinode_ok s image.inum_lt]
  change Outcome (s.appendLoop (inode s.disk (pre.length + 1)) (inode s.disk (pre.length + 1)).size p >>= _) _ _
  rw [stored.size, sized]
  apply outcome.bind
  rintro ⟨s', din, off⟩ ⟨type, (ends : off = _), node', (appended : Appended s node p s' din.addrs node')⟩
  have length : node'.content.length = off := by rw [ends, appended.content, List.length_append]
  have small : off < 2 ^ 32 := by
    have room := appended.holds.room
    have short : node'.blocks.length ≤ 268 := appended.holds.short
    unfold bsize at room
    omega
  change Outcome (s'.winode (pre.length + 1) { din with size := off }) _ _
  rw [winode_ok s' image.inum_lt]
  have same : din.type = node'.type := by rw [appended.type, ← stored.type, ← type]
  have written : Stored s'.disk { din with size := off } { node' with size := off } :=
    ⟨same, rfl, appended.holds.resize off, appended.tight⟩
  refine ⟨{ node' with size := off }, ?_, appended.type, appended.content, length.symm, appended.cost⟩
  have typed' : node'.type < 2 ^ 16 := by rw [appended.type]; exact typed
  have grows : Grows s node.owned s' ({ node' with size := off } : Node).owned := appended.grows
  exact image.replace grows appended.within written typed' small

def fresh (type : Nat) : Node where
  type := type
  size := 0
  blocks := []
  table := 0
  content := []

theorem fresh_stored (disk : Disk) (din : Dinode) (size : din.size = 0) (addrs : ∀ k ≤ ndirect, din.addrs k = 0) :
    Stored disk din (fresh din.type) where
  type := rfl
  size := size
  holds := {
    direct := fun i below => addrs i (Nat.le_of_lt below)
    table := addrs _ (Nat.le_refl _)
    untabled := fun _ => Nat.zero_le _
    entries := fun tabled => absurd rfl tabled
    short := Nat.zero_le _
    nonzero := List.not_mem_nil
    data := fun k below => absurd below (Nat.not_lt_zero k)
    room := Nat.zero_le _ }
  tight := by
    change bsize * 0 < 0 + bsize
    decide

theorem ialloc {type : Nat} (image : Image s nodes) (room : nodes.length + 1 < ninodes) (typed : type < 2 ^ 16) :
    ∃ s', s.ialloc type = .ok (nodes.length + 1, s') ∧ Image s' (nodes ++ [fresh type]) ∧ s'.freeblock = s.freeblock := by
  have range := iblock_range room
  have metadata : sb.bmapstart < nmeta := by decide
  have start := image.start
  let din : Dinode := { type := type, major := 0, minor := 0, nlink := 1, size := 0, addrs := fun _ => 0 }
  let s₁ : State := { s with freeinode := nodes.length + 1 + 1 }
  have ran : s.ialloc type = .ok (nodes.length + 1, s₁.putInode (nodes.length + 1) din) := by
    have inum : s.freeinode = nodes.length + 1 := image.count
    rw [State.ialloc, inum, winode_ok _ room]
    rfl
  refine ⟨s₁.putInode (nodes.length + 1) din, ran, ?_, rfl⟩
  have unwritten : ∀ b, nmeta ≤ b → (s₁.putInode (nodes.length + 1) din).disk b = s.disk b :=
    fun b above => putInode_elsewhere s₁ din (by omega)
  have others : ∀ other, other ≠ nodes.length + 1 →
      (inode (s₁.putInode (nodes.length + 1) din).disk other).Agrees (inode s.disk other) :=
    fun other differs => inode_other s₁ din differs
  have self : (inode (s₁.putInode (nodes.length + 1) din).disk (nodes.length + 1)).Agrees din :=
    inode_self s₁ (nodes.length + 1) typed (by decide : 0 < 2 ^ 32) fun _ _ => (by decide : 0 < 2 ^ 32)
  refine ⟨?_, ?_, ?_, ?_, ?_, start, image.within, ?_, ?_⟩
  · rw [List.length_append]
    rfl
  · rw [List.length_append]
    exact room
  · intro i node there
    by_cases before : i < nodes.length
    · rw [List.getElem?_append_left before] at there
      apply (image.inodes i node there).congr _ (others (i + 1) (by omega))
      intro b theirs
      exact unwritten b (image.owned_range (List.mem_of_getElem? there) theirs).1
    have last : i = nodes.length := by
      have bound := (List.getElem?_eq_some_iff.mp there).1
      rw [List.length_append, List.length_singleton] at bound
      omega
    rw [last, List.getElem?_append_right (Nat.le_refl _), Nat.sub_self] at there
    injection there with same
    rw [last, ← same]
    have empty := fresh_stored (s₁.putInode (nodes.length + 1) din).disk din rfl fun _ _ => rfl
    exact empty.congr (fun _ _ => rfl) self
  · intro other below none
    rw [List.length_append, List.length_singleton] at none
    rw [(others other (by omega)).type]
    exact image.vacant other below (by omega)
  · rw [List.flatMap_append]
    change (nodes.flatMap Node.owned ++ []).Perm _
    rw [List.append_nil]
    exact image.owned
  · intro b beyond o
    have above : s.freeblock ≤ b := beyond
    rw [unwritten b (by omega)]
    exact image.clean b above o
  · rw [← image.super]
    exact putInode_elsewhere s₁ din (by omega)

end Image

end OShard.Mkfs
