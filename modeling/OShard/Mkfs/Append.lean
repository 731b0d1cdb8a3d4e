import OShard.Base.Outcome
import OShard.Mkfs.Model

/-! What `iappend` does to the file it extends: the file's blocks, and the bytes in them. -/

namespace OShard.Mkfs

open Bytes Function

/-- A file by its contents and the sectors that hold them; `table` is its indirect block, 0 if it has none, and `size` what
    the inode says. -/
structure Node where
  type : Nat
  size : Nat
  blocks : List Nat
  table : Nat
  content : List Byte

def Node.owned (node : Node) : List Nat := if node.table = 0 then node.blocks else node.table :: node.blocks

/-- The addresses of an inode lead to the node's blocks, and these hold its contents, with zeros after them. -/
structure Holds (disk : Disk) (addrs : Nat → Nat) (node : Node) : Prop where
  direct : ∀ i < ndirect, addrs i = node.blocks.getD i 0
  table : addrs ndirect = node.table
  untabled : node.table = 0 → node.blocks.length ≤ ndirect
  entries : node.table ≠ 0 → ∀ j < nindirect, load 4 (view (disk node.table)) (4 * j) = node.blocks.getD (ndirect + j) 0
  short : node.blocks.length ≤ maxfile
  nonzero : 0 ∉ node.blocks
  data : ∀ k < bsize * node.blocks.length,
    view (disk (node.blocks.getD (k / bsize) 0)) (k % bsize) = node.content.getD k 0
  room : node.content.length ≤ bsize * node.blocks.length

/-- The step took the sectors from the old `freeblock` on for the file and wrote no others than its own. -/
structure Grows (s : State) (own : List Nat) (s' : State) (own' : List Nat) : Prop where
  freeinode : s'.freeinode = s.freeinode
  le : s.freeblock ≤ s'.freeblock
  owned : own'.Perm (own ++ List.range' s.freeblock (s'.freeblock - s.freeblock))
  others : ∀ b < s.freeblock, b ∉ own → s'.disk b = s.disk b
  untouched : ∀ b, s'.freeblock ≤ b → s'.disk b = s.disk b

structure Ready (s : State) (addrs : Nat → Nat) (node : Node) : Prop where
  holds : Holds s.disk addrs node
  nodup : node.owned.Nodup
  taken : ∀ b ∈ node.owned, b < s.freeblock
  clean : ∀ b, s.freeblock ≤ b → ∀ o, view (s.disk b) o = 0
  start : 0 < s.freeblock

variable {s s' : State} {addrs' : Nat → Nat} {node node' : Node} {n fbn x : Nat}

theorem getD_concat (l : List Nat) (b i : Nat) : (l ++ [b]).getD i 0 = if i = l.length then b else l.getD i 0 := by
  by_cases below : i < l.length
  · rw [if_neg (by omega), List.getD_append _ _ _ _ below]
  rw [List.getD_append_right _ _ _ _ (by omega)]
  by_cases last : i = l.length
  · rw [if_pos last, last, Nat.sub_self]
    rfl
  · obtain ⟨m, more⟩ : ∃ m, i - l.length = m + 1 := ⟨i - l.length - 1, by omega⟩
    rw [if_neg last, more, List.getD_eq_default l _ (by omega)]
    rfl

namespace Node

variable {node : Node} {b : Nat}

theorem mem_owned_of_block (there : b ∈ node.blocks) : b ∈ node.owned := by
  rw [owned]
  split
  · exact there
  · exact List.mem_cons_of_mem _ there

theorem table_mem_owned (tabled : node.table ≠ 0) : node.table ∈ node.owned := by
  rw [owned, if_neg tabled]
  exact List.mem_cons_self

theorem nodup_blocks (nodup : node.owned.Nodup) : node.blocks.Nodup := by
  rw [owned] at nodup
  split at nodup
  · exact nodup
  · exact nodup.of_cons

theorem table_not_block (nodup : node.owned.Nodup) (tabled : node.table ≠ 0) : node.table ∉ node.blocks := by
  rw [owned, if_neg tabled] at nodup
  exact (List.nodup_cons.mp nodup).1

end Node

namespace Holds

variable {disk : Disk} {addrs : Nat → Nat} {node : Node} {fbn : Nat} {b i v : Nat}

theorem block_mem (below : fbn < node.blocks.length) : node.blocks.getD fbn 0 ∈ node.blocks := by
  rw [List.getD_eq_getElem _ _ below]
  exact List.getElem_mem below

section

variable (holds : Holds disk addrs node)

include holds

theorem block_eq_zero : node.blocks.getD fbn 0 = 0 ↔ node.blocks.length ≤ fbn := by
  by_cases below : fbn < node.blocks.length
  · have member := block_mem below
    constructor
    · intro zero
      rw [zero] at member
      exact absurd member holds.nonzero
    · omega
  · constructor
    · omega
    · exact fun beyond => List.getD_eq_default _ _ beyond

theorem addDirect (room : node.blocks.length < ndirect) (positive : b ≠ 0)
    (clean : ∀ o, view (disk b) o = 0) :
    Holds disk (update addrs node.blocks.length b) { node with blocks := node.blocks ++ [b] } where
  direct := by
    intro i below
    rw [getD_concat]
    by_cases here : i = node.blocks.length
    · rw [if_pos here, here, update_self]
    · rw [if_neg here, update_of_ne here, holds.direct i below]
  table := by
    rw [update_of_ne (by omega), holds.table]
  untabled := by
    intro _
    rw [List.length_append]
    exact room
  entries := by
    intro tabled j below
    rw [holds.entries tabled j below, getD_concat, if_neg (by omega)]
  short := by
    rw [List.length_append]
    have order : ndirect ≤ maxfile := by decide
    exact Nat.le_trans room order
  nonzero := by
    rw [List.mem_append, List.mem_singleton, not_or]
    exact ⟨holds.nonzero, positive.symm⟩
  data := by
    intro k below
    rw [List.length_append, List.length_singleton] at below
    have last : k / bsize ≤ node.blocks.length := by
      unfold bsize at *
      omega
    rw [getD_concat]
    split
    · rename_i here
      have beyond : node.content.length ≤ k := by
        have bound := holds.room
        unfold bsize at *
        omega
      rw [clean, List.getD_eq_default _ _ beyond]
    · apply holds.data
      unfold bsize at *
      omega
  room := by
    rw [List.length_append]
    exact Nat.le_trans holds.room (Nat.mul_le_mul_left _ (Nat.le_add_right _ _))

theorem addTable (untabled : node.table = 0) (clean : ∀ o, view (disk b) o = 0) :
    Holds disk (update addrs ndirect b) { node with table := b } where
  direct := by
    intro i below
    rw [update_of_ne (by omega), holds.direct i below]
  table := update_self _ _ _
  untabled := fun _ => holds.untabled untabled
  entries := by
    intro _ j _
    have few := holds.untabled untabled
    change load 4 (view (disk b)) _ = node.blocks.getD _ 0
    rw [List.getD_eq_default _ _ (by omega)]
    exact load_zero fun j _ => clean _
  short := holds.short
  nonzero := holds.nonzero
  data := holds.data
  room := holds.room

end

theorem load_word (block : Area) (small : v < 2 ^ 32) (inside : i < nindirect) :
    load 4 (view (pack (blit block (4 * i) ((List.range 4).map (digit v))))) (4 * i) = v := by
  have fits : i < 256 := inside
  have size : v % 256 ^ 4 = v := Nat.mod_eq_of_lt small
  rw [← size]
  apply load_digits
  intro j below
  have length : ((List.range 4).map (digit (v % 256 ^ 4))).length = 4 := by rw [List.length_map, List.length_range]
  rw [view_pack _ (by unfold bsize; omega), blit_inside (by omega) (by omega), Nat.add_sub_cancel_left,
    List.getD_eq_getElem _ _ (by omega), List.getElem_map, List.getElem_range, size]

theorem load_word_other (block : Area) {i' : Nat} (other : i' ≠ i) (inside : i' < nindirect) :
    load 4 (view (pack (blit block (4 * i) ((List.range 4).map (digit v))))) (4 * i') = load 4 block (4 * i') := by
  have fits : i' < 256 := inside
  apply load_congr
  intro j below
  have length : ((List.range 4).map (digit v)).length = 4 := by rw [List.length_map, List.length_range]
  rw [view_pack _ (by unfold bsize; omega), blit_outside (by omega)]

variable (holds : Holds disk addrs node)

include holds

theorem addIndirect (nodup : node.owned.Nodup) (tabled : node.table ≠ 0)
    (many : ndirect ≤ node.blocks.length) (room : node.blocks.length < maxfile) (positive : b ≠ 0) (small : b < 2 ^ 32)
    (other : b ≠ node.table) (clean : ∀ o, view (disk b) o = 0) :
    Holds (update disk node.table (pack (blit (view (disk node.table)) (4 * (node.blocks.length - ndirect))
      ((List.range 4).map (digit b))))) addrs { node with blocks := node.blocks ++ [b] } where
  direct := by
    intro i below
    rw [getD_concat, if_neg (by omega), holds.direct i below]
  table := holds.table
  untabled := fun zero => absurd zero tabled
  entries := by
    intro _ j below
    rw [update_self, getD_concat]
    by_cases here : ndirect + j = node.blocks.length
    · have index : node.blocks.length - ndirect = j := by omega
      rw [if_pos here, index, load_word _ small below]
    · rw [if_neg here, load_word_other _ (by omega) below, holds.entries tabled j below]
  short := by
    rw [List.length_append]
    exact room
  nonzero := by
    rw [List.mem_append, List.mem_singleton, not_or]
    exact ⟨holds.nonzero, positive.symm⟩
  data := by
    intro k below
    rw [List.length_append, List.length_singleton] at below
    have last : k / bsize ≤ node.blocks.length := by
      unfold bsize at *
      omega
    rw [getD_concat]
    split
    · have beyond : node.content.length ≤ k := by
        have bound := holds.room
        unfold bsize at *
        omega
      rw [update_of_ne other, clean, List.getD_eq_default _ _ beyond]
    have inside : k / bsize < node.blocks.length := by omega
    have elsewhere : node.blocks.getD (k / bsize) 0 ≠ node.table := by
      intro same
      have member := block_mem inside
      rw [same] at member
      exact Node.table_not_block nodup tabled member
    rw [update_of_ne elsewhere]
    apply holds.data
    unfold bsize at *
    omega
  room := by
    rw [List.length_append]
    exact Nat.le_trans holds.room (Nat.mul_le_mul_left _ (Nat.le_add_right _ _))

theorem write (nodup : node.owned.Nodup) {bytes : List Byte} {o : Nat}
    (ends : node.content.length = fbn * bsize + o) (inside : o + bytes.length ≤ bsize) (below : fbn < node.blocks.length) :
    Holds (update disk (node.blocks.getD fbn 0) (pack (blit (view (disk (node.blocks.getD fbn 0))) o bytes))) addrs
      { node with content := node.content ++ bytes } where
  direct := holds.direct
  table := holds.table
  untabled := holds.untabled
  entries := by
    intro tabled j small
    have elsewhere : node.table ≠ node.blocks.getD fbn 0 := by
      intro same
      have member := block_mem below
      rw [← same] at member
      exact Node.table_not_block nodup tabled member
    rw [update_of_ne elsewhere]
    exact holds.entries tabled j small
  short := holds.short
  nonzero := holds.nonzero
  data := by
    intro k (small : k < bsize * node.blocks.length)
    have old := holds.data k small
    by_cases here : k / bsize = fbn
    · have position : k = fbn * bsize + k % bsize := by
        rw [← here, Nat.mul_comm]
        exact (Nat.div_add_mod k bsize).symm
      have bound : k % bsize < bsize := Nat.mod_lt _ (by decide)
      rw [here] at old ⊢
      rw [update_self, view_pack _ bound]
      by_cases before : k % bsize < o
      · rw [blit_outside (.inl before), old, List.getD_append _ _ _ _ (by omega)]
      by_cases written : k % bsize < o + bytes.length
      · have index : k % bsize - o = k - node.content.length := by omega
        rw [blit_inside (by omega) written, index, List.getD_append_right _ _ _ _ (by omega)]
      · have beyond : (node.content ++ bytes).length ≤ k := by
          rw [List.length_append]
          omega
        rw [blit_outside (.inr (by omega)), old, List.getD_eq_default _ _ (by omega), List.getD_eq_default _ _ beyond]
    · have other : node.blocks.getD (k / bsize) 0 ≠ node.blocks.getD fbn 0 := by
        have index : k / bsize < node.blocks.length := by
          unfold bsize at *
          omega
        rw [List.getD_eq_getElem _ _ index, List.getD_eq_getElem _ _ below]
        intro same
        exact here ((Node.nodup_blocks nodup).getElem_inj_iff.mp same)
      rw [update_of_ne other, old]
      by_cases before : k < node.content.length
      · rw [List.getD_append _ _ _ _ before]
      have beyond : (node.content ++ bytes).length ≤ k := by
        rw [List.length_append]
        unfold bsize at *
        omega
      rw [List.getD_eq_default _ _ (by omega), List.getD_eq_default _ _ beyond]
  room := by
    change (node.content ++ bytes).length ≤ bsize * node.blocks.length
    rw [List.length_append, ends]
    have order : (fbn + 1) * bsize ≤ node.blocks.length * bsize := Nat.mul_le_mul_right _ below
    rw [Nat.mul_comm bsize]
    rw [Nat.add_mul] at order
    omega

theorem resize (size : Nat) : Holds disk addrs { node with size := size } :=
  ⟨holds.direct, holds.table, holds.untabled, holds.entries, holds.short, holds.nonzero, holds.data, holds.room⟩

end Holds

namespace Grows

variable {s s' s'' : State} {own own' own'' : List Nat}

theorem mem (grows : Grows s own s' own') {b : Nat} : b ∈ own' ↔ b ∈ own ∨ (s.freeblock ≤ b ∧ b < s'.freeblock) := by
  have order := grows.le
  rw [grows.owned.mem_iff, List.mem_append, List.mem_range'_1]
  constructor
  · rintro (old | new)
    · exact .inl old
    · exact .inr (by omega)
  · rintro (old | new)
    · exact .inl old
    · exact .inr (by omega)

theorem trans (first : Grows s own s' own') (second : Grows s' own' s'' own'') : Grows s own s'' own'' where
  freeinode := second.freeinode.trans first.freeinode
  le := Nat.le_trans first.le second.le
  owned := by
    have joined : List.range' s.freeblock (s'.freeblock - s.freeblock) ++ List.range' s'.freeblock (s''.freeblock - s'.freeblock) =
        List.range' s.freeblock (s''.freeblock - s.freeblock) := by
      have low := first.le
      have high := second.le
      obtain ⟨m, here⟩ := Nat.exists_eq_add_of_le low
      obtain ⟨n, there⟩ := Nat.exists_eq_add_of_le high
      rw [there, here, Nat.add_sub_cancel_left, Nat.add_sub_cancel_left, List.range'_append_1, Nat.add_assoc,
        Nat.add_sub_cancel_left]
    have all := second.owned.trans (first.owned.append_right _)
    rw [List.append_assoc, joined] at all
    exact all
  others := by
    intro b below other
    have still : b ∉ own' := by
      intro mine
      rcases first.mem.mp mine with old | new
      · exact other old
      · omega
    rw [second.others b (Nat.lt_of_lt_of_le below first.le) still, first.others b below other]
  untouched := by
    intro b beyond
    rw [second.untouched b beyond, first.untouched b (Nat.le_trans second.le beyond)]

theorem rewrite {x : Nat} (mine : x ∈ own) (taken : x < s.freeblock) (buf : Area) : Grows s own (s.wsect x buf) own where
  freeinode := rfl
  le := Nat.le_refl _
  owned := by
    change own.Perm (own ++ List.range' s.freeblock (s.freeblock - s.freeblock))
    rw [Nat.sub_self, List.range'_zero, List.append_nil]
  others := by
    intro b _ other
    have elsewhere : b ≠ x := by
      intro same
      rw [same] at other
      exact other mine
    exact update_of_ne elsewhere _ _
  untouched := by
    intro b beyond
    have above : s.freeblock ≤ b := beyond
    exact update_of_ne (by omega) _ _

theorem refl (s : State) (own : List Nat) : Grows s own s own where
  freeinode := rfl
  le := Nat.le_refl _
  owned := by
    rw [Nat.sub_self, List.range'_zero, List.append_nil]
  others := fun _ _ _ => rfl
  untouched := fun _ _ => rfl

theorem take (s : State) (more : own'.Perm (own ++ [s.freeblock])) : Grows s own s.take own' where
  freeinode := rfl
  le := Nat.le_succ _
  owned := by
    change own'.Perm (own ++ List.range' s.freeblock (s.freeblock + 1 - s.freeblock))
    rw [Nat.add_sub_cancel_left]
    exact more
  others := fun _ _ _ => rfl
  untouched := fun _ _ => rfl

end Grows

theorem Ready.grow {addrs : Nat → Nat} (ready : Ready s addrs node)
    (grows : Grows s node.owned s' node'.owned) (holds : Holds s'.disk addrs' node') : Ready s' addrs' node' where
  holds := holds
  nodup := by
    rw [grows.owned.nodup_iff, List.nodup_append]
    refine ⟨ready.nodup, List.nodup_range', ?_⟩
    intro a old b new same
    have below := ready.taken a old
    have above := (List.mem_range'_1.mp new).1
    omega
  taken := by
    intro b mine
    have order := grows.le
    rcases grows.mem.mp mine with old | new
    · have below := ready.taken b old
      omega
    · exact new.2
  clean := by
    intro b beyond o
    rw [grows.untouched b beyond]
    exact ready.clean b (Nat.le_trans grows.le beyond) o
  start := Nat.lt_of_lt_of_le ready.start grows.le

theorem Node.owned_concat (node : Node) (b : Nat) :
    ({ node with blocks := node.blocks ++ [b] } : Node).owned.Perm (node.owned ++ [b]) := by
  by_cases untabled : node.table = 0
  · rw [owned, owned, if_pos untabled, if_pos untabled]
  · rw [owned, owned, if_neg untabled, if_neg untabled, List.cons_append]

theorem Node.owned_table {b : Nat} (untabled : node.table = 0) (positive : b ≠ 0) :
    ({ node with table := b } : Node).owned.Perm (node.owned ++ [b]) := by
  rw [owned, owned, if_neg positive, if_pos untabled]
  exact (List.perm_append_singleton b node.blocks).symm

structure Found (s : State) (node : Node) (fbn : Nat) (s' : State) (addrs' : Nat → Nat) (node' : Node) (x : Nat) : Prop where
  grows : Grows s node.owned s' node'.owned
  holds : Holds s'.disk addrs' node'
  type : node'.type = node.type
  content : node'.content = node.content
  length : node'.blocks.length = max node.blocks.length (fbn + 1)
  block : x = node'.blocks.getD fbn 0
  cost : s'.freeblock ≤ s.freeblock + 2
  last : s'.freeblock = x + 1 ∨ s'.freeblock = s.freeblock ∧ node' = node

namespace Ready

variable {s : State} {din : Dinode} {node : Node} {fbn : Nat}

variable (ready : Ready s din.addrs node)

include ready

theorem present (below : fbn < node.blocks.length) :
    Found s node fbn s din.addrs node (node.blocks.getD fbn 0) where
  grows := Grows.refl _ _
  holds := ready.holds
  type := rfl
  content := rfl
  length := by omega
  block := rfl
  cost := by omega
  last := .inr ⟨rfl, rfl⟩

theorem indirectFor (tabled : node.table ≠ 0) (many : ndirect ≤ fbn)
    (next : fbn ≤ node.blocks.length) (room : fbn < maxfile) (small : s.freeblock < 2 ^ 32) :
    Outcome (s.indirectFor din fbn) (fssize ≤ node.table) fun r =>
      ∃ node', Found s node fbn r.1 din.addrs node' r.2 ∧ r.1.freeblock ≤ s.freeblock + 1 := by
  have entry : load 4 (view (s.disk node.table)) (4 * (fbn - ndirect)) = node.blocks.getD fbn 0 := by
    have index : ndirect + (fbn - ndirect) = fbn := by omega
    have fits : fbn - ndirect < nindirect := by
      unfold maxfile at room
      omega
    rw [ready.holds.entries tabled _ fits, index]
  rw [State.indirectFor, State.rsect, ready.holds.table]
  by_cases inside : node.table < fssize
  · rw [if_pos inside]
    change Outcome (if load 4 (view (s.disk node.table)) (4 * (fbn - ndirect)) = 0 then _ else _) _ _
    rw [entry]
    by_cases absent : node.blocks.getD fbn 0 = 0
    · rw [if_pos absent]
      have full : fbn = node.blocks.length := by
        have beyond := ready.holds.block_eq_zero.mp absent
        omega
      have mine := Node.table_mem_owned tabled
      have taken := ready.taken _ mine
      have clean := ready.clean s.freeblock (Nat.le_refl _)
      have positive := ready.start
      have holds := ready.holds.addIndirect ready.nodup tabled (by omega) (by omega) (by omega) small (by omega) clean
      rw [← full] at holds
      have grows : Grows s node.owned s.take _ := Grows.take s (node.owned_concat s.freeblock)
      refine ⟨{ node with blocks := node.blocks ++ [s.freeblock] }, ⟨?_, holds, rfl, rfl, ?_, ?_, ?_, .inl rfl⟩, Nat.le_refl _⟩
      · apply grows.trans
        apply Grows.rewrite
        · exact grows.mem.mpr (.inl mine)
        · exact Nat.lt_succ_of_lt taken
      · rw [List.length_append, full]
        change _ + 1 = _
        omega
      · rw [getD_concat, if_pos full]
      · exact Nat.le_succ _
    · rw [if_neg absent]
      have below : fbn < node.blocks.length := by
        have present := (not_congr ready.holds.block_eq_zero).mp absent
        omega
      exact ⟨node, ready.present below, Nat.le_succ _⟩
  · rw [if_neg inside]
    exact Nat.le_of_not_lt inside

theorem blockFor (next : fbn ≤ node.blocks.length) (room : fbn < maxfile)
    (within : s.freeblock ≤ fssize) :
    Outcome (s.blockFor din fbn) (fssize ≤ s.freeblock) fun r =>
      r.2.1.type = din.type ∧ ∃ node', Found s node fbn r.1 r.2.1.addrs node' r.2.2 := by
  have positive := ready.start
  have clean := ready.clean s.freeblock (Nat.le_refl _)
  rw [State.blockFor]
  by_cases direct : fbn < ndirect
  · rw [if_pos direct, ready.holds.direct fbn direct]
    by_cases absent : node.blocks.getD fbn 0 = 0
    · rw [if_pos absent]
      have full : fbn = node.blocks.length := by
        have beyond := ready.holds.block_eq_zero.mp absent
        omega
      have holds := ready.holds.addDirect (full ▸ direct) (by omega) clean
      rw [← full] at holds
      refine ⟨rfl, { node with blocks := node.blocks ++ [s.freeblock] }, ?_⟩
      refine ⟨Grows.take s (node.owned_concat s.freeblock), holds, rfl, rfl, ?_, ?_, Nat.le_succ _, .inl rfl⟩
      · rw [List.length_append, full]
        change _ + 1 = _
        omega
      · rw [getD_concat, if_pos full]
    · rw [if_neg absent]
      have below : fbn < node.blocks.length := by
        have present := (not_congr ready.holds.block_eq_zero).mp absent
        omega
      exact ⟨rfl, node, ready.present below⟩
  · rw [if_neg direct, ready.holds.table]
    by_cases untabled : node.table = 0
    · rw [if_pos untabled]
      have few := ready.holds.untabled untabled
      have grows := Grows.take s (Node.owned_table untabled (Nat.ne_of_gt positive))
      have ready' : Ready s.take (din.setAddr ndirect s.freeblock).addrs { node with table := s.freeblock } :=
        ready.grow grows (ready.holds.addTable untabled clean)
      have outcome := ready'.indirectFor (Nat.ne_of_gt positive) (show ndirect ≤ fbn by omega) next room (by
        change s.freeblock + 1 < _
        unfold fssize at within
        omega)
      apply Outcome.bind (outcome.weaken id fun _ => id)
      rintro ⟨s', x⟩ ⟨node', found, cost⟩
      refine ⟨rfl, node', grows.trans found.grows, found.holds, found.type, found.content, found.length, found.block, ?_, ?_⟩
      · exact Nat.le_trans cost (Nat.le_refl _)
      · rcases found.last with last | ⟨_, same⟩
        · exact .inl last
        · have length := found.length
          rw [same] at length
          change node.blocks.length = max node.blocks.length (fbn + 1) at length
          omega
    · rw [if_neg untabled]
      have outcome := ready.indirectFor untabled (by omega) next room (by
        unfold fssize at within
        omega)
      have taken := ready.taken _ (Node.table_mem_owned untabled)
      apply Outcome.bind (outcome.weaken (fun beyond => Nat.le_trans beyond (Nat.le_of_lt taken)) fun _ => id)
      rintro ⟨s', x⟩ ⟨node', found, cost⟩
      exact ⟨rfl, node', found⟩

end Ready

def turns (off n : Nat) : Nat := if n = 0 then 0 else (off % bsize + n - 1) / bsize + 1

theorem turns_pos (off : Nat) (some : 0 < n) : 1 ≤ turns off n := by
  rw [turns, if_neg (Nat.ne_of_gt some)]
  exact Nat.le_add_left _ _

theorem turns_add {off m : Nat} (some : 0 < m) (aligned : n = 0 ∨ (off + m) % bsize = 0) :
    turns off m + turns (off + m) n ≤ turns off (m + n) := by
  by_cases rest : n = 0
  · rw [rest, Nat.add_zero m, turns, turns, if_pos rfl]
    exact Nat.le_refl _
  have boundary := aligned.resolve_left rest
  have whole : m + n ≠ 0 := by omega
  rw [turns, turns, turns, if_neg (Nat.ne_of_gt some), if_neg rest, if_neg whole]
  unfold bsize at *
  omega

/-- The bytes `p` have been appended to the file, whose blocks are as few as hold it. -/
structure Appended (s : State) (node : Node) (p : List Byte) (s' : State) (addrs' : Nat → Nat) (node' : Node) : Prop where
  grows : Grows s node.owned s' node'.owned
  holds : Holds s'.disk addrs' node'
  type : node'.type = node.type
  content : node'.content = node.content ++ p
  tight : bsize * node'.blocks.length < node'.content.length + bsize
  within : s'.freeblock ≤ fssize
  cost : s'.freeblock ≤ s.freeblock + 2 * turns node.content.length p.length

/-- What stops `iappend`: a file beyond `maxfile` blocks, or a full disk. -/
def Overflows (s : State) (node : Node) (p : List Byte) : Prop :=
  maxfile * bsize < node.content.length + p.length ∨ fssize < s.freeblock + 2 * turns node.content.length p.length

theorem Found.mine (found : Found s node fbn s' addrs' node' x) : x ∈ node'.owned := by
  rw [found.block]
  apply Node.mem_owned_of_block
  apply Holds.block_mem
  rw [found.length]
  omega

theorem Found.append {bytes : List Byte}
    (found : Found s node fbn s' addrs' node' x) (ready : Ready s' addrs' node') (current : fbn = node.content.length / bsize)
    (room : node.content.length ≤ bsize * node.blocks.length)
    (tight : bsize * node.blocks.length < node.content.length + bsize) (within : s.freeblock ≤ fssize) (readable : x < fssize)
    (some : 0 < bytes.length) (inside : node.content.length % bsize + bytes.length ≤ bsize) :
    Appended s node bytes (s'.wsect x (blit (view (s'.disk x)) (node.content.length - fbn * bsize) bytes)) addrs'
      { node' with content := node.content ++ bytes } where
  grows := by
    apply found.grows.trans
    exact Grows.rewrite found.mine (ready.taken x found.mine) _
  holds := by
    have offset : node.content.length - fbn * bsize = node.content.length % bsize := by
      unfold bsize at *
      omega
    have ends : node'.content.length = fbn * bsize + node.content.length % bsize := by
      rw [found.content]
      unfold bsize at *
      omega
    have below : fbn < node'.blocks.length := by
      rw [found.length]
      omega
    rw [offset, found.block, ← found.content]
    rw [← found.content] at inside ends
    exact ready.holds.write ready.nodup ends inside below
  type := found.type
  content := rfl
  tight := by
    change bsize * node'.blocks.length < (node.content ++ bytes).length + bsize
    rw [found.length, List.length_append]
    unfold bsize at *
    omega
  within := by
    change s'.freeblock ≤ fssize
    rcases found.last with last | ⟨same, _⟩ <;> omega
  cost := by
    have one := turns_pos node.content.length some
    have bound := found.cost
    change s'.freeblock ≤ _
    omega

theorem Appended.trans {s'' : State} {addrs'' : Nat → Nat} {node'' : Node} {p q : List Byte}
    (first : Appended s node p s' addrs' node') (second : Appended s' node' q s'' addrs'' node'')
    (some : 0 < p.length) (aligned : q.length = 0 ∨ (node.content.length + p.length) % bsize = 0) :
    Appended s node (p ++ q) s'' addrs'' node'' where
  grows := first.grows.trans second.grows
  holds := second.holds
  type := second.type.trans first.type
  content := by rw [second.content, first.content, List.append_assoc]
  tight := second.tight
  within := second.within
  cost := by
    have cost := first.cost
    have cost' := second.cost
    have sum := turns_add some aligned
    rw [first.content, List.length_append] at cost'
    rw [List.length_append]
    omega

theorem Ready.appendLoop {din : Dinode} (p : List Byte) (ready : Ready s din.addrs node)
    (tight : bsize * node.blocks.length < node.content.length + bsize) (within : s.freeblock ≤ fssize) :
    Outcome (s.appendLoop din node.content.length p) (Overflows s node p) fun r =>
      r.2.1.type = din.type ∧ r.2.2 = node.content.length + p.length ∧ ∃ node', Appended s node p r.1 r.2.1.addrs node' := by
  induction size : p.length using Nat.strongRecOn generalizing s din node p with
  | _ n ih =>
    have room := ready.holds.room
    rw [State.appendLoop]
    by_cases done : p = []
    · rw [if_pos done]
      refine ⟨rfl, ?_, node, Grows.refl _ _, ready.holds, rfl, ?_, tight, within, Nat.le_add_right _ _⟩
      · rw [← size, done]
        rfl
      · rw [done, List.append_nil]
    rw [if_neg done]
    have some : 0 < p.length := List.length_pos_iff.mpr done
    by_cases big : maxfile ≤ node.content.length / bsize
    · simp only [if_pos big]
      have beyond : maxfile * bsize < node.content.length + p.length := by
        have whole : maxfile * bsize ≤ node.content.length := (Nat.le_div_iff_mul_le (by decide)).mp big
        omega
      exact .inl beyond
    simp only [if_neg big]
    have next : node.content.length / bsize ≤ node.blocks.length := by
      unfold bsize at *
      omega
    have one := turns_pos node.content.length some
    have outcome := ready.blockFor next (Nat.lt_of_not_le big) within
    apply Outcome.bind (outcome.weaken (fun full => .inr (by omega)) fun _ => id)
    rintro ⟨s', din', x⟩ ⟨type, node', (found : Found s node _ s' din'.addrs node' x)⟩
    have ready' := ready.grow found.grows found.holds
    change Outcome (s'.rsect x >>= _) _ _
    rw [State.rsect]
    by_cases readable : x < fssize
    · rw [if_pos readable]
      generalize count : min p.length ((node.content.length / bsize + 1) * bsize - node.content.length) = n1
      have copied : (p.take n1).length = n1 := by
        rw [List.length_take]
        omega
      have bytes : 0 < (p.take n1).length := by
        rw [copied]
        unfold bsize at *
        omega
      have inside : node.content.length % bsize + (p.take n1).length ≤ bsize := by
        rw [copied]
        unfold bsize at *
        omega
      have step := found.append ready' rfl room tight within readable bytes inside
      have ready'' := ready.grow step.grows step.holds
      have rest := ih (p.drop n1).length (by rw [List.length_drop]; omega) _ ready'' step.tight step.within rfl
      have split : (p.drop n1).length = p.length - n1 := List.length_drop
      have aligned : (p.drop n1).length = 0 ∨ (node.content.length + (p.take n1).length) % bsize = 0 := by
        rw [split, copied]
        unfold bsize at *
        omega
      have sum := turns_add bytes aligned
      have whole : (p.take n1).length + (p.drop n1).length = p.length := by
        rw [← List.length_append, List.take_append_drop]
      change Outcome (State.appendLoop _ din' (node.content.length + n1) (p.drop n1)) _ _
      rw [List.length_append, copied] at rest
      apply rest.weaken
      · rintro (big | full)
        · left
          rw [List.length_append] at big
          omega
        · right
          have cost := step.cost
          rw [List.length_append] at full
          rw [whole] at sum
          omega
      · rintro r ⟨type', off, node'', appended⟩
        refine ⟨type'.trans type, ?_, node'', ?_⟩
        · rw [off]
          omega
        · have joined := step.trans appended bytes aligned
          rw [List.take_append_drop] at joined
          exact joined
    · rw [if_neg readable]
      have full : fssize < s.freeblock + 2 * turns node.content.length p.length := by
        have cost := found.cost
        have taken := ready'.taken x found.mine
        rcases found.last with last | ⟨same, _⟩ <;> omega
      exact .inr full

end OShard.Mkfs
