import OShard.FileSystem.Read

namespace OShard.FileSystem

open Bytes Overlay Mkfs Fs Space

variable {fs fs' fs₁ : Fs} {ip ip' ip₁ : Inode} {mem : Memory} {src off left tot n m bn : Nat}

section Copyin

def readable : Memory → Nat → Nat → Nat
  | .user u, src, len => span u.readable src len
  | .kernel _, _, len => len

def source : Memory → Nat → Byte
  | .user u => u.byte
  | .kernel byte => byte

theorem eitherCopyin_eq (mem : Memory) (src len : Nat) :
    eitherCopyin mem src len = (if readable mem src len = len then 0 else -1, segment (source mem) src (readable mem src len)) := by
  cases mem with
  | user u =>
    rw [eitherCopyin, UserMemory.copyin_eq]
    rfl
  | kernel byte => simp [eitherCopyin, readable, source]

theorem readable_le : readable mem src n ≤ n := by
  cases mem with
  | user u => exact span_le
  | kernel byte => exact Nat.le_refl n

theorem readable_add (first : readable mem src m = m) : readable mem src (m + n) = m + readable mem (src + m) n := by
  cases mem with
  | user u => exact span_add first
  | kernel byte => rfl

theorem readable_stop (first : readable mem src m < m) : readable mem src (m + n) = readable mem src m := by
  cases mem with
  | user u => exact span_add_stop first
  | kernel byte => exact absurd first (Nat.lt_irrefl m)

theorem next_src (reaches : mem.Reaches src n) (some : 0 < m) (inside : m ≤ n) (all : readable mem src m = m) :
    (src + m) % 2 ^ 64 = src + m := by
  apply Nat.mod_eq_of_lt
  cases mem with
  | user u =>
    have last := u.readable_lt _ (span_eq_iff.mp all (m - 1) (by omega))
    unfold maxVa pgSize at last
    omega
  | kernel byte =>
    unfold Memory.Reaches at reaches
    omega

theorem Memory.Reaches.after (reaches : mem.Reaches src n) (inside : m ≤ n) : mem.Reaches (src + m) (n - m) := by
  cases mem with
  | user u => trivial
  | kernel byte =>
    unfold Memory.Reaches at *
    omega

end Copyin

section Loop

structure Wrote (fs : Fs) (ip : Inode) (fs' : Fs) (ip' : Inode) (g : Nat → Byte) (src off e : Nat) : Prop where
  good : Good fs' ip'
  sb : fs'.sb = fs.sb
  size : ip'.size = ip.size
  inum : ip'.inum = ip.inum
  place : ∀ p, place fs ip p ≠ 0 → place fs' ip' p = place fs ip p
  backed : ∀ j, j < e → address fs' ip' ((off + j) / bsize) ≠ 0
  inside : ∀ j, j < e → byte fs' ip' (off + j) = g (src + j)
  outside : ∀ x, address fs ip (x / bsize) ≠ 0 → x < off ∨ off + e ≤ x → byte fs' ip' x = byte fs ip x

variable {g : Nat → Byte} {e b : Nat}

theorem Grown.wrote (grown : Grown fs ip fs' ip') (g : Nat → Byte) (src off : Nat) : Wrote fs ip fs' ip' g src off 0 where
  good := grown.good
  sb := grown.sb
  size := grown.size
  inum := grown.inum
  place := grown.place
  backed := nofun
  inside := nofun
  outside x there _ := by
    have same : address fs' ip' (x / bsize) = address fs ip (x / bsize) := grown.place (some _) there
    rw [byte, byte, same, grown.kept _ there]

theorem Wrote.mapped (wrote : Wrote fs ip fs' ip' g src off e) (there : address fs ip bn ≠ 0) :
    address fs' ip' bn = address fs ip bn :=
  wrote.place (some bn) there

theorem Wrote.trans {e' : Nat} (first : Wrote fs ip fs₁ ip₁ g src off e) (second : Wrote fs₁ ip₁ fs' ip' g (src + e) (off + e) e') :
    Wrote fs ip fs' ip' g src off (e + e') where
  good := second.good
  sb := second.sb.trans first.sb
  size := second.size.trans first.size
  inum := second.inum.trans first.inum
  place p there := by
    have same := first.place p there
    exact (second.place p (same ▸ there)).trans same
  backed j less := by
    by_cases early : j < e
    · have there := first.backed j early
      exact second.mapped there ▸ there
    · have there := second.backed (j - e) (by omega)
      rw [Nat.add_assoc, Nat.add_sub_cancel' (by omega)] at there
      exact there
  inside j less := by
    by_cases early : j < e
    · exact (second.outside _ (first.backed j early) (by omega)).trans (first.inside j early)
    · have there := second.inside (j - e) (by omega)
      rw [Nat.add_assoc, Nat.add_assoc, Nat.add_sub_cancel' (by omega)] at there
      exact there
  outside x there out := by
    have there' : address fs₁ ip₁ (x / bsize) ≠ 0 := first.mapped there ▸ there
    exact (second.outside x there' (by omega)).trans (first.outside x there (by omega))

theorem Grown.wrote_then (grown : Grown fs ip fs₁ ip₁) (wrote : Wrote fs₁ ip₁ fs' ip' g src off e) :
    Wrote fs ip fs' ip' g src off e := by
  have both := (grown.wrote g src off).trans wrote
  rw [Nat.zero_add] at both
  exact both

theorem Good.wrotePiece (good : Good fs ip) (there : address fs ip (off / bsize) ≠ 0) (short : off % bsize + e ≤ bsize) :
    Wrote fs ip (fs.put (address fs ip (off / bsize)) (paste (fs.blocks (address fs ip (off / bsize))) (off % bsize) (segment g src e))) ip g src off e := by
  have stores := good.storesData there
  have same : ∀ bn, address (fs.put (address fs ip (off / bsize)) (paste (fs.blocks (address fs ip (off / bsize))) (off % bsize) (segment g src e))) ip bn =
      address fs ip bn := fun bn => place_put (some bn) stores.pointer
  refine ⟨stores.good good, rfl, rfl, rfl, fun p _ => place_put p stores.pointer, fun j less => ?_, fun j less => ?_, fun x mapped out => ?_⟩
  · have block : (off + j) / bsize = off / bsize := by
      unfold bsize at *
      omega
    rw [same, block]
    exact there
  · have block : (off + j) / bsize = off / bsize := by
      unfold bsize at *
      omega
    have rest : (off + j) % bsize = off % bsize + j := by
      unfold bsize at *
      omega
    rw [byte, same, block, rest, put_self, paste_inside (by simpa using less), segment_getElem]
  · by_cases here : x / bsize = off / bsize
    · rw [byte, same, byte, here, put_self]
      apply paste_outside
      rw [segment_length]
      unfold bsize at *
      omega
    · have other : address fs ip (x / bsize) ≠ address fs ip (off / bsize) := fun equal =>
        here (Option.some.inj (good.distinct (some _) (some _) mapped equal))
      rw [byte, same, byte, put_other other]

/-- Why the loop of `writei` stops: all is written; there is no block; or a piece cannot all be read, and the bytes of it before the
    first that cannot are in the buffer. -/
inductive Stops (fs : Fs) (ip : Inode) (mem : Memory) (src off left k e : Nat) : Prop where
  | all : k = left → e = k → readable mem src left = left → Stops fs ip mem src off left k e
  | full : k < left → e = k → address fs ip ((off + k) / bsize) = 0 →
      k ≤ readable mem src left - (off + readable mem src left) % bsize → Stops fs ip mem src off left k e
  | torn : e = readable mem src left → e < left → k = e - (off + e) % bsize → Stops fs ip mem src off left k e

theorem Stops.next (stops : Stops fs₁ ip₁ mem (src + m) (off + m) (left - m) n bn) (inside : m ≤ left)
    (piece : m = left ∨ (off + m) % bsize = 0) (whole : readable mem src m = m)
    (kept : ∀ b, address fs ip b ≠ 0 → address fs₁ ip₁ b ≠ 0) : Stops fs ip mem src off left (m + n) (m + bn) := by
  have total := readable_add (n := left - m) whole
  rw [Nat.add_sub_cancel' inside] at total
  cases stops with
  | all last same fine => exact .all (by omega) (by omega) (by omega)
  | full less same absent early =>
    have aligned : (off + m) % bsize = 0 := piece.resolve_left (by omega)
    refine .full (by omega) (by omega) (Classical.byContradiction fun there => kept _ there ?_) ?_
    · rw [← Nat.add_assoc]
      exact absent
    · rw [total, ← Nat.add_assoc]
      unfold bsize at *
      omega
  | torn count less start =>
    have aligned : (off + m) % bsize = 0 := piece.resolve_left (by omega)
    refine .torn (by omega) (by omega) ?_
    rw [← Nat.add_assoc]
    unfold bsize at *
    omega

/-- The places that `n` bytes at `off` are in, the indirect block with those that it points to. -/
def wanted (off n : Nat) : Finset (Option Nat) :=
  (Finset.range n).biUnion fun j => if (off + j) / bsize < ndirect then {some ((off + j) / bsize)} else {some ((off + j) / bsize), none}

theorem mem_wanted {j : Nat} (less : j < n) : some ((off + j) / bsize) ∈ wanted off n ∧ (ndirect ≤ (off + j) / bsize → none ∈ wanted off n) := by
  simp only [wanted, Finset.mem_biUnion, Finset.mem_range]
  refine ⟨⟨j, less, ?_⟩, fun high => ⟨j, less, ?_⟩⟩
  · split <;> simp
  · simp [Nat.not_lt.mpr high]

def Enough (fs : Fs) (ip : Inode) (W : Finset (Option Nat)) : Prop := need fs ip W ≤ fs.free.card

theorem wanted_next {p : Option Nat} (inside : m ≤ n) (member : p ∈ wanted (off + m) (n - m)) : p ∈ wanted off n := by
  simp only [wanted, Finset.mem_biUnion, Finset.mem_range] at member ⊢
  obtain ⟨j, less, here⟩ := member
  rw [Nat.add_assoc] at here
  exact ⟨m + j, by omega, here⟩

theorem Stores.enough {data : Area} {W : Finset (Option Nat)} (stores : Stores fs ip b) (enough : Enough fs ip W) :
    Enough ((fs.put b data).logWrite b) ip W := by
  have same : FileSystem.need (fs.put b data) ip W ≤ (fs.put b data).free.card := by
    rw [stores.need, stores.free]
    exact enough
  exact same

theorem Good.logWrite (good : Good fs ip) (b : Nat) : Good (fs.logWrite b) ip :=
  ⟨⟨good.layout.inodes, good.layout.room, good.layout.size_lt, good.layout.reserved⟩, good.inum, good.data, good.distinct⟩

theorem Wrote.logWrite (wrote : Wrote fs ip fs' ip' g src off e) : Wrote fs ip (fs'.logWrite b) ip' g src off e :=
  ⟨wrote.good.logWrite b, wrote.sb, wrote.size, wrote.inum, wrote.place, wrote.backed, wrote.inside, wrote.outside⟩

theorem writeLoop_wrote (good : Good fs ip) (room : off + left ≤ maxfile * bsize) (reaches : mem.Reaches src left) :
    ∃ k e fs' ip', writeLoop fs ip mem src off left tot = .ok (tot + k, off + k, fs', ip') ∧
      Wrote fs ip fs' ip' (source mem) src off e ∧ Stops fs ip mem src off left k e ∧
      ∀ W, wanted off left ⊆ W → Enough fs ip W → readable mem src left = left → k = left ∧ Enough fs' ip' W := by
  induction left using Nat.strong_induction_on generalizing fs ip src off tot with
  | _ left ih =>
    rw [writeLoop]
    by_cases empty : left = 0
    · rw [dif_pos empty]
      exact ⟨0, 0, fs, ip, rfl, (Grown.refl good).wrote _ _ _, .all empty.symm rfl (by have := @readable_le mem src left; omega),
        fun _ _ enough _ => ⟨empty.symm, enough⟩⟩
    have below : off / bsize < maxfile := by
      rw [Nat.div_lt_iff_lt_mul (by decide)]
      omega
    obtain ⟨fs₁, ip₁, found, grown, filled⟩ := bmap_grown good below
    have first := @mem_wanted off left 0 (Nat.pos_of_ne_zero empty)
    rw [Nat.add_zero] at first
    rw [dif_neg empty, found]
    dsimp only
    split
    · rename_i absent
      have absent' : address fs ip (off / bsize) = 0 := Classical.byContradiction fun there =>
        there ((grown.place (some _) there).symm.trans absent)
      exact ⟨0, 0, fs₁, ip₁, rfl, grown.wrote _ _ _, .full (Nat.pos_of_ne_zero empty) rfl absent' (Nat.zero_le _), fun W within enough _ =>
        absurd absent (filled W (within first.1) (fun high => within (first.2 high)) enough).1⟩
    rename_i there
    have piece := @piece_pos left off empty
    generalize size : min left (bsize - off % bsize) = m at piece ⊢
    have inside : m ≤ left := size ▸ Nat.min_le_left _ _
    have short : off % bsize + m ≤ bsize := by
      unfold bsize at *
      omega
    have count : readable mem src m ≤ m := readable_le
    have wrote : ∀ e, e ≤ m → Wrote fs ip _ ip₁ (source mem) src off e := fun e less =>
      grown.wrote_then (@Good.wrotePiece _ _ src off _ e grown.good there (Nat.le_trans (Nat.add_le_add_left less _) short))
    rw [eitherCopyin_eq]
    dsimp only
    by_cases whole : readable mem src m = m
    · have wraps := next_src reaches piece inside whole
      rw [if_pos whole, if_neg (by decide), whole, wraps]
      have stored := (wrote m (Nat.le_refl m)).logWrite (b := address fs₁ ip₁ (off / bsize))
      obtain ⟨k, e, fs', ip', run, later, stops, all⟩ :=
        @ih (left - m) (by omega) _ _ _ _ (tot + m) stored.good (by rw [Nat.add_assoc, Nat.add_sub_cancel' inside]; exact room) (reaches.after inside)
      have next : m = left ∨ (off + m) % bsize = 0 := by
        unfold bsize at *
        omega
      refine ⟨m + k, m + e, fs', ip', ?_, stored.trans later, stops.next inside next whole fun b mapped => ?_, fun W within enough fine => ?_⟩
      · rw [run, Nat.add_assoc, Nat.add_assoc]
      · exact stored.mapped mapped ▸ mapped
      · have total := readable_add (n := left - m) whole
        rw [Nat.add_sub_cancel' inside] at total
        have room' := (filled W (within first.1) (fun high => within (first.2 high)) enough).2
        obtain ⟨last, rest⟩ := all W (fun p member => within (wanted_next inside member))
          ((grown.good.storesData there).enough room') (by omega)
        exact ⟨by omega, rest⟩
    · rw [if_neg whole, if_pos rfl]
      have stop := readable_stop (n := left - m) (Nat.lt_of_le_of_ne count whole)
      rw [Nat.add_sub_cancel' inside] at stop
      refine ⟨0, readable mem src m, _, ip₁, rfl, wrote _ count, .torn stop.symm (by omega) ?_, fun W _ _ fine => absurd fine (by omega)⟩
      unfold bsize at *
      omega

end Loop

section Writei

variable {g : Nat → Byte} {k e : Nat}

theorem Good.resize (good : Good fs ip) (size : Nat) : Good fs { ip with size := size } := ⟨good.layout, good.inum, good.data, good.distinct⟩

/-- `writei` has stored `e` bytes of `g`, and the file holds the first `k` of them. -/
structure Written (fs : Fs) (ip : Inode) (fs' : Fs) (ip' : Inode) (g : Nat → Byte) (src off k e : Nat) : Prop where
  good : Good fs' ip'
  backed : Backed fs' ip'
  size : ip'.size = max ip.size (off + k)
  inside : ∀ j, j < e → byte fs' ip' (off + j) = g (src + j)
  outside : ∀ x, x < ip.size → x < off ∨ off + e ≤ x → byte fs' ip' x = byte fs ip x

theorem Written.trans (first : Written fs ip fs₁ ip₁ g src off m m) (second : Written fs₁ ip₁ fs' ip' g (src + m) (off + m) k e) :
    Written fs ip fs' ip' g src off (m + k) (m + e) where
  good := second.good
  backed := second.backed
  size := by
    rw [second.size, first.size]
    omega
  inside j less := by
    by_cases early : j < m
    · rw [second.outside (off + j) (by rw [first.size]; omega) (by omega)]
      exact first.inside j early
    · have there := second.inside (j - m) (by omega)
      rw [Nat.add_assoc, Nat.add_assoc, Nat.add_sub_cancel' (by omega)] at there
      exact there
  outside x below out := by
    rw [second.outside x (by rw [first.size]; omega) (by omega)]
    exact first.outside x below (by omega)

theorem Good.iupdate_address (good : Good fs ip) (bn : Nat) : address (iupdate fs ip) ip bn = address fs ip bn :=
  place_put (some bn) good.storesInode.pointer

theorem Good.iupdate_byte (good : Good fs ip) {x : Nat} (there : address fs ip (x / bsize) ≠ 0) : byte (iupdate fs ip) ip x = byte fs ip x := by
  have other : address fs ip (x / bsize) ≠ fs.iblock ip.inum := by
    have before := good.layout.iblock_lt good.inum
    have data : fs.datastart ≤ address fs ip (x / bsize) := (good.data (some _) there).1
    have start : fs.sb.bmapstart < fs.datastart := Nat.lt_succ_of_le (Nat.le_add_right _ _)
    omega
  rw [byte, good.iupdate_address, byte]
  exact congrFun (put_other other) _

theorem Wrote.written (wrote : Wrote fs ip fs' ip' g src off e) (backed : Backed fs ip) (less : k ≤ e) (within : off ≤ ip.size) :
    Written fs ip (iupdate fs' { ip' with size := max ip.size (off + k) }) { ip' with size := max ip.size (off + k) } g src off k e := by
  have good := wrote.good.resize (max ip.size (off + k))
  refine ⟨(good.storesInode.good good).logWrite _, fun bn below => ?_, rfl, fun j less => ?_, fun x below out => ?_⟩
  · rw [good.iupdate_address]
    change address fs' ip' bn ≠ 0
    by_cases old : bn * bsize < ip.size
    · exact wrote.mapped (backed bn old) ▸ backed bn old
    · have below' : bn * bsize < max ip.size (off + k) := below
      have new := wrote.backed (bn * bsize - off) (by omega)
      rw [Nat.add_sub_cancel' (by omega), Nat.mul_div_cancel _ (by decide)] at new
      exact new
  · exact (good.iupdate_byte (wrote.backed j less)).trans (wrote.inside j less)
  · have there := backed.address below
    exact (good.iupdate_byte (wrote.mapped there ▸ there)).trans (wrote.outside x there out)

theorem Stops.le (stops : Stops fs ip mem src off n k e) : k ≤ e ∧ e ≤ n := by
  cases stops <;> omega

theorem writei_written (good : Good fs ip) (backed : Backed fs ip) (within : off ≤ ip.size) (room : off + n ≤ maxfile * bsize)
    (reaches : mem.Reaches src n) :
    ∃ k e : Nat, ∃ fs' ip', writei fs ip mem src off n = .ok (((k : Nat) : Int), fs', ip') ∧ Written fs ip fs' ip' (source mem) src off k e ∧
      Stops fs ip mem src off n k e ∧
      ∀ W, wanted off n ⊆ W → Enough fs ip W → readable mem src n = n → k = n ∧ Enough fs' ip' W := by
  have longest : maxfile * bsize = 274432 := by decide
  obtain ⟨k, e, fs', ip', run, wrote, stops, all⟩ := @writeLoop_wrote fs ip mem src off n 0 good room reaches
  have size : (if ip'.size < off + k then { ip' with size := off + k } else ip') = { ip' with size := max ip.size (off + k) } := by
    rw [wrote.size]
    split
    · rw [Nat.max_eq_right (Nat.le_of_lt ‹_›)]
    · rw [Nat.max_eq_left (Nat.not_lt.mp ‹_›), ← wrote.size]
  have written := wrote.written backed stops.le.1 within
  refine ⟨k, e, _, _, ?_, written, stops, fun W wants enough fine => ?_⟩
  · rw [writei, Nat.mod_eq_of_lt (by omega), if_neg (by omega), if_neg (by omega), run]
    simp only [Nat.zero_add, size]
  · obtain ⟨last, rest⟩ := all W wants enough fine
    exact ⟨last, (wrote.good.resize _).storesInode.enough rest⟩

theorem writei_refused (small : ip.size ≤ maxfile * bsize) (short : n < 2 ^ 32) (out : ip.size < off ∨ maxfile * bsize < off + n) :
    writei fs ip mem src off n = .ok (-1, fs, ip) := by
  have longest : maxfile * bsize = 274432 := by decide
  rw [writei]
  split
  · rfl
  · rw [if_pos (by omega)]

end Writei

section Exact

def Contents (fs : Fs) (ip : Inode) (g : Nat → Byte) : Prop :=
  ∀ buffer dst off n, off ≤ ip.size → off + n < 2 ^ 32 → dst + n < 2 ^ 64 → readi fs ip (.kernel buffer) dst off n =
    .ok (((min n (ip.size - off) : Nat) : Int), fs, ip, .kernel (paste buffer dst (segment g off (min n (ip.size - off)))))

theorem contents_iff (backed : Backed fs ip) {g : Nat → Byte} : Contents fs ip g ↔ ∀ x, x < ip.size → byte fs ip x = g x := by
  have longest : maxfile * bsize = 274432 := by decide
  have small := backed.size_le
  constructor
  · intro contents x below
    have read := (contents (fun _ => 0) 0 x 1 (by omega) (by omega) (by omega)).symm.trans
      (@readi_eq fs ip (.kernel fun _ => 0) 0 x 1 backed (by omega) (by omega) (show 0 + 1 < 2 ^ 64 by decide))
    have one : min 1 (ip.size - x) = 1 := by omega
    simp only [one, eitherCopyout, Except.ok.injEq, Prod.mk.injEq, Memory.kernel.injEq] at read
    have first : ∀ f : Nat → Byte, paste (fun _ => 0) 0 (segment f x 1) 0 = f x := fun f =>
      (paste_inside (i := 0) (by simp)).trans (segment_getElem (by simp))
    rw [← first g, ← first (byte fs ip), read.2.2.2]
  · intro same buffer dst off n within fits reaches
    rw [@readi_eq fs ip (.kernel buffer) dst off n backed within fits reaches, segment_congr fun j less => same (off + j) (by omega)]
    rfl

def crowded : Fs where
  sb := ⟨fsmagic, 2000, 1954, 200, 30, 2, 32, 45⟩
  blocks _ _ := 255
  logged := []

theorem crowded_good : Good crowded twoBytes := by
  have used : ∀ b, crowded.used b = true := by
    intro b
    have bits : ∀ i, i < 8 → (255#8).getLsbD i = true := by decide
    exact bits (b % bpb % 8) (Nat.mod_lt _ (by decide))
  have only : ∀ p, place crowded twoBytes p ≠ 0 → p = some 0 := by
    rintro (_ | bn) there
    · exact absurd rfl there
    · by_cases first : bn = 0
      · rw [first]
      · simp [place, address, twoBytes, first, ndirect] at there
  refine ⟨⟨by decide, by decide, by decide, fun b _ => used b⟩, by decide, fun p there => ?_, fun p q there same => ?_⟩
  · rw [only p there]
    exact ⟨by decide, by decide, used _⟩
  · rw [only p there, only q (same ▸ there)]

end Exact

end OShard.FileSystem
