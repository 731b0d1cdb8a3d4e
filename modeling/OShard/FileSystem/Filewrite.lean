import OShard.Base.Transition
import OShard.FileSystem.Write

/-! Calls of `filewrite` on one `struct file`. A transaction holds the lock of the inode from before it reads `f->off` until it has
moved it, so calls of several processes interleave between transactions only. -/

namespace OShard.FileSystem

open Bytes Overlay Mkfs Fs Space

variable {fs fs' fs₁ fs₂ : Fs} {ip ip' ip₁ ip₂ : Inode} {f : File} {u : UserMemory Byte} {addr i left n : Nat}

/-- A call of `filewrite` that has written `i` bytes and has `left` more to write. -/
structure Call where
  u : UserMemory Byte
  addr : Nat
  i : Nat
  left : Nat

/-- What one transaction has written, and where. -/
structure Chunk where
  start : Nat
  bytes : List Byte

def written (chunks : List Chunk) : List Byte := chunks.flatMap Chunk.bytes

/-- Processes that write to one file, and what their transactions have written, in this order. -/
structure Writers (P : Type*) where
  f : File
  fs : Fs
  ip : Inode
  calls : P → Option Call
  chunks : List Chunk

section Transaction

structure Moved (f : File) (fs : Fs) (ip : Inode) (u : UserMemory Byte) (a : Nat) (r : Int) (f' : File) (fs' : Fs) (ip' : Inode) : Prop where
  good : Good fs' ip'
  backed : Backed fs' ip'
  off : f'.off = f.off + r.toNat
  within : f'.off ≤ ip'.size
  inside : ∀ j, j < r.toNat → byte fs' ip' (f.off + j) = u.byte (a + j)
  before : ∀ x, x < f.off → byte fs' ip' x = byte fs ip x

theorem transaction_eq {mem : Memory} {a k : Nat} (run : writei fs ip mem a f.off n = .ok ((k : Int), fs', ip')) (small : f.off + k < 2 ^ 32) :
    transaction f fs ip mem a n = .ok ((k : Int), { f with off := f.off + k }, fs', ip') := by
  have wraps : ((f.off + (k : Int)) % 2 ^ 32).toNat = f.off + k := by omega
  rw [transaction, run]
  by_cases none : k = 0
  · simp [none]
  · simp only [wraps, Int.natCast_pos, Nat.pos_of_ne_zero none, if_true]

theorem transaction_moved (good : Good fs ip) (backed : Backed fs ip) (within : f.off ≤ ip.size) (short : n < 2 ^ 32) (a : Nat) :
    ∃ r f' fs' ip', transaction f fs ip (.user u) a n = .ok (r, f', fs', ip') ∧ Moved f fs ip u a r f' fs' ip' := by
  have longest : maxfile * bsize = 274432 := by decide
  by_cases room : f.off + n ≤ maxfile * bsize
  · obtain ⟨k, e, fs', ip', run, done, stops, -⟩ :=
      writei_written good backed within room (show (Memory.user u).Reaches a n from trivial)
    have bound := stops.le
    have size := done.size
    refine ⟨k, { f with off := f.off + k }, fs', ip', transaction_eq run (by omega), done.good, done.backed, rfl, ?_, fun j less => ?_,
      fun x below => done.outside x (by omega) (Or.inl below)⟩
    · change f.off + k ≤ ip'.size
      omega
    · exact done.inside j (by rw [Int.toNat_natCast] at less; omega)
  · have refused := @writei_refused fs ip (.user u) a _ _ backed.size_le short (Or.inr (Nat.not_le.mp room))
    exact ⟨-1, f, fs, ip, by rw [transaction, refused]; rfl, good, backed, rfl, within, nofun, fun _ _ => rfl⟩

end Transaction

section Run

variable {P : Type*}

/-- A process calls `filewrite`, one of its transactions runs, or the call returns. -/
inductive Writers.Step [DecidableEq P] : Writers P → Writers P → Prop where
  | call {w p} (u : UserMemory Byte) (addr : Nat) (n : Int) : w.calls p = none → w.f.writable = true →
      Step w { w with calls := Function.update w.calls p (some ⟨u, addr, 0, n.toNat⟩) }
  | chunk {w p c r f fs ip} : w.calls p = some c → c.left ≠ 0 →
      transaction w.f w.fs w.ip (.user c.u) ((c.addr + c.i) % 2 ^ 64) (min c.left maxWrite) = .ok (r, f, fs, ip) →
      Step w ⟨f, fs, ip, Function.update w.calls p (if r ≠ (min c.left maxWrite : Nat) then none else
        some { c with i := c.i + min c.left maxWrite, left := c.left - min c.left maxWrite }),
        w.chunks ++ [⟨w.f.off, segment c.u.byte ((c.addr + c.i) % 2 ^ 64) r.toNat⟩]⟩
  | done {w p c} : w.calls p = some c → c.left = 0 → Step w { w with calls := Function.update w.calls p none }

/-- The chunks lie one after the other from `start` on, up to the offset of the file, and the file holds them; and no transaction
    panics. -/
structure Laid (start : Nat) (w : Writers P) : Prop where
  consecutive : ∀ first c rest, w.chunks = first ++ c :: rest → c.start = start + (written first).length
  off : w.f.off = start + (written w.chunks).length
  within : w.f.off ≤ w.ip.size
  contents : ∃ g, Contents w.fs w.ip g ∧ segment g start (written w.chunks).length = written w.chunks
  runs : ∀ c : Call, ∃ r f fs ip, transaction w.f w.fs w.ip (.user c.u) ((c.addr + c.i) % 2 ^ 64) (min c.left maxWrite) = .ok (r, f, fs, ip)

structure Lay (start : Nat) (w : Writers P) : Prop where
  good : Good w.fs w.ip
  backed : Backed w.fs w.ip
  within : w.f.off ≤ w.ip.size
  off : w.f.off = start + (written w.chunks).length
  consecutive : ∀ first c rest, w.chunks = first ++ c :: rest → c.start = start + (written first).length
  bytes : segment (byte w.fs w.ip) start (written w.chunks).length = written w.chunks

variable {start : Nat} {w w' : Writers P}

theorem chunk_lt (c : Call) : min c.left maxWrite < 2 ^ 32 := by
  have most : maxWrite = 3072 := by decide
  omega

theorem Lay.laid (lay : Lay start w) : Laid start w where
  consecutive := lay.consecutive
  off := lay.off
  within := lay.within
  contents := ⟨_, (contents_iff lay.backed).mpr fun _ _ => rfl, lay.bytes⟩
  runs c := by
    obtain ⟨r, f, fs, ip, run, -⟩ := transaction_moved lay.good lay.backed lay.within (chunk_lt c) ((c.addr + c.i) % 2 ^ 64) (u := c.u)
    exact ⟨r, f, fs, ip, run⟩

variable [DecidableEq P]

theorem Lay.step (lay : Lay start w) (step : Writers.Step w w') : Lay start w' := by
  cases step with
  | call u addr n idle can => exact ⟨lay.good, lay.backed, lay.within, lay.off, lay.consecutive, lay.bytes⟩
  | done here none => exact ⟨lay.good, lay.backed, lay.within, lay.off, lay.consecutive, lay.bytes⟩
  | @chunk p c r f fs ip here some run =>
    obtain ⟨r', f', fs', ip', run', moved⟩ :=
      transaction_moved lay.good lay.backed lay.within (chunk_lt c) ((c.addr + c.i) % 2 ^ 64) (u := c.u)
    cases run.symm.trans run'
    have total : ∀ chunk, written (w.chunks ++ [chunk]) = written w.chunks ++ chunk.bytes := by
      intro chunk
      simp [written]
    refine ⟨moved.good, moved.backed, moved.within, ?_, fun first c' rest split => ?_, ?_⟩
    · rw [total, List.length_append, moved.off, lay.off, segment_length, Nat.add_assoc]
    · rcases List.append_eq_append_iff.mp split with ⟨between, rfl, last⟩ | ⟨between, chunks, last⟩
      · cases between with
        | nil =>
          cases last
          rw [List.append_nil]
          exact lay.off
        | cons head tail => simp at last
      · cases between with
        | nil =>
          cases last
          rw [← (by simpa using chunks : w.chunks = first)]
          exact lay.off
        | cons head tail =>
          cases last
          exact lay.consecutive first _ tail chunks
    · rw [total, List.length_append, segment_length, segment_add, ← lay.off]
      congr 1
      · refine Eq.trans (segment_congr fun j less => moved.before _ ?_) lay.bytes
        rw [lay.off]
        omega
      · exact segment_congr moved.inside

theorem laid_of_reach {w₀ : Writers P} (none : w₀.chunks = []) (good : Good w₀.fs w₀.ip) (backed : Backed w₀.fs w₀.ip)
    (within : w₀.f.off ≤ w₀.ip.size) (reach : Transition.Reachable (· = w₀) Writers.Step w) : Laid w₀.f.off w := by
  have lay : Lay w₀.f.off w := by
    refine reach.invariant ?_ fun _ _ lay step => lay.step step
    rintro w rfl
    exact ⟨good, backed, within, by simp [none, written], by simp [none], by simp [none, written]⟩
  exact lay.laid

end Run

section Alone

theorem wanted_start {p : Option Nat} {off m : Nat} (inside : m ≤ n) (member : p ∈ wanted off m) : p ∈ wanted off n := by
  simp only [wanted, Finset.mem_biUnion, Finset.mem_range] at member ⊢
  obtain ⟨j, less, here⟩ := member
  exact ⟨j, by omega, here⟩

theorem filewriteLoop_written (good : Good fs ip) (backed : Backed fs ip) (within : f.off ≤ ip.size) (room : f.off + left ≤ maxfile * bsize)
    (fine : readable (.user u) (addr + i) left = left) {W : Finset (Option Nat)} (wants : wanted f.off left ⊆ W) (enough : Enough fs ip W) :
    ∃ f' fs' ip', filewriteLoop f fs ip (.user u) addr i left = .ok (i + left, f', fs', ip') ∧ f'.off = f.off + left ∧
      Written fs ip fs' ip' u.byte (addr + i) f.off left left := by
  induction left using Nat.strong_induction_on generalizing f fs ip i with
  | _ left ih =>
    rw [filewriteLoop]
    by_cases empty : left = 0
    · subst empty
      exact ⟨f, fs, ip, rfl, rfl, good, backed, (Nat.max_eq_left within).symm, nofun, fun _ _ _ => rfl⟩
    have most : maxWrite = 3072 := by decide
    have longest : maxfile * bsize = 274432 := by decide
    generalize size : min left maxWrite = m
    have inside : m ≤ left := size ▸ Nat.min_le_left _ _
    have some : 0 < m := by omega
    have whole : readable (.user u) (addr + i) m = m :=
      span_eq_iff.mpr fun j less => span_eq_iff.mp fine j (by omega)
    have wraps : (addr + i) % 2 ^ 64 = addr + i := by
      have last := u.readable_lt _ (span_eq_iff.mp fine 0 (by omega))
      unfold maxVa pgSize at last
      exact Nat.mod_eq_of_lt (by omega)
    obtain ⟨k, e, fs₁, ip₁, run, done, stops, all⟩ :=
      writei_written good backed within (by omega) (show (Memory.user u).Reaches (addr + i) m from trivial)
    obtain ⟨rfl, enough₁⟩ := all W (fun p member => wants (wanted_start inside member)) enough whole
    obtain rfl : e = k := Nat.le_antisymm stops.le.2 stops.le.1
    have next := transaction_eq run (by omega)
    obtain ⟨f', fs', ip', rest, off, later⟩ := ih (left - e) (by omega) (f := { f with off := f.off + e }) (i := i + e) done.good
      done.backed (by rw [done.size]; exact Nat.le_max_right _ _) (by dsimp only; omega)
      (span_eq_iff.mpr fun j less => by rw [← Nat.add_assoc addr, Nat.add_assoc]; exact span_eq_iff.mp fine (e + j) (by omega))
      (fun p member => wants (wanted_next inside member)) enough₁
    refine ⟨f', fs', ip', ?_, ?_, ?_⟩
    · rw [dif_neg empty]
      dsimp only
      rw [wraps, next]
      dsimp only
      rw [if_neg (by simp), rest, Nat.add_assoc, Nat.add_sub_cancel' inside]
    · rw [off, Nat.add_assoc, Nat.add_sub_cancel' inside]
    · rw [← Nat.add_assoc] at later
      have both := done.trans later
      rw [Nat.add_sub_cancel' inside] at both
      exact both

theorem Written.same_contents {g : Nat → Byte} {src off k : Nat} (first : Written fs ip fs₁ ip₁ g src off k k)
    (second : Written fs ip fs₂ ip₂ g src off k k) (within : off ≤ ip.size) (h : Nat → Byte) : Contents fs₁ ip₁ h ↔ Contents fs₂ ip₂ h := by
  have same : ∀ x, x < max ip.size (off + k) → byte fs₁ ip₁ x = byte fs₂ ip₂ x := by
    intro x below
    by_cases new : off ≤ x ∧ x < off + k
    · obtain ⟨j, rfl⟩ := Nat.exists_eq_add_of_le new.1
      rw [first.inside j (by omega), second.inside j (by omega)]
    · rw [first.outside x (by omega) (by omega), second.outside x (by omega) (by omega)]
  rw [contents_iff first.backed, contents_iff second.backed, first.size, second.size]
  exact forall₂_congr fun x below => by rw [same x below]

theorem filewrite_alone (good : Good fs ip) (backed : Backed fs ip) (can : f.writable = true) (within : f.off ≤ ip.size)
    (room : f.off + n ≤ maxfile * bsize) (fine : readable (.user u) addr n = n) (enough : Enough fs ip (wanted f.off n)) :
    ∃ f' fs₁ ip₁ fs₂ ip₂, filewrite f fs ip (.user u) addr n = .ok ((n : Int), f', fs₁, ip₁) ∧
      writei fs ip (.user u) addr f.off n = .ok ((n : Int), fs₂, ip₂) ∧ f'.off = f.off + n ∧ ip₁.size = ip₂.size ∧
      ∀ g, Contents fs₁ ip₁ g ↔ Contents fs₂ ip₂ g := by
  obtain ⟨f', fs₁, ip₁, loop, off, first⟩ := filewriteLoop_written (i := 0) good backed within room fine (Finset.Subset.refl _) enough
  obtain ⟨k, e, fs₂, ip₂, run, second, stops, all⟩ :=
    writei_written good backed within room (show (Memory.user u).Reaches addr n from trivial)
  obtain ⟨rfl, -⟩ := all _ (Finset.Subset.refl _) enough fine
  obtain rfl : e = k := Nat.le_antisymm stops.le.2 stops.le.1
  refine ⟨f', fs₁, ip₁, fs₂, ip₂, ?_, run, off, first.size.trans second.size.symm, first.same_contents second within⟩
  rw [filewrite, if_neg (by simp [can]), Int.toNat_natCast, loop]
  simp

end Alone

/-- Chunks of any number of calls of `filewrite` lose nothing, and a call alone is one write. -/
theorem shared_writes_lose_nothing {P : Type*} [DecidableEq P] :
    (∀ w₀ w : Writers P, w₀.chunks = [] → Good w₀.fs w₀.ip → Backed w₀.fs w₀.ip → w₀.f.off ≤ w₀.ip.size →
      Transition.Reachable (· = w₀) Writers.Step w → Laid w₀.f.off w) ∧
    ∀ (f : File) (fs : Fs) (ip : Inode) (u : UserMemory Byte) (addr n : Nat), Good fs ip → Backed fs ip → f.writable = true →
      f.off ≤ ip.size → f.off + n ≤ maxfile * bsize → readable (.user u) addr n = n → Enough fs ip (wanted f.off n) →
      ∃ f' fs₁ ip₁ fs₂ ip₂, filewrite f fs ip (.user u) addr n = .ok ((n : Int), f', fs₁, ip₁) ∧
        writei fs ip (.user u) addr f.off n = .ok ((n : Int), fs₂, ip₂) ∧ f'.off = f.off + n ∧ ip₁.size = ip₂.size ∧
        ∀ g, Contents fs₁ ip₁ g ↔ Contents fs₂ ip₂ g :=
  ⟨fun _ _ none good backed within reach => laid_of_reach none good backed within reach,
    fun _ _ _ _ _ _ good backed can within room fine enough => filewrite_alone good backed can within room fine enough⟩

theorem shared_writes_lose_nothing_two : (∃ w : Writers Bool, w.calls true ≠ none ∧ Laid 2 w) ∧
    ∃ f' fs₁ ip₁, filewrite ⟨true, true, 0⟩ crowded twoBytes (.user onePage) 0 2 = .ok (2, f', fs₁, ip₁) ∧ f'.off = 2 := by
  constructor
  · let w₀ : Writers Bool := ⟨⟨true, true, 2⟩, crowded, twoBytes, fun _ => none, []⟩
    refine ⟨_, ?_, shared_writes_lose_nothing.1 w₀ _ rfl crowded_good (twoBytes_backed _) (by decide)
      (.next (.start rfl) (.call (p := true) onePage 0 5 rfl rfl))⟩
    simp
  · have fine : readable (.user onePage) 0 2 = 2 := by
      refine span_eq_iff.mpr fun i less => ?_
      have page : (0 + i) / pgSize = 0 := Nat.div_eq_of_lt (by unfold pgSize; omega)
      rw [page]
      rfl
    have none : need crowded twoBytes (wanted 0 2) = 0 := by decide
    obtain ⟨f', fs₁, ip₁, fs₂, ip₂, run, -, off, -⟩ := (shared_writes_lose_nothing (P := Bool)).2 ⟨true, true, 0⟩ crowded twoBytes onePage 0 2
      crowded_good (twoBytes_backed _) rfl (by decide) (by decide) fine (by rw [Enough, none]; exact Nat.zero_le _)
    exact ⟨f', fs₁, ip₁, run, off⟩

end OShard.FileSystem
