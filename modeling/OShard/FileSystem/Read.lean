import OShard.FileSystem.Blocks

namespace OShard.FileSystem

open Bytes Overlay Mkfs Fs Space

variable {fs fs' : Fs} {ip ip' : Inode} {mem : Memory} {dst off left tot n : Nat} {xs ys : List Byte}

def byte (fs : Fs) (ip : Inode) (x : Nat) : Byte := fs.blocks (address fs ip (x / bsize)) (x % bsize)

section Copyout

def writable : Memory → Nat → Nat → Nat
  | .user u, dst, len => span u.writable dst len
  | .kernel _, _, len => len

def Memory.write : Memory → Nat → List Byte → Memory
  | .user u, dst, src => .user (u.write dst src)
  | .kernel byte, dst, src => .kernel (paste byte dst src)

/-- Addresses of the kernel do not wrap around; those of users end below `MAXVA`. -/
def Memory.Reaches (a n : Nat) : Memory → Prop
  | .user _ => True
  | .kernel _ => a + n < 2 ^ 64

theorem eitherCopyout_eq (mem : Memory) (dst : Nat) (xs : List Byte) :
    eitherCopyout mem dst xs = (if writable mem dst xs.length = xs.length then 0 else -1, mem.write dst (xs.take (writable mem dst xs.length))) := by
  cases mem with
  | user u =>
    rw [eitherCopyout, UserMemory.copyout_eq]
    rfl
  | kernel byte => simp [eitherCopyout, writable, Memory.write]

theorem eitherCopyout_append (fine : (eitherCopyout mem dst xs).1 ≠ -1) :
    eitherCopyout mem dst (xs ++ ys) = eitherCopyout (eitherCopyout mem dst xs).2 (dst + xs.length) ys := by
  cases mem with
  | user u =>
    have all : span u.writable dst xs.length = xs.length := by
      by_contra short
      simp [eitherCopyout_eq, writable, short] at fine
    have within : span u.writable (dst + xs.length) ys.length ≤ ys.length := span_le
    have same : (u.write dst xs).writable = u.writable := rfl
    simp only [eitherCopyout, UserMemory.copyout_eq, List.length_append, span_add all, all, List.take_length, same]
    congr 1
    · apply if_congr _ rfl rfl
      omega
    · rw [List.take_length_add_append, UserMemory.write_append]
  | kernel byte => simp [eitherCopyout, paste_append]

theorem eitherCopyout_stop (failed : (eitherCopyout mem dst xs).1 = -1) :
    eitherCopyout mem dst (xs ++ ys) = eitherCopyout mem dst xs := by
  cases mem with
  | user u =>
    have short : span u.writable dst xs.length < xs.length := by
      refine Nat.lt_of_le_of_ne span_le fun all => ?_
      simp [eitherCopyout_eq, writable, all] at failed
    have short' : span u.writable dst xs.length < xs.length + ys.length := by omega
    simp only [eitherCopyout, UserMemory.copyout_eq, List.length_append, span_add_stop short, Nat.ne_of_lt short, Nat.ne_of_lt short',
      if_false, List.take_append_of_le_length (Nat.le_of_lt short)]
  | kernel byte => simp [eitherCopyout] at failed

theorem next_dst (reaches : mem.Reaches dst (xs.length + n)) (some : xs ≠ []) (fine : (eitherCopyout mem dst xs).1 ≠ -1) :
    (dst + xs.length) % 2 ^ 64 = dst + xs.length := by
  apply Nat.mod_eq_of_lt
  cases mem with
  | user u =>
    have all : span u.writable dst xs.length = xs.length := by
      by_contra short
      simp [eitherCopyout_eq, writable, short] at fine
    have positive := List.length_pos_iff.mpr some
    have last := u.writable_lt _ (span_eq_iff.mp all (xs.length - 1) (by omega))
    unfold maxVa pgSize at last
    omega
  | kernel byte =>
    unfold Memory.Reaches at reaches
    omega

theorem Memory.Reaches.next (reaches : mem.Reaches dst (xs.length + n)) : (eitherCopyout mem dst xs).2.Reaches (dst + xs.length) n := by
  cases mem with
  | user u => trivial
  | kernel byte =>
    change dst + xs.length + n < 2 ^ 64
    rw [Nat.add_assoc]
    exact reaches

end Copyout

section Loop

theorem segment_block {m : Nat} (short : m ≤ bsize - off % bsize) :
    segment (fs.blocks (address fs ip (off / bsize))) (off % bsize) m = segment (byte fs ip) off m := by
  apply segment_congr
  intro k less
  have block : (off + k) / bsize = off / bsize := by
    unfold bsize at *
    omega
  have place : (off + k) % bsize = off % bsize + k := by
    unfold bsize at *
    omega
  rw [byte, block, place]

theorem readLoop_eq (backed : ∀ j, j < left → address fs ip ((off + j) / bsize) ≠ 0) (reaches : mem.Reaches dst left) :
    readLoop fs ip mem dst off left tot =
      .ok (if (eitherCopyout mem dst (segment (byte fs ip) off left)).1 = -1 then -1 else ((tot + left : Nat) : Int), fs, ip,
        (eitherCopyout mem dst (segment (byte fs ip) off left)).2) := by
  induction left using Nat.strong_induction_on generalizing mem dst off tot with
  | _ left ih =>
    rw [readLoop]
    by_cases empty : left = 0
    · subst empty
      cases mem with
      | user u => simp [eitherCopyout_eq, writable, span_zero, Memory.write, UserMemory.write_nil]
      | kernel byte => simp [eitherCopyout]
    have here : address fs ip (off / bsize) ≠ 0 := backed 0 (Nat.pos_of_ne_zero empty)
    have piece := @piece_pos left off empty
    rw [dif_neg empty, bmap_present here]
    dsimp only
    rw [if_neg here, segment_block (Nat.min_le_right _ _)]
    generalize size : min left (bsize - off % bsize) = m at piece ⊢
    have inside : m ≤ left := size ▸ Nat.min_le_left _ _
    have length : (segment (byte fs ip) off m).length = m := segment_length
    have split : segment (byte fs ip) off left = segment (byte fs ip) off m ++ segment (byte fs ip) (off + m) (left - m) := by
      rw [← segment_add, Nat.add_sub_cancel' inside]
    have reaches' : mem.Reaches dst ((segment (byte fs ip) off m).length + (left - m)) := by
      rw [length, Nat.add_sub_cancel' inside]
      exact reaches
    by_cases failed : (eitherCopyout mem dst (segment (byte fs ip) off m)).1 = -1
    · rw [if_pos failed, split, eitherCopyout_stop failed, if_pos failed]
    have some : segment (byte fs ip) off m ≠ [] := List.ne_nil_of_length_pos (by omega)
    have wraps := next_dst reaches' some failed
    have later := reaches'.next
    rw [length] at wraps later
    rw [if_neg failed, wraps, split, eitherCopyout_append failed, length]
    rw [ih (left - m) (by omega) (fun j less => ?_) later, Nat.add_assoc tot, Nat.add_sub_cancel' inside]
    rw [Nat.add_assoc]
    exact backed (m + j) (by omega)

variable (backed : Backed fs ip)

include backed

theorem Backed.size_le : ip.size ≤ maxfile * bsize := by
  by_contra long
  refine backed maxfile (Nat.not_le.mp long) ?_
  simp [address, maxfile]

theorem Backed.address {x : Nat} (inside : x < ip.size) : address fs ip (x / bsize) ≠ 0 :=
  backed _ (Nat.lt_of_le_of_lt (Nat.div_mul_le_self x bsize) inside)

theorem readi_eq (within : off ≤ ip.size) (fits : off + n < 2 ^ 32) (reaches : mem.Reaches dst n) :
    readi fs ip mem dst off n =
      .ok (if (eitherCopyout mem dst (segment (byte fs ip) off (min n (ip.size - off)))).1 = -1 then -1 else ((min n (ip.size - off) : Nat) : Int),
        fs, ip, (eitherCopyout mem dst (segment (byte fs ip) off (min n (ip.size - off)))).2) := by
  have clip : (if ip.size < off + n then ip.size - off else n) = min n (ip.size - off) := by
    split
    · omega
    · omega
  rw [readi, Nat.mod_eq_of_lt fits, if_neg (by omega), clip]
  refine (readLoop_eq (fun j less => backed.address (by omega)) ?_).trans (by rw [Nat.zero_add])
  cases mem with
  | user u => trivial
  | kernel byte =>
    unfold Memory.Reaches at *
    omega

end Loop

section Fileread

/-- What a call of `fileread` from a file at `off` says: the bytes at `addr` in the end are those of the file that it counts, and the
    offset moves by as many. -/
structure ReadExactly (fs : Fs) (ip : Inode) (f : File) (u : UserMemory Byte) (addr : Nat) (n r : Int) (f' : File) (u' : UserMemory Byte) : Prop where
  most : ∃ bytes : List Byte, bytes.length ≤ n.toNat ∧ u' = u.write addr bytes
  exact : 0 ≤ r → r = (if ip.size ≤ f.off ∨ n ≤ 0 then 0 else min n (ip.size - f.off)) ∧
    u' = u.write addr (segment (byte fs ip) f.off r.toNat) ∧ f' = { f with off := f.off + r.toNat }
  failed : r < 0 → r = -1 ∧ f' = f

variable {f : File} {u : UserMemory Byte} {addr : Nat} {n : Int}

theorem fileread_nothing (can : f.readable = true) (none : ip.size < f.off ∨ (f.off + (n % 2 ^ 32).toNat) % 2 ^ 32 < f.off) :
    fileread f fs ip (.user u) addr n = .ok (0, f, fs, ip, .user u) := by
  rw [fileread, if_neg (by simp [can]), readi, if_pos none]
  rfl

theorem fileread_eq (backed : Backed fs ip) (can : f.readable = true) (within : f.off ≤ ip.size) (fits : f.off + (n % 2 ^ 32).toNat < 2 ^ 32)
    {len t : Nat} (count : min (n % 2 ^ 32).toNat (ip.size - f.off) = len) (copied : span u.writable addr len = t) :
    fileread f fs ip (.user u) addr n = .ok (if t = len then (len : Int) else -1, if t = len then { f with off := f.off + len } else f, fs, ip,
      .user (u.write addr (segment (byte fs ip) f.off t))) := by
  have short : t ≤ len := copied ▸ span_le
  have read := readi_eq backed within fits (show (Memory.user u).Reaches addr _ from trivial)
  rw [count, eitherCopyout_eq, segment_length, writable, copied, take_segment short] at read
  unfold fileread
  rw [if_neg (by simp [can]), read]
  by_cases all : t = len
  · have small : ((f.off + (len : Int)) % 4294967296).toNat = f.off + len := by omega
    by_cases empty : len = 0
    · simp [all, empty, Memory.write]
    · simp [all, Memory.write, Nat.pos_of_ne_zero empty, small]
  · simp [all, Memory.write]

/-- `fileread` does what it says for every length that is not negative; for a negative one it must find nothing to read, or fail
    without a trace. -/
theorem fileread_exact_iff (backed : Backed fs ip) (can : f.readable = true) (off : f.off < 2 ^ 32) (u : UserMemory Byte) (addr : Nat)
    (low : -2 ^ 31 ≤ n) (high : n < 2 ^ 31) :
    (∃ r f' u', fileread f fs ip (.user u) addr n = .ok (r, f', fs, ip, .user u') ∧ ReadExactly fs ip f u addr n r f' u') ↔
      (0 ≤ n ∨ ip.size ≤ f.off ∨ 0 ≤ f.off + n ∨ (span u.writable addr (ip.size - f.off) < ip.size - f.off ∧
        u.write addr (segment (byte fs ip) f.off (span u.writable addr (ip.size - f.off))) = u)) := by
  have small := backed.size_le
  have longest : maxfile * bsize = 274432 := by decide
  by_cases none : ip.size < f.off ∨ (f.off + (n % 2 ^ 32).toNat) % 2 ^ 32 < f.off
  · refine iff_of_true ⟨0, f, u, fileread_nothing can none, ⟨[], by simp, UserMemory.write_nil.symm⟩, fun _ => ⟨?_, ?_, rfl⟩, nofun⟩ ?_
    · rw [if_pos (by omega)]
    · exact UserMemory.write_nil.symm
    · omega
  have within : f.off ≤ ip.size := by omega
  have fits : f.off + (n % 2 ^ 32).toNat < 2 ^ 32 := by omega
  generalize count : min (n % 2 ^ 32).toNat (ip.size - f.off) = len
  generalize copied : span u.writable addr len = t
  have short : t ≤ len := copied ▸ span_le
  have call := fileread_eq backed can within fits count copied
  by_cases natural : 0 ≤ n
  · refine iff_of_true ⟨_, _, _, call, ⟨_, ?_, rfl⟩, fun fine => ?_, fun failed => ?_⟩ (Or.inl natural)
    · rw [segment_length]
      omega
    · have all : t = len := by
        by_contra less
        simp [less] at fine
      refine ⟨?_, by simp [all], by simp [all]⟩
      rw [if_pos all]
      split <;> omega
    · by_cases all : t = len
      · simp only [all, if_true] at failed
        omega
      · simp [all]
  have rest : len = ip.size - f.off := by omega
  rw [← rest, copied]
  constructor
  · rintro ⟨r, f', u', same, most, exact, -⟩
    cases call.symm.trans same
    by_cases all : t = len
    · have result := (exact (by simp [all])).1
      rw [if_pos all, if_pos (by omega)] at result
      omega
    · obtain ⟨bytes, none, same⟩ := most
      have empty : bytes = [] := List.eq_nil_of_length_eq_zero (by omega)
      rw [empty, UserMemory.write_nil] at same
      exact Or.inr (Or.inr (Or.inr ⟨by omega, same⟩))
  · intro holds
    refine ⟨_, _, _, call, ?_⟩
    rcases holds with positive | empty | wraps | ⟨less, same⟩
    · exact absurd positive natural
    · have none : len = 0 := by omega
      have all : t = len := by omega
      simp only [all, none, if_true, segment_zero]
      refine ⟨⟨[], by simp, rfl⟩, fun _ => ⟨?_, rfl, rfl⟩, by simp⟩
      rw [if_pos (Or.inl empty)]
      rfl
    · omega
    · rw [if_neg (Nat.ne_of_lt less), if_neg (Nat.ne_of_lt less), same]
      exact ⟨⟨[], by simp, UserMemory.write_nil.symm⟩, by simp, by simp⟩

def onePage : UserMemory Byte where
  readable j := j == 0
  writable j := j == 0
  byte _ := 0
  readable_lt j here := by
    rw [eq_of_beq here]
    decide
  writable_lt j here := by
    rw [eq_of_beq here]
    decide

def twoBytes : Inode where
  type := 2
  major := 0
  minor := 0
  nlink := 1
  size := 2
  addrs i := if i = 0 then 46 else 0
  inum := 1

def sevens : Fs where
  sb := ⟨fsmagic, 2000, 1954, 200, 30, 2, 32, 45⟩
  blocks _ _ := 7
  logged := []

theorem twoBytes_backed (fs : Fs) : Backed fs twoBytes := by
  intro bn inside
  have first : bn = 0 := by
    change bn * 1024 < 2 at inside
    omega
  subst first
  exact show (46 : Nat) ≠ 0 by decide

theorem fileread_exact_iff_two :
    (∃ r f' u', fileread ⟨true, false, 0⟩ sevens twoBytes (.user onePage) 0 2 = .ok (r, f', sevens, twoBytes, .user u') ∧
      ReadExactly sevens twoBytes ⟨true, false, 0⟩ onePage 0 2 r f' u') :=
  (fileread_exact_iff (twoBytes_backed sevens) rfl (by decide) onePage 0 (by decide) (by decide)).mpr (Or.inl (by decide))

/-- A call for `-1` bytes reads the whole file. -/
theorem fileread_negative : ¬∃ r f' u', fileread ⟨true, false, 0⟩ sevens twoBytes (.user onePage) 0 (-1) = .ok (r, f', sevens, twoBytes, .user u') ∧
    ReadExactly sevens twoBytes ⟨true, false, 0⟩ onePage 0 (-1) r f' u' := by
  have all : span onePage.writable 0 2 = 2 := by
    rw [span_eq_iff]
    intro i less
    have page : (0 + i) / pgSize = 0 := Nat.div_eq_of_lt (by unfold pgSize; omega)
    rw [page]
    rfl
  have count : min ((-1 : Int) % 2 ^ 32).toNat (twoBytes.size - 0) = 2 := by decide
  have call := fileread_eq (twoBytes_backed sevens) (f := ⟨true, false, 0⟩) rfl (by decide) (by decide) count all
  rintro ⟨r, f', u', same, -, exact, -⟩
  cases call.symm.trans same
  exact absurd (exact (by decide)).1 (by decide)

end Fileread

end OShard.FileSystem
