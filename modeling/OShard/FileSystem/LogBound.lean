import OShard.FileSystem.Model

namespace OShard.FileSystem

open Bytes Overlay Mkfs Fs

variable {fs fs' fs₁ : Fs} {ip ip' : Inode} {addr bn b : Nat} {S T : Finset Nat}

def Logs (fs fs' : Fs) (S : Finset Nat) : Prop := ∃ new : List Nat, fs'.logged = new ++ fs.logged ∧ ∀ b ∈ new, b ∈ S

namespace Logs

theorem nothing (same : fs'.logged = fs.logged) : Logs fs fs' S := ⟨[], by simp [same], by simp⟩

theorem mono (logs : Logs fs fs' S) (subset : S ⊆ T) : Logs fs fs' T := by
  obtain ⟨new, same, inside⟩ := logs
  exact ⟨new, same, fun b member => subset (inside b member)⟩

theorem trans (first : Logs fs fs₁ S) (second : Logs fs₁ fs' T) : Logs fs fs' (S ∪ T) := by
  obtain ⟨new, same, inside⟩ := first
  obtain ⟨new', same', inside'⟩ := second
  refine ⟨new' ++ new, by simp [same, same'], ?_⟩
  intro b member
  rcases List.mem_append.mp member with late | early
  · exact Finset.mem_union_right S (inside' b late)
  · exact Finset.mem_union_left T (inside b early)

theorem logWrite (logs : Logs fs fs' S) (inside : b ∈ S) : Logs fs (fs'.logWrite b) S := by
  obtain ⟨new, same, within⟩ := logs
  refine ⟨b :: new, by simp [Fs.logWrite, same], ?_⟩
  simpa using ⟨inside, within⟩

theorem put (logs : Logs fs fs' S) (data : Area) : Logs fs (fs'.put b data) S := logs

end Logs

section Blocks

theorem ballocFrom_logs (fs : Fs) (b : Nat) : ∃ bb, Logs fs (fs.ballocFrom b).2 {(fs.ballocFrom b).1, bb} := by
  fun_induction Fs.ballocFrom fs b with
  | case1 b below bi found =>
    refine ⟨fs.bblock (b + bi), [b + bi, fs.bblock (b + bi)], rfl, ?_⟩
    simp
  | case2 b below full ih => exact ih
  | case3 b above => exact ⟨0, Logs.nothing rfl⟩

theorem balloc_logs (fs : Fs) : ∃ bb, Logs fs fs.balloc.2 {fs.balloc.1, bb} := ballocFrom_logs fs 0

theorem direct_logs {i : Nat} (found : direct fs ip i = (addr, fs', ip')) :
    (ip.addrs i ≠ 0 ∧ addr = ip.addrs i ∧ fs' = fs ∧ ip' = ip) ∨
      (ip.addrs i = 0 ∧ (∃ bb, Logs fs fs' {addr, bb}) ∧ ((addr = 0 ∧ ip' = ip) ∨ (addr ≠ 0 ∧ ip' = ip.setAddr i addr))) := by
  obtain ⟨bb, logs⟩ := balloc_logs fs
  unfold direct at found
  split at found
  · rename_i absent
    right
    dsimp only at found
    split at found
    · rename_i none
      cases found
      exact ⟨absent, ⟨bb, none ▸ logs⟩, Or.inl ⟨rfl, rfl⟩⟩
    · rename_i some
      cases found
      exact ⟨absent, ⟨bb, logs⟩, Or.inr ⟨some, rfl⟩⟩
  · rename_i present
    cases found
    exact Or.inl ⟨present, rfl, rfl, rfl⟩

theorem direct_keeps {i : Nat} (found : direct fs ip i = (addr, fs', ip')) : ∀ j, ip.addrs j ≠ 0 → ip'.addrs j ≠ 0 := by
  intro j there
  rcases direct_logs found with ⟨-, -, -, rfl⟩ | ⟨absent, -, ⟨-, rfl⟩ | ⟨some, rfl⟩⟩
  · exact there
  · exact there
  · have other : j ≠ i := fun same => there (same ▸ absent)
    simpa [Inode.setAddr, other] using there

theorem indirect_logs {block i : Nat} (found : indirect fs block i = (addr, fs')) : ∃ bb, Logs fs fs' ({addr, bb} ∪ {block}) := by
  obtain ⟨bb, logs⟩ := balloc_logs fs
  have logs' : Logs fs fs.balloc.2 ({fs.balloc.1, bb} ∪ {block}) := logs.mono Finset.subset_union_left
  unfold indirect at found
  split at found
  · dsimp only at found
    split at found
    · rename_i none
      cases found
      exact ⟨bb, none ▸ logs'⟩
    · cases found
      exact ⟨bb, (logs'.put _).logWrite (by simp)⟩
  · cases found
    exact ⟨0, Logs.nothing rfl⟩

end Blocks

section Bmap

def Slot (ip : Inode) (bn : Nat) : Prop := (bn < ndirect ∧ ip.addrs bn ≠ 0) ∨ (ndirect ≤ bn ∧ ip.addrs ndirect ≠ 0)

structure Charge (fs fs' : Fs) (ip ip' : Inode) (bn addr : Nat) (D I : Finset Nat) : Prop where
  logs : Logs fs fs' (D ∪ I)
  data : D.card ≤ 2
  mem : addr ∈ D
  cheap : bn < ndirect → ip.addrs bn ≠ 0 → D.card ≤ 1
  known : ip.addrs ndirect ≠ 0 → I ⊆ {ip.addrs ndirect} ∧ ip'.addrs ndirect = ip.addrs ndirect
  made : ip.addrs ndirect = 0 → I.card ≤ 2 ∧ (ip'.addrs ndirect ≠ 0 → (insert (ip'.addrs ndirect) I).card ≤ 2) ∧
    (ip'.addrs ndirect = 0 → addr ≠ 0 → I = ∅)
  slot : addr ≠ 0 → Slot ip' bn
  keeps : ∀ i, ip.addrs i ≠ 0 → ip'.addrs i ≠ 0

theorem direct_charge (below : bn < ndirect) (found : direct fs ip bn = (addr, fs', ip')) :
    ∃ D I, Charge fs fs' ip ip' bn addr D I := by
  have other : ndirect ≠ bn := Nat.ne_of_gt below
  rcases direct_logs found with ⟨present, rfl, rfl, rfl⟩ | ⟨absent, ⟨bb, logs⟩, result⟩
  · refine ⟨{ip'.addrs bn}, ∅, Logs.nothing rfl, by simp, by simp, by simp, by simp, by simp, fun _ => Or.inl ⟨below, present⟩,
      fun _ => id⟩
  have same : ip'.addrs ndirect = ip.addrs ndirect := by
    rcases result with ⟨-, rfl⟩ | ⟨-, rfl⟩
    · rfl
    · exact Function.update_of_ne other _ _
  refine ⟨{addr, bb}, ∅, by simpa using logs, Finset.card_le_two, by simp, fun _ present => absurd absent present, by simp [same],
    ?_, ?_, direct_keeps found⟩
  · intro none
    simp [same, none]
  · intro nonzero
    rcases result with ⟨zero, -⟩ | ⟨-, rfl⟩
    · exact absurd zero nonzero
    · refine Or.inl ⟨below, ?_⟩
      change Function.update ip.addrs bn addr bn ≠ 0
      simpa using nonzero

theorem bmap_charge (mapped : bmap fs ip bn = .ok (addr, fs', ip')) : ∃ D I, Charge fs fs' ip ip' bn addr D I := by
  unfold bmap at mapped
  split at mapped
  · rename_i below
    exact direct_charge below (Except.ok.inj mapped)
  rename_i above
  have high : ndirect ≤ bn := Nat.not_lt.mp above
  split at mapped
  · rcases found : direct fs ip ndirect with ⟨block, fs₁, ip₁⟩
    rw [found] at mapped
    dsimp only at mapped
    have pointer : ip₁.addrs ndirect = block := by
      rcases direct_logs found with ⟨-, rfl, -, rfl⟩ | ⟨absent, -, ⟨rfl, rfl⟩ | ⟨-, rfl⟩⟩
      · rfl
      · exact absent
      · exact Function.update_self ndirect block ip.addrs
    split at mapped
    · rename_i none
      cases mapped
      obtain ⟨absent, ⟨bb, logs⟩⟩ : ip.addrs ndirect = 0 ∧ ∃ bb, Logs fs fs' {block, bb} := by
        rcases direct_logs found with ⟨present, same, -⟩ | ⟨absent, logs, -⟩
        · exact absurd (same.symm.trans none) present
        · exact ⟨absent, logs⟩
      refine ⟨{0}, {block, bb}, logs.mono Finset.subset_union_right, by simp, by simp, by omega, fun present => absurd absent present,
        fun _ => ⟨Finset.card_le_two, ?_, by simp⟩, by simp, direct_keeps found⟩
      simp [pointer, none]
    · rename_i some
      rcases filled : indirect fs₁ block (bn - ndirect) with ⟨addr', fs₂⟩
      rw [filled] at mapped
      cases mapped
      obtain ⟨bb, logs⟩ := indirect_logs filled
      have slot : addr' ≠ 0 → Slot ip' bn := fun _ => Or.inr ⟨high, pointer ▸ some⟩
      rcases direct_logs found with ⟨present, rfl, rfl, rfl⟩ | ⟨absent, ⟨bb', logs'⟩, -⟩
      · exact ⟨{addr', bb}, {ip'.addrs ndirect}, logs, Finset.card_le_two, by simp, by omega, fun _ => ⟨subset_rfl, rfl⟩,
          fun absent => absurd absent present, slot, direct_keeps found⟩
      refine ⟨{addr', bb}, {block, bb'}, (logs'.trans logs).mono ?_, Finset.card_le_two, by simp, by omega,
        fun present => absurd absent present, fun _ => ⟨Finset.card_le_two, fun _ => ?_, fun zero => ?_⟩, slot, direct_keeps found⟩
      · intro b member
        simp only [Finset.mem_union, Finset.mem_insert, Finset.mem_singleton] at member ⊢
        tauto
      · rw [pointer, Finset.insert_eq_of_mem (Finset.mem_insert_self _ _)]
        exact Finset.card_le_two
      · exact absurd (pointer ▸ zero) some
  · cases mapped

end Bmap

section Loop

def touched (off left : Nat) : Nat := if left = 0 then 0 else (off % bsize + left - 1) / bsize + 1

theorem touched_step {left : Nat} (some : left ≠ 0) (off : Nat) :
    touched off left = touched (off + min left (bsize - off % bsize)) (left - min left (bsize - off % bsize)) + 1 := by
  unfold touched bsize
  split <;> split <;> omega

def Ready (ip : Inode) (off : Nat) : Prop := off % bsize ≠ 0 → Slot ip (off / bsize)

theorem Slot.mono (keeps : ∀ i, ip.addrs i ≠ 0 → ip'.addrs i ≠ 0) (slot : Slot ip bn) : Slot ip' bn := by
  rcases slot with ⟨below, there⟩ | ⟨above, there⟩
  · exact Or.inl ⟨below, keeps bn there⟩
  · exact Or.inr ⟨above, keeps ndirect there⟩

structure Cost (fs fs' : Fs) (ip ip' : Inode) (off left off' : Nat) (D I : Finset Nat) : Prop where
  logs : Logs fs fs' (D ∪ I)
  data : D.card ≤ 2 * touched off left
  cheap : left ≠ 0 → off / bsize < ndirect → ip.addrs (off / bsize) ≠ 0 → D.card + 1 ≤ 2 * touched off left
  known : ip.addrs ndirect ≠ 0 → I ⊆ {ip.addrs ndirect}
  made : I.card ≤ 2
  ready : Ready ip off → Ready ip' off'

section Piece

variable {off left off' : Nat} {ip₁ : Inode} {D I D' I' : Finset Nat} {data : Area}

theorem Charge.pointer (charge : Charge fs fs₁ ip ip₁ bn addr D I) : I.card ≤ 2 := by
  by_cases absent : ip.addrs ndirect = 0
  · exact (charge.made absent).1
  · have single := Finset.card_le_card (charge.known absent).1
    rw [Finset.card_singleton] at single
    omega

theorem Charge.stop (charge : Charge fs fs₁ ip ip₁ (off / bsize) addr D I) (some : left ≠ 0) (same : fs'.logged = fs₁.logged) :
    Cost fs fs' ip ip₁ off left off D I := by
  have one : 1 ≤ touched off left := by
    rw [touched_step some]
    omega
  obtain ⟨new, list, inside⟩ := charge.logs
  refine ⟨⟨new, same.trans list, inside⟩, by have := charge.data; omega, fun _ below there => ?_, fun there => (charge.known there).1,
    charge.pointer, ?_⟩
  · have := charge.cheap below there
    omega
  · intro ready inner
    exact (ready inner).mono charge.keeps

theorem Charge.indirect (charge : Charge fs fs₁ ip ip₁ bn addr D I) (found : addr ≠ 0) (known : ip₁.addrs ndirect ≠ 0 → I' ⊆ {ip₁.addrs ndirect})
    (made : I'.card ≤ 2) : (ip.addrs ndirect ≠ 0 → I ∪ I' ⊆ {ip.addrs ndirect}) ∧ (I ∪ I').card ≤ 2 := by
  by_cases absent : ip.addrs ndirect = 0
  · refine ⟨fun there => absurd absent there, ?_⟩
    obtain ⟨-, new, old⟩ := charge.made absent
    by_cases none : ip₁.addrs ndirect = 0
    · simpa [old none found] using made
    · refine (Finset.card_le_card ?_).trans (new none)
      refine Finset.union_subset (Finset.subset_insert _ _) ((known none).trans ?_)
      simp
  · obtain ⟨inside, same⟩ := charge.known absent
    have single : I ∪ I' ⊆ {ip.addrs ndirect} := Finset.union_subset inside (same ▸ known (same ▸ absent))
    refine ⟨fun _ => single, ?_⟩
    have card := Finset.card_le_card single
    rw [Finset.card_singleton] at card
    omega

theorem Charge.next (charge : Charge fs fs₁ ip ip₁ (off / bsize) addr D I) (some : left ≠ 0) (found : addr ≠ 0)
    (cost : Cost ((fs₁.put addr data).logWrite addr) fs' ip₁ ip' (off + min left (bsize - off % bsize)) (left - min left (bsize - off % bsize)) off' D' I') :
    Cost fs fs' ip ip' off left off' (D ∪ D') (I ∪ I') := by
  have step := touched_step some off
  have union := Finset.card_union_le D D'
  have here := charge.data
  have rest := cost.data
  obtain ⟨known, made⟩ := charge.indirect found cost.known cost.made
  refine ⟨?_, by omega, fun _ below there => ?_, known, made, fun _ => cost.ready ?_⟩
  · have first : Logs fs ((fs₁.put addr data).logWrite addr) (D ∪ I) :=
      (charge.logs.put data).logWrite (Finset.mem_union_left I charge.mem)
    rw [Finset.union_union_union_comm]
    exact first.trans cost.logs
  · have := charge.cheap below there
    omega
  · -- the next piece starts inside this block only if there is none
    intro inner
    have same : (off + min left (bsize - off % bsize)) / bsize = off / bsize := by
      unfold bsize at inner ⊢
      omega
    rw [same]
    exact charge.slot found

end Piece

theorem writeLoop_cost {mem : Memory} {src off left tot tot' off' : Nat} (run : writeLoop fs ip mem src off left tot = .ok (tot', off', fs', ip')) :
    ∃ D I, Cost fs fs' ip ip' off left off' D I := by
  fun_induction writeLoop fs ip mem src off left tot with
  | case1 fs ip src off tot =>
    cases run
    exact ⟨∅, ∅, Logs.nothing rfl, by simp, by simp, by simp, by simp, id⟩
  | case2 fs ip src off left tot some message failed => cases run
  | case3 fs ip src off left tot some fs₁ ip₁ mapped =>
    cases run
    obtain ⟨D, I, charge⟩ := bmap_charge mapped
    exact ⟨D, I, charge.stop some rfl⟩
  | case4 fs ip src off left tot some addr fs₁ ip₁ mapped found m bytes fs₂ failed =>
    simp only [Except.ok.injEq, Prod.mk.injEq] at run
    obtain ⟨-, rfl, rfl, rfl⟩ := run
    obtain ⟨D, I, charge⟩ := bmap_charge mapped
    exact ⟨D, I, charge.stop some rfl⟩
  | case5 fs ip src off left tot some addr fs₁ ip₁ mapped found m r bytes copied fs₂ fine ih =>
    obtain ⟨D, I, charge⟩ := bmap_charge mapped
    obtain ⟨D', I', cost⟩ := ih run
    exact ⟨D ∪ D', I ∪ I', charge.next some found cost⟩

theorem bmap_ok (fs : Fs) (ip : Inode) (below : bn < maxfile) : ∃ addr fs' ip', bmap fs ip bn = .ok (addr, fs', ip') := by
  unfold maxfile at below
  unfold bmap
  split
  · exact ⟨_, _, _, rfl⟩
  rw [if_pos (by omega)]
  dsimp only
  split
  · exact ⟨_, _, _, rfl⟩
  · exact ⟨_, _, _, rfl⟩

theorem writeLoop_ok (fs : Fs) (ip : Inode) (mem : Memory) (src off left tot : Nat) (fits : off + left ≤ maxfile * bsize) :
    ∃ k fs' ip', writeLoop fs ip mem src off left tot = .ok (tot + k, off + k, fs', ip') ∧ k ≤ left := by
  fun_induction writeLoop fs ip mem src off left tot with
  | case1 fs ip src off tot => exact ⟨0, fs, ip, rfl, le_rfl⟩
  | case2 fs ip src off left tot some message failed =>
    have below : off / bsize < maxfile := by
      rw [Nat.div_lt_iff_lt_mul (by decide)]
      omega
    obtain ⟨addr, fs', ip', mapped⟩ := bmap_ok fs ip below
    rw [mapped] at failed
    cases failed
  | case3 fs ip src off left tot some fs₁ ip₁ mapped => exact ⟨0, fs₁, ip₁, rfl, Nat.zero_le left⟩
  | case4 fs ip src off left tot some addr fs₁ ip₁ mapped found m bytes fs₂ failed => exact ⟨0, fs₂, ip₁, rfl, Nat.zero_le left⟩
  | case5 fs ip src off left tot some addr fs₁ ip₁ mapped found m r bytes copied fs₂ fine ih =>
    have inside : m ≤ left := Nat.min_le_left _ _
    obtain ⟨k, fs', ip', run, short⟩ := ih (by omega)
    refine ⟨m + k, fs', ip', ?_, by omega⟩
    rw [run, Nat.add_assoc, Nat.add_assoc]

end Loop

section Transaction

variable {f f' : File} {u : Memory} {i n n1 off src : Nat} {r : Int}

theorem address_slot (there : address fs ip bn ≠ 0) : Slot ip bn := by
  unfold address at there
  split at there
  · rename_i below
    exact Or.inl ⟨below, there⟩
  rename_i above
  split at there
  · rename_i pointer
    exact Or.inr ⟨Nat.not_lt.mp above, pointer.2⟩
  · exact absurd rfl there

theorem Backed.ready (backed : Backed fs ip) (inside : off ≤ ip.size) : Ready ip off := by
  intro inner
  refine address_slot (backed _ ?_)
  unfold bsize at inner ⊢
  omega

theorem touched_le (short : n ≤ maxWrite) (off : Nat) : touched off n ≤ 4 ∧ (off % bsize = 0 → touched off n ≤ 3) := by
  have three : maxWrite = 3 * bsize := by decide
  unfold touched bsize at *
  split <;> omega

/-- The blocks of one transaction: two for each block of data, less one if the first is there already; the indirect block,
    with its part of the map if it is new; the inode. -/
theorem Cost.fits {D I : Finset Nat} {off' : Nat} (cost : Cost fs fs' ip ip' off n off' D I) (ready : Ready ip off) (short : n ≤ maxWrite) (b : Nat) :
    (insert b (D ∪ I)).card ≤ maxopblocks := by
  have all := (Finset.card_insert_le b (D ∪ I)).trans (Nat.add_le_add_right (Finset.card_union_le D I) 1)
  refine all.trans ?_
  obtain ⟨four, three⟩ := touched_le short off
  have data := cost.data
  have made := cost.made
  change _ ≤ 10
  by_cases aligned : off % bsize = 0
  · have := three aligned
    omega
  by_cases none : n = 0
  · simp [none, touched] at data
    simp [data]
    omega
  rcases ready aligned with ⟨below, there⟩ | ⟨above, there⟩
  · have := cost.cheap none below there
    omega
  · have single := Finset.card_le_card (cost.known there)
    rw [Finset.card_singleton] at single
    omega

theorem iupdate_logs (ip : Inode) (logs : Logs fs fs' S) : Logs fs (iupdate fs' ip) (insert (fs'.iblock ip.inum) S) :=
  ((logs.mono (Finset.subset_insert _ _)).put _).logWrite (Finset.mem_insert_self _ _)

theorem writei_fits (fs : Fs) (u : Memory) (src : Nat) (ready : off ≤ ip.size → Ready ip off) (short : n ≤ maxWrite) :
    ∃ r fs' ip', writei fs ip u src off n = .ok (r, fs', ip') ∧ (∃ S, Logs fs fs' S ∧ S.card ≤ maxopblocks) ∧
      (r = n → off + n < 2 ^ 32 ∧ Ready ip' (off + n)) := by
  have chunk : maxWrite = 3072 := by decide
  have longest : maxfile * bsize = 274432 := by decide
  have refused : ∃ r fs' ip', (.ok (-1, fs, ip) : Except String (Int × Fs × Inode)) = .ok (r, fs', ip') ∧
      (∃ S, Logs fs fs' S ∧ S.card ≤ maxopblocks) ∧ (r = n → off + n < 2 ^ 32 ∧ Ready ip' (off + n)) :=
    ⟨-1, fs, ip, rfl, ⟨∅, Logs.nothing rfl, by simp⟩, by omega⟩
  unfold writei
  split
  · exact refused
  rename_i inside
  split
  · exact refused
  rename_i room
  have fits : off + n ≤ maxfile * bsize := by omega
  obtain ⟨k, fs', ip', run, -⟩ := writeLoop_ok fs ip u src off n 0 fits
  obtain ⟨D, I, cost⟩ := writeLoop_cost run
  have start : Ready ip off := ready (by omega)
  rw [run]
  refine ⟨_, _, _, rfl, ⟨_, iupdate_logs _ cost.logs, cost.fits start short _⟩, ?_⟩
  intro whole
  have all : k = n := by omega
  have ready' := all ▸ cost.ready start
  refine ⟨by omega, ?_⟩
  split
  · exact ready'
  · exact ready'

/-- The transactions that a call of `filewrite` for `n` bytes at `addr` gets to: `i` bytes are written before. -/
inductive Reached (u : Memory) (addr n : Nat) (f : File) (fs : Fs) (ip : Inode) : Nat → File → Fs → Inode → Prop
  | start : Reached u addr n f fs ip 0 f fs ip
  | next {i : Nat} {f₁ f₂ : File} {fs₁ fs₂ : Fs} {ip₁ ip₂ : Inode} {r : Int} : Reached u addr n f fs ip i f₁ fs₁ ip₁ → i < n →
      transaction f₁ fs₁ ip₁ u ((addr + i) % 2 ^ 64) (min (n - i) maxWrite) = .ok (r, f₂, fs₂, ip₂) → r = min (n - i) maxWrite →
      Reached u addr n f fs ip (i + min (n - i) maxWrite) f₂ fs₂ ip₂

theorem filewriteLoop_reached {f₁ : File} {ip₁ : Inode} {left i' : Nat} (reached : Reached u addr n f₁ fs₁ ip₁ i f fs ip) (rest : i + left = n)
    (run : filewriteLoop f fs ip u addr i left = .ok (i', f', fs', ip')) :
    Reached u addr n f₁ fs₁ ip₁ i' f' fs' ip' ∨ ∃ f₂ fs₂ ip₂ r, Reached u addr n f₁ fs₁ ip₁ i' f₂ fs₂ ip₂ ∧
      transaction f₂ fs₂ ip₂ u ((addr + i') % 2 ^ 64) (min (n - i') maxWrite) = .ok (r, f', fs', ip') := by
  fun_induction filewriteLoop f fs ip u addr i left with
  | case1 f fs ip i =>
    cases run
    exact Or.inl reached
  | case2 f fs ip i left some n1 message failed => cases run
  | case3 f fs ip i left some n1 r f₂ fs₂ ip₂ ran short =>
    have same : n1 = min (n - i) maxWrite := by omega
    rw [same] at ran
    cases run
    exact Or.inr ⟨f, fs, ip, r, reached, ran⟩
  | case4 f fs ip i left some n1 r f₂ fs₂ ip₂ ran whole ih =>
    have same : n1 = min (n - i) maxWrite := by omega
    have next := reached.next (by omega) (same ▸ ran) (by omega)
    rw [← same] at next
    exact ih next (by omega) run

theorem transaction_fits (fs : Fs) (u : Memory) (addr : Nat) (ready : f.off ≤ ip.size → Ready ip f.off) (short : n ≤ maxWrite) :
    ∃ r f' fs' ip', transaction f fs ip u addr n = .ok (r, f', fs', ip') ∧ (∃ S, Logs fs fs' S ∧ S.card ≤ maxopblocks) ∧
      (r = n → 0 < n → Ready ip' f'.off) := by
  obtain ⟨r, fs', ip', run, fits, next⟩ := writei_fits fs u addr ready short
  unfold transaction
  rw [run]
  refine ⟨_, _, _, _, rfl, fits, ?_⟩
  intro whole positive
  obtain ⟨small, ready'⟩ := next whole
  have moved : ((f.off + r) % 2 ^ 32).toNat = f.off + n := by omega
  rw [if_pos (by omega), moved]
  exact ready'

theorem Reached.ready (backed : Backed fs ip) {fs₁ : Fs} {ip₁ : Inode} (reached : Reached u addr n f fs ip i f' fs₁ ip₁) :
    f'.off ≤ ip₁.size → Ready ip₁ f'.off := by
  induction reached with
  | start => exact backed.ready
  | @next i f₁ f₂ fs₁ fs₂ ip₁ ip₂ r reached more run whole ih =>
    intro _
    obtain ⟨r', f', fs', ip', run', -, next⟩ := transaction_fits fs₁ u ((addr + i) % 2 ^ 64) ih (Nat.min_le_right (n - i) maxWrite)
    rw [run] at run'
    cases run'
    refine next whole ?_
    have : 0 < maxWrite := by decide
    omega

/-- Each transaction of `filewrite` logs `MAXOPBLOCKS` blocks at most, from any inode whose blocks have addresses, whatever the
    superblock, the map and the offset are. -/
theorem filewrite_fits_reservation (backed : Backed fs ip) (reached : Reached u addr n f fs ip i f' fs₁ ip') :
    ∃ r f₂ fs₂ ip₂ new, transaction f' fs₁ ip' u ((addr + i) % 2 ^ 64) (min (n - i) maxWrite) = .ok (r, f₂, fs₂, ip₂) ∧
      fs₂.logged = new ++ fs₁.logged ∧ new.toFinset.card ≤ maxopblocks := by
  obtain ⟨r, f₂, fs₂, ip₂, run, ⟨S, ⟨new, list, inside⟩, small⟩, -⟩ :=
    transaction_fits fs₁ u ((addr + i) % 2 ^ 64) (reached.ready backed) (Nat.min_le_right (n - i) maxWrite)
  refine ⟨r, f₂, fs₂, ip₂, new, run, list, (Finset.card_le_card ?_).trans small⟩
  intro b member
  exact inside b (List.mem_toFinset.mp member)

def vacant : Fs where
  sb := ⟨fsmagic, 2000, 1954, 200, 30, 2, 32, 45⟩
  blocks _ _ := 0
  logged := []

def small : Inode where
  type := 2
  major := 0
  minor := 0
  nlink := 1
  size := 5
  addrs i := if i = 0 then 46 else 0
  inum := 1

theorem filewrite_fits_reservation_small : Backed vacant small ∧
    ∃ r f₂ fs₂ ip₂ new, transaction ⟨true, true, 5⟩ vacant small (.kernel fun _ => 7) 0 3072 = .ok (r, f₂, fs₂, ip₂) ∧
      fs₂.logged = new ++ vacant.logged ∧ new.toFinset.card ≤ maxopblocks := by
  have backed : Backed vacant small := by
    intro bn inside
    have first : bn = 0 := by
      change bn * 1024 < 5 at inside
      omega
    subst first
    decide
  have begins : Reached (.kernel fun _ => 7) 0 4000 ⟨true, true, 5⟩ vacant small 0 ⟨true, true, 5⟩ vacant small := .start
  exact ⟨backed, filewrite_fits_reservation backed begins⟩

end Transaction

end OShard.FileSystem
