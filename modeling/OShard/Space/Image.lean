import OShard.Space.Exec
import OShard.Space.Views

namespace OShard.Space

open Separation Assertion Prog

variable {ram : Ram} {fails : Prop} {root n : Nat} {entry : Nat → Nat} {top : Nat → Nat} {h : Heap Page}

section Headers

theorem littleEndian_lt {bytes : Nat → Nat} (small : ∀ k, bytes k < 256) (n : Nat) : littleEndian n bytes < 256 ^ n := by
  induction n generalizing bytes with
  | zero => exact Nat.one_pos
  | succ n ih =>
    have rest := ih fun k => small (k + 1)
    have first := small 0
    rw [littleEndian, pow_succ']
    omega

theorem field_lt (bytes : List UInt8) (off width : Nat) : field bytes off width < 256 ^ width :=
  littleEndian_lt (fun _ => UInt8.toNat_lt _) width

theorem flags2perm_lt (flags : Nat) : flags2perm flags < 1024 := by
  have perm : ∀ exec write : Prop, [Decidable exec] → [Decidable write] →
      (if write then (if exec then pteX else 0) ||| pteW else if exec then pteX else 0) < 1024 := by
    intro exec write _ _
    by_cases write
    · by_cases exec <;> simp [*]
      all_goals decide
    · by_cases exec <;> simp [*]
      decide
  exact perm _ _

end Headers

section Segments

def userPte (pte : Nat) : Prop := pte &&& pteU ≠ 0

theorem userPte_fresh {pa xperm : Nat} (small : xperm < 1024) : userPte (pa2pte pa ||| (pteR ||| pteU ||| xperm) ||| pteV) := by
  have perm : pteR ||| pteU ||| xperm < 2 ^ 10 := Nat.or_lt_two_pow (by decide) small
  rw [userPte, and_flags (by decide), pteFlags_pte perm, Nat.and_or_distrib_right, Nat.and_or_distrib_right]
  intro none
  have left := (Nat.or_eq_zero_iff.mp (Nat.or_eq_zero_iff.mp none).1).1
  exact absurd left (by decide)

theorem Shape.userAddr_page (shape : Shape n top userPte entry) {i : Nat} (below : i < n) :
    Space.userAddr entry (i * pgSize) = pte2pa (entry i) := by
  have bound := shape.bound
  have range := userPages_eq
  have index : i * pgSize / 4096 = i := Nat.mul_div_cancel i (by decide)
  obtain ⟨leaf, -, user⟩ := shape.leaf i below
  have low : ¬maxVa ≤ i * pgSize := by
    unfold maxVa pgSize
    omega
  rw [Space.userAddr, if_neg low, index, if_neg leaf.valid, if_neg user]

theorem loadsegFrom_spec {ip : Inode} {k m offset sz left : Nat} (within : k + m + left ≤ n) :
    Keeps (ram.supply fails) (Memory ram root n top userPte) (loadsegFrom root (k * pgSize) ip offset sz left (m * pgSize)) := by
  induction left generalizing m with
  | zero => exact Triple.pure rfl
  | succ left ih =>
    rw [loadsegFrom]
    apply Triple.any
    intro entry
    apply Triple.given
    intro shape
    have bound := shape.bound
    have range := userPages_eq
    have below : k + m < n := by omega
    have va : (k * pgSize + m * pgSize) % 2 ^ 64 = (k + m) * pgSize := by
      rw [← Nat.add_mul]
      apply Nat.mod_eq_of_lt
      unfold pgSize
      omega
    rw [va]
    apply Triple.call walkaddr_spec
    intro pa
    rw [given_mul, shape.userAddr_page below]
    apply Triple.given
    rintro rfl
    apply page_bind shape below
    intro inside junk
    rw [if_neg (ram.nonzero _ inside)]
    apply Triple.bindUpdate
    have again : ∀ (h : Heap Page) (page : Page), (points (pte2pa (entry (k + m))) page *
        (Table ram 2 root entry * ∏ x ∈ (Finset.range userPages).erase (k + m), backed ram (entry x))) h →
          Memory ram root n top userPte h :=
      fun h page holds => ⟨entry, shape, page_return shape below inside holds⟩
    generalize (if sz - m * pgSize < pgSize then sz - m * pgSize else pgSize) = count
    by_cases short : (readi ip ((offset + m * pgSize) % 2 ^ 32) count).length ≠ count
    · simp only [if_pos short]
      exact Triple.done fun h holds => again h _ holds
    have next : m * pgSize + pgSize = (m + 1) * pgSize := (Nat.succ_mul m pgSize).symm
    simp only [if_neg short]
    rw [next]
    apply (ih _).pre fun h holds => again h _ holds
    omega

theorem loadseg_spec {ip : Inode} {va offset sz total : Nat} (aligned : va % pgSize = 0) (within : va + sz ≤ total) :
    Keeps (ram.supply fails) (Memory ram root (pages total) top userPte) (loadseg root va ip offset sz) := by
  have first : va = va / pgSize * pgSize := (Nat.div_mul_cancel (Nat.dvd_of_mod_eq_zero aligned)).symm
  have count : va / pgSize + 0 + (sz + pgSize - 1) / pgSize ≤ pages total := by
    unfold pages pgSize at *
    omega
  have loaded := @loadsegFrom_spec ram fails root (pages total) top ip (va / pgSize) 0 offset sz _ count
  rw [← first, Nat.zero_mul] at loaded
  exact loaded

theorem loadSegments_spec {ip : Inode} {phnum off sz : Nat} :
    Triple (ram.supply fails) (Memory ram root (pages sz) top userPte) (loadSegments root ip phnum off sz) fun r =>
      Memory ram root (pages r.1) top userPte := by
  induction phnum generalizing off sz with
  | zero => exact Triple.pure rfl
  | succ phnum ih =>
    rw [loadSegments]
    have stop : Triple (ram.supply fails) (Memory ram root (pages sz) top userPte) (Pure.pure (sz, false) : Prog Page (Nat × Bool))
        fun r => Memory ram root (pages r.1) top userPte := Triple.pure rfl
    have memsz := field_lt (readi ip off ProgHdr.size) 40 8
    have vaddr := field_lt (readi ip off ProgHdr.size) 16 8
    change (ProgHdr.of (readi ip off ProgHdr.size)).memsz < _ at memsz
    change (ProgHdr.of (readi ip off ProgHdr.size)).vaddr < _ at vaddr
    generalize ProgHdr.of (readi ip off ProgHdr.size) = ph at memsz vaddr ⊢
    by_cases short : (readi ip off ProgHdr.size).length ≠ ProgHdr.size
    · simp only [if_pos short]
      exact stop
    by_cases other : ph.type ≠ elfProgLoad
    · simp only [if_neg short, if_pos other]
      exact ih
    by_cases larger : ph.memsz < ph.filesz
    · simp only [if_neg short, if_neg other, if_pos larger]
      exact stop
    by_cases wraps : (ph.vaddr + ph.memsz) % 2 ^ 64 < ph.vaddr
    · simp only [if_neg short, if_neg other, if_neg larger, if_pos wraps]
      exact stop
    by_cases unaligned : ph.vaddr % pgSize ≠ 0
    · simp only [if_neg short, if_neg other, if_neg larger, if_neg wraps, if_pos unaligned]
      exact stop
    simp only [if_neg short, if_neg other, if_neg larger, if_neg wraps, if_neg unaligned]
    -- the segment lies below the new size, also if `uvmalloc` keeps the old one
    have within : ph.vaddr + ph.filesz % 2 ^ 32 ≤ max sz ((ph.vaddr + ph.memsz) % 2 ^ 64) := by
      have low := Nat.mod_le ph.filesz (2 ^ 32)
      omega
    apply Triple.fact fun h memory => Memory.small memory
    intro small
    apply Triple.bind (uvmalloc_spec small (flags2perm_lt ph.flags) fun pa _ => userPte_fresh (flags2perm_lt ph.flags))
    intro sz1
    apply Triple.either
    · apply Triple.given
      rintro rfl
      by_cases zero : max sz ((ph.vaddr + ph.memsz) % 2 ^ 64) = 0
      · rw [if_pos zero, zero, show sz = 0 by omega]
        exact Triple.pure rfl
      rw [if_neg zero]
      apply Triple.bind (loadseg_spec (not_not.mp unaligned) within)
      intro r
      split
      · exact Triple.pure rfl
      · exact ih
    · apply Triple.given
      rintro rfl
      rw [if_pos rfl]
      exact stop

end Segments

section Stack

variable {ok : Nat → Prop} {trapframe sz : Nat} {calls : List Call} {argv : List (List Nat)}

theorem memory_keeps {σ : Type} {p : Prog Page σ} (keeps : ∀ entry, Shape n top ok entry →
    Keeps (ram.supply fails) (Table ram 2 root entry * Data ram entry) p) :
    Keeps (ram.supply fails) (Memory ram root n top ok) p := by
  apply Triple.any
  intro entry
  apply Triple.given
  intro shape
  exact (keeps entry shape).post fun _ h holds => ⟨entry, shape, holds⟩

theorem copyout_memory (hidden : Hidden top) {dstva : Nat} {src : List Nat} :
    Keeps (ram.supply fails) (Memory ram root n top ok) (copyout root dstva src) :=
  memory_keeps fun _ shape => copyout_spec shape hidden dstva src

theorem pushArgs_spec (hidden : Hidden top) {stackbase sp : Nat} {ustack : List Nat} :
    Triple (ram.supply fails) (Memory ram root n top ok) (pushArgs root stackbase argv sp ustack) fun r =>
      given (∀ pushed ∈ r, pushed.2.length = ustack.length + argv.length) (Memory ram root n top ok) := by
  induction argv generalizing sp ustack with
  | nil =>
    apply Triple.done
    intro h holds
    refine ⟨?_, holds⟩
    rintro pushed ⟨⟩
    rfl
  | cons arg argv ih =>
    rw [pushArgs]
    split
    · exact Triple.done fun h holds => ⟨nofun, holds⟩
    split
    · exact Triple.done fun h holds => ⟨nofun, holds⟩
    apply Triple.bind (copyout_memory hidden)
    intro r
    split
    · exact Triple.done fun h holds => ⟨nofun, holds⟩
    apply ih.post
    rintro pushed h ⟨length, holds⟩
    refine ⟨fun all inside => ?_, holds⟩
    rw [length all inside, List.length_append, List.length_singleton, List.length_cons]
    omega

def made (ram : Ram) (trapframe : Nat) : Option Image → Assertion Page
  | none => 1
  | some image => Memory ram image.pagetable (pages image.sz) (tops ram trapframe) anyPte

theorem bad_spec {ip : Bool} {calls' : List Call} (closed : (if ip then calls ++ [.iunlockput, .endOp] else calls) = calls') :
    Triple (ram.supply fails) (Memory ram root (pages sz) (tops ram trapframe) ok) (bad (some root) sz ip calls) fun r =>
      given (r.2 = calls') (made ram trapframe r.1) := by
  rw [bad]
  apply Triple.bind procFreepagetable_spec
  exact fun _ => Triple.done fun h holds => ⟨closed, holds⟩

theorem bad_pages : Triple (ram.supply fails) (Memory ram root n (tops ram trapframe) ok) (bad (some root) (n * pgSize) false calls)
    fun r => given (r.2 = calls) (made ram trapframe r.1) := by
  have freed := @bad_spec ram fails root ok trapframe (n * pgSize) calls false calls rfl
  rw [pages_mul] at freed
  exact freed

def Opened (n m : Nat) (entry : Nat → Nat) (_ : Nat → Page) : Prop := ∀ i, n ≤ i → i < m → User (entry i) ∧ entry i &&& pteW ≠ 0

theorem Opened.push {m pa : Nat} {data : Nat → Page} (opened : Opened n m entry data) (page : Page) :
    Opened n (m + 1) (Function.update entry m (pa2pte pa ||| (pteR ||| pteU ||| pteW) ||| pteV)) (Function.update data m page) := by
  have flag : ∀ flag, flag &&& 0x3FF = flag → (pa2pte pa ||| (pteR ||| pteU ||| pteW) ||| pteV) &&& flag = (pteR ||| pteU ||| pteW ||| pteV) &&& flag := by
    intro flag inside
    rw [and_flags inside, pteFlags_pte (by decide)]
  intro i above below
  by_cases last : i = m
  · rw [last, Function.update_self, User, flag _ (by decide), flag _ (by decide), flag _ (by decide)]
    decide
  · rw [Function.update_of_ne last]
    exact opened i above (by omega)

theorem uvmalloc_opened (small : n ≤ userPages) :
    Triple (ram.supply fails) (Memory ram root n top anyPte) (uvmalloc root (n * pgSize) ((n + 2) * pgSize) pteW) fun r =>
      either (given (r = (n + 2) * pgSize) (Among ram root (n + 2) top (Opened n (n + 2)))) (given (r = 0) (given fails (Memory ram root n top anyPte))) := by
  have larger : max (n * pgSize) ((n + 2) * pgSize) = (n + 2) * pgSize := Nat.max_eq_right (Nat.mul_le_mul_right _ (Nat.le_add_right _ _))
  have grown := @uvmalloc_by ram fails root pteW (n * pgSize) ((n + 2) * pgSize) (fun m => Among ram root m top (Opened n m))
    (given fails (Memory ram root n top anyPte)) (Nat.mul_le_mul_right _ small) fun m h ⟨_, _, _, ⟨shape, _⟩, _⟩ => shape.bound
  rw [larger, pages_mul, pages_mul] at grown
  apply Triple.pre (grown _ _)
  · intro h memory
    obtain ⟨entry, data, held⟩ := memory.held
    exact ⟨entry, data, fun i above below => absurd above (by omega), held⟩
  · intro failed m more bound
    have dealloc := @uvmdealloc_spec ram fails root top anyPte (m * pgSize) (n * pgSize) (Nat.mul_le_mul_right _ bound)
    rw [pages_mul, Nat.min_eq_right (Nat.mul_le_mul_right _ more), pages_mul] at dealloc
    exact (dealloc.pre fun h ⟨_, _, _, held⟩ => held.memory).post fun _ h holds => ⟨failed, holds.2⟩
  · exact fun m pa _ inside => mappages_among inside (by decide) (by decide) fun _ _ opened => opened.push _

theorem stack_sizes (small : n ≤ userPages) : (n * pgSize + 2 * pgSize) % 2 ^ 64 = (n + 2) * pgSize ∧
    (n + 2) * pgSize - 2 * pgSize = n * pgSize ∧ (n + 2) * pgSize - pgSize = (n + 1) * pgSize ∧ (n + 2) * pgSize ≠ 0 := by
  have range := userPages_eq
  unfold pgSize
  omega

theorem pushStack_spec {entry : Nat} (few : argv.length < maxArg) :
    Triple (ram.supply fails) (Memory ram root (pages sz) (tops ram trapframe) anyPte) (pushStack root sz entry argv calls)
      fun r => given (r.2 = calls) (made ram trapframe r.1) := by
  apply Triple.fact fun h memory => Memory.small memory
  intro small
  obtain ⟨total, guard, -, positive⟩ := stack_sizes (pages_le.mpr small)
  rw [pushStack, pgroundup_eq (by have range := userPages_eq; unfold pgSize at small; omega), total]
  apply Triple.bind (uvmalloc_opened (pages_le.mpr small))
  intro sz1
  apply Triple.either
  · apply Triple.given
    rintro rfl
    simp only [if_neg positive, guard]
    apply Triple.pre _ fun h ⟨_, _, _, held⟩ => Held.memory held
    apply Triple.bind (uvmclear_spec (by omega))
    intro _
    apply Triple.bind (pushArgs_spec hidden_tops)
    intro pushed
    apply Triple.given
    intro length
    cases pushed with
    | none => exact bad_pages
    | some stack =>
      obtain ⟨sp, ustack⟩ := stack
      have room : ¬maxArg ≤ ustack.length := by
        have count : ustack.length = ([] : List Nat).length + argv.length := length _ rfl
        rw [count, List.length_nil]
        omega
      simp only [if_neg room]
      split
      · exact bad_pages
      apply Triple.bind (copyout_memory hidden_tops)
      intro r
      split
      · exact bad_pages
      · apply Triple.done
        intro h holds
        rw [← pages_mul (pages sz + 2)] at holds
        exact ⟨rfl, holds⟩
  · apply Triple.given
    rintro rfl
    apply Triple.given
    intro _
    rw [if_pos rfl]
    exact bad_pages

def execCalls : Option Inode → List Call
  | none => [.beginOp, .namei, .endOp]
  | some _ => [.beginOp, .namei, .ilock, .iunlockput, .endOp]

theorem execImage_spec (inside : trapframe ∈ ram.pool) (ip : Option Inode) (few : argv.length < maxArg) :
    Triple (ram.supply fails) 1 (execImage ram.trampoline trapframe ip argv) fun r =>
      given (r.2 = execCalls ip) (made ram trapframe r.1) := by
  cases ip with
  | none => exact Triple.done fun h holds => ⟨rfl, holds⟩
  | some ip =>
    have early : Triple (ram.supply fails) 1 (bad none 0 true [.beginOp, .namei, .ilock]) fun r =>
        given (r.2 = execCalls (some ip)) (made ram trapframe r.1) := Triple.done fun h holds => ⟨rfl, holds⟩
    rw [execImage]
    split
    · exact early
    split
    · exact early
    apply Triple.bind (procPagetable_spec inside)
    intro r
    cases r with
    | none => exact Triple.given fun _ => early
    | some root =>
      have loaded := @loadSegments_spec ram fails root (tops ram trapframe) ip (ElfHdr.of (readi ip 0 ElfHdr.size)).phnum
        ((ElfHdr.of (readi ip 0 ElfHdr.size)).phoff % 2 ^ 32) 0
      apply Triple.bind (loaded.pre fun h memory => Memory.none memory)
      intro r
      obtain ⟨sz, complete⟩ := r
      simp only
      split
      · exact bad_spec rfl
      · exact (pushStack_spec few).pre fun h memory => Memory.weaken (fun _ _ => trivial) memory

end Stack

section Exec

variable {p : Proc}

theorem Owned.trapframe (owned : Owned ram p h) : p.trapframe ∈ ram.pool := by
  obtain ⟨left, right, -, -, ⟨inside, -⟩, -⟩ := owned
  exact inside

theorem commit_spec {path : List Nat} {image : Image} : Triple (ram.supply fails) (Owned ram p) (commit p path image) fun r =>
    given (r = { p with pagetable := image.pagetable, sz := image.sz, name := lastName path }) (page ram p.trapframe) := by
  rw [Owned, commit]
  apply page_update
  apply page_update
  apply page_update
  rw [mul_comm]
  apply Triple.call procFreepagetable_spec
  intro _
  rw [one_mul]
  exact Triple.done fun h holds => ⟨rfl, holds⟩

def execResult (ram : Ram) (p : Proc) (h : Heap Page) (ip : Option Inode) (r : Int × Proc × List Call) : Assertion Page :=
  given (r.2.2 = execCalls ip) (either (given (r.1 = -1 ∧ r.2.1 = p) (exactly h))
    (given (0 ≤ r.1 ∧ r.2.1.trapframe = p.trapframe ∧ r.2.1.ofile = p.ofile) (Owned ram r.2.1)))

theorem exec_exact (owned : Owned ram p h) (path : List Nat) (ip : Option Inode) {argv : List (List Nat)} (few : argv.length < maxArg) :
    Triple (ram.supply fails) (exactly h) (exec ram.trampoline p path ip argv) (execResult ram p h ip) := by
  rw [exec]
  apply Triple.fresh (execImage_spec owned.trapframe ip few)
  rintro ⟨image, calls⟩
  rw [given_mul]
  apply Triple.given
  intro balanced
  cases image with
  | none =>
    rw [made, one_mul]
    exact Triple.done fun g holds => ⟨balanced, Or.inl ⟨⟨rfl, rfl⟩, holds⟩⟩
  | some image =>
    rw [made, mul_comm]
    have mine : ∀ g, exactly h g → Owned ram p g := by
      rintro g rfl
      exact owned
    apply Triple.call (commit_spec.pre mine)
    intro p'
    rw [given_mul]
    apply Triple.given
    rintro rfl
    exact Triple.done fun g holds => ⟨balanced, Or.inr ⟨⟨Int.natCast_nonneg _, rfl, rfl⟩, holds⟩⟩

theorem exec_spec (path : List Nat) (ip : Option Inode) {argv : List (List Nat)} (few : argv.length < maxArg) :
    Triple (ram.supply fails) (Owned ram p) (exec ram.trampoline p path ip argv) fun r =>
      given (r.2.1.trapframe = p.trapframe ∧ r.2.1.ofile = p.ofile) (Owned ram r.2.1) := by
  constructor
  intro h owned
  apply wp_mono _ ((exec_exact owned path ip few).run h rfl)
  rintro ⟨r, p', calls⟩ g ⟨-, ⟨⟨-, rfl⟩, rfl⟩ | ⟨⟨-, same⟩, owned'⟩⟩
  · exact ⟨⟨rfl, rfl⟩, owned⟩
  · exact ⟨same, owned'⟩

end Exec

section SysExec

variable {p : Proc}

theorem owned_keeps {σ : Type} {c : Prog Page σ}
    (keeps : Keeps (ram.supply fails) (Memory ram p.pagetable (pages p.sz) (tops ram p.trapframe) anyPte) c) :
    Keeps (ram.supply fails) (Owned ram p) c := by
  rw [Owned, mul_comm]
  exact keeps.frame _

theorem fetchstr_spec {addr max : Nat} : Keeps (ram.supply fails) (Owned ram p) (fetchstr p addr max) :=
  owned_keeps (memory_keeps fun _ shape => copyinstr_spec shape hidden_tops addr max)

theorem fetchaddr_spec {addr : Nat} : Keeps (ram.supply fails) (Owned ram p) (fetchaddr p addr) := by
  rw [fetchaddr]
  split
  · exact Triple.pure rfl
  apply Triple.bind (owned_keeps (memory_keeps fun _ shape => copyin_spec shape hidden_tops addr 8))
  intro r
  cases r with
  | none => exact Triple.pure rfl
  | some bytes => exact Triple.pure rfl

def argvPages (ram : Ram) (argv : List (Nat × List Nat)) : Assertion Page := (argv.map fun arg => page ram arg.1).prod

theorem argvPages_append {argv : List (Nat × List Nat)} {arg : Nat × List Nat} :
    argvPages ram (argv ++ [arg]) = argvPages ram argv * page ram arg.1 := by
  simp [argvPages]

theorem freeArgv_spec {argv : List (Nat × List Nat)} :
    Triple (ram.supply fails) (argvPages ram argv) (freeArgv argv) fun _ => 1 := by
  induction argv with
  | nil => exact Triple.pure rfl
  | cons arg argv ih =>
    obtain ⟨pa, bytes⟩ := arg
    have split : argvPages ram ((pa, bytes) :: argv) = page ram pa * argvPages ram argv := List.prod_cons
    rw [split, freeArgv]
    exact kfree_page ih

theorem fetchArgv_spec {uargv left : Nat} {argv : List (Nat × List Nat)} :
    Triple (ram.supply fails) (Owned ram p * argvPages ram argv) (fetchArgv p uargv left argv) fun r =>
      given (r.1 = true → r.2.length < argv.length + left) (Owned ram p * argvPages ram r.2) := by
  induction left generalizing argv with
  | zero => exact Triple.done fun h holds => ⟨nofun, holds⟩
  | succ left ih =>
    rw [fetchArgv]
    apply Triple.call fetchaddr_spec
    intro r
    rcases r with - | uarg | uarg
    · exact Triple.done fun h holds => ⟨nofun, holds⟩
    · exact Triple.done fun h holds => ⟨fun _ => Nat.lt_add_of_pos_right (Nat.succ_pos left), holds⟩
    · apply Triple.bindAllocate
      · exact fun _ => Triple.done fun h holds => ⟨nofun, holds⟩
      intro pa inside junk
      rw [mul_left_comm]
      apply Triple.call fetchstr_spec
      rintro ⟨arg, gotNull⟩
      rw [mul_left_comm]
      apply Triple.bindUpdate
      have again : ∀ (h : Heap Page) (bytes : Page), (points pa bytes * (Owned ram p * argvPages ram argv)) h →
          (Owned ram p * argvPages ram (argv ++ [(pa, arg)])) h := by
        intro h bytes holds
        rw [argvPages_append, ← mul_assoc, mul_comm]
        exact mul_mono (fun _ here => ⟨inside, bytes, here⟩) (fun _ rest => rest) holds
      cases gotNull with
      | true =>
        apply (ih.pre fun h holds => again h _ holds).post
        rintro r h ⟨short, holds⟩
        rw [List.length_append, List.length_singleton] at short
        exact ⟨fun complete => by have := short complete; omega, holds⟩
      | false => exact Triple.done fun h holds => ⟨nofun, again h _ holds⟩

theorem sysExec_spec (namei : List Nat → Option Inode) :
    Triple (ram.supply fails) (Owned ram p) (sysExec ram.trampoline namei p) fun r =>
      given (r.2.1.trapframe = p.trapframe ∧ r.2.1.ofile = p.ofile) (Owned ram r.2.1) := by
  rw [sysExec]
  have split : Owned ram p = page ram p.trapframe * Memory ram p.pagetable (pages p.sz) (tops ram p.trapframe) anyPte := rfl
  rw [split]
  apply page_get
  intro registers
  rw [← split]
  apply Triple.bind fetchstr_spec
  rintro ⟨path, gotNull⟩
  have fetched := @fetchArgv_spec ram fails p (registers.word a1) maxArg []
  have nothing : argvPages ram [] = 1 := rfl
  rw [nothing, mul_one] at fetched
  cases gotNull with
  | false => exact Triple.done fun h holds => ⟨⟨rfl, rfl⟩, holds⟩
  | true =>
    apply Triple.bind fetched
    rintro ⟨complete, argv⟩
    apply Triple.given
    intro short
    cases complete with
    | true =>
      have few : (argv.map Prod.snd).length < maxArg := by
        rw [List.length_map, ← Nat.zero_add maxArg]
        exact short rfl
      apply Triple.call (exec_spec path (namei path) few)
      rintro ⟨r, p', calls⟩
      rw [given_mul, mul_comm]
      apply Triple.given
      intro same
      apply Triple.call freeArgv_spec
      intro _
      rw [one_mul]
      exact Triple.done fun h holds => ⟨same, holds⟩
    | false =>
      rw [mul_comm]
      apply Triple.call freeArgv_spec
      intro _
      rw [one_mul]
      exact Triple.done fun h holds => ⟨⟨rfl, rfl⟩, holds⟩

end SysExec

end OShard.Space
