import OShard.Mkfs.WellFormed

/-! Looking up the files of a finished image by name, and reading them. -/

namespace OShard.Mkfs

open Bytes Kernel

variable {i j e inum : Nat} {elem name path : List Byte} {entry : Nat × List Byte} {disk : Disk} {names : List (List Byte)}

def nameFrom (area : Area) : Nat → Nat → List Byte
  | _, 0 => []
  | i, n + 1 => if area i = 0 then [] else area i :: nameFrom area (i + 1) n

def nameText (area : Area) : List Byte := nameFrom area 0 dirsiz

theorem strncmp_iff {p q : Area} {i n : Nat} : strncmp p q i n = 0 ↔ nameFrom p i n = nameFrom q i n := by
  induction n generalizing i with
  | zero => simp [strncmp, nameFrom]
  | succ n ih =>
    have differ : p i ≠ q i → ((p i).toNat : Int) - (q i).toNat ≠ 0 := fun other equal =>
      other (BitVec.eq_of_toNat_eq (by omega))
    rw [strncmp, nameFrom, nameFrom]
    grind

theorem nameFrom_eq {area : Area} {l : List Byte} {i n : Nat} (fits : l.length ≤ n) (terminated : 0 ∉ l)
    (chars : ∀ j < l.length, area (i + j) = l.getD j 0) (ends : l.length < n → area (i + l.length) = 0) :
    nameFrom area i n = l := by
  induction l generalizing i n with
  | nil =>
    cases n with
    | zero => rfl
    | succ n =>
      have zero : area i = 0 := ends (Nat.succ_pos n)
      rw [nameFrom, if_pos zero]
  | cons c l ih =>
    obtain ⟨n, rfl⟩ := Nat.exists_eq_succ_of_ne_zero (show n ≠ 0 by rintro rfl; cases fits)
    rw [List.mem_cons, not_or] at terminated
    have first : area i = c := chars 0 (Nat.succ_pos _)
    have rest : nameFrom area (i + 1) n = l := by
      refine ih (Nat.le_of_succ_le_succ fits) terminated.2 (fun j below => ?_) fun short => ?_
      · rw [Nat.add_assoc, Nat.add_comm 1]
        exact chars (j + 1) (Nat.succ_lt_succ below)
      · rw [Nat.add_assoc, Nat.add_comm 1]
        exact ends (Nat.succ_lt_succ short)
    rw [Nat.succ_eq_add_one, nameFrom, first, if_neg (Ne.symm terminated.1), rest]

def nameBuffer (junk : Area) (elem : List Byte) : Area :=
  if dirsiz ≤ elem.length then blit junk 0 (elem.take dirsiz) else blit junk 0 (elem ++ [0])

theorem nameBuffer_char (junk : Area) (below : j < elem.length) (inside : j < dirsiz) :
    nameBuffer junk elem j = elem.getD j 0 := by
  rw [nameBuffer]
  split
  · have length : (elem.take dirsiz).length = dirsiz := by
      rw [List.length_take]
      omega
    rw [blit_inside (Nat.zero_le _) (by omega), Nat.sub_zero, List.getD_eq_getElem _ _ (by omega), List.getElem_take,
      List.getD_eq_getElem _ _ below]
  · have length : (elem ++ [0]).length = elem.length + 1 := List.length_append
    rw [blit_inside (Nat.zero_le _) (by omega), Nat.sub_zero, List.getD_append _ _ _ _ below]

theorem nameBuffer_end (junk : Area) (short : elem.length < dirsiz) : nameBuffer junk elem elem.length = 0 := by
  have length : (elem ++ [0]).length = elem.length + 1 := List.length_append
  rw [nameBuffer, if_neg (by omega), blit_inside (Nat.zero_le _) (by omega), Nat.sub_zero,
    List.getD_append_right _ _ _ _ (Nat.le_refl _), Nat.sub_self]
  rfl

theorem nameText_buffer (junk : Area) {elem : List Byte} (terminated : 0 ∉ elem) :
    nameText (nameBuffer junk elem) = elem.take dirsiz := by
  have length := List.length_take (i := dirsiz) (l := elem)
  refine nameFrom_eq (by omega) (fun zero => terminated (List.mem_of_mem_take zero)) (fun j below => ?_) fun short => ?_
  · rw [Nat.zero_add, nameBuffer_char junk (by omega) (by omega), List.getD_eq_getElem _ _ (by omega),
      List.getD_eq_getElem _ _ below, List.getElem_take]
  · rw [Nat.zero_add, show (elem.take dirsiz).length = elem.length by omega]
    exact nameBuffer_end junk (by omega)

/-- A name that fits an entry with room for its terminator is found under a path element exactly if it is its beginning of
    `dirsiz` characters. -/
theorem namecmp_eq_zero (junk : Area) (terminated : 0 ∉ elem) (terminated' : 0 ∉ name) (short : name.length < dirsiz) :
    namecmp (nameBuffer junk elem) (fun o => name.getD o 0) = 0 ↔ elem.take dirsiz = name := by
  have entry : nameText (fun o => name.getD o 0) = name := by
    refine nameFrom_eq short.le terminated' (fun j _ => by rw [Nat.zero_add]) fun _ => ?_
    rw [Nat.zero_add, List.getD_eq_default _ _ (Nat.le_refl _)]
  rw [← nameText_buffer junk terminated]
  conv_rhs => rw [← entry]
  exact strncmp_iff

namespace Holds

variable {disk : Disk} {ip : Dinode} {node : Node} {off n : Nat}

theorem readLoop (holds : Holds disk ip.addrs node) (inside : off + n ≤ bsize * node.blocks.length) :
    readLoop disk ip off n = .ok ((List.range n).map fun i => node.content.getD (off + i) 0) := by
  induction n using Nat.strongRecOn generalizing off with
  | _ n ih =>
    rw [Kernel.readLoop]
    by_cases done : n = 0
    · rw [if_pos done, done]
      rfl
    generalize piece : min n (bsize - off % bsize) = m
    have room : 0 < bsize - off % bsize := by
      unfold bsize
      omega
    have rest : Kernel.readLoop disk ip (off + m) (n - m) = _ := ih (n - m) (by omega) (by omega)
    have below : off / bsize < node.blocks.length := by
      unfold bsize at *
      omega
    have address := holds.address (off / bsize)
    have present : Kernel.address disk ip (off / bsize) ≠ 0 := by
      rw [address, Ne, holds.block_eq_zero]
      omega
    have bytes : ∀ i < m, view (disk (Kernel.address disk ip (off / bsize))) (off % bsize + i) = node.content.getD (off + i) 0 := by
      intro i small
      have block : (off + i) / bsize = off / bsize := by
        unfold bsize at *
        omega
      have offset : (off + i) % bsize = off % bsize + i := by
        unfold bsize at *
        omega
      rw [address, ← block, ← offset]
      exact holds.data (off + i) (by omega)
    have split : List.range n = List.range m ++ (List.range (n - m)).map (m + ·) := by
      rw [← List.range_add]
      congr 1
      omega
    rw [if_neg done, bmap_ok present, split, List.map_append, List.map_map]
    change (Kernel.readLoop disk ip _ _ >>= _) = _
    rw [rest]
    change Except.ok ((List.range m).map _ ++ _) = _
    congr 2
    · apply List.map_congr_left
      intro i there
      exact bytes i (List.mem_range.mp there)
    · apply List.map_congr_left
      intro i _
      rw [Nat.add_assoc]
      rfl

theorem readi (holds : Holds disk ip.addrs node) (inside : off + n ≤ bsize * node.blocks.length) (sized : off + n ≤ ip.size)
    (small : ip.size < 2 ^ 32) :
    readi disk ip off n = .ok ((List.range n).map fun i => node.content.getD (off + i) 0) := by
  have whole : (off + n) % 2 ^ 32 = off + n := Nat.mod_eq_of_lt (by omega)
  rw [Kernel.readi, whole, if_neg (by omega), if_neg (by omega)]
  exact holds.readLoop inside

end Holds

def entryList (names : List (List Byte)) : List (Nat × List Byte) :=
  (rootIno, chars ".") :: (rootIno, chars "..") :: (names.zipIdx 2).map fun entry => (entry.2, entry.1.take (dirsiz - 1))

theorem directory_eq (names : List (List Byte)) :
    directory names = (entryList names).flatMap fun entry => dirent entry.1 entry.2 := by
  rw [directory, entryList, List.flatMap_cons, List.flatMap_cons, List.flatMap_map, entries, List.append_assoc]

theorem length_flatMap_dirent (es : List (Nat × List Byte)) :
    (es.flatMap fun entry => dirent entry.1 entry.2).length = 16 * es.length := by
  induction es with
  | nil => rfl
  | cons first es ih =>
    rw [List.flatMap_cons, List.length_append, length_dirent, ih, List.length_cons]
    omega

theorem getD_flatMap_dirent (es : List (Nat × List Byte)) {o : Nat} (there : es[e]? = some entry) (inside : o < 16) :
    (es.flatMap fun entry => dirent entry.1 entry.2).getD (16 * e + o) 0 = (dirent entry.1 entry.2).getD o 0 := by
  induction es generalizing e with
  | nil => cases there
  | cons first es ih =>
    have length := length_dirent first.1 first.2
    rw [List.flatMap_cons]
    cases e with
    | zero =>
      injection there with same
      rw [Nat.mul_zero, Nat.zero_add, List.getD_append _ _ _ _ (by omega), same]
    | succ e =>
      have index : 16 * (e + 1) + o - (dirent first.1 first.2).length = 16 * e + o := by omega
      rw [List.getD_append_right _ _ _ _ (by omega), index]
      exact ih there

theorem dirent_inum (small : inum < 2 ^ 16) (name : List Byte) :
    load 2 (fun o => (dirent inum name).getD o 0) 0 = inum := by
  have digits : load 2 (fun o => (dirent inum name).getD o 0) 0 = inum % 256 ^ 2 := by
    apply load_digits
    intro j below
    rcases (by omega : j = 0 ∨ j = 1) with rfl | rfl
    · rfl
    · rfl
  rw [digits]
  exact Nat.mod_eq_of_lt small

theorem dirent_name (inum : Nat) (short : name.length < dirsiz) :
    (fun o => (dirent inum name).getD (2 + o) 0) = fun o => name.getD o 0 := by
  funext o
  have length : ((List.range dirsiz).map fun i => name.getD i 0).length = dirsiz := by
    rw [List.length_map, List.length_range]
  have skip : (dirent inum name).getD (2 + o) 0 = ((List.range dirsiz).map fun i => name.getD i 0).getD o 0 := by
    rw [dirent, Nat.add_comm]
    rfl
  rw [skip]
  by_cases inside : o < dirsiz
  · rw [List.getD_eq_getElem _ _ (by omega), List.getElem_map, List.getElem_range]
  · rw [List.getD_eq_default _ _ (by omega), List.getD_eq_default _ _ (by omega)]

def Proper (es : List (Nat × List Byte)) : Prop :=
  ∀ entry ∈ es, entry.1 ≠ 0 ∧ entry.1 < 2 ^ 16 ∧ 0 ∉ entry.2 ∧ entry.2.length < dirsiz

section Directory

variable {disk : Disk} {dp : Dinode} {node : Node} {es : List (Nat × List Byte)} {elem : List Byte} (junk : Area)
  (holds : Holds disk dp.addrs node) (content : node.content = es.flatMap fun entry => dirent entry.1 entry.2)
  (sized : node.content.length ≤ dp.size) (small : dp.size < 2 ^ 32) (proper : Proper es) (terminated : 0 ∉ elem)
include holds content sized small proper terminated

theorem lookupFrom_step {e : Nat} {entry : Nat × List Byte} (there : es[e]? = some entry) :
    lookupFrom disk dp (nameBuffer junk elem) (16 * e) =
      if elem.take dirsiz = entry.2 then .ok (some entry.1) else lookupFrom disk dp (nameBuffer junk elem) (16 * (e + 1)) := by
  obtain ⟨inum, name⟩ := entry
  obtain ⟨used, fits, terminated', short⟩ := proper _ (List.mem_of_getElem? there)
  have room := holds.room
  have within : 16 * e + 16 ≤ node.content.length := by
    have below := (List.getElem?_eq_some_iff.mp there).1
    rw [content, length_flatMap_dirent]
    omega
  have read : readi disk dp (16 * e) 16 = .ok (dirent inum name) := by
    rw [holds.readi (by omega) (by omega) small]
    congr 1
    apply List.ext_getElem
    · rw [List.length_map, List.length_range, length_dirent]
    · intro o below below'
      rw [List.length_map, List.length_range] at below
      have byte := getD_flatMap_dirent es there below
      rw [List.getElem_map, List.getElem_range, content, byte, List.getD_eq_getElem _ _ below']
  have number := dirent_inum fits name
  rw [lookupFrom, if_neg (by omega), read]
  dsimp only [bind, Except.bind]
  rw [if_neg (fun wrong => wrong (length_dirent inum name)), number, if_neg used, dirent_name inum short]
  by_cases found : elem.take dirsiz = name
  · rw [if_pos found, if_pos ((namecmp_eq_zero junk terminated terminated' short).mpr found)]
    rfl
  · rw [if_neg found, if_neg ((namecmp_eq_zero junk terminated terminated' short).not.mpr found)]
    rfl

theorem lookupFrom_skip {m : Nat} (within : m ≤ es.length)
    (before : ∀ e < m, ∀ other, es[e]? = some other → elem.take dirsiz ≠ other.2) :
    lookupFrom disk dp (nameBuffer junk elem) 0 = lookupFrom disk dp (nameBuffer junk elem) (16 * m) := by
  induction m with
  | zero => rfl
  | succ m ih =>
    have here : es[m]? = some es[m] := List.getElem?_eq_getElem (by omega)
    rw [ih (by omega) fun e below => before e (by omega),
      lookupFrom_step junk holds content sized small proper terminated here, if_neg (before m (by omega) _ here)]

omit sized proper terminated in
theorem lookupFrom_beyond (buf : Area) (whole : dp.size % bsize = 0) {off : Nat} (past : 16 * es.length ≤ off)
    (aligned : off % 16 = 0) (found : Nat) : lookupFrom disk dp buf off ≠ .ok (some found) := by
  induction left : dp.size - off using Nat.strongRecOn generalizing off with
  | _ left ih =>
    rw [lookupFrom]
    by_cases beyond : dp.size ≤ off
    · rw [if_pos beyond]
      nofun
    have again : lookupFrom disk dp buf (off + 16) ≠ .ok (some found) := ih _ (by omega) (by omega) (by omega) rfl
    have inside : off + 16 ≤ dp.size := by
      unfold bsize at whole
      omega
    rw [if_neg beyond]
    by_cases mapped : off + 16 ≤ bsize * node.blocks.length
    · have length : node.content.length = 16 * es.length := by rw [content, length_flatMap_dirent]
      have free : load 2 (fun o => ((List.range 16).map fun i => node.content.getD (off + i) 0).getD o 0) 0 = 0 := by
        apply load_zero
        intro j below
        have bound : 0 + j < ((List.range 16).map fun i => node.content.getD (off + i) 0).length := by
          rw [List.length_map, List.length_range]
          omega
        rw [List.getD_eq_getElem _ _ bound, List.getElem_map, List.getElem_range, List.getD_eq_default _ _ (by omega)]
      rw [holds.readi mapped inside small]
      dsimp only [bind, Except.bind]
      rw [if_neg (fun wrong => wrong (by rw [List.length_map, List.length_range])), free, if_pos rfl]
      exact again
    · have unmapped : node.blocks.length ≤ off / bsize := by
        unfold bsize at *
        omega
      have absent : Kernel.address disk dp (off / bsize) = 0 := by
        rw [holds.address]
        exact holds.block_eq_zero.mpr unmapped
      obtain ⟨why, stuck⟩ : ∃ why, bmap disk dp (off / bsize) = .error why := by
        rw [bmap, if_pos absent]
        split
        · exact ⟨_, rfl⟩
        · exact ⟨_, rfl⟩
      have fails : readi disk dp off 16 = .error why := by
        have sum : (off + 16) % 2 ^ 32 = off + 16 := Nat.mod_eq_of_lt (by omega)
        rw [Kernel.readi, sum, if_neg (by omega), if_neg (by omega), Kernel.readLoop, if_neg (by decide), stuck]
        rfl
      rw [fails]
      intro wrong
      cases wrong

end Directory

theorem skipelem_none (junk : Area) : skipelem [slash] junk = none := rfl

theorem skipelem_nil (junk : Area) : skipelem [] junk = none := rfl

theorem skipelem_name (junk : Area) (plain : slash ∉ name) (some_ : name ≠ []) :
    skipelem (slash :: name) junk = some ([], nameBuffer junk name) := by
  obtain ⟨c, l, rfl⟩ := List.exists_cons_of_ne_nil some_
  have differs : ∀ d ∈ c :: l, (d != slash) = true := by
    intro d there
    rw [bne_iff_ne]
    exact fun same => plain (same ▸ there)
  have first : (c == slash) = false := by
    have other := differs c List.mem_cons_self
    rw [bne, Bool.not_eq_true'] at other
    exact other
  have start : (slash :: c :: l).dropWhile (· == slash) = c :: l := by
    rw [List.dropWhile_cons_of_pos (by rfl), List.dropWhile_cons_of_neg (by rw [first]; decide)]
  have elem : (c :: l).takeWhile (· != slash) = c :: l := List.takeWhile_eq_self_iff.mpr differs
  have rest : (c :: l).dropWhile (· != slash) = [] := List.dropWhile_eq_nil_iff.mpr differs
  rw [skipelem, start]
  simp only [elem, rest]
  rfl

theorem namexLoop_none {name : Area} (last : skipelem path name = none) :
    namexLoop disk inum path name = .ok (some inum) := by
  rw [namexLoop]
  split
  · rfl
  · rename_i more
    rw [last] at more
    cases more

theorem namexLoop_some {rest : List Byte} {name buf : Area}
    (more : skipelem path name = some (rest, buf)) : namexLoop disk inum path name = (do
      let ip ← ilock disk inum
      if ip.type ≠ tDir then return none
      match ← dirlookup disk ip buf with
      | none => return none
      | some next => namexLoop disk next rest buf) := by
  rw [namexLoop]
  split
  · rename_i last
    rw [more] at last
    cases last
  · rename_i rest' buf' here
    rw [more] at here
    cases here
    rfl

theorem File.name_subset (file : File) {c : Byte} (there : c ∈ file.name) : c ∈ shortname file.path := by
  rw [File.name] at there
  split at there
  · exact List.mem_of_mem_tail there
  · exact there

theorem File.name_terminated (file : File) : 0 ∉ file.name := fun zero => file.terminated (mem_shortname (file.name_subset zero))

theorem entryList_file (there : names[i]? = some name) :
    (entryList names)[i + 2]? = some (i + 2, name.take (dirsiz - 1)) := by
  rw [entryList, List.getElem?_cons_succ, List.getElem?_cons_succ, List.getElem?_map, List.getElem?_zipIdx, there, Nat.add_comm]
  rfl

theorem mem_entryList (there : entry ∈ entryList names) :
    entry = (rootIno, chars ".") ∨ entry = (rootIno, chars "..") ∨
      ∃ i name, names[i]? = some name ∧ entry = (i + 2, name.take (dirsiz - 1)) := by
  rw [entryList, List.mem_cons, List.mem_cons] at there
  rcases there with dot | dotdot | file
  · exact .inl dot
  · exact .inr (.inl dotdot)
  · obtain ⟨⟨name, inum⟩, member, rfl⟩ := List.mem_map.mp file
    obtain ⟨low, here⟩ := List.mk_mem_zipIdx_iff_le_and_getElem?_sub.mp member
    refine .inr (.inr ⟨inum - 2, name, here, ?_⟩)
    rw [Nat.sub_add_cancel low]

namespace Finished

variable {s : State} {root : Node} {nodes : List Node} {files : List File} {i : Nat} {file : File}

section Finished

variable (finished : Finished s root nodes files)

include finished

theorem proper : Proper (entryList (files.map File.name)) := by
  intro entry there
  rcases mem_entryList there with rfl | rfl | ⟨i, name, here, rfl⟩
  · exact ⟨by decide, by decide, by decide, by decide⟩
  · exact ⟨by decide, by decide, by decide, by decide⟩
  · rw [List.getElem?_map] at here
    obtain ⟨file, present, rfl⟩ := Option.map_eq_some_iff.mp here
    have bound := (List.getElem?_eq_some_iff.mp present).1
    have few : (root :: nodes).length < 200 := finished.image.few
    have count := finished.copies.length_eq
    rw [List.length_cons] at few
    refine ⟨?_, ?_, ?_, ?_⟩
    · exact Nat.succ_ne_zero _
    · change i + 2 < 2 ^ 16
      omega
    · exact fun zero => file.name_terminated (List.mem_of_mem_take zero)
    · rw [List.length_take]
      exact Nat.lt_of_le_of_lt (Nat.min_le_left _ _) (by decide)

theorem root_size : root.content.length ≤ root.size ∧ root.size < 2 ^ 32 ∧ root.size % bsize = 0 := by
  have holds := (finished.image.inodes 0 root rfl).holds
  have room := holds.room
  have short : root.blocks.length ≤ 268 := holds.short
  rw [finished.size]
  unfold bsize at *
  omega

theorem root_holds : Stored s.disk (dinode s.disk rootIno) root := by
  rw [finished.image.dinode]
  exact finished.image.inodes 0 root rfl

theorem namei (cwd : Nat) (junk : Area) {name : List Byte} (plain : slash ∉ name) (some_ : name ≠ []) :
    namei s.disk cwd (slash :: name) junk = lookupFrom s.disk (dinode s.disk rootIno) (nameBuffer junk name) 0 := by
  have stored := finished.root_holds
  have type : (dinode s.disk rootIno).type = tDir := stored.type.trans finished.type
  have locked : ilock s.disk rootIno = .ok (dinode s.disk rootIno) := by
    rw [ilock, type, if_neg (by decide)]
  have searched : dirlookup s.disk (dinode s.disk rootIno) (nameBuffer junk name) =
      lookupFrom s.disk (dinode s.disk rootIno) (nameBuffer junk name) 0 := by
    rw [dirlookup, type, if_neg (fun wrong => wrong rfl)]
  rw [Kernel.namei, List.head?_cons, if_pos rfl, namexLoop_some (skipelem_name junk plain some_), locked]
  dsimp only [bind, Except.bind]
  rw [if_neg (fun wrong => wrong type), searched]
  cases lookupFrom s.disk (dinode s.disk rootIno) (nameBuffer junk name) 0 with
  | error why => rfl
  | ok found =>
    cases found with
    | none => rfl
    | some next => exact namexLoop_none (skipelem_nil _)

end Finished

section Lookup

variable (finished : Finished s root nodes files) (junk : Area) {name : List Byte}
include finished

theorem lookup_first (terminated : 0 ∉ name) {m : Nat} {entry : Nat × List Byte}
    (there : (entryList (files.map File.name))[m]? = some entry) (match_ : name.take dirsiz = entry.2)
    (before : ∀ e < m, ∀ other, (entryList (files.map File.name))[e]? = some other → name.take dirsiz ≠ other.2) :
    lookupFrom s.disk (dinode s.disk rootIno) (nameBuffer junk name) 0 = .ok (some entry.1) := by
  have stored := finished.root_holds
  have content := finished.content.trans (directory_eq _)
  obtain ⟨sized, small, _⟩ := finished.root_size
  rw [← stored.size] at sized small
  have bound := (List.getElem?_eq_some_iff.mp there).1
  rw [lookupFrom_skip junk stored.holds content sized small finished.proper terminated bound.le before,
    lookupFrom_step junk stored.holds content sized small finished.proper terminated there, if_pos match_]

theorem lookup_none (terminated : 0 ∉ name) (absent : ∀ entry ∈ entryList (files.map File.name), name.take dirsiz ≠ entry.2)
    (inum : Nat) : lookupFrom s.disk (dinode s.disk rootIno) (nameBuffer junk name) 0 ≠ .ok (some inum) := by
  have stored := finished.root_holds
  have content := finished.content.trans (directory_eq _)
  obtain ⟨sized, small, whole⟩ := finished.root_size
  rw [← stored.size] at sized small whole
  rw [lookupFrom_skip junk stored.holds content sized small finished.proper terminated (Nat.le_refl _)
    fun e _ other here => absent other (List.mem_of_getElem? here)]
  exact lookupFrom_beyond stored.holds content small _ whole (Nat.le_refl _) (by omega) inum

theorem long_name (cwd : Nat) (plain : slash ∉ name) (terminated : 0 ∉ name) (long : dirsiz ≤ name.length) (inum : Nat) :
    Kernel.namei s.disk cwd (slash :: name) junk ≠ .ok (some inum) := by
  have nonempty : name ≠ [] := by
    intro empty
    rw [empty] at long
    exact absurd long (by decide)
  rw [finished.namei cwd junk plain nonempty]
  apply finished.lookup_none junk terminated
  intro entry there same
  have short := (finished.proper entry there).2.2.2
  rw [← same, List.length_take] at short
  omega

end Lookup

/-- The kernel finds the `i`-th file under its name, with the inode that `mkfs` gave it, and reads its bytes. -/
def Found (s : State) (cwd : Nat) (junk : Area) (i : Nat) (file : File) : Prop :=
  Kernel.namei s.disk cwd (slash :: file.name) junk = .ok (some (i + 2)) ∧
    (dinode s.disk (i + 2)).size = file.content.length ∧
    Kernel.readi s.disk (dinode s.disk (i + 2)) 0 (dinode s.disk (i + 2)).size = .ok file.content

/-- A name that `mkfs` and the kernel cut alike and that is no entry of an empty directory. -/
def Usable (name : List Byte) : Prop := name ≠ [] ∧ name.length < dirsiz ∧ name ≠ chars "." ∧ name ≠ chars ".."

variable (finished : Finished s root nodes files)

include finished

theorem contents (there : files[i]? = some file) :
    (dinode s.disk (i + 2)).size = file.content.length ∧
      Kernel.readi s.disk (dinode s.disk (i + 2)) 0 (dinode s.disk (i + 2)).size = .ok file.content := by
  have bound := (List.getElem?_eq_some_iff.mp there).1
  rw [finished.copies.length_eq] at bound
  have here : nodes[i]? = some nodes[i] := List.getElem?_eq_getElem bound
  obtain ⟨file', there', _, content, sized⟩ := finished.copies.node here
  rw [there] at there'
  injection there' with same
  subst same
  have stored := finished.image.inodes (i + 1) nodes[i] here
  have size : (dinode s.disk (i + 2)).size = file.content.length := by
    rw [finished.image.dinode, stored.size, sized, content]
  refine ⟨size, ?_⟩
  have holds : Holds s.disk (dinode s.disk (i + 2)).addrs nodes[i] := by
    rw [finished.image.dinode]
    exact stored.holds
  have room := holds.room
  have short : nodes[i].blocks.length ≤ 268 := holds.short
  rw [content] at room
  rw [holds.readi (by omega) (by omega) (by unfold bsize at room; omega), size, content]
  congr 1
  apply List.ext_getElem
  · rw [List.length_map, List.length_range]
  · intro o below below'
    rw [List.getElem_map, List.getElem_range, Nat.zero_add, List.getD_eq_getElem _ _ below']

theorem usable_found (apart : files.Pairwise fun f g => f.name.take dirsiz ≠ g.name.take dirsiz)
    (usable : ∀ file ∈ files, Usable file.name) (cwd : Nat) (junk : Area) (there : files[i]? = some file) :
    Found s cwd junk i file := by
  have member := List.mem_of_getElem? there
  obtain ⟨nonempty, short, notDot, notDotdot⟩ := usable file member
  have plain : slash ∉ file.name := fun bad => finished.plain file member (file.name_subset bad)
  have whole : file.name.take dirsiz = file.name := List.take_of_length_le (Nat.le_of_lt short)
  have cut : ∀ other ∈ files, other.name.take (dirsiz - 1) = other.name := by
    intro other present
    have fits := (usable other present).2.1
    exact List.take_of_length_le (by omega)
  have named : (files.map File.name)[i]? = some file.name := by rw [List.getElem?_map, there]; rfl
  refine ⟨?_, finished.contents there⟩
  rw [finished.namei cwd junk plain nonempty]
  apply finished.lookup_first junk file.name_terminated (entryList_file named)
  · rw [whole, cut file member]
  intro e before other here
  rw [whole]
  match e with
  | 0 =>
    injection here with same
    rw [← same]
    exact notDot
  | 1 =>
    injection here with same
    rw [← same]
    exact notDotdot
  | j + 2 =>
    have earlier : j < i := by omega
    have bound := (List.getElem?_eq_some_iff.mp there).1
    have present : files[j]? = some files[j] := List.getElem?_eq_getElem (by omega)
    have label : (files.map File.name)[j]? = some files[j].name := by rw [List.getElem?_map, present]; rfl
    rw [entryList_file label] at here
    injection here with same
    have differs := List.pairwise_iff_getElem.mp apart j i (by omega) bound earlier
    have self : files[i] = file := (List.getElem?_eq_some_iff.mp there).2
    have fits := (usable _ (List.mem_of_getElem? present)).2.1
    rw [← same, cut _ (List.mem_of_getElem? present)]
    rw [self, whole, List.take_of_length_le (Nat.le_of_lt fits)] at differs
    exact fun equal => differs equal.symm

theorem found_usable {cwd : Nat} {junk : Area}
    (there : files[i]? = some file) (found : Found s cwd junk i file) : Usable file.name := by
  have plain : slash ∉ file.name := fun bad => finished.plain file (List.mem_of_getElem? there) (file.name_subset bad)
  have result := found.1
  have nonempty : file.name ≠ [] := by
    intro empty
    rw [empty, Kernel.namei, List.head?_cons, if_pos rfl, namexLoop_none (skipelem_none junk)] at result
    injection result with same
    injection same with same
    exact absurd same (by unfold rootIno; omega)
  refine ⟨nonempty, ?_, ?_, ?_⟩
  · by_contra long
    exact finished.long_name junk cwd plain file.name_terminated (by omega) _ result
  · intro dot
    have first := finished.lookup_first junk (m := 0) file.name_terminated rfl (by rw [dot]; rfl)
      fun e before => absurd before (Nat.not_lt_zero e)
    rw [finished.namei cwd junk plain nonempty, first] at result
    injection result with same
    injection same with same
    exact absurd same (by unfold rootIno; omega)
  · intro dotdot
    have second := finished.lookup_first junk (m := 1) file.name_terminated rfl (by rw [dotdot]; rfl) (by
      intro e before other here
      have zero : e = 0 := by omega
      rw [zero] at here
      injection here with same
      rw [← same, dotdot]
      decide)
    rw [finished.namei cwd junk plain nonempty, second] at result
    injection result with same
    injection same with same
    exact absurd same (by unfold rootIno; omega)

end Finished

/-- The kernel finds every file of an image under its name and with its contents exactly if each name is one that `mkfs` does
    not cut shorter than the kernel does. -/
theorem files_found {s : State} (files : List File) (few : files.length < ninodes - 1) (accepted : main files = .ok s)
    (apart : files.Pairwise fun f g => f.name.take dirsiz ≠ g.name.take dirsiz) (cwd : Nat) (junk : Area) :
    (∀ i file, files[i]? = some file → Finished.Found s cwd junk i file) ↔ ∀ file ∈ files, Finished.Usable file.name := by
  obtain ⟨root, nodes, finished⟩ := (main_outcome files few).returned accepted
  constructor
  · intro found file member
    obtain ⟨i, there⟩ := List.getElem?_of_mem member
    exact finished.found_usable there (found i file there)
  · intro usable i file there
    exact finished.usable_found apart usable cwd junk there

theorem accepts_one {file : File} (fine : ¬Refused [file]) :
    ∃ s, main [file] = .ok s ∧ ∃ root nodes, Finished s root nodes [file] :=
  (main_outcome [file] (by rw [List.length_singleton]; decide)).succeeds fine

theorem files_found_one : ∃ s, main [sampleFile] = .ok s ∧ Finished.Found s 1 (fun _ => 1) 0 sampleFile := by
  have fine : ¬Refused [sampleFile] := by
    unfold Refused
    decide
  obtain ⟨s, accepted, _⟩ := accepts_one fine
  have usable : ∀ file ∈ [sampleFile], Finished.Usable file.name := by
    intro file there
    rw [List.mem_singleton.mp there]
    exact ⟨by decide, by decide, by decide, by decide⟩
  exact ⟨s, accepted, (files_found [sampleFile] (by decide) accepted (List.pairwise_singleton _ _) 1 fun _ => 1).mpr usable 0 _ rfl⟩

def longFile : File where
  path := chars "user/_abcdefghijklmn"
  reads := []
  terminated := by decide
  blocks := no_reads

theorem long_name_lost : ∃ s, main [longFile] = .ok s ∧
    ∀ cwd junk inum, Kernel.namei s.disk cwd (slash :: longFile.name) junk ≠ .ok (some inum) := by
  have fine : ¬Refused [longFile] := by
    unfold Refused
    decide
  obtain ⟨s, accepted, root, nodes, finished⟩ := accepts_one fine
  exact ⟨s, accepted, fun cwd junk inum =>
    finished.long_name junk cwd (by decide) longFile.name_terminated (by decide) inum⟩

end OShard.Mkfs
