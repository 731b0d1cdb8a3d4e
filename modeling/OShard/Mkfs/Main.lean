import OShard.Mkfs.Image

/-! The run of `main`: which image it leaves for which files, and when it stops. -/

namespace OShard.Mkfs

open Bytes

def entries (names : List (List Byte)) : List Byte :=
  (names.zipIdx 2).flatMap fun entry => dirent entry.2 (entry.1.take (dirsiz - 1))

def directory (names : List (List Byte)) : List Byte :=
  dirent rootIno (chars ".") ++ dirent rootIno (chars "..") ++ entries names

def Copies (files : List File) (nodes : List Node) : Prop :=
  List.Forall₂ (fun file node => node.type = tFile ∧ node.content = File.content file ∧ node.size = node.content.length)
    files nodes

theorem Copies.node {files : List File} {nodes : List Node} (copies : Copies files nodes) {i : Nat} {node : Node}
    (there : nodes[i]? = some node) : ∃ file, files[i]? = some file ∧ node.type = tFile ∧ node.content = file.content ∧
      node.size = node.content.length := by
  induction copies generalizing i with
  | nil => cases there
  | cons first _ ih =>
    cases i with
    | zero =>
      injection there with same
      subst same
      exact ⟨_, rfl, first⟩
    | succ i => exact ih there

def cost (files : List File) : Nat := (files.map fun file => 2 + 4 * file.reads.length).sum

def Refused (files : List File) : Prop :=
  (∃ file ∈ files, slash ∈ shortname file.path ∨ maxfile * bsize < file.content.length) ∨ fssize < nmeta + 4 + cost files

structure Built (s : State) (root : Node) (nodes : List Node) (files : List File) : Prop where
  image : Image s (root :: nodes)
  copies : Copies files nodes
  type : root.type = tDir
  content : root.content = directory (files.map File.name)
  size : root.size = root.content.length
  plain : ∀ file ∈ files, slash ∉ shortname file.path
  cost : s.freeblock ≤ nmeta + 4 + cost files

theorem turns_le (off : Nat) {n : Nat} (small : n ≤ bsize) : turns off n ≤ 2 := by
  rw [turns]
  split
  · omega
  · unfold bsize at *
    omega

theorem turns_dirent (k : Nat) : turns (16 * k) 16 = 1 := by
  rw [turns, if_neg (by omega)]
  unfold bsize
  omega

theorem entries_concat (names : List (List Byte)) (name : List Byte) :
    entries (names ++ [name]) = entries names ++ dirent (2 + names.length) (name.take (dirsiz - 1)) := by
  rw [entries, entries, List.zipIdx_append, List.flatMap_append]
  congr 1

theorem length_entries (names : List (List Byte)) : (entries names).length = 16 * names.length := by
  induction names using List.reverseRecOn with
  | nil => rfl
  | append_singleton names name ih =>
    rw [entries_concat, List.length_append, List.length_append, ih, length_dirent, Nat.mul_add]
    rfl

theorem length_directory (names : List (List Byte)) : (directory names).length = 16 * (names.length + 2) := by
  rw [directory, List.length_append, List.length_append, length_dirent, length_dirent, length_entries]
  omega

theorem cost_concat (files : List File) (file : File) : cost (files ++ [file]) = cost files + (2 + 4 * file.reads.length) := by
  rw [cost, cost, List.map_append, List.sum_append]
  rfl

theorem Refused.more {files rest : List File} (refused : Refused files) : Refused (files ++ rest) := by
  rcases refused with ⟨file, there, bad⟩ | full
  · exact .inl ⟨file, List.mem_append_left _ there, bad⟩
  · right
    have sum : cost (files ++ rest) = cost files + cost rest := by
      rw [cost, cost, cost, List.map_append, List.sum_append]
    omega

theorem Image.reads {s : State} {pre : List Node} {node : Node} (reads : List (List Byte)) (image : Image s (pre ++ [node]))
    (typed : node.type < 2 ^ 16) (sized : node.size = node.content.length) (blocks : ∀ r ∈ reads, r ≠ [] ∧ r.length ≤ bsize) :
    Outcome (reads.foldlM (fun s buf => s.iappend (pre.length + 1) buf) s)
      (maxfile * bsize < node.content.length + reads.flatten.length ∨ fssize < s.freeblock + 4 * reads.length) fun s' =>
      ∃ node', Image s' (pre ++ [node']) ∧ node'.type = node.type ∧ node'.content = node.content ++ reads.flatten ∧
        node'.size = node'.content.length ∧ s'.freeblock ≤ s.freeblock + 4 * reads.length := by
  induction reads generalizing s node with
  | nil =>
    refine ⟨node, image, rfl, ?_, sized, Nat.le_add_right _ _⟩
    rw [List.flatten_nil, List.append_nil]
  | cons r reads ih =>
    have few := turns_le node.content.length (blocks r List.mem_cons_self).2
    rw [List.foldlM_cons, List.flatten_cons, List.length_cons, List.length_append]
    have first := image.iappend (p := r) typed sized
    apply Outcome.bind (first.weaken _ fun _ => id)
    · rintro s' ⟨node', image', type', content', sized', cost'⟩
      have rest := ih image' (type' ▸ typed) sized' fun r there => blocks r (List.mem_cons_of_mem _ there)
      rw [content', List.length_append] at rest
      apply rest.weaken
      · intro stops
        omega
      · rintro s'' ⟨node'', image'', type'', content'', sized'', cost''⟩
        refine ⟨node'', image'', type''.trans type', ?_, sized'', by omega⟩
        rw [content'', List.append_assoc]
    · rintro (big | full)
      · left
        omega
      · right
        omega

theorem Built.addFile {s : State} {root : Node} {nodes : List Node} {files : List File} (built : Built s root nodes files)
    (file : File) (few : files.length + 1 < ninodes - 1) :
    Outcome (s.addFile rootIno file) (Refused (files ++ [file])) fun s' =>
      ∃ root' nodes', Built s' root' nodes' (files ++ [file]) := by
  have bound : ninodes = 200 := rfl
  have count : files.length = nodes.length := built.copies.length_eq
  have price := cost_concat files file
  have paid := built.cost
  rw [State.addFile]
  by_cases slashed : slash ∈ shortname file.path
  · rw [if_pos slashed]
    exact .inl ⟨file, List.mem_append_right _ List.mem_cons_self, .inl slashed⟩
  rw [if_neg slashed]
  have room : (root :: nodes).length + 1 < ninodes := by
    rw [List.length_cons]
    omega
  obtain ⟨s₁, ran, image₁, same⟩ := built.image.ialloc room (show tFile < 2 ^ 16 by decide)
  have length : root.content.length = 16 * (files.length + 2) := by
    rw [built.content, length_directory, List.length_map]
  have inum : (root :: nodes).length + 1 = 2 + files.length := by
    rw [List.length_cons]
    omega
  change Outcome (s.ialloc tFile >>= _) _ _
  rw [ran]
  change Outcome (s₁.iappend 1 (dirent ((root :: nodes).length + 1) _) >>= _) _ _
  have image₁' : Image s₁ ([] ++ root :: (nodes ++ [Image.fresh tFile])) := image₁
  have entry := image₁'.iappend (p := dirent ((root :: nodes).length + 1) (file.name.take (dirsiz - 1)))
    (by rw [built.type]; decide) built.size
  have one : turns root.content.length (dirent ((root :: nodes).length + 1) (file.name.take (dirsiz - 1))).length = 1 := by
    rw [length, length_dirent, turns_dirent]
  apply Outcome.bind (entry.weaken _ fun _ => id)
  · rintro s₂ ⟨root', image₂, type₂, content₂, sized₂, cost₂⟩
    have image₂' : Image s₂ ((root' :: nodes) ++ [Image.fresh tFile]) := image₂
    have rest := image₂'.reads file.reads (by decide : tFile < 2 ^ 16) rfl file.blocks
    rw [one] at cost₂
    apply rest.weaken
    · rintro (big | full)
      · left
        change _ < 0 + file.content.length at big
        rw [Nat.zero_add] at big
        exact ⟨file, List.mem_append_right _ List.mem_cons_self, .inr big⟩
      · right
        omega
    · rintro s₃ ⟨node, image₃, type₃, content₃, sized₃, cost₃⟩
      refine ⟨root', nodes ++ [node], image₃, ?_, type₂.trans built.type, ?_, sized₂, ?_, by omega⟩
      · exact List.rel_append built.copies (.cons ⟨type₃, content₃, sized₃⟩ .nil)
      · rw [content₂, built.content, inum, List.map_append, directory, directory, List.map_singleton, entries_concat,
          List.length_map, List.append_assoc, List.append_assoc]
      · intro other there
        rcases List.mem_append.mp there with old | new
        · exact built.plain other old
        · rw [List.mem_singleton.mp new]
          exact slashed
  · rintro (big | full)
    · rw [length, length_dirent] at big
      unfold maxfile bsize nindirect ndirect bsize at big
      omega
    · rw [one] at full
      right
      omega

theorem Built.addFiles {s : State} {root : Node} {nodes : List Node} {files : List File} (built : Built s root nodes files)
    (rest : List File) (few : files.length + rest.length < ninodes - 1) :
    Outcome (rest.foldlM (State.addFile rootIno) s) (Refused (files ++ rest)) fun s' =>
      ∃ root' nodes', Built s' root' nodes' (files ++ rest) := by
  induction rest generalizing s root nodes files with
  | nil =>
    rw [List.append_nil]
    exact ⟨root, nodes, built⟩
  | cons file rest ih =>
    have joined : files ++ file :: rest = (files ++ [file]) ++ rest := by rw [List.append_assoc, List.singleton_append]
    rw [List.length_cons] at few
    rw [List.foldlM_cons, joined]
    apply Outcome.bind ((built.addFile file (by omega)).weaken Refused.more fun _ => id)
    rintro s' ⟨root', nodes', built'⟩
    apply ih built'
    rw [List.length_append, List.length_singleton]
    omega

theorem format_blank {b : Nat} (away : b ≠ 1) : format.disk b = pack zeroes := by
  change Function.update (fun _ => pack zeroes) 1 (pack (blit zeroes 0 sb.bytes)) b = _
  rw [Function.update_of_ne away]

theorem image_format : Image format [] where
  count := rfl
  few := by decide
  inodes := by
    intro i node there
    cases there
  vacant := by
    intro inum below _
    have away : sb.iblock inum ≠ 1 := Nat.ne_of_gt (iblock_range below).1
    apply load_zero
    intro j _
    rw [format_blank away]
    exact view_zeroes _
  owned := List.Perm.refl _
  start := Nat.le_refl _
  within := by decide
  clean := by
    intro b beyond o
    have away : b ≠ 1 := by
      intro same
      rw [same] at beyond
      exact absurd beyond (by decide)
    rw [format_blank away]
    exact view_zeroes o
  super := rfl

theorem built_root : ∃ s₁ s₂ s₃ root, format.ialloc tDir = .ok (rootIno, s₁) ∧
    s₁.iappend rootIno (dirent rootIno (chars ".")) = .ok s₂ ∧ s₂.iappend rootIno (dirent rootIno (chars "..")) = .ok s₃ ∧
      Built s₃ root [] [] := by
  obtain ⟨s₁, made, (image₁ : Image s₁ ([] ++ [Image.fresh tDir])), same⟩ :=
    image_format.ialloc (by decide) (show tDir < 2 ^ 16 by decide)
  have start : s₁.freeblock = nmeta := same
  have sectors : nmeta + 4 ≤ fssize := by decide
  have one : turns 0 (dirent rootIno (chars ".")).length = 1 := by
    rw [length_dirent]
    exact turns_dirent 0
  have two : turns 16 (dirent rootIno (chars "..")).length = 1 := by
    rw [length_dirent]
    exact turns_dirent 1
  have first := image₁.iappend (p := dirent rootIno (chars ".")) (by decide : tDir < 2 ^ 16) rfl
  obtain ⟨s₂, ran₂, root, image₂, type₂, (content₂ : root.content = dirent rootIno (chars ".")), sized₂,
      (cost₂ : s₂.freeblock ≤ s₁.freeblock + 2 * turns 0 _)⟩ := first.succeeds (by
    rintro (big | full)
    · change _ < 0 + _ at big
      rw [length_dirent] at big
      exact absurd big (by decide)
    · change fssize < s₁.freeblock + 2 * turns 0 _ at full
      rw [one] at full
      omega)
  have length : root.content.length = 16 := by rw [content₂, length_dirent]
  rw [one] at cost₂
  have second := image₂.iappend (p := dirent rootIno (chars "..")) (by rw [type₂]; decide) sized₂
  rw [length, two] at second
  obtain ⟨s₃, ran₃, root', image₃, type₃, content₃, sized₃, cost₃⟩ := second.succeeds (by
    rintro (big | full)
    · rw [length, length_dirent] at big
      exact absurd big (by decide)
    · rw [length, two] at full
      omega)
  refine ⟨s₁, s₂, s₃, root', made, ran₂, ran₃, image₃, .nil, type₃.trans type₂, ?_, sized₃, nofun, ?_⟩
  · rw [content₃, content₂]
    exact (List.append_nil _).symm
  · change s₃.freeblock ≤ nmeta + 4 + 0
    omega

structure Finished (s : State) (root : Node) (nodes : List Node) (files : List File) : Prop where
  image : Image s (root :: nodes)
  copies : Copies files nodes
  type : root.type = tDir
  content : root.content = directory (files.map File.name)
  size : root.size = (root.content.length / bsize + 1) * bsize
  plain : ∀ file ∈ files, slash ∉ shortname file.path
  bitmap : s.disk sb.bmapstart = pack (view (State.bitmap s.freeblock))

theorem Image.wsect {s : State} {nodes : List Node} (image : Image s nodes) (buf : Area) :
    Image (s.wsect sb.bmapstart buf) nodes := by
  have metadata : sb.bmapstart < nmeta := by decide
  have kept : ∀ b ≠ sb.bmapstart, (s.wsect sb.bmapstart buf).disk b = s.disk b :=
    fun b away => Function.update_of_ne away _ _
  have inodes : ∀ inum < ninodes, inode (s.wsect sb.bmapstart buf).disk inum = inode s.disk inum := by
    intro inum below
    rw [inode, inode, kept _ (Nat.ne_of_lt (iblock_range below).2)]
  refine ⟨image.count, image.few, ?_, ?_, image.owned, image.start, image.within, ?_, ?_⟩
  · intro i node there
    have below : i + 1 < ninodes := by
      have bound := (List.getElem?_eq_some_iff.mp there).1
      have few := image.few
      omega
    rw [inodes _ below]
    apply (image.inodes i node there).congr _ (Dinode.Agrees.refl _)
    intro b theirs
    have above := (image.owned_range (List.mem_of_getElem? there) theirs).1
    exact kept b (by omega)
  · intro inum below none
    rw [inodes inum below]
    exact image.vacant inum below none
  · intro b beyond o
    have above : s.freeblock ≤ b := beyond
    have start := image.start
    rw [kept b (by omega)]
    exact image.clean b above o
  · rw [kept 1 (by decide)]
    exact image.super

theorem main_outcome (files : List File) (few : files.length < ninodes - 1) :
    Outcome (main files) (Refused files) fun s => ∃ root nodes, Finished s root nodes files := by
  obtain ⟨s₁, s₂, s₃, root, made, dot, dotdot, built⟩ := built_root
  have added := built.addFiles files (by rw [List.length_nil]; omega)
  rw [main, made]
  change Outcome (s₁.iappend rootIno (dirent rootIno (chars ".")) >>= _) _ _
  rw [dot]
  change Outcome (s₂.iappend rootIno (dirent rootIno (chars "..")) >>= _) _ _
  rw [dotdot]
  change Outcome (files.foldlM (State.addFile rootIno) s₃ >>= _) _ _
  apply Outcome.bind added
  rintro s ⟨root, nodes, built⟩
  have image : Image s ([] ++ root :: nodes) := built.image
  have room : (root.content.length / bsize + 1) * bsize < 2 ^ 32 := by
    have length := length_directory (files.map File.name)
    have bound : ninodes = 200 := rfl
    rw [List.length_map] at length
    rw [built.content, List.nil_append, length]
    unfold bsize
    omega
  let grown : Node := { root with size := (root.content.length / bsize + 1) * bsize }
  have stored := image.stored
  have sized : (inode s.disk rootIno).size = root.content.length := stored.size.trans built.size
  let din : Dinode := { inode s.disk rootIno with size := (root.content.length / bsize + 1) * bsize }
  have fixed : Image (s.putInode rootIno din) (grown :: nodes) := by
    have typed : root.type < 2 ^ 16 := by rw [built.type]; decide
    have written : Stored s.disk din grown := ⟨stored.type, rfl, stored.holds.resize _, stored.tight⟩
    exact image.replace (Grows.refl s root.owned) image.within written typed room
  have bits : s.freeblock < bsize * 8 := Nat.lt_of_le_of_lt image.within (by decide)
  have wrote : s.winode rootIno { inode s.disk rootIno with size := ((inode s.disk rootIno).size / bsize + 1) * bsize } =
      .ok (s.putInode rootIno din) := by
    rw [winode_ok s (by decide), sized]
  rw [rinode_ok s (by decide)]
  change Outcome (s.winode rootIno _ >>= fun s => s.balloc s.freeblock) _ _
  rw [wrote]
  change Outcome ((s.putInode rootIno din).balloc s.freeblock) _ _
  rw [State.balloc, if_pos bits]
  exact ⟨grown, nodes, fixed.wsect _, built.copies, built.type, built.content, rfl, built.plain,
    State.wsect_self _ _ _⟩

end OShard.Mkfs
