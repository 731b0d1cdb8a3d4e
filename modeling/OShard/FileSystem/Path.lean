import OShard.Mkfs.Names

namespace OShard.Paths

open Bytes Mkfs Mkfs.Kernel

section Model

/-- The live and the free entries of a directory: the inode number, and the name in `dirsiz` bytes. -/
abbrev Entries := List (Nat × Area)

/-- The entries of each directory; `none` for an inode that is no directory. -/
abbrev Tree := Nat → Option Entries

def dirlookup (name : Area) : Entries → Option Nat
  | [] => none
  | (inum, entry) :: rest =>
    if inum = 0 then dirlookup name rest else if namecmp name entry = 0 then some inum else dirlookup name rest

/-- The loop of `namex`: the inode, and what `name` holds in the end. -/
def namexLoop (tree : Tree) (parent : Bool) (ip : Nat) (path : List Byte) (name : Area) : Option Nat × Area :=
  match _skipped : skipelem path name with
  | none => (if parent then none else some ip, name)
  | some (rest, name) =>
    match tree ip with
    | none => (none, name)
    | some entries =>
      if parent ∧ rest = [] then (some ip, name)
      else match dirlookup name entries with
        | none => (none, name)
        | some next => namexLoop tree parent next rest name
termination_by path.length
decreasing_by exact skipelem_shorter ‹_›

def start (cwd : Nat) (path : List Byte) : Nat := if path.head? = some slash then rootIno else cwd

def namei (tree : Tree) (cwd : Nat) (path : List Byte) (junk : Area) : Option Nat :=
  (namexLoop tree false (start cwd path) path junk).1

def nameiparent (tree : Tree) (cwd : Nat) (path : List Byte) (name : Area) : Option Nat × Area :=
  namexLoop tree true (start cwd path) path name

end Model

section Names

/-- What a directory has under a name: the first live entry with it. -/
def named (entries : Entries) (c : List Byte) : Option Nat :=
  (entries.find? fun e => e.1 ≠ 0 ∧ nameText e.2 = c).map Prod.fst

theorem dirlookup_eq (name : Area) (entries : Entries) : dirlookup name entries = named entries (nameText name) := by
  induction entries with
  | nil => rfl
  | cons e entries ih =>
    have same : namecmp name e.2 = 0 ↔ nameText e.2 = nameText name := strncmp_iff.trans eq_comm
    rw [dirlookup, ih, named, named, List.find?_cons]
    grind

end Names

section Components

/-- The non-empty parts of a path between its slashes, as far as an entry holds them. -/
def components (path : List Byte) : List (List Byte) :=
  ((path.splitOn slash).filter (· ≠ [])).map (List.take dirsiz)

theorem components_elem {elem : List Byte} (plain : slash ∉ elem) (some_ : elem ≠ []) (l : List Byte) :
    components (elem ++ slash :: l) = elem.take dirsiz :: components l := by
  rw [components, List.splitOn_append_cons_self_of_not_mem plain, List.filter_cons_of_pos (by simpa using some_)]
  rfl

theorem components_last {elem : List Byte} (plain : slash ∉ elem) (some_ : elem ≠ []) :
    components elem = [elem.take dirsiz] := by
  rw [components, List.splitOn_eq_singleton plain, List.filter_cons_of_pos (by simpa using some_)]
  rfl

theorem components_drop (l : List Byte) : components (l.dropWhile (· == slash)) = components l := by
  induction l with
  | nil => rfl
  | cons c l ih =>
    rw [List.dropWhile_cons]
    split
    · rename_i same
      have skipped := List.splitOn_append_cons_self_of_not_mem (List.not_mem_nil (a := slash)) l
      rw [ih, eq_of_beq same, components, components, ← List.nil_append (slash :: l), skipped,
        List.filter_cons_of_neg (by simp)]
    · rfl

theorem components_head {c : Byte} {l : List Byte} (other : c ≠ slash) :
    components (c :: l) = ((c :: l).takeWhile (· != slash)).take dirsiz :: components ((c :: l).dropWhile (· != slash)) := by
  have plain : slash ∉ (c :: l).takeWhile (· != slash) := fun member => by simpa using List.mem_takeWhile_imp member
  have some_ : (c :: l).takeWhile (· != slash) ≠ [] := by simp [other]
  have whole := List.takeWhile_append_dropWhile (p := (· != slash)) (l := c :: l)
  have next := List.head?_dropWhile_not (· != slash) (c :: l)
  generalize (c :: l).takeWhile (· != slash) = elem at *
  generalize (c :: l).dropWhile (· != slash) = r at *
  rw [← whole]
  cases r with
  | nil => rw [List.append_nil, components_last plain some_]; rfl
  | cons d r =>
    obtain rfl : d = slash := by simpa using next
    rw [components_elem plain some_, ← components_drop (slash :: r), ← components_drop r]
    rfl

theorem components_eq_nil {l : List Byte} (head : l.head? ≠ some slash) : components l = [] ↔ l = [] := by
  cases l with
  | nil => exact iff_of_true rfl rfl
  | cons c l =>
    rw [components_head (by simpa using head)]
    exact iff_of_false (List.cons_ne_nil _ _) (List.cons_ne_nil _ _)

theorem skipelem_components (path : List Byte) (name : Area) (terminated : 0 ∉ path) :
    match skipelem path name with
    | none => components path = []
    | some (rest, name') => components path = nameText name' :: components rest ∧ (components rest = [] ↔ rest = []) ∧
        0 ∉ rest := by
  have head := List.head?_dropWhile_not (· == slash) path
  have within : ∀ b ∈ path.dropWhile (· == slash), b ∈ path := fun b => List.dropWhile_sublist _ |>.mem
  rw [skipelem, ← components_drop path]
  cases s : path.dropWhile (· == slash) with
  | nil => rfl
  | cons c l =>
    rw [s] at head within
    have elem : 0 ∉ (c :: l).takeWhile (· != slash) := fun zero =>
      terminated (within 0 ((List.takeWhile_sublist _).mem zero))
    have behind := List.head?_dropWhile_not (· == slash) ((c :: l).dropWhile (· != slash))
    refine ⟨?_, components_eq_nil fun same => ?_, fun zero => ?_⟩
    · rw [components_head (by simpa using head), components_drop]
      congr 1
      exact (nameText_buffer name elem).symm
    · rw [same] at behind
      cases behind
    · exact terminated (within 0 ((List.dropWhile_sublist _).mem ((List.dropWhile_sublist _).mem zero)))

end Components

section Walk

def follow (tree : Tree) (ip : Nat) : List (List Byte) → Option Nat
  | [] => some ip
  | c :: cs => do
    let entries ← tree ip
    let next ← named entries c
    follow tree next cs

/-- What is returned for the parent: the directory before the last of the names `cs`, which the buffer holds. -/
def IsParent (tree : Tree) (ip : Nat) (cs : List (List Byte)) (result : Option Nat × Area) : Prop :=
  (cs = [] → result.1 = none) ∧ ∀ init c, cs = init ++ [c] →
    result.1 = (follow tree ip init).filter (fun dp => (tree dp).isSome) ∧ ∀ dp, result.1 = some dp → nameText result.2 = c

section Loop

variable (tree : Tree) (ip : Nat) (path : List Byte) (name : Area) (terminated : 0 ∉ path)

include terminated

theorem namexLoop_follow : (namexLoop tree false ip path name).1 = follow tree ip (components path) := by
  have spec := skipelem_components path name terminated
  induction ip, path, name using namexLoop.induct tree false with
  | case1 ip path name skipped =>
    rw [skipped] at spec
    rw [namexLoop, spec]
    grind [follow]
  | case2 ip path name rest name' skipped file =>
    rw [skipped] at spec
    rw [namexLoop, spec.1, follow, file]
    grind
  | case3 _ _ _ _ _ _ _ _ last => exact absurd last.1 Bool.false_ne_true
  | case4 ip path name rest name' skipped entries directory more missing =>
    rw [skipped] at spec
    rw [namexLoop, spec.1, follow, directory]
    grind [dirlookup_eq]
  | case5 ip path name rest name' skipped entries directory more next found ih =>
    rw [skipped] at spec
    rw [namexLoop, spec.1, follow, directory]
    grind [dirlookup_eq, skipelem_components]

theorem namexLoop_parent : IsParent tree ip (components path) (namexLoop tree true ip path name) := by
  have spec := skipelem_components path name terminated
  induction ip, path, name using namexLoop.induct tree true with
  | case1 ip path name skipped =>
    rw [skipped] at spec
    refine ⟨fun _ => ?_, fun init c last => absurd (spec.symm.trans last) (by simp)⟩
    rw [namexLoop]
    grind
  | case2 ip path name rest name' skipped file =>
    rw [skipped] at spec
    rw [namexLoop]
    refine ⟨by grind, fun init c last => ?_⟩
    cases init <;> grind [follow]
  | case3 ip path name rest name' skipped entries directory ends =>
    rw [skipped] at spec
    -- Nothing is left of the path, so this is its last component.
    have alone : components path = [nameText name'] := by rw [spec.1, spec.2.1.mpr ends.2]
    have value : namexLoop tree true ip path name = (some ip, name') := by
      rw [namexLoop]
      grind
    rw [alone, value]
    refine ⟨nofun, fun init c last => ?_⟩
    cases init with
    | nil =>
      cases last
      simp [follow, Option.filter_some, directory]
    | cons => simp at last
  | case4 ip path name rest name' skipped entries directory more missing =>
    rw [skipped] at spec
    rw [namexLoop]
    refine ⟨by grind, fun init c last => ?_⟩
    cases init <;> grind [follow, dirlookup_eq]
  | case5 ip path name rest name' skipped entries directory more next found ih =>
    rw [skipped] at spec
    have later := ih spec.2.2 (skipelem_components rest name' spec.2.2)
    rw [namexLoop]
    refine ⟨by grind, fun init c last => ?_⟩
    cases init <;> grind [follow, dirlookup_eq, IsParent]

end Loop

/-- `namei` and `nameiparent` follow the path, and what they return depends on nothing of it but where it starts and its
    components. -/
theorem path_resolution (tree : Tree) (cwd : Nat) (path : List Byte) (name : Area) (terminated : 0 ∉ path) :
    namei tree cwd path name = follow tree (start cwd path) (components path) ∧
    IsParent tree (start cwd path) (components path) (nameiparent tree cwd path name) ∧
    ∀ path' name', 0 ∉ path' → components path' = components path → start cwd path' = start cwd path →
      namei tree cwd path' name' = namei tree cwd path name ∧
      (nameiparent tree cwd path' name').1 = (nameiparent tree cwd path name).1 := by
  have found := fun path name => namexLoop_follow tree (start cwd path) path name
  have parent := fun path name => namexLoop_parent tree (start cwd path) path name
  refine ⟨found path name terminated, parent path name terminated, fun path' name' terminated' same begin => ⟨?_, ?_⟩⟩
  · rw [namei, namei, found path' name' terminated', found path name terminated, same, begin]
  · have first := parent path name terminated
    have second := parent path' name' terminated'
    rw [same, begin] at second
    rw [nameiparent, nameiparent, begin]
    rcases List.eq_nil_or_concat' (components path) with none | ⟨init, c, last⟩
    · rw [first.1 none, second.1 none]
    · rw [(first.2 init c last).1, (second.2 init c last).1]

theorem path_resolution_slashes : namei (fun _ => some [(7, fun o => (chars "a").getD o 0)]) 3 (chars "//a/a/") (fun _ => 1) =
    some 7 := by
  rw [(path_resolution _ 3 (chars "//a/a/") (fun _ => 1) (by decide)).1]
  decide

end Walk

end OShard.Paths
