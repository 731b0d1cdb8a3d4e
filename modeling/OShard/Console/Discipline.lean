import OShard.Console.Model

namespace OShard.Console

open RingBuffer Transition Function

section Editing

/-- The ring holds what is committed and not taken yet, and behind it the line that is being edited. -/
structure Cons.Shows (s : Cons) (taken : List Byte) (t : Editor) : Prop where
  split : (s.w - s.r).toNat + (s.e - s.w).toNat = (s.e - s.r).toNat
  room : (s.e - s.r).toNat ≤ inputBufSize
  committed : t.committed = taken ++ contents s.buf s.r s.w
  line : t.line = contents s.buf s.w s.e
  plain : newline ∉ t.line

variable {s : Cons} {taken : List Byte} {t : Editor}

theorem divides : inputBufSize ∣ 2 ^ 32 := by decide

theorem wide : inputBufSize < 2 ^ 32 := by decide

theorem Cons.Shows.erase (shows : s.Shows taken t) (edited : s.e ≠ s.w) :
    Cons.Shows { s with e := s.e - 1 } taken { t with line := t.line.dropLast } := by
  have written : s.w ≠ s.e := fun same => edited same.symm
  have shorter := count_unpush written
  have counts := shows.split
  have used : s.r ≠ s.e := by
    intro same
    have none := count_zero.mpr same
    omega
  have less := count_unpush used
  have room := shows.room
  have line : t.line.dropLast = contents s.buf s.w (s.e - 1) := by
    rw [shows.line, contents_unpush written, List.dropLast_concat]
  refine ⟨?_, ?_, shows.committed, line, fun member => shows.plain (List.dropLast_subset _ member)⟩
  · change (s.w - s.r).toNat + (s.e - 1 - s.w).toNat = (s.e - 1 - s.r).toNat
    omega
  · change (s.e - 1 - s.r).toNat ≤ inputBufSize
    omega

theorem killLine_shows (n : Nat) : ∀ {s : Cons} {t : Editor}, s.Shows taken t → (s.e - s.w).toNat ≤ n →
    (killLine n s).Shows taken { t with line := [] } := by
  have emptied : ∀ {s : Cons} {t : Editor}, s.Shows taken t → s.e = s.w → s.Shows taken { t with line := [] } := by
    intro s t shows same
    have line : [] = contents s.buf s.w s.e := by rw [same, contents_self]
    exact ⟨shows.split, shows.room, shows.committed, line, List.not_mem_nil⟩
  induction n with
  | zero =>
    intro s t shows short
    have same : s.w = s.e := count_zero.mp (by omega)
    exact emptied shows same.symm
  | succ n ih =>
    intro s t shows short
    by_cases same : s.e = s.w
    · have stops : killLine (n + 1) s = s := if_neg fun goes => goes.1 same
      rw [stops]
      exact emptied shows same
    have written : s.w ≠ s.e := fun eq => same eq.symm
    have shorter := count_unpush written
    -- A newline commits, so there is none behind `w` and the loop goes on to `w`.
    have other : s.buf (cell (s.e - 1)) ≠ newline := by
      intro found
      apply shows.plain
      rw [shows.line, contents_unpush written, found]
      exact List.mem_append_right _ (List.mem_singleton_self _)
    have goes : killLine (n + 1) s = killLine n { s with e := s.e - 1 } := if_pos ⟨same, other⟩
    rw [goes]
    apply ih (shows.erase same)
    change (s.e - 1 - s.w).toNat ≤ n
    omega

theorem Cons.Shows.put (shows : s.Shows taken t) (free : (s.e - s.r).toNat < inputBufSize) (c : Byte) :
    (s.put c).Shows taken (t.press (.char c ((s.e + 1 - s.r).toNat = inputBufSize))) := by
  have counts := shows.split
  have longer := count_push free wide
  have shorter : (s.e - s.w).toNat < inputBufSize := by omega
  have line := count_push shorter wide
  -- The cell at `e` is neither committed nor part of the line.
  have kept : contents (update s.buf (cell s.e) c) s.r s.w = contents s.buf s.r s.w :=
    contents_update divides (by omega) free c
  have written : contents (update s.buf (cell s.e) c) s.w (s.e + 1) = contents s.buf s.w s.e ++ [c] :=
    contents_push divides wide shorter c
  have full : decide ((s.e + 1 - s.r).toNat = inputBufSize) = true ↔ (s.e + 1 - s.r).toNat = inputBufSize :=
    decide_eq_true_iff
  by_cases commits : c = newline ∨ c = ctrlD ∨ (s.e + 1 - s.r).toNat = inputBufSize
  · have after : s.put c = ⟨update s.buf (cell s.e) c, s.r, s.e + 1, s.e + 1⟩ := if_pos commits
    have entered : t.press (.char c ((s.e + 1 - s.r).toNat = inputBufSize)) = ⟨t.committed ++ (t.line ++ [c]), []⟩ := by
      apply if_pos
      rw [full]
      exact commits
    rw [after, entered]
    have sum : (s.w - s.r).toNat + (s.e + 1 - s.w).toNat = (s.e + 1 - s.r).toNat := by omega
    refine ⟨?_, ?_, ?_, (contents_self _ _).symm, List.not_mem_nil⟩
    · change (s.e + 1 - s.r).toNat + (s.e + 1 - (s.e + 1)).toNat = (s.e + 1 - s.r).toNat
      rw [count_zero.mpr rfl, Nat.add_zero]
    · change (s.e + 1 - s.r).toNat ≤ inputBufSize
      omega
    · change t.committed ++ (t.line ++ [c]) = taken ++ contents (update s.buf (cell s.e) c) s.r (s.e + 1)
      rw [contents_append sum, kept, written, shows.committed, shows.line, List.append_assoc]
  · have after : s.put c = ⟨update s.buf (cell s.e) c, s.r, s.w, s.e + 1⟩ := if_neg commits
    have entered : t.press (.char c ((s.e + 1 - s.r).toNat = inputBufSize)) = ⟨t.committed, t.line ++ [c]⟩ := by
      apply if_neg
      rw [full]
      exact commits
    rw [after, entered]
    refine ⟨?_, ?_, ?_, ?_, ?_⟩
    · change (s.w - s.r).toNat + (s.e + 1 - s.w).toNat = (s.e + 1 - s.r).toNat
      omega
    · change (s.e + 1 - s.r).toNat ≤ inputBufSize
      omega
    · change t.committed = taken ++ contents (update s.buf (cell s.e) c) s.r s.w
      rw [kept]
      exact shows.committed
    · change t.line ++ [c] = contents (update s.buf (cell s.e) c) s.w (s.e + 1)
      rw [written, shows.line]
    · intro member
      rcases List.mem_append.mp member with old | new
      · exact shows.plain old
      · exact commits (.inl (List.mem_singleton.mp new).symm)

theorem Cons.Shows.consoleintr (shows : s.Shows taken t) (c : Byte) :
    (consoleintr c s).Shows taken ((keysOf c s).foldl Editor.press t) := by
  unfold Console.consoleintr keysOf
  by_cases dump : c = ctrlP
  · rw [if_pos dump, if_pos dump]
    exact shows
  rw [if_neg dump, if_neg dump]
  by_cases kill : c = ctrlU
  · rw [if_pos kill, if_pos kill]
    exact killLine_shows _ shows (Nat.le_refl _)
  rw [if_neg kill, if_neg kill]
  by_cases erase : c = ctrlH ∨ c = delete
  · rw [if_pos erase, if_pos erase]
    by_cases edited : s.e ≠ s.w
    · rw [if_pos edited]
      exact shows.erase edited
    rw [if_neg edited]
    have none : t.line = [] := by rw [shows.line, not_not.mp edited, contents_self]
    have same : t.press .erase = t := by
      change ({ t with line := t.line.dropLast } : Editor) = t
      rw [none]
      change (⟨t.committed, []⟩ : Editor) = t
      rw [← none]
    change s.Shows taken (t.press .erase)
    rw [same]
    exact shows
  rw [if_neg erase, if_neg erase]
  by_cases free : c ≠ 0 ∧ (s.e - s.r).toNat < inputBufSize
  · rw [if_pos free, if_pos free]
    exact shows.put free.2 (typed c)
  · rw [if_neg free, if_neg free]
    exact shows

theorem Editor.press_prefix (t : Editor) (key : Key) : t.committed <+: (t.press key).committed := by
  cases key with
  | erase => exact List.prefix_refl _
  | kill => exact List.prefix_refl _
  | char c full =>
    change t.committed <+: (ite _ _ _ : Editor).committed
    split
    · exact List.prefix_append _ _
    · exact List.prefix_refl _

theorem committed_prefix (keys more : List Key) : (edited keys).committed <+: (edited (keys ++ more)).committed := by
  unfold edited
  rw [List.foldl_append]
  generalize keys.foldl Editor.press ⟨[], []⟩ = t
  induction more generalizing t with
  | nil => exact List.prefix_refl _
  | cons key more ih => exact (t.press_prefix key).trans (ih (t.press key))

end Editing

section Reading

/-- What a call that wants `target` bytes and has `data` gets in one run of the loop, when it takes `read`. -/
structure Outcome (target : Nat) (data read : List Byte) (got : Got) : Prop where
  size : got.n + got.data.length = target
  data : got.data = data ++ read.filter (· ≠ ctrlD)
  ends : read.filter (· = ctrlD) = if got.returns = true ∧ 0 < target ∧ got.data = [] then [ctrlD] else []
  line : newline ∉ got.data.dropLast
  waits : got.returns = false → newline ∉ got.data

theorem Cons.Shows.take {s : Cons} {taken : List Byte} {t : Editor} (shows : s.Shows taken t) (ready : s.r ≠ s.w) :
    Cons.Shows { s with r := s.r + 1 } (taken ++ [s.buf (cell s.r)]) t := by
  have counts := shows.split
  have shorter := count_pop ready
  have used : s.r ≠ s.e := by
    intro same
    have none := count_zero.mpr same
    omega
  have less := count_pop used
  have room := shows.room
  refine ⟨?_, ?_, ?_, shows.line, shows.plain⟩
  · change (s.w - (s.r + 1)).toNat + (s.e - s.w).toNat = (s.e - (s.r + 1)).toNat
    omega
  · change (s.e - (s.r + 1)).toNat ≤ inputBufSize
    omega
  · change t.committed = taken ++ [s.buf (cell s.r)] ++ contents s.buf (s.r + 1) s.w
    rw [shows.committed, contents_pop ready, List.append_assoc, List.singleton_append]

theorem contents_one (buf : Fin inputBufSize → Byte) (r : BitVec 32) : contents buf r (r + 1) = [buf (cell r)] := by
  have none : (r - r).toNat = 0 := count_zero.mpr rfl
  have one : (r + 1 - r).toNat = (r - r).toNat + 1 := count_push (by rw [none]; exact Nat.pos_of_neZero _) wide
  have next : r ≠ r + 1 := by
    intro same
    have zero := count_zero.mpr same
    omega
  rw [contents_pop next, contents_self]

structure Reads (target : Nat) (taken data : List Byte) (t : Editor) (s : Cons) (got : Got) : Prop where
  shows : got.cons.Shows (taken ++ contents s.buf s.r got.cons.r) t
  toward : (s.w - got.cons.r).toNat ≤ (s.w - s.r).toNat
  outcome : Outcome target data (contents s.buf s.r got.cons.r) got

variable {target n : Nat} {s : Cons} {taken data : List Byte} {t : Editor} {got : Got}

theorem Reads.stay (shows : s.Shows taken t) (size : n + data.length = target) (plain : newline ∉ data)
    (returns : Bool) (ended : returns = true → 0 < target → data ≠ []) :
    Reads target taken data t s ⟨s, n, data, returns⟩ := by
  have none : contents s.buf s.r s.r = [] := contents_self _ _
  refine ⟨?_, Nat.le_refl _, size, ?_, ?_, fun member => plain (List.dropLast_subset _ member), fun _ => plain⟩
  · rw [none, List.append_nil]
    exact shows
  · rw [none]
    exact (List.append_nil data).symm
  · rw [none, if_neg fun all => ended all.1 all.2.1 all.2.2]
    rfl

theorem Reads.after (rest : Reads target (taken ++ [s.buf (cell s.r)]) (data ++ [s.buf (cell s.r)]) t
      { s with r := s.r + 1 } got) (ready : s.r ≠ s.w) (other : s.buf (cell s.r) ≠ ctrlD) :
    Reads target taken data t s got := by
  have less := count_pop ready
  have toward : (s.w - got.cons.r).toNat ≤ (s.w - (s.r + 1)).toNat := rest.toward
  have moved : s.r ≠ got.cons.r := by
    intro same
    rw [← same] at toward
    omega
  have all : contents s.buf s.r got.cons.r = s.buf (cell s.r) :: contents s.buf (s.r + 1) got.cons.r :=
    contents_pop moved
  refine ⟨?_, by omega, rest.outcome.size, ?_, ?_, rest.outcome.line, rest.outcome.waits⟩
  · rw [all, List.append_cons]
    exact rest.shows
  · rw [all, List.filter_cons_of_pos (by simpa using other), List.append_cons]
    exact rest.outcome.data
  · rw [all, List.filter_cons_of_neg (by simpa using other)]
    exact rest.outcome.ends

theorem readLoop_reads (n : Nat) : ∀ {s : Cons} {taken data : List Byte}, s.Shows taken t →
    n + data.length = target → newline ∉ data → Reads target taken data t s (readLoop target n s data) := by
  induction n with
  | zero =>
    intro s taken data shows size plain
    apply Reads.stay shows size plain
    intro _ positive none
    rw [none] at size
    change 0 + 0 = target at size
    omega
  | succ n ih =>
    intro s taken data shows size plain
    unfold readLoop
    by_cases empty : s.r = s.w
    · rw [if_pos empty]
      exact Reads.stay shows size plain false nofun
    rw [if_neg empty]
    have less := count_pop empty
    have took := shows.take empty
    dsimp only
    by_cases eof : s.buf (cell s.r) = ctrlD
    · rw [if_pos eof]
      by_cases partly : n + 1 < target
      · -- The control-D stays for the next call.
        have back : s.r + 1 - 1 = s.r := BitVec.add_sub_cancel s.r 1
        rw [if_pos partly, back]
        apply Reads.stay shows size plain
        intro _ _ none
        rw [none] at size
        change n + 1 + 0 = target at size
        omega
      rw [if_neg partly]
      have none : data = [] := List.length_eq_zero_iff.mp (by omega)
      have one := contents_one s.buf s.r
      rw [eof] at one took
      refine ⟨?_, ?_, size, ?_, ?_, fun member => plain (List.dropLast_subset _ member), nofun⟩
      · change Cons.Shows _ (taken ++ contents s.buf s.r (s.r + 1)) t
        rw [one]
        exact took
      · change (s.w - (s.r + 1)).toNat ≤ _
        omega
      · change data = data ++ (contents s.buf s.r (s.r + 1)).filter _
        rw [one]
        exact (List.append_nil data).symm
      · change (contents s.buf s.r (s.r + 1)).filter _ = _
        rw [one, if_pos ⟨rfl, by omega, none⟩]
        rfl
    rw [if_neg eof]
    by_cases newl : s.buf (cell s.r) = newline
    · rw [if_pos newl]
      have one := contents_one s.buf s.r
      refine ⟨?_, ?_, ?_, ?_, ?_, ?_, nofun⟩
      · change Cons.Shows _ (taken ++ contents s.buf s.r (s.r + 1)) t
        rw [one]
        exact took
      · change (s.w - (s.r + 1)).toNat ≤ _
        omega
      · change n + (data ++ [s.buf (cell s.r)]).length = target
        rw [List.length_append, List.length_singleton]
        omega
      · change data ++ _ = data ++ (contents s.buf s.r (s.r + 1)).filter _
        rw [one, newl]
        rfl
      · change (contents s.buf s.r (s.r + 1)).filter _ = _
        rw [one, newl, if_neg fun all => List.append_ne_nil_of_right_ne_nil data (List.cons_ne_nil _ _) all.2.2]
        rfl
      · change newline ∉ (data ++ [s.buf (cell s.r)]).dropLast
        rw [List.dropLast_concat]
        exact plain
    · rw [if_neg newl]
      have longer : n + (data ++ [s.buf (cell s.r)]).length = target := by
        rw [List.length_append, List.length_singleton]
        omega
      have unbroken : newline ∉ data ++ [s.buf (cell s.r)] := by
        intro member
        rcases List.mem_append.mp member with old | new
        · exact plain old
        · exact newl (List.mem_singleton.mp new).symm
      have rest := ih took longer unbroken
      generalize readLoop target n { s with r := s.r + 1 } (data ++ [s.buf (cell s.r)]) = got at rest
      exact rest.after empty eof

end Reading

section System

variable {k : Nat}

def State.copied (s : State k) (call : Nat) : List Byte :=
  (s.consumed.filter fun x => x.1 = call ∧ x.2 ≠ ctrlD).map Prod.snd

structure Waiting (s : State k) (reader : Reader) : Prop where
  issued : reader.call < s.calls
  unfinished : ∀ x ∈ s.returned, x.call ≠ reader.call
  data : reader.data = s.copied reader.call
  count : reader.n + reader.data.length = reader.asked.toNat
  plain : newline ∉ reader.data

structure Done (s : State k) (x : Return) : Prop where
  issued : x.call < s.calls
  data : x.data = s.copied x.call
  most : x.data.length ≤ x.asked.toNat
  line : newline ∉ x.data.dropLast
  ret : x.ret = x.data.length ∨ x.ret = -1

def State.eofs (s : State k) : List Nat := (s.consumed.filter fun x => x.2 = ctrlD).map Prod.fst

def State.zeros (s : State k) : List Nat := (s.returned.filter fun x => 0 < x.asked ∧ x.ret = 0).map Return.call

structure Invariant (s : State k) : Prop where
  shows : s.cons.Shows s.taken (edited s.keys)
  waiting : ∀ p reader, s.readers p = some reader → Waiting s reader
  apart : ∀ p q reader other, s.readers p = some reader → s.readers q = some other → reader.call = other.call → p = q
  done : ∀ x ∈ s.returned, Done s x
  once : (s.returned.map Return.call).Nodup
  issued : ∀ x ∈ s.consumed, x.1 < s.calls
  ends : s.eofs = s.zeros

variable {s : State k}

theorem Invariant.intr (inv : Invariant s) (c : Byte) :
    Invariant { s with cons := consoleintr c s.cons, keys := s.keys ++ keysOf c s.cons } := by
  have keys : edited (s.keys ++ keysOf c s.cons) = (keysOf c s.cons).foldl Editor.press (edited s.keys) :=
    List.foldl_append
  have shows : (consoleintr c s.cons).Shows s.taken (edited (s.keys ++ keysOf c s.cons)) := by
    rw [keys]
    exact inv.shows.consoleintr c
  refine ⟨shows, ?_, inv.apart, ?_, inv.once, inv.issued, inv.ends⟩
  · intro p reader sleeps
    obtain ⟨issued, unfinished, data, count, plain⟩ := inv.waiting p reader sleeps
    exact ⟨issued, unfinished, data, count, plain⟩
  · intro x member
    obtain ⟨issued, data, most, line, ret⟩ := inv.done x member
    exact ⟨issued, data, most, line, ret⟩

def State.take (s : State k) (cons : Cons) (call : Nat) (read : List Byte) : State k :=
  { s with cons := cons, consumed := s.consumed ++ read.map fun c => (call, c) }

variable {cons : Cons} {call : Nat} {more : List Byte}

theorem copied_other {other : Nat} (different : other ≠ call) : (s.take cons call more).copied other = s.copied other := by
  have none : (more.map fun c => (call, c)).filter (fun x => x.1 = other ∧ x.2 ≠ ctrlD) = [] := by
    rw [List.filter_eq_nil_iff]
    intro x member
    obtain ⟨c, _, rfl⟩ := List.mem_map.mp member
    simpa using fun same => absurd same.symm different
  unfold State.copied State.take
  rw [List.filter_append, none, List.append_nil]

theorem copied_self : (s.take cons call more).copied call = s.copied call ++ more.filter (· ≠ ctrlD) := by
  unfold State.copied State.take
  rw [List.filter_append, List.map_append, List.filter_map, List.map_map]
  congr 1
  have same : ((fun x : Nat × Byte => decide (x.1 = call ∧ x.2 ≠ ctrlD)) ∘ fun c => (call, c)) =
      fun c => decide (c ≠ ctrlD) := by
    funext c
    simp
  rw [same]
  exact List.map_id _

theorem taken_take : (s.take cons call more).taken = s.taken ++ more := by
  unfold State.taken State.take
  rw [List.map_append, List.map_map]
  congr 1
  exact List.map_id _

theorem eofs_take : (s.take cons call more).eofs = s.eofs ++ (more.filter (· = ctrlD)).map fun _ => call := by
  unfold State.eofs State.take
  rw [List.filter_append, List.map_append, List.filter_map, List.map_map]
  rfl

structure Running (s : State k) (p : Fin k) (call : Nat) : Prop where
  shows : s.cons.Shows s.taken (edited s.keys)
  waiting : ∀ q reader, q ≠ p → s.readers q = some reader → Waiting s reader ∧ reader.call ≠ call
  apart : ∀ q r reader other, q ≠ p → r ≠ p → s.readers q = some reader → s.readers r = some other →
    reader.call = other.call → q = r
  done : ∀ x ∈ s.returned, Done s x ∧ x.call ≠ call
  once : (s.returned.map Return.call).Nodup
  issued : ∀ x ∈ s.consumed, x.1 < s.calls
  started : call < s.calls

variable {p : Fin k} {reader : Reader}

theorem Running.finish (run : Running s p call) (x : Return) (mine : x.call = call) (done : Done s x)
    (ends : s.eofs = s.zeros ++ ([x].filter fun x => 0 < x.asked ∧ x.ret = 0).map Return.call) :
    Invariant { s with readers := update s.readers p none, returned := s.returned ++ [x] } := by
  have others : ∀ q reader, update s.readers p none q = some reader → q ≠ p ∧ s.readers q = some reader := by
    intro q reader sleeps
    by_cases same : q = p
    · subst same
      rw [update_self] at sleeps
      exact nomatch sleeps
    · rw [update_of_ne same] at sleeps
      exact ⟨same, sleeps⟩
  refine ⟨run.shows, ?_, ?_, ?_, ?_, run.issued, ?_⟩
  · intro q reader sleeps
    obtain ⟨different, sleeps⟩ := others q reader sleeps
    obtain ⟨⟨issued, unfinished, data, count, plain⟩, distinct⟩ := run.waiting q reader different sleeps
    refine ⟨issued, ?_, data, count, plain⟩
    intro y member
    rcases List.mem_append.mp member with old | new
    · exact unfinished y old
    · rw [List.mem_singleton.mp new, mine]
      exact distinct.symm
  · intro q r reader other first second same
    obtain ⟨left, first⟩ := others q reader first
    obtain ⟨right, second⟩ := others r other second
    exact run.apart q r reader other left right first second same
  · intro y member
    have settled : Done s y := by
      rcases List.mem_append.mp member with old | new
      · exact (run.done y old).1
      · rw [List.mem_singleton.mp new]
        exact done
    exact ⟨settled.issued, settled.data, settled.most, settled.line, settled.ret⟩
  · change ((s.returned ++ [x]).map Return.call).Nodup
    rw [List.map_append, List.nodup_append]
    refine ⟨run.once, List.pairwise_singleton _ _, ?_⟩
    intro a old b new same
    obtain ⟨y, member, rfl⟩ := List.mem_map.mp old
    apply (run.done y member).2
    rw [same, List.mem_singleton.mp new, mine]
  · change s.eofs = ((s.returned ++ [x]).filter _).map _
    rw [List.filter_append, List.map_append]
    exact ends

theorem Running.sleep (run : Running s p call) (mine : reader.call = call) (waits : Waiting s reader)
    (ends : s.eofs = s.zeros) : Invariant { s with readers := update s.readers p (some reader) } := by
  have others : ∀ q x, update s.readers p (some reader) q = some x →
      q = p ∧ x = reader ∨ q ≠ p ∧ s.readers q = some x := by
    intro q x sleeps
    by_cases same : q = p
    · subst same
      rw [update_self] at sleeps
      exact .inl ⟨rfl, (Option.some.inj sleeps).symm⟩
    · rw [update_of_ne same] at sleeps
      exact .inr ⟨same, sleeps⟩
  refine ⟨run.shows, ?_, ?_, ?_, run.once, run.issued, ends⟩
  · intro q x sleeps
    have settled : Waiting s x := by
      rcases others q x sleeps with ⟨_, rfl⟩ | ⟨different, sleeps⟩
      · exact waits
      · exact (run.waiting q x different sleeps).1
    exact ⟨settled.issued, settled.unfinished, settled.data, settled.count, settled.plain⟩
  · intro q r x y first second same
    rcases others q x first with ⟨here, rfl⟩ | ⟨left, sleeps⟩
    · rcases others r y second with ⟨there, _⟩ | ⟨right, sleeps⟩
      · exact here.trans there.symm
      · exact absurd (same.symm.trans mine) (run.waiting r y right sleeps).2
    · rcases others r y second with ⟨there, rfl⟩ | ⟨right, waits⟩
      · exact absurd (same.trans mine) (run.waiting q x left sleeps).2
      · exact run.apart q r x y left right sleeps waits same
  · intro x member
    obtain ⟨⟨issued, data, most, line, ret⟩, _⟩ := run.done x member
    exact ⟨issued, data, most, line, ret⟩

theorem Invariant.running (inv : Invariant s) (going : Waiting s reader)
    (other : ∀ q x, q ≠ p → s.readers q = some x → x.call ≠ reader.call)
    (shows : cons.Shows (s.taken ++ more) (edited s.keys)) : Running (s.take cons reader.call more) p reader.call := by
  refine ⟨?_, ?_, ?_, ?_, inv.once, ?_, going.issued⟩
  · rw [taken_take]
    exact shows
  · intro q x different sleeps
    have distinct := other q x different sleeps
    obtain ⟨issued, unfinished, data, count, plain⟩ := inv.waiting q x sleeps
    exact ⟨⟨issued, unfinished, data.trans (copied_other distinct).symm, count, plain⟩, distinct⟩
  · intro q r x y _ _ first second
    exact inv.apart q r x y first second
  · intro x member
    have distinct := going.unfinished x member
    obtain ⟨issued, data, most, line, ret⟩ := inv.done x member
    exact ⟨⟨issued, data.trans (copied_other distinct).symm, most, line, ret⟩, distinct⟩
  · intro x member
    rcases List.mem_append.mp member with old | new
    · exact inv.issued x old
    · obtain ⟨c, _, rfl⟩ := List.mem_map.mp new
      exact going.issued

theorem Invariant.consoleread (inv : Invariant s) (killed : Bool) (going : Waiting s reader)
    (other : ∀ q x, q ≠ p → s.readers q = some x → x.call ≠ reader.call) : Invariant (s.read p reader killed) := by
  have reads := readLoop_reads reader.n inv.shows going.count going.plain
  unfold State.read
  dsimp only
  generalize readLoop reader.asked.toNat reader.n s.cons reader.data = got at reads
  obtain ⟨shows, _, size, data, ends, line, waits⟩ := reads
  generalize contents s.cons.buf s.cons.r got.cons.r = more at shows data ends ⊢
  have run := inv.running going other shows
  have copied : got.data = (s.take got.cons reader.call more).copied reader.call := by
    rw [copied_self, ← going.data]
    exact data
  have eofs : (s.take got.cons reader.call more).eofs = s.zeros ++ (more.filter (· = ctrlD)).map fun _ => reader.call := by
    rw [eofs_take, inv.ends]
  rw [ends] at eofs
  have most : got.data.length ≤ reader.asked.toNat := by omega
  by_cases returns : got.returns = true
  · rw [if_pos returns]
    have length : (reader.asked.toNat - got.n : Int) = got.data.length := by omega
    rw [length]
    apply run.finish ⟨reader.call, reader.asked, got.data, got.data.length⟩ rfl ⟨going.issued, copied, most, line, .inl rfl⟩
    rw [eofs]
    congr 1
    by_cases zero : 0 < reader.asked.toNat ∧ got.data = []
    · rw [if_pos ⟨returns, zero⟩, List.filter_cons_of_pos]
      · rfl
      · simpa [zero.2] using zero.1
    · rw [if_neg fun all => zero all.2, List.filter_cons_of_neg]
      · rfl
      · simpa using zero
  have sleeps : got.returns = false := Bool.eq_false_iff.mpr returns
  rw [if_neg fun all => returns all.1, List.map_nil, List.append_nil] at eofs
  rw [if_neg returns]
  by_cases dies : killed = true
  · rw [if_pos dies]
    apply run.finish ⟨reader.call, reader.asked, got.data, -1⟩ rfl ⟨going.issued, copied, most, line, .inr rfl⟩
    rw [List.filter_cons_of_neg (by simp)]
    exact eofs.trans (List.append_nil _).symm
  · rw [if_neg dies]
    have waiting : Waiting (s.take got.cons reader.call more) ⟨reader.call, reader.asked, got.n, got.data⟩ :=
      ⟨going.issued, going.unfinished, copied, size, waits sleeps⟩
    exact run.sleep rfl waiting eofs

theorem Invariant.step {t : State k} (inv : Invariant s) (step : Step s t) : Invariant t := by
  cases step with
  | intr c => exact inv.intr c
  | read p n killed idle =>
    have begun : Invariant { s with calls := s.calls + 1 } := by
      refine ⟨inv.shows, ?_, inv.apart, ?_, inv.once, fun x member => Nat.lt_succ_of_lt (inv.issued x member), inv.ends⟩
      · intro q x sleeps
        obtain ⟨issued, unfinished, data, count, plain⟩ := inv.waiting q x sleeps
        exact ⟨Nat.lt_succ_of_lt issued, unfinished, data, count, plain⟩
      · intro x member
        obtain ⟨issued, data, most, line, ret⟩ := inv.done x member
        exact ⟨Nat.lt_succ_of_lt issued, data, most, line, ret⟩
    apply begun.consoleread
    · refine ⟨Nat.lt_succ_self _, ?_, ?_, Nat.add_zero _, List.not_mem_nil⟩
      · intro x member
        exact Nat.ne_of_lt (inv.done x member).issued
      · have none : s.consumed.filter (fun x => x.1 = s.calls ∧ x.2 ≠ ctrlD) = [] := by
          rw [List.filter_eq_nil_iff]
          intro x member
          have before := inv.issued x member
          simpa using fun same => absurd same (Nat.ne_of_lt before)
        change [] = (s.consumed.filter fun x => x.1 = s.calls ∧ x.2 ≠ ctrlD).map Prod.snd
        rw [none]
        rfl
    · intro q x _ sleeps
      exact Nat.ne_of_lt (inv.waiting q x sleeps).issued
  | resume p reader killed sleeps =>
    apply inv.consoleread killed (inv.waiting p reader sleeps)
    intro q x different waits same
    exact different (inv.apart q p x reader waits sleeps same)

theorem Invariant.init : Invariant (init k) := by
  have none := contents_self (fun _ : Fin inputBufSize => (0 : Byte)) (0 : BitVec 32)
  have shows : Cons.Shows ⟨fun _ => 0, 0, 0, 0⟩ [] ⟨[], []⟩ :=
    ⟨by decide, by decide, none.symm, none.symm, List.not_mem_nil⟩
  exact ⟨shows, nofun, nofun, nofun, List.nodup_nil, nofun, rfl⟩

theorem Reached.invariant (reached : Reached s) : Invariant s := by
  apply Reachable.invariant reached
  · rintro _ rfl
    exact Invariant.init
  · intro s t inv step
    exact inv.step step

theorem Step.taken {t : State k} (step : Step s t) : s.taken <+: t.taken := by
  have read : ∀ (s : State k) (p : Fin k) (reader : Reader) (killed : Bool), s.taken <+: (s.read p reader killed).taken := by
    intro s p reader killed
    have more : (s.read p reader killed).consumed = s.consumed ++
        (contents s.cons.buf s.cons.r (readLoop reader.asked.toNat reader.n s.cons reader.data).cons.r).map
          fun c => (reader.call, c) := by
      unfold State.read
      dsimp only
      split
      · rfl
      · split
        · rfl
        · rfl
    unfold State.taken
    rw [more, List.map_append]
    exact List.prefix_append _ _
  cases step with
  | intr c => exact List.prefix_refl _
  | read p n killed idle => exact read { s with calls := s.calls + 1 } p _ killed
  | resume p reader killed sleeps => exact read s p reader killed

theorem Step.committed {t : State k} (step : Step s t) : (edited s.keys).committed <+: (edited t.keys).committed := by
  have read : ∀ (s : State k) (p : Fin k) (reader : Reader) (killed : Bool), (s.read p reader killed).keys = s.keys := by
    intro s p reader killed
    unfold State.read
    dsimp only
    split
    · rfl
    · split
      · rfl
      · rfl
  cases step with
  | intr c => exact committed_prefix _ _
  | read p n killed idle =>
    simp only [read, List.prefix_refl]
  | resume p reader killed sleeps =>
    simp only [read, List.prefix_refl]

/-- The console under interrupts and reads in any order, from boot on. -/
theorem line_discipline (reached : Reached s) :
    ((s.cons.w - s.cons.r ≤ s.cons.e - s.cons.r ∧ (s.cons.e - s.cons.r).toNat ≤ inputBufSize) ∧
      s.taken <+: (edited s.keys).committed ∧
      (edited s.keys).committed = s.taken ++ contents s.cons.buf s.cons.r s.cons.w) ∧
    (∀ t, Step s t → s.taken <+: t.taken ∧ (edited s.keys).committed <+: (edited t.keys).committed) ∧
    (∀ x ∈ s.returned, x.data = s.copied x.call ∧ x.data.length ≤ x.asked.toNat ∧ newline ∉ x.data.dropLast ∧
      ctrlD ∉ x.data ∧ (x.ret = x.data.length ∨ x.ret = -1)) ∧
    s.eofs = s.zeros ∧ (s.returned.map Return.call).Nodup := by
  have inv := reached.invariant
  have counts := inv.shows.split
  refine ⟨⟨⟨?_, inv.shows.room⟩, ?_, inv.shows.committed⟩, ?_, ?_, inv.ends, inv.once⟩
  · rw [BitVec.le_def]
    omega
  · rw [inv.shows.committed]
    exact List.prefix_append _ _
  · intro t step
    exact ⟨step.taken, step.committed⟩
  · intro x member
    obtain ⟨_, data, most, line, ret⟩ := inv.done x member
    refine ⟨data, most, line, ?_, ret⟩
    rw [data]
    intro found
    obtain ⟨y, kept, same⟩ := List.mem_map.mp found
    have other := (List.mem_filter.mp kept).2
    exact (of_decide_eq_true other).2 same

def type (s : State 1) (c : Byte) : State 1 :=
  { s with cons := consoleintr c s.cons, keys := s.keys ++ keysOf c s.cons }

def readEight (s : State 1) : State 1 :=
  State.read { s with calls := s.calls + 1 } 0 ⟨s.calls, 8, 8, []⟩ false

def twoReads : State 1 := readEight (readEight (type (type (type (init 1) 0x61) carriageReturn) ctrlD))

theorem twoReads_reached : Reached twoReads := by
  have typing : ∀ {s : State 1} (c : Byte), Reached s → Reached (type s c) :=
    fun c reached => .next reached (.intr c)
  have reading : ∀ {s : State 1}, Reached s → s.readers 0 = none → Reached (readEight s) :=
    fun reached idle => .next reached (.read 0 8 false idle)
  have lines := typing ctrlD (typing carriageReturn (typing 0x61 (.start rfl)))
  exact reading (reading lines rfl) (by decide +kernel)

theorem line_discipline_two :
    Reached twoReads ∧ twoReads.returned = [⟨0, 8, [0x61, newline], 2⟩, ⟨1, 8, [], 0⟩] ∧
      twoReads.eofs = twoReads.zeros ∧ twoReads.zeros = [1] :=
  ⟨twoReads_reached, by decide +kernel, (line_discipline twoReads_reached).2.2.2.1, by decide +kernel⟩

end System

end OShard.Console
