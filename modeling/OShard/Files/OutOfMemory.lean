import OShard.Buddy.Vacancy
import OShard.Files.Creation

namespace OShard.Creation

open Buddy Files LinkedList AlignedBlock Function

def File.fresh : File := { File.zero with ref := 1 }

def SameFree (h h' : Heap) : Prop :=
  h'.nsizes = h.nsizes ∧ ∀ k < h.nsizes, ∃ xs xs', Ring h.links (h.free k) xs ∧ Ring h'.links (h'.free k) xs' ∧
    ∀ a, a ∈ xs' ↔ a ∈ xs

/-- The table of the caller, the live files and pipes and the free blocks are those of `s`. -/
structure Restored (s s' : State) : Prop where
  ofile : s'.ofile = s.ofile
  files : s'.files = s.files
  pipes : s'.pipes = s.pipes
  free : SameFree s.heap s'.heap

section Hosting

variable {h : Heap} {f0 f1 pi : Nat} {α : Type*} {s₁ : State}

structure Hosted (h₀ : Heap) (m left right : Nat) (s : State) (live : List (Nat × Nat)) (lists : Nat → List Nat) :
    Prop where
  sound : Sound h₀ m (outside left right) s.heap live lists
  files : ∀ f, s.files f ≠ none → (f, fileSize) ∈ live
  pipes : ∀ pi, s.pipes pi ≠ none → (pi, pgSize) ∈ live

variable {h₀ : Heap} {m left right : Nat} {s : State} {live : List (Nat × Nat)} {lists : Nat → List Nat}

section Listed

variable {α : Type*} {table : Nat → Option α} {size size' : Nat} (listed : ∀ a, table a ≠ none → (a, size) ∈ live)

include listed

theorem listed_update {a : Nat} (member : (a, size) ∈ live) (value : Option α) (b : Nat)
    (used : update table a value b ≠ none) : (b, size) ∈ live := by
  by_cases same : b = a
  · rw [same]
    exact member
  · rw [update_of_ne same] at used
    exact listed b used

theorem listed_cons (e : Nat × Nat) (a : Nat) (used : table a ≠ none) : (a, size) ∈ e :: live :=
  List.mem_cons_of_mem e (listed a used)

theorem listed_new (a : Nat) (value : Option α) (b : Nat) (used : update table a value b ≠ none) :
    (b, size) ∈ (a, size) :: live :=
  listed_update (listed_cons listed (a, size)) List.mem_cons_self value b used

theorem listed_erase (different : size ≠ size') (a b : Nat) (used : table b ≠ none) : (b, size) ∈ live.erase (a, size') :=
  (List.mem_erase_of_ne fun same => different (congrArg Prod.snd same)).mpr (listed b used)

theorem listed_clear (a b : Nat) (used : update table a none b ≠ none) : (b, size) ∈ live.erase (a, size) := by
  have other : b ≠ a := by
    rintro rfl
    exact used (update_self _ _ _)
  rw [update_of_ne other] at used
  exact (List.mem_erase_of_ne fun same => other (congrArg Prod.fst same)).mpr (listed b used)

end Listed

theorem level_fileSize : levelOf fileSize = 2 := by decide +kernel

theorem sizes_differ : fileSize ≠ pgSize := by decide

theorem fresh_address {a n : Nat} (sound : Sound h₀ m (outside left right) h ((a, n) :: live) lists)
    (n' : Nat) : (a, n') ∉ live := by
  intro member
  have apart := (List.pairwise_cons.mp sound.apart).1 (a, n') member
  have size := blkSize_pos (levelOf n)
  have size' := blkSize_pos (levelOf n')
  unfold Apart at apart
  dsimp only at apart
  omega

theorem fileclose_last {f : Nat} {file : File} (nonzero : f ≠ 0) (present : s.files f = some file) (one : file.ref = 1) :
    fileclose s f = (do
      let s ← if file.type = .pipe then
        pipeclose ⟨s.heap, update s.files f (some { file with ref := 0 }), s.pipes, s.ofile⟩ file.pipe file.writable
        else pure ⟨s.heap, update s.files f (some { file with ref := 0 }), s.pipes, s.ofile⟩
      let h ← bdFree s.heap f
      return ⟨h, update s.files f none, s.pipes, s.ofile⟩) := by
  unfold fileclose
  simp only [load, present, one, store, if_neg nonzero, Bind.bind, Except.bind, Pure.pure, Except.pure]
  rfl

section Files

variable (hosted : Hosted h₀ m left right s live lists)
  {lists' : Nat → List Nat} {f pi : Nat} {file : File} {pipe : Pipes.Pipe}

include hosted

theorem Hosted.unused {h : Heap} {a n : Nat}
    (sound : Sound h₀ m (outside left right) h ((a, n) :: live) lists') : s.files a = none ∧ s.pipes a = none := by
  constructor
  · by_contra used
    exact fresh_address sound fileSize (hosted.files a used)
  · by_contra used
    exact fresh_address sound pgSize (hosted.pipes a used)

theorem Hosted.sameFree {s' : State} (hosted' : Hosted h₀ m left right s' live lists') : SameFree s.heap s'.heap := by
  have sizes := hosted.sound.same.nsizes
  have sizes' := hosted'.sound.same.nsizes
  have count := hosted.sound.state.geometry.sizes
  refine ⟨by rw [sizes, sizes'], fun k lower => ?_⟩
  have upper : k ≤ m := by omega
  have ring := hosted.sound.state.rings.ring k upper
  have ring' := hosted'.sound.state.rings.ring k upper
  exact ⟨lists k, lists' k, ring, ring', hosted.sound.lists_congr hosted'.sound (fun _ _ => Iff.rfl) upper ring'⟩

theorem Hosted.filealloc :
    (freeAt m (outside left right) (owned h₀ live) 2 = ∅ ∧ filealloc s = .error .undefined) ∨
    ∃ f h' lists', f ≠ 0 ∧ s.files f = none ∧
      filealloc s = .ok (f, ⟨h', update s.files f (some File.fresh), s.pipes, s.ofile⟩) ∧
      Hosted h₀ m left right ⟨h', update s.files f (some File.fresh), s.pipes, s.ofile⟩
        ((f, fileSize) :: live) lists' ∧
      ∃ i ∈ freeAt m (outside left right) (owned h₀ live) 2,
        freeAt m (outside left right) (owned h₀ ((f, fileSize) :: live)) 2 =
          freeAt m (outside left right) (owned h₀ live) 2 \ {i} := by
  have bound : fileSize ≤ 2 ^ 63 := by decide
  rcases hosted.sound.malloc_vacant bound with ⟨none, result⟩ | ⟨f, h', lists', nonzero, result, sound, taken⟩
  · rw [level_fileSize] at none
    refine Or.inl ⟨none, ?_⟩
    unfold Creation.filealloc
    rw [result]
    rfl
  · rw [level_fileSize] at taken
    have unused := hosted.unused sound
    refine Or.inr ⟨f, h', lists', nonzero, unused.1, ?_,
      ⟨sound, listed_new hosted.files f _, listed_cons hosted.pipes _⟩, taken⟩
    unfold Creation.filealloc
    rw [result]
    simp only [store, load, if_neg nonzero, Bind.bind, Except.bind, Pure.pure, Except.pure, update_self, update_idem]
    rfl

theorem Hosted.kalloc :
    kalloc s.heap = .ok (0, s.heap) ∨
    ∃ pi h' lists', pi ≠ 0 ∧ s.pipes pi = none ∧ kalloc s.heap = .ok (pi, h') ∧
      Sound h₀ m (outside left right) h' ((pi, pgSize) :: live) lists' := by
  have bound : pgSize ≤ 2 ^ 63 := by decide
  rcases hosted.sound.malloc_vacant bound with ⟨-, result⟩ | ⟨pi, h', lists', nonzero, result, sound, -⟩
  · exact Or.inl result
  · exact Or.inr ⟨pi, h', lists', nonzero, (hosted.unused sound).2, result, sound⟩

theorem Hosted.bdFree (member : (f, fileSize) ∈ live) :
    ∃ h' lists', bdFree s.heap f = .ok h' ∧
      Hosted h₀ m left right ⟨h', update s.files f none, s.pipes, s.ofile⟩ (live.erase (f, fileSize)) lists' := by
  obtain ⟨n, h', -, result, sound⟩ := hosted.sound.free member
  exact ⟨h', _, result, sound, listed_clear hosted.files f, listed_erase hosted.pipes sizes_differ.symm f⟩

theorem Hosted.kfree (member : (pi, pgSize) ∈ live) :
    ∃ h' lists', kfree s.heap pi = .ok h' ∧
      Hosted h₀ m left right ⟨h', s.files, update s.pipes pi none, s.ofile⟩ (live.erase (pi, pgSize)) lists' := by
  obtain ⟨n, h', -, result, sound⟩ := hosted.sound.free member
  exact ⟨h', _, result, sound, listed_erase hosted.files sizes_differ pi, listed_clear hosted.pipes pi⟩

theorem Hosted.put (file : File) (used : s.files f ≠ none) :
    Hosted h₀ m left right ⟨s.heap, update s.files f (some file), s.pipes, s.ofile⟩ live lists :=
  ⟨hosted.sound, listed_update hosted.files (hosted.files f used) _, hosted.pipes⟩

theorem Hosted.putPipe (pipe : Pipes.Pipe) (used : s.pipes pi ≠ none) :
    Hosted h₀ m left right ⟨s.heap, s.files, update s.pipes pi (some pipe), s.ofile⟩ live lists :=
  ⟨hosted.sound, hosted.files, listed_update hosted.pipes (hosted.pipes pi used) _⟩

theorem Hosted.fileclose (nonzero : f ≠ 0)
    (present : s.files f = some file) (one : file.ref = 1) (kind : file.type ≠ .pipe) :
    ∃ h' lists', fileclose s f = .ok ⟨h', update s.files f none, s.pipes, s.ofile⟩ ∧
      Hosted h₀ m left right ⟨h', update s.files f none, s.pipes, s.ofile⟩ (live.erase (f, fileSize)) lists' := by
  have used : s.files f ≠ none := present.trans_ne (Option.some_ne_none file)
  obtain ⟨h', lists', result, next⟩ := (hosted.put { file with ref := 0 } used).bdFree (hosted.files f used)
  dsimp only at result next
  rw [update_idem] at next
  refine ⟨h', lists', ?_, next⟩
  rw [fileclose_last nonzero present one, if_neg kind]
  simp only [Bind.bind, Except.bind, Pure.pure, Except.pure, result, update_idem]

theorem Hosted.closeRead
    (nonzero : f ≠ 0) (present : s.files f = some file) (one : file.ref = 1) (kind : file.type = .pipe)
    (reads : file.writable = false) (page : s.pipes file.pipe = some pipe) (other : pipe.writeopen = true) :
    ∃ h' lists', Creation.fileclose s f = .ok ⟨h', update s.files f none,
        update s.pipes file.pipe (some { pipe with readopen := false }), s.ofile⟩ ∧
      Hosted h₀ m left right ⟨h', update s.files f none,
        update s.pipes file.pipe (some { pipe with readopen := false }), s.ofile⟩
        (live.erase (f, fileSize)) lists' := by
  have used : s.files f ≠ none := present.trans_ne (Option.some_ne_none file)
  have used' : s.pipes file.pipe ≠ none := page.trans_ne (Option.some_ne_none pipe)
  have written := (hosted.put { file with ref := 0 } used).putPipe { pipe with readopen := false } used'
  obtain ⟨h', lists', result, next⟩ := written.bdFree (hosted.files f used)
  dsimp only at result next
  rw [update_idem] at next
  refine ⟨h', lists', ?_, next⟩
  rw [fileclose_last nonzero present one, if_pos kind]
  simp only [pipeclose, page, reads, other, Bind.bind, Except.bind, Pure.pure, Except.pure, Bool.false_eq_true,
    Bool.true_eq_false, if_false, and_false, result, update_idem]

theorem Hosted.closeWrite
    (nonzero : f ≠ 0) (present : s.files f = some file) (one : file.ref = 1) (kind : file.type = .pipe)
    (writes : file.writable = true) (page : s.pipes file.pipe = some pipe) (other : pipe.readopen = false) :
    ∃ h' lists', Creation.fileclose s f = .ok ⟨h', update s.files f none,
        update s.pipes file.pipe none, s.ofile⟩ ∧
      Hosted h₀ m left right ⟨h', update s.files f none, update s.pipes file.pipe none, s.ofile⟩
        ((live.erase (file.pipe, pgSize)).erase (f, fileSize)) lists' := by
  have used : s.files f ≠ none := present.trans_ne (Option.some_ne_none file)
  have used' : s.pipes file.pipe ≠ none := page.trans_ne (Option.some_ne_none pipe)
  have written := hosted.put { file with ref := 0 } used
  obtain ⟨h', lists', result, next⟩ := written.kfree (hosted.pipes file.pipe used')
  have owner : (f, fileSize) ∈ live.erase (file.pipe, pgSize) := listed_erase hosted.files sizes_differ file.pipe f used
  obtain ⟨h'', lists'', result', next'⟩ := next.bdFree owner
  dsimp only at result result' next'
  rw [update_idem] at next'
  refine ⟨h'', lists'', ?_, next'⟩
  rw [fileclose_last nonzero present one, if_pos kind]
  simp only [pipeclose, page, writes, other, Bind.bind, Except.bind, Pure.pure, Except.pure, if_true, and_self, result,
    result', update_idem]

theorem Hosted.closeBoth {rf wf : Nat} {fr fw : File}
    (nonzero : rf ≠ 0) (nonzero' : wf ≠ 0) (different : rf ≠ wf) (first : s.files rf = some fr)
    (second : s.files wf = some fw) (one : fr.ref = 1) (one' : fw.ref = 1) (kind : fr.type = .pipe)
    (kind' : fw.type = .pipe) (reads : fr.writable = false) (writes : fw.writable = true) (same : fr.pipe = pi)
    (same' : fw.pipe = pi) (page : s.pipes pi = some pipe) (opened : pipe.writeopen = true) :
    ∃ h' lists', Creation.closeBoth s rf wf = .ok ⟨h', update (update s.files rf none) wf none,
        update s.pipes pi none, s.ofile⟩ ∧
      Hosted h₀ m left right ⟨h', update (update s.files rf none) wf none,
        update s.pipes pi none, s.ofile⟩
        (((live.erase (rf, fileSize)).erase (pi, pgSize)).erase (wf, fileSize)) lists' := by
  subst same
  obtain ⟨h₁, lists₁, result, next⟩ := hosted.closeRead nonzero first one kind reads page opened
  have second' : (update s.files rf none) wf = some fw := by
    rw [update_of_ne different.symm]
    exact second
  have page' : (update s.pipes fr.pipe (some { pipe with readopen := false })) fw.pipe =
      some { pipe with readopen := false } := by
    rw [same', update_self]
  obtain ⟨h₂, lists₂, result', next'⟩ := next.closeWrite nonzero' second' one' kind' writes page' rfl
  dsimp only at result' next'
  rw [same', update_idem] at result' next'
  refine ⟨h₂, lists₂, ?_, next'⟩
  unfold Creation.closeBoth
  rw [result]
  exact result'

end Files

def readEnd (pi : Nat) : File := { File.fresh with type := .pipe, readable := true, pipe := pi }

def writeEnd (pi : Nat) : File := { File.fresh with type := .pipe, writable := true, pipe := pi }

theorem erase_second {a b : Nat × Nat} (different : a ≠ b) (live : List (Nat × Nat)) : (a :: b :: live).erase b = a :: live := by
  rw [List.erase_cons_tail (by simpa using different), List.erase_cons_head]

theorem Hosted.pipeallocBad (nonzero : f0 ≠ 0) (nonzero' : f1 ≠ 0) (different : f0 ≠ f1)
    (hosted : Hosted h₀ m left right s ((f1, fileSize) :: (f0, fileSize) :: live) lists)
    (first : s.files f0 = some File.fresh) (second : s.files f1 = some File.fresh) :
    ∃ h' lists', Creation.pipeallocBad s 0 f0 f1 =
        .ok ⟨h', update (update s.files f0 none) f1 none, s.pipes, s.ofile⟩ ∧
      Hosted h₀ m left right ⟨h', update (update s.files f0 none) f1 none, s.pipes, s.ofile⟩ live lists' := by
  obtain ⟨h₁, lists₁, result, next⟩ := hosted.fileclose nonzero first rfl nofun
  rw [erase_second fun same => different (congrArg Prod.fst same).symm] at next
  have second' : (update s.files f0 none) f1 = some File.fresh := by
    rw [update_of_ne different.symm]
    exact second
  obtain ⟨h₂, lists₂, result', next'⟩ := next.fileclose nonzero' second' rfl nofun
  rw [List.erase_cons_head] at next'
  refine ⟨h₂, lists₂, ?_, next'⟩
  unfold Creation.pipeallocBad
  simp only [ne_eq, not_true_eq_false, if_false, nonzero, nonzero', not_false_eq_true, if_true, Bind.bind, Except.bind,
    Pure.pure, Except.pure, result, result']

theorem restore_two {κ : Type*} [DecidableEq κ] {table : κ → Option α} {i j : κ} (first : table i = none)
    (second : table j = none) (a b : Option α) :
    update (update (update (update table i a) j b) i none) j none = table := by
  funext g
  by_cases isSecond : g = j
  · rw [isSecond, update_self, second]
  by_cases isFirst : g = i
  · rw [isFirst] at isSecond ⊢
    rw [update_of_ne isSecond, update_self, first]
  · rw [update_of_ne isSecond, update_of_ne isFirst, update_of_ne isSecond,
      update_of_ne isFirst]

structure NewPipe (h₀ : Heap) (m left right : Nat) (s s' : State) (live : List (Nat × Nat)) (rf wf pi : Nat) : Prop where
  nonzero : rf ≠ 0
  nonzero' : wf ≠ 0
  different : rf ≠ wf
  unused : s.files rf = none
  unused' : s.files wf = none
  unusedPage : s.pipes pi = none
  files : s'.files = update (update s.files rf (some (readEnd pi))) wf (some (writeEnd pi))
  pipes : ∃ pipe : Pipes.Pipe, s'.pipes = update s.pipes pi (some pipe) ∧ pipe.readopen = true ∧
    pipe.writeopen = true ∧ pipe.nread = 0 ∧ pipe.nwrite = 0
  ofile : s'.ofile = s.ofile
  hosted : ∃ lists, Hosted h₀ m left right s' ((pi, pgSize) :: (wf, fileSize) :: (rf, fileSize) :: live) lists

theorem pipealloc_full {s₂ : State} (first : filealloc s = .ok (f0, s₁)) (nonzero : f0 ≠ 0)
    (second : filealloc s₁ = .ok (f1, s₂)) (nonzero' : f1 ≠ 0) (full : Buddy.kalloc s₂.heap = .ok (0, s₂.heap)) :
    pipealloc s = (do return (none, ← pipeallocBad s₂ 0 f0 f1)) := by
  unfold pipealloc
  simp only [first, second, full, nonzero, nonzero', if_false, if_true, Bind.bind, Except.bind, Pure.pure, Except.pure]

theorem pipealloc_made {files : Nat → Option File} {h' : Heap} (first : filealloc s = .ok (f0, s₁)) (nonzero : f0 ≠ 0)
    (second : filealloc s₁ = .ok (f1, ⟨h, update (update files f0 (some File.fresh)) f1 (some File.fresh),
      s.pipes, s.ofile⟩)) (nonzero' : f1 ≠ 0) (different : f0 ≠ f1) (page : Buddy.kalloc h = .ok (pi, h'))
    (nonzeroPage : pi ≠ 0) :
    ∃ pipe : Pipes.Pipe, (pipe.readopen = true ∧ pipe.writeopen = true ∧ pipe.nread = 0 ∧ pipe.nwrite = 0) ∧
      pipealloc s = .ok (some (f0, f1), ⟨h',
        update (update files f0 (some (readEnd pi))) f1 (some (writeEnd pi)),
        update s.pipes pi (some pipe), s.ofile⟩) := by
  refine ⟨⟨fun i => h'.bytes (pi + pipeData + i), 0, 0, true, true⟩, ⟨rfl, rfl, rfl, rfl⟩, ?_⟩
  unfold pipealloc
  simp only [first, second, page, nonzero, nonzero', nonzeroPage, if_false, Bind.bind, Except.bind, Pure.pure, Except.pure,
    load, store, update_self, update_of_ne different, update_of_ne different.symm]
  rw [update_comm different, update_idem, update_comm different.symm, update_idem]
  rfl

theorem two_le_iff {members : Set α} {a : α} (member : a ∈ members) :
    2 ≤ members.encard ↔ (members \ {a}).Nonempty := by
  rw [← Set.encard_sdiff_singleton_add_one member, ← Set.one_le_encard_iff_nonempty, ← one_add_one_eq_two]
  exact WithTop.add_le_add_iff_right ENat.one_ne_top

variable (hosted : Hosted h₀ m left right s live lists)

include hosted

theorem Hosted.pipealloc :
    (¬ 2 ≤ (freeAt m (outside left right) (owned h₀ live) 2).encard ∧ pipealloc s = .error .undefined) ∨
    (2 ≤ (freeAt m (outside left right) (owned h₀ live) 2).encard ∧ ∃ result s', pipealloc s = .ok (result, s') ∧
      ((result = none ∧ s'.files = s.files ∧ s'.pipes = s.pipes ∧ s'.ofile = s.ofile ∧
          ∃ lists', Hosted h₀ m left right s' live lists') ∨
        ∃ rf wf pi, result = some (rf, wf) ∧ NewPipe h₀ m left right s s' live rf wf pi)) := by
  rcases hosted.filealloc with ⟨empty, fault⟩ | ⟨f0, h₁, lists₁, nonzero, unused, first, next, i, member, rest⟩
  · refine Or.inl ⟨?_, ?_⟩
    · rw [empty, Set.encard_empty]
      decide
    · unfold Creation.pipealloc
      rw [fault]
      rfl
  rw [two_le_iff member, ← rest]
  rcases next.filealloc with ⟨empty, fault⟩ | ⟨f1, h₂, lists₂, nonzero', unused', second, next', j, member', -⟩
  · refine Or.inl ⟨?_, ?_⟩
    · rw [empty]
      exact Set.not_nonempty_empty
    · unfold Creation.pipealloc
      simp only [first, fault, nonzero, if_false, Bind.bind, Except.bind]
  refine Or.inr ⟨⟨j, member'⟩, ?_⟩
  have different : f0 ≠ f1 := by
    rintro rfl
    dsimp only at unused'
    rw [update_self] at unused'
    cases unused'
  have unusedSecond : s.files f1 = none := by
    dsimp only at unused'
    rw [update_of_ne different.symm] at unused'
    exact unused'
  rcases next'.kalloc with full | ⟨pi, h₃, lists₃, nonzeroPage, unusedPage, page, sound⟩
  · have firstFile : (update (update s.files f0 (some File.fresh)) f1 (some File.fresh)) f0 =
        some File.fresh := by
      rw [update_of_ne different, update_self]
    have secondFile : (update (update s.files f0 (some File.fresh)) f1 (some File.fresh)) f1 =
        some File.fresh := update_self _ _ _
    obtain ⟨h', lists', result, closed⟩ := next'.pipeallocBad nonzero nonzero' different firstFile secondFile
    have returned := pipealloc_full first nonzero second nonzero' full
    simp only [result, Bind.bind, Except.bind, Pure.pure, Except.pure] at returned
    exact ⟨none, _, returned, Or.inl ⟨rfl, restore_two unused unusedSecond _ _, rfl, rfl, lists', closed⟩⟩
  · obtain ⟨pipe, opened, result⟩ := pipealloc_made first nonzero second nonzero' different page nonzeroPage
    refine ⟨_, _, result, Or.inr ⟨f0, f1, pi, rfl, nonzero, nonzero', different, unused, unusedSecond, unusedPage, rfl,
      ⟨pipe, rfl, opened⟩, rfl, lists₃, sound, ?_, ?_⟩⟩
    · exact listed_cons (listed_new (listed_new hosted.files f0 _) f1 _) _
    · exact listed_new (listed_cons (listed_cons hosted.pipes _) _) pi _

theorem NewPipe.close {s' : State} {rf wf : Nat}
    (made : NewPipe h₀ m left right s s' live rf wf pi) :
    ∃ s'', closeBoth ⟨s'.heap, s'.files, s'.pipes, s.ofile⟩ rf wf = .ok s'' ∧ Restored s s'' := by
  obtain ⟨pipe, pipes, -, opened, -⟩ := made.pipes
  obtain ⟨lists', next⟩ := made.hosted
  have kept : Hosted h₀ m left right ⟨s'.heap, s'.files, s'.pipes, s.ofile⟩
      ((pi, pgSize) :: (wf, fileSize) :: (rf, fileSize) :: live) lists' := ⟨next.sound, next.files, next.pipes⟩
  have first : s'.files rf = some (readEnd pi) := by
    rw [made.files, update_of_ne made.different, update_self]
  have second : s'.files wf = some (writeEnd pi) := by
    rw [made.files, update_self]
  have page : s'.pipes pi = some pipe := by
    rw [pipes, update_self]
  obtain ⟨h', lists'', result, closed⟩ := kept.closeBoth made.nonzero made.nonzero' made.different first second rfl rfl rfl
    rfl rfl rfl (show (readEnd pi).pipe = pi from rfl) (show (writeEnd pi).pipe = pi from rfl) page opened
  have differ : ((pi, pgSize) : Nat × Nat) ≠ (rf, fileSize) := fun same => sizes_differ (congrArg Prod.snd same).symm
  have apart : ((wf, fileSize) : Nat × Nat) ≠ (rf, fileSize) := fun same => made.different (congrArg Prod.fst same).symm
  rw [List.erase_cons_tail (by simpa using differ), erase_second apart, List.erase_cons_head, List.erase_cons_head] at closed
  refine ⟨_, result, rfl, ?_, ?_, ?_⟩
  · change update (update s'.files rf none) wf none = s.files
    rw [made.files]
    exact restore_two made.unused made.unused' _ _
  · change update s'.pipes pi none = s.pipes
    rw [pipes, update_idem]
    exact update_eq_self_iff.mpr made.unusedPage.symm
  · exact hosted.sameFree closed

end Hosting

section Calls

inductive Call where
  | filealloc
  | pipealloc
  | sysPipe (copied : Bool)
  | sysOpen (inode : Option Inode) (omode : Nat)

def Call.files : Call → Nat
  | .filealloc => 1
  | .pipealloc | .sysPipe _ => 2
  | .sysOpen inode omode => if (openable inode omode).isSome then 1 else 0

/-- The call returns: either what it was asked for, or an error and then everything is as it was before. -/
def Handled (s : State) : Call → Prop
  | .filealloc => ∃ f s', filealloc s = .ok (f, s') ∧
      (f = 0 ∧ Restored s s' ∨ f ≠ 0 ∧ s.files f = none ∧ s'.files = update s.files f (some File.fresh) ∧
        s'.pipes = s.pipes ∧ s'.ofile = s.ofile)
  | .pipealloc => ∃ result s', pipealloc s = .ok (result, s') ∧
      (result = none ∧ Restored s s' ∨ ∃ rf wf pi pipe, result = some (rf, wf) ∧ rf ≠ wf ∧ s.files rf = none ∧
        s.files wf = none ∧ s.pipes pi = none ∧
        s'.files = update (update s.files rf (some (readEnd pi))) wf (some (writeEnd pi)) ∧
        s'.pipes = update s.pipes pi (some pipe) ∧ s'.ofile = s.ofile)
  | .sysPipe copied => ∃ v s', sysPipe s copied = .ok (v, s') ∧
      (v = -1 ∧ Restored s s' ∨ v = 0 ∧ ∃ fd0 fd1 rf wf pi, fd0 ≠ fd1 ∧ s.ofile fd0 = none ∧ s.ofile fd1 = none ∧
        s'.ofile = update (update s.ofile fd0 (some rf)) fd1 (some wf) ∧
        s'.files rf = some (readEnd pi) ∧ s'.files wf = some (writeEnd pi))
  | .sysOpen inode omode => ∃ v s', sysOpen s inode omode = .ok (v, s') ∧
      (v = -1 ∧ Restored s s' ∨ ∃ fd f file, v = (fd : Fd).val ∧ s.ofile fd = none ∧ s.files f = none ∧
        s'.ofile = update s.ofile fd (some f) ∧ s'.files = update s.files f (some file) ∧ file.ref = 1)

theorem update_clear {ofile : Fd → Option Nat} {fd : Fd} (free : ofile fd = none) (value : Option Nat) :
    update (update ofile fd value) fd none = ofile := by
  rw [update_idem]
  exact update_eq_self_iff.mpr free.symm

section Handled

variable {h₀ : Heap} {m left right : Nat} {s : State} {live : List (Nat × Nat)} {lists : Nat → List Nat}
  (hosted : Hosted h₀ m left right s live lists)

include hosted

theorem Hosted.handles_filealloc :
    Handled s .filealloc ↔ (freeAt m (outside left right) (owned h₀ live) 2).Nonempty := by
  rcases hosted.filealloc with ⟨empty, fault⟩ | ⟨f, h', lists', nonzero, unused, result, -, i, member, -⟩
  · rw [empty]
    refine iff_of_false ?_ Set.not_nonempty_empty
    rintro ⟨f, s', result, -⟩
    rw [fault] at result
    cases result
  · refine iff_of_true ⟨f, _, result, Or.inr ⟨nonzero, unused, rfl, rfl, rfl⟩⟩ ⟨i, member⟩

theorem Hosted.handles_pipealloc :
    Handled s .pipealloc ↔ 2 ≤ (freeAt m (outside left right) (owned h₀ live) 2).encard := by
  rcases hosted.pipealloc with ⟨few, fault⟩ | ⟨enough, result, s', returned, outcome⟩
  · refine iff_of_false ?_ few
    rintro ⟨result, s', returned, -⟩
    rw [fault] at returned
    cases returned
  · refine iff_of_true ⟨result, s', returned, ?_⟩ enough
    rcases outcome with ⟨failed, files, pipes, ofile, lists', kept⟩ | ⟨rf, wf, pi, succeeded, made⟩
    · exact Or.inl ⟨failed, ofile, files, pipes, hosted.sameFree kept⟩
    · obtain ⟨pipe, pipes, -⟩ := made.pipes
      exact Or.inr ⟨rf, wf, pi, pipe, succeeded, made.different, made.unused, made.unused', made.unusedPage, made.files, pipes,
        made.ofile⟩

theorem NewPipe.handled {s' : State} {rf wf pi : Nat} {copied : Bool}
    (result : Creation.pipealloc s = .ok (some (rf, wf), s')) (made : NewPipe h₀ m left right s s' live rf wf pi) :
    Handled s (.sysPipe copied) := by
  obtain ⟨s'', closing, restored⟩ := made.close hosted
  have same := made.ofile
  obtain ⟨heap, files, pipes, ofile⟩ := s'
  dsimp only at same closing
  subst same
  unfold Handled sysPipe
  simp only [result, Bind.bind, Except.bind]
  cases slot : Files.fdalloc s.ofile with
  | none =>
    simp only [State.fdalloc, slot, closing, Pure.pure, Except.pure]
    exact ⟨-1, s'', rfl, Or.inl ⟨rfl, restored⟩⟩
  | some fd0 =>
    have free := fdalloc_free slot
    cases slot' : Files.fdalloc (update s.ofile fd0 (some rf)) with
    | none =>
      simp only [State.fdalloc, slot, slot', State.clear, update_clear free, closing, Pure.pure, Except.pure]
      exact ⟨-1, s'', rfl, Or.inl ⟨rfl, restored⟩⟩
    | some fd1 =>
      have free' := fdalloc_free slot'
      have different : fd0 ≠ fd1 := by
        rintro rfl
        rw [update_self] at free'
        cases free'
      rw [update_of_ne different.symm] at free'
      simp only [State.fdalloc, slot, slot', State.clear]
      cases copied with
      | true =>
        have first : files rf = some (readEnd pi) := by
          have written := made.files
          dsimp only at written
          rw [written, update_of_ne made.different, update_self]
        have second : files wf = some (writeEnd pi) := by
          have written := made.files
          dsimp only at written
          rw [written, update_self]
        exact ⟨0, _, rfl, Or.inr ⟨rfl, fd0, fd1, rf, wf, pi, different, free, free', rfl, first, second⟩⟩
      | false =>
        simp only [restore_two free free', closing, Pure.pure, Except.pure, Bool.false_eq_true, if_false]
        exact ⟨-1, s'', rfl, Or.inl ⟨rfl, restored⟩⟩

theorem Hosted.handles_sysPipe (copied : Bool) :
    Handled s (.sysPipe copied) ↔ 2 ≤ (freeAt m (outside left right) (owned h₀ live) 2).encard := by
  rcases hosted.pipealloc with ⟨few, fault⟩ | ⟨enough, result, s', returned, outcome⟩
  · apply iff_of_false _ few
    intro handled
    obtain ⟨v, s', returned, -⟩ := handled
    unfold sysPipe at returned
    rw [fault] at returned
    cases returned
  · apply iff_of_true _ enough
    rcases outcome with ⟨failed, files, pipes, ofile, lists', kept⟩ | ⟨rf, wf, pi, succeeded, made⟩
    · subst failed
      refine ⟨-1, s', ?_, Or.inl ⟨rfl, ofile, files, pipes, hosted.sameFree kept⟩⟩
      unfold sysPipe
      rw [returned]
      rfl
    · subst succeeded
      exact made.handled hosted returned

theorem Hosted.handles_sysOpen {inode : Option Inode} {omode : Nat}
    {found : Inode} (opens : openable inode omode = some found) :
    Handled s (.sysOpen inode omode) ↔ (freeAt m (outside left right) (owned h₀ live) 2).Nonempty := by
  rcases hosted.filealloc with ⟨empty, fault⟩ | ⟨f, h', lists', nonzero, unused, result, next, i, member, -⟩
  · rw [empty]
    apply iff_of_false _ Set.not_nonempty_empty
    intro handled
    obtain ⟨v, s', returned, -⟩ := handled
    unfold sysOpen at returned
    rw [opens] at returned
    simp only [fault, Bind.bind, Except.bind] at returned
    cases returned
  apply iff_of_true _ ⟨i, member⟩
  simp only [Handled, sysOpen, opens, result, Bind.bind, Except.bind, if_neg nonzero]
  cases slot : Files.fdalloc s.ofile with
  | none =>
    have present : (update s.files f (some File.fresh)) f = some File.fresh := update_self _ _ _
    obtain ⟨h'', lists'', closing, closed⟩ := next.fileclose nonzero present rfl nofun
    rw [List.erase_cons_head] at closed
    simp only [State.fdalloc, slot, closing, Pure.pure, Except.pure]
    refine ⟨-1, _, rfl, Or.inl ⟨rfl, rfl, ?_, rfl, hosted.sameFree closed⟩⟩
    dsimp only
    rw [update_idem]
    exact update_eq_self_iff.mpr unused.symm
  | some fd =>
    simp only [State.fdalloc, slot, load, store, if_neg nonzero, update_self, update_idem, Pure.pure,
      Except.pure]
    refine ⟨fd.val, _, rfl, Or.inr ⟨fd, f, _, rfl, fdalloc_free slot, unused, rfl, rfl, ?_⟩⟩
    by_cases device : found.type = .device
    · simp only [if_pos device]
      rfl
    · simp only [if_neg device]
      rfl

theorem Restored.refl : Restored s s :=
  ⟨rfl, rfl, rfl, hosted.sameFree hosted⟩

end Handled

/-- `filealloc` does not test what `bd_malloc` returns: a call is handled if and only if the heap has a free block
    for each `struct file` that the call allocates. -/
theorem creation_handled_iff {checked : Bool} {memory : Memory} {base endp : Nat} {h₀ : Heap} {s : State}
    {live : List (Nat × Nat)} (baseRange : base < 2 ^ 64) (endRange : endp < 2 ^ 64)
    (init : bdInit checked memory base endp = .ok h₀) (run : Run h₀ s.heap live)
    (files : ∀ f, s.files f ≠ none → (f, fileSize) ∈ live) (pipes : ∀ pi, s.pipes pi ≠ none → (pi, pgSize) ∈ live)
    (call : Call) :
    Handled s call ↔
      (call.files : ℕ∞) ≤ (vacant h₀ (bdInitSizes checked memory base endp).1 (bdEnd h₀ endp) live 2).encard := by
  obtain ⟨m, left, right, lists₀, window, start⟩ := bdInit_window baseRange endRange init
  obtain ⟨lists, sound⟩ := run.sound window.placed window.room start
  have hosted : Hosted h₀ m left right s live lists := ⟨sound, files, pipes⟩
  rw [window.low, window.high, sound.vacant_eq]
  cases call with
  | filealloc =>
    rw [hosted.handles_filealloc, ← Set.one_le_encard_iff_nonempty]
    rfl
  | pipealloc => exact hosted.handles_pipealloc
  | sysPipe copied => exact hosted.handles_sysPipe copied
  | sysOpen inode omode =>
    cases opens : openable inode omode with
    | none =>
      apply iff_of_true
      · refine ⟨-1, s, ?_, Or.inl ⟨rfl, .refl hosted⟩⟩
        unfold sysOpen
        rw [opens]
        rfl
      · simp only [Call.files, opens, Option.isSome_none, Bool.false_eq_true, if_false, Nat.cast_zero, zero_le]
    | some found =>
      rw [hosted.handles_sysOpen opens, ← Set.one_le_encard_iff_nonempty]
      simp only [Call.files, opens, Option.isSome_some, if_true, Nat.cast_one]

def bare (h : Heap) : State := ⟨h, fun _ => none, fun _ => none, fun _ => none⟩

theorem creation_handled_iff_700 : ∃ h₀, bdInit false blankMemory 4096 4796 = .ok h₀ ∧
    (Handled (bare h₀) .pipealloc ↔
      2 ≤ (vacant h₀ (bdInitSizes false blankMemory 4096 4796).1 (bdEnd h₀ 4796) [] 2).encard) := by
  obtain ⟨h₀, -, init, -⟩ := blank_700
  refine ⟨h₀, init, ?_⟩
  exact creation_handled_iff (by decide) (by decide) init (s := bare h₀) Run.init (fun _ used => absurd rfl used)
    (fun _ used => absurd rfl used) .pipealloc

/-- After requests of 256 and 128 bytes no block of 64 bytes is left, and `filealloc` writes through the null
    pointer. -/
theorem filealloc_null_write : ∃ h₀ h live, bdInit false blankMemory 4096 4796 = .ok h₀ ∧ Run h₀ h live ∧
    filealloc (bare h) = .error .undefined ∧ ¬ Handled (bare h) .filealloc := by
  obtain ⟨h₀, init, rest⟩ := returns_ok (show returns (bdInit false blankMemory 4096 4796) (fun h₀ =>
    returns (bdMalloc h₀ 256) fun large => returns (bdMalloc large.2 128) fun small =>
      returns (bdMalloc small.2 64) fun last => last.1 == 0) = true by decide +kernel)
  obtain ⟨⟨r₁, h₁⟩, large, more⟩ := returns_ok rest
  obtain ⟨⟨r, h⟩, small, last⟩ := returns_ok more
  obtain ⟨⟨r', h'⟩, second, null⟩ := returns_ok last
  have zero : r' = 0 := eq_of_beq null
  subst zero
  have fault : filealloc (bare h) = .error .undefined := by
    have refused : bdMalloc (bare h).heap fileSize = .ok (0, h') := second
    rw [filealloc, refused]
    rfl
  refine ⟨h₀, h, _, init, Run.malloc (Run.malloc Run.init (by decide) large) (by decide) small, fault, ?_⟩
  intro handled
  obtain ⟨f, s', returned, -⟩ := handled
  rw [fault] at returned
  cases returned

end Calls

end OShard.Creation
