import OShard.Space.Image

namespace OShard.Space

open Separation Assertion Prog

section Frugal

theorem walkFrom_frugal (va level root : Nat) : (walkFrom va false level root).Frugal := by
  induction level generalizing root with
  | zero => exact .done _
  | succ level ih =>
    apply Frugal.read
    intro page
    change (if _ then _ else _ : Prog Page _).Frugal
    split
    · exact ih _
    · exact .done _

theorem unmapPage_frugal (root a : Nat) (doFree : Bool) : (unmapPage root a doFree).Frugal := by
  apply Frugal.bind
  · rw [walk]
    split
    · exact .fail _
    · exact walkFrom_frugal _ _ _
  · intro r
    cases r with
    | none => exact .fail _
    | some found =>
      apply Frugal.read
      intro page
      change (if _ then _ else _ : Prog Page _).Frugal
      split
      · exact .fail _
      split
      · exact .fail _
      cases doFree with
      | true => exact .free (.modify (.done _))
      | false => exact .modify (.done _)

theorem uvmunmap_frugal (root va npages : Nat) (doFree : Bool) : (uvmunmap root va npages doFree).Frugal := by
  rw [uvmunmap]
  split
  · exact .fail _
  · exact Frugal.loop fun k => unmapPage_frugal _ _ _

theorem freewalk_frugal (level root : Nat) : (freewalk level root).Frugal := by
  induction level generalizing root with
  | zero => exact .fail _
  | succ level ih =>
    rw [freewalk]
    apply Frugal.bind
    · apply Frugal.loop
      intro i
      apply Frugal.read
      intro page
      change (if _ then _ else _ : Prog Page _).Frugal
      split
      · exact Frugal.bind (ih _) fun _ => .modify (.done _)
      split
      · exact .fail _
      · exact .done _
    · exact fun _ => .free (.done _)

theorem procFreepagetable_frugal (root sz : Nat) : (procFreepagetable root sz).Frugal := by
  rw [procFreepagetable]
  apply Frugal.bind (uvmunmap_frugal _ _ _ _)
  intro _
  apply Frugal.bind (uvmunmap_frugal _ _ _ _)
  intro _
  rw [uvmfree]
  split
  · exact Frugal.bind (uvmunmap_frugal _ _ _ _) fun _ => freewalk_frugal _ _
  · exact freewalk_frugal _ _

theorem commit_frugal (p : Proc) (path : List Nat) (image : Image) : (commit p path image).Frugal := by
  have rest : (procFreepagetable p.pagetable p.sz >>= fun _ =>
      Pure.pure { p with pagetable := image.pagetable, sz := image.sz, name := lastName path } : Prog Page Proc).Frugal :=
    Frugal.bind (procFreepagetable_frugal _ _) fun _ => .done _
  exact .modify (.modify (.modify rest))

end Frugal

section AllOrNothing

variable {ram : Ram} {p p' : Proc} {h g : Heap Page} {path : List Nat} {ip : Option Inode} {argv : List (List Nat)} {freed : List Nat}
  {calls : List Call} {r : Int}

theorem commit_once {fails : Prop} {image : Image} {new : Heap Page} (owned : Owned ram p h) (apart : h.Apart new)
    (run : Run (ram.supply fails) (h.union new, commit p path image) freed (g, .done p')) {a : Nat} (mine : h a ≠ none)
    (other : a ≠ p.trapframe) : freed.count a = 1 := by
  obtain ⟨h', rfl, -, ⟨-, -, junk, rfl⟩, -⟩ := run.framed apart (commit_spec.run h owned)
  have gone : (Heap.single p.trapframe junk).union new a = none :=
    Heap.union_none.mpr ⟨Heap.single_other other, (apart a).resolve_left mine⟩
  have there : h.union new a ≠ none := fun none => mine (Heap.union_none.mp none).1
  have once := run.once (commit_frugal p path image) a
  rw [if_pos gone, if_neg there] at once
  exact once

theorem exec_once {fails : Prop} (owned : Owned ram p h) (few : argv.length < maxArg)
    (run : Run (ram.supply fails) (h, exec ram.trampoline p path ip argv) freed (g, .done (r, p', calls))) (success : r ≠ -1)
    {a : Nat} (mine : h a ≠ none) (other : a ≠ p.trapframe) : freed.count a = 1 := by
  obtain ⟨g', ⟨image, calls'⟩, before, after, building, rest, rfl⟩ := Run.split run
  rw [← Heap.empty_union h] at building
  have triple : Triple (ram.supply fails) 1 (execImage ram.trampoline p.trapframe ip argv) _ :=
    execImage_spec owned.trapframe ip few
  have made := triple.run Heap.empty rfl
  obtain ⟨new, rfl, apart, ⟨-, here⟩, kept⟩ := building.framed (Heap.apart_empty h).symm made
  have untouched : before.count a = 0 := List.count_eq_zero.mpr fun inside => mine (kept a inside)
  cases image with
  | none =>
    cases (Run.ended rest).2
    exact absurd rfl success
  | some image =>
    rw [Heap.union_comm apart] at rest
    obtain ⟨g₂, p₂, first, second, committing, last, rfl⟩ := Run.split rest
    rw [List.count_append, List.count_append, untouched, commit_once owned apart.symm committing mine other, (Run.ended last).1]
    rfl

/-- The kernel memory that `exec` may touch is that of its process, so whatever others do meanwhile, it runs as here. -/
theorem exec_all_or_nothing {c : Prog Page (Int × Proc × List Call)} (owned : Owned ram p h) (few : argv.length < maxArg)
    (run : Run (ram.supply True) (h, exec ram.trampoline p path ip argv) freed (g, c)) :
    c.Safe g ∧ Acc (fun after before => Step (ram.supply True) before after) (g, c) ∧
      ∀ r p' calls, c = .done (r, p', calls) → calls = execCalls ip ∧ (r = -1 → g = h ∧ p' = p) ∧
        (r ≠ -1 → Owned ram p' g ∧ p'.trapframe = p.trapframe ∧ p'.ofile = p.ofile ∧
          ∀ a, h a ≠ none → a ≠ p.trapframe → freed.count a = 1) := by
  have holds := run.wp ((exec_exact owned path ip few).run h rfl)
  refine ⟨?_, step_acc g c, ?_⟩
  · have safe := wp_safe (Heap.apart_empty g) holds
    rw [Heap.union_empty] at safe
    exact safe
  · rintro r p' calls rfl
    obtain ⟨balanced, ⟨⟨failed, rfl⟩, rfl⟩ | ⟨⟨success, frame, files⟩, owned'⟩⟩ := holds
    · exact ⟨balanced, fun _ => ⟨rfl, rfl⟩, fun success => absurd failed success⟩
    · refine ⟨balanced, fun failed => ?_, fun failed => ⟨owned', frame, files, ?_⟩⟩
      · change r = -1 at failed
        change 0 ≤ r at success
        omega
      · intro a mine other
        exact exec_once owned few run failed mine other

end AllOrNothing

section Refused

def sixteenPages : Ram where
  pool := (Finset.range 16).image fun k => 0x80100000 + k * 4096
  trampoline := 0x80007000
  aligned := by decide
  bounded := by decide
  nonzero := by decide
  small := by decide
  text := by decide
  textAligned := by decide
  textBounded := by decide

def granted (k : Nat) : List (Option Nat) := (List.range k).map fun k => some (0x80100000 + k * 4096)

def bootWith (answers : List (Option Nat)) : Heap Page × Prog Page Proc :=
  follow sixteenPages.pool Page.zero 100 answers Heap.empty (userinit sixteenPages.trampoline)

theorem bootWith_run {fails : Prop} {answers : List (Option Nat)} (refusable : none ∈ answers → fails) {p : Proc}
    (result : (bootWith answers).2.result = some p) :
    ∃ freed, Run (sixteenPages.supply fails) (Heap.empty, userinit sixteenPages.trampoline) freed ((bootWith answers).1, .done p) :=
  follow_done refusable result

theorem bootWith_owned : ∃ p, Owned sixteenPages p (bootWith (granted 7)).1 := by
  have ended : (bootWith (granted 7)).2.result.isSome = true := by decide +kernel
  obtain ⟨p, result⟩ := Option.isSome_iff_exists.mp ended
  have answered : none ∉ granted 7 := by decide
  obtain ⟨freed, run⟩ := @bootWith_run False _ (fun none => answered none) p result
  exact ⟨p, run.wp (userinit_spec.run _ rfl)⟩

def bareElf : Inode := ⟨64, fun k => ([0x7F, 0x45, 0x4C, 0x46] : List UInt8).getD k 0, fun _ => true⟩

theorem exec_refused_table : ∃ p freed g p' calls, Owned sixteenPages p (bootWith (granted 7)).1 ∧
    Run (sixteenPages.supply True) ((bootWith (granted 7)).1, exec sixteenPages.trampoline p [] (some bareElf) []) freed (g, .done (-1, p', calls)) ∧
      g = (bootWith (granted 7)).1 ∧ p' = p ∧ calls = [.beginOp, .namei, .ilock, .iunlockput, .endOp] := by
  obtain ⟨p, owned⟩ := bootWith_owned
  have header : ¬(readi bareElf 0 ElfHdr.size).length ≠ ElfHdr.size := by decide
  have magic : ¬(ElfHdr.of (readi bareElf 0 ElfHdr.size)).magic ≠ elfMagic := by decide
  have run : Run (sixteenPages.supply True) ((bootWith (granted 7)).1, exec sixteenPages.trampoline p [] (some bareElf) []) []
      ((bootWith (granted 7)).1, .done (-1, p, [.beginOp, .namei, .ilock, .iunlockput, .endOp])) := by
    rw [exec, execImage, if_neg header, if_neg magic]
    exact .step (.refuse trivial) (.refl _)
  obtain ⟨balanced, failed, -⟩ := (exec_all_or_nothing owned (by decide) run).2.2 _ _ _ rfl
  exact ⟨p, [], _, _, _, owned, run, (failed rfl).1, (failed rfl).2, balanced⟩

end Refused

end OShard.Space
