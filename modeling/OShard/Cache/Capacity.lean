import OShard.Cache.Coherence

namespace OShard.Cache

open Logging Function

variable {k m n : Nat}

def nbuf : Nat := maxOpBlocks * 3

/-- The blocks that take up a buffer: those of all current uses, and those that the log keeps in the cache. -/
def State.busy (cfg : Setup k m) (s : State k m n) : Finset Block :=
  (Finset.univ.biUnion fun a => ((s.uses a).buf.map fun b => (s.bufs b).block).toFinset) ∪
    (s.pinned.map (cfg.dev, ·)).toFinset

def Works (cfg : Setup k m) (s t : State k m n) : Prop :=
  Step cfg s t ∧ ¬Strays cfg s t ∧ ∀ a block, t.uses a = .want block → block.1 = cfg.dev

structure OnDevice (cfg : Setup k m) (s : State k m n) : Prop where
  wants : ∀ a block, s.uses a = .want block → block.1 = cfg.dev
  bufs : ∀ a b, (s.uses a).buf = some b → (s.bufs b).dev = cfg.dev

variable {cfg : Setup k m} {s t : State k m n} {a : Agent k} {b : Fin n} {block : Block}

theorem mem_busy : block ∈ s.busy cfg ↔
    (∃ a b, (s.uses a).buf = some b ∧ (s.bufs b).block = block) ∨ ∃ blockno ∈ s.pinned, (cfg.dev, blockno) = block := by
  simp [State.busy]

section Device

theorem Sessions.used (sessions : Sessions cfg.dev s.pinned s.bufs s.uses) (has : (s.uses a).buf = some b) :
    0 < (s.bufs b).refcnt := by
  have one : (s.uses a).count b = 1 := if_pos has
  have part := Tally.le_sum (fun a => (s.uses a).count b) a
  have total := sessions.refcnt b
  omega

theorem buf_update {x : Agent k} {u : Use n} (kept : ∀ b, u.buf = some b → (s.uses x).buf = some b)
    (has : (update s.uses x u a).buf = some b) : (s.uses a).buf = some b := by
  by_cases same : a = x
  · subst same
    rw [update_self] at has
    exact kept b has
  · rw [update_of_ne same] at has
    exact has

theorem Step.buf (step : Step cfg s t) (has : (t.uses a).buf = some b) :
    (s.uses a).buf = some b ∨ ∃ block, s.uses a = .want block ∧ t.uses a = .waits b block := by
  cases step with
  | bget place got =>
    rename_i x block c buf
    by_cases same : a = x
    · subst same
      have after : update s.uses a (.waits c block) a = .waits c block := update_self _ _ _
      refine Or.inr ⟨block, place, ?_⟩
      change (update s.uses a (.waits c block) a).buf = some b at has
      rw [after] at has
      cases has
      exact after
    · change (update s.uses x (.waits c block) a).buf = some b at has
      rw [update_of_ne same] at has
      exact Or.inl has
  | drop place =>
    have same : ∀ c x, ((s.drop c).use x .idle).uses = update s.uses x .idle := by
      intro c x
      unfold State.drop
      split <;> rfl
    rw [same] at has
    exact Or.inl (buf_update (by rintro _ ⟨⟩) has)
  | logWrite place inOp result =>
    rename_i i block c dirty pin log
    have same : ∀ u, ((if pin then s.bpin c else s).record c |>.use (.user i) u).uses = update s.uses (.user i) u := by
      intro u
      cases pin <;> rfl
    change ((((if pin then s.bpin c else s).record c).use (.user i) (.held c block false)).uses a).buf = some b at has
    rw [same] at has
    exact Or.inl (buf_update (by rw [place]; exact fun _ => id) has)
  | bread | logTo | logFrom | headRead | install | installHome => exact Or.inl (buf_update (by rintro _ ⟨⟩) has)
  | acquiresleep place | valid place | diskRead place | modify _ place | bwrite place | brelse place | logCopy _ place
  | logWriteLog _ place | logDropFrom _ place | logDropTo _ _ place | headFill _ place | headWrite _ place
  | headDrop _ place | installDropLog _ place | installDropHome _ _ place =>
    exact Or.inl (buf_update (by rw [place]; exact fun _ => id) has)
  | _ => exact Or.inl has

theorem OnDevice.step (device : OnDevice cfg s) (before : Invariant cfg s) (after : Invariant cfg t) (works : Works cfg s t) :
    OnDevice cfg t := by
  refine ⟨works.2.2, fun a b has => ?_⟩
  rcases works.1.buf has with old | ⟨block, want, got⟩
  · have same := (works.1.identity before.wheel b (before.sessions.used old)).1
    exact (congrArg Prod.fst same).trans (device.bufs a b old)
  · have here := after.sessions.found a b block (by rw [got]; rfl)
    exact (congrArg Prod.fst here).trans (device.wants a block want)

theorem works_invariant (nonzero : cfg.dev ≠ 0) (reached : Transition.Reachable Init (Works cfg) s) :
    Invariant cfg s ∧ OnDevice cfg s := by
  apply Transition.Reachable.invariant reached
  · intro s init
    refine ⟨Invariant.init init, fun a block want => ?_, fun a b has => ?_⟩
    · rw [init.uses] at want
      cases want
    · rw [init.uses] at has
      cases has
  · rintro s t ⟨invariant, device⟩ works
    have next := invariant.step nonzero works.1 works.2.1
    exact ⟨next, device.step invariant next works⟩

end Device

section Counting

theorem bget_none_iff (wheel : ∃ xs, Wheel s.links xs) :
    s.bget block = none ↔ (∀ b, (s.bufs b).block ≠ block) ∧ ∀ b, (s.bufs b).refcnt ≠ 0 := by
  obtain ⟨xs, wheel⟩ := wheel
  have there := wheel.scan_next_spec fun c => (s.bufs c).block = block
  have free := wheel.scan_prev_spec fun c => (s.bufs c).refcnt = 0
  unfold State.bget State.cached State.unused
  split at there
  case h_1 c first =>
    simp only [first, reduceCtorEq, false_iff, not_and]
    exact fun missing => absurd (of_decide_eq_true there) (missing c)
  case h_2 first =>
    simp only [first]
    split at free
    case h_1 c second =>
      simp only [second, reduceCtorEq, false_iff, not_and]
      exact fun _ used => used c (of_decide_eq_true free)
    case h_2 second =>
      simp only [second, true_iff]
      exact ⟨fun c => of_decide_eq_false (there c), fun c => of_decide_eq_false (free c)⟩

theorem OnDevice.dev_of_busy (device : OnDevice cfg s) (member : block ∈ s.busy cfg) : block.1 = cfg.dev := by
  rcases mem_busy.mp member with ⟨a, b, has, rfl⟩ | ⟨blockno, -, rfl⟩
  · exact device.bufs a b has
  · rfl

section

variable (nonzero : cfg.dev ≠ 0)

include nonzero

theorem busy_iff (sessions : Sessions cfg.dev s.pinned s.bufs s.uses) (device : OnDevice cfg s) :
    (s.bufs b).block ∈ s.busy cfg ↔ (s.bufs b).refcnt ≠ 0 := by
  have total := sessions.refcnt b
  rw [mem_busy]
  constructor
  · rintro (⟨a, c, has, same⟩ | ⟨blockno, member, same⟩)
    · have real : (s.bufs c).dev ≠ 0 := by
        rw [device.bufs a c has]
        exact nonzero
      rw [← sessions.unique c b real same]
      exact Nat.ne_of_gt (sessions.used has)
    · have pin : (s.bufs b).pins cfg.dev s.pinned = 1 := by
        apply if_pos
        refine ⟨(congrArg Prod.fst same).symm, ?_⟩
        rw [← show blockno = (s.bufs b).blockno from congrArg Prod.snd same]
        exact member
      omega
  · intro used
    by_cases pinned : (s.bufs b).dev = cfg.dev ∧ (s.bufs b).blockno ∈ s.pinned
    · exact Or.inr ⟨_, pinned.2, Prod.ext pinned.1.symm rfl⟩
    · have unpinned : (s.bufs b).pins cfg.dev s.pinned = 0 := if_neg pinned
      have some : ∑ a, (s.uses a).count b ≠ 0 := by omega
      obtain ⟨a, -, counts⟩ := Finset.exists_ne_zero_of_sum_ne_zero some
      exact Or.inl ⟨a, b, of_not_not fun other => counts (if_neg other), rfl⟩

theorem busy_eq_image (sessions : Sessions cfg.dev s.pinned s.bufs s.uses) (device : OnDevice cfg s) :
    s.busy cfg = (Finset.univ.filter fun b => (s.bufs b).refcnt ≠ 0).image fun b => (s.bufs b).block := by
  ext block
  rw [Finset.mem_image]
  constructor
  · intro member
    obtain ⟨b, rfl⟩ : ∃ b, (s.bufs b).block = block := by
      rcases mem_busy.mp member with ⟨a, b, -, here⟩ | ⟨blockno, pinned, rfl⟩
      · exact ⟨b, here⟩
      · obtain ⟨b, here, -⟩ := sessions.cached blockno pinned
        exact ⟨b, here⟩
    exact ⟨b, Finset.mem_filter.mpr ⟨Finset.mem_univ b, (busy_iff nonzero sessions device).mp member⟩, rfl⟩
  · rintro ⟨b, used, rfl⟩
    exact (busy_iff nonzero sessions device).mpr (Finset.mem_filter.mp used).2

theorem busy_card (sessions : Sessions cfg.dev s.pinned s.bufs s.uses) (device : OnDevice cfg s) :
    (s.busy cfg).card = (Finset.univ.filter fun b => (s.bufs b).refcnt ≠ 0).card := by
  rw [busy_eq_image nonzero sessions device]
  apply Finset.card_image_of_injOn
  intro b used b' _ same
  have real : (s.bufs b).dev = cfg.dev :=
    device.dev_of_busy ((busy_iff nonzero sessions device).mpr (Finset.mem_filter.mp used).2)
  exact sessions.unique b b' (fun zero => nonzero (real.symm.trans zero)) same

theorem bget_none_iff_busy (invariant : Invariant cfg s) (device : OnDevice cfg s) (block : Block) :
    s.bget block = none ↔ n < (insert block (s.busy cfg)).card := by
  have count := busy_card nonzero invariant.sessions device
  have most : (Finset.univ.filter fun b => (s.bufs b).refcnt ≠ 0).card ≤ n := by
    have all := Finset.card_filter_le Finset.univ fun b => (s.bufs b).refcnt ≠ 0
    rwa [Finset.card_fin] at all
  rw [bget_none_iff invariant.wheel]
  constructor
  · rintro ⟨missing, used⟩
    have fresh : block ∉ s.busy cfg := by
      rw [busy_eq_image nonzero invariant.sessions device, Finset.mem_image]
      rintro ⟨b, -, here⟩
      exact missing b here
    rw [Finset.card_insert_of_notMem fresh, count, Finset.filter_true_of_mem fun b _ => used b, Finset.card_fin]
    exact Nat.lt_succ_self n
  · intro more
    have fresh : block ∉ s.busy cfg := by
      intro member
      rw [Finset.insert_eq_of_mem member] at more
      omega
    rw [Finset.card_insert_of_notMem fresh, count] at more
    have full : (Finset.univ.filter fun b => (s.bufs b).refcnt ≠ 0) = Finset.univ := by
      apply Finset.eq_univ_of_card
      rw [Fintype.card_fin]
      omega
    have used : ∀ b, (s.bufs b).refcnt ≠ 0 := by
      intro b
      have member := Finset.mem_univ b
      rw [← full] at member
      exact (Finset.mem_filter.mp member).2
    refine ⟨fun b here => fresh ?_, used⟩
    rw [← here]
    exact (busy_iff nonzero invariant.sessions device).mpr (used b)

end

/-- `bget` panics exactly when the blocks in use, the pinned ones and the one asked for are more than the buffers. -/
theorem bget_panics_iff (nonzero : cfg.dev ≠ 0) (reached : Transition.Reachable Init (Works cfg) s) (block : Block) :
    s.bget block = none ↔ n < (insert block (s.busy cfg)).card := by
  obtain ⟨invariant, device⟩ := works_invariant nonzero reached
  exact bget_none_iff_busy nonzero invariant device block

theorem bget_panics_iff_unread : unread.bget (1, 9) ≠ none := by
  have start : Transition.Reachable Init (Works rootDisk) unread := .start unread_init
  rw [ne_eq, bget_panics_iff (by decide) start]
  decide

end Counting

section Readers

def readers (n : Nat) : Setup (n + 1) (n + 1) := ⟨⟨2, logSize⟩, 1, id⟩

abbrev ReachReading (s : State (n + 1) (n + 1) n) : Prop :=
  Transition.Reachable Init (fun s t => Works (readers n) s t ∧ ∀ p, t.inOp p = false) s

structure Reading (j : Nat) (s : State (n + 1) (n + 1) n) : Prop where
  inOp : ∀ p, s.inOp p = false
  pinned : s.pinned = []
  waits : ∀ i : Fin (n + 1), i.val < j → ∃ b, s.uses (.user i) = .waits b (1, i.val)
  idle : ∀ a, (∀ i : Fin (n + 1), i.val < j → a ≠ .user i) → s.uses a = .idle

variable {s : State (n + 1) (n + 1) n} {j : Nat}

theorem ReachReading.works (reached : ReachReading s) : Transition.Reachable Init (Works (readers n)) s := by
  induction reached with
  | start first => exact .start first
  | next _ moved ih => exact ih.next moved.1

section Reading

variable (reading : Reading j s)

include reading

theorem Reading.cases (a : Agent (n + 1)) :
    s.uses a = .idle ∨ ∃ i : Fin (n + 1), i.val < j ∧ a = .user i ∧ ∃ b, s.uses a = .waits b (1, i.val) := by
  by_cases started : ∃ i : Fin (n + 1), i.val < j ∧ a = .user i
  · obtain ⟨i, lower, rfl⟩ := started
    exact Or.inr ⟨i, lower, rfl, reading.waits i lower⟩
  · exact Or.inl (reading.idle a fun i lower same => started ⟨i, lower, same⟩)

theorem Reading.busy (upper : j ≤ n + 1) (reached : ReachReading s) :
    s.busy (readers n) = (Finset.range j).image fun i => (1, i) := by
  have found := (works_invariant (show (readers n).dev ≠ 0 from one_ne_zero) reached.works).1.sessions.found
  ext block
  rw [mem_busy, reading.pinned, Finset.mem_image]
  constructor
  · rintro (⟨a, b, has, rfl⟩ | ⟨blockno, none, -⟩)
    · rcases reading.cases a with idle | ⟨i, lower, rfl, c, waits⟩
      · rw [idle] at has
        cases has
      · rw [waits] at has
        cases has
        exact ⟨i, Finset.mem_range.mpr lower, (found _ b _ (by rw [waits]; rfl)).symm⟩
    · cases none
  · rintro ⟨i, lower, rfl⟩
    rw [Finset.mem_range] at lower
    obtain ⟨b, waits⟩ := reading.waits ⟨i, by omega⟩ lower
    exact Or.inl ⟨_, b, by rw [waits]; rfl, found _ b _ (by rw [waits]; rfl)⟩

theorem Reading.idle_next (upper : j < n + 1) : s.uses (.user ⟨j, upper⟩) = .idle := by
  apply reading.idle
  rintro i lower ⟨⟩
  exact Nat.lt_irrefl _ lower

theorem Reading.bread (upper : j < n + 1) (reached : ReachReading s) :
    ReachReading (s.use (.user ⟨j, upper⟩) (.want (1, j))) := by
  refine reached.next ⟨⟨.bread (1, j) (reading.idle_next upper), ?_, fun a block want => ?_⟩, reading.inOp⟩
  · rintro ⟨i, b, block, dirty, held, -⟩
    rcases reading.cases (.user i) with idle | ⟨_, -, -, c, waits⟩
    · exact nomatch idle.symm.trans held
    · exact nomatch waits.symm.trans held
  · by_cases same : a = .user ⟨j, upper⟩
    · subst same
      rw [State.use_self] at want
      cases want
      rfl
    · rw [State.use_other _ same] at want
      rcases reading.cases a with idle | ⟨_, -, -, c, waits⟩
      · exact nomatch idle.symm.trans want
      · exact nomatch waits.symm.trans want

theorem Reading.bget_none_iff (upper : j < n + 1) (reached : ReachReading s)
    (asked : ReachReading (s.use (.user ⟨j, upper⟩) (.want (1, j)))) :
    (s.use (.user ⟨j, upper⟩) (.want (1, j))).bget (1, j) = none ↔ n < j + 1 := by
  have bufs : ∀ a, ((s.use (.user ⟨j, upper⟩) (.want (1, j))).uses a).buf = (s.uses a).buf := by
    intro a
    by_cases same : a = .user ⟨j, upper⟩
    · subst same
      rw [State.use_self, reading.idle_next upper]
      rfl
    · rw [State.use_other _ same]
  have busy : (s.use (.user ⟨j, upper⟩) (.want (1, j))).busy (readers n) = s.busy (readers n) := by
    simp only [State.busy, bufs]
    rfl
  obtain ⟨invariant, device⟩ := works_invariant (show (readers n).dev ≠ 0 from one_ne_zero) asked.works
  have injective : Injective fun i : Nat => ((1, i) : Block) := fun i i' same => congrArg Prod.snd same
  rw [bget_none_iff_busy one_ne_zero invariant device, busy, reading.busy upper.le reached,
    Finset.card_insert_of_notMem (by simp), Finset.card_image_of_injective _ injective, Finset.card_range]

theorem Reading.bget (upper : j < n) (reached : ReachReading s) :
    ∃ t : State (n + 1) (n + 1) n, ReachReading t ∧ Reading (j + 1) t := by
  have bound : j < n + 1 := by omega
  have asked := reading.bread bound reached
  have some : (s.use (.user ⟨j, bound⟩) (.want (1, j))).bget (1, j) ≠ none := by
    rw [ne_eq, reading.bget_none_iff bound reached asked]
    omega
  obtain ⟨⟨b, buf⟩, got⟩ := Option.ne_none_iff_exists'.mp some
  have uses : (((s.use (.user ⟨j, bound⟩) (.want (1, j))).setBuf b buf).use (.user ⟨j, bound⟩) (.waits b (1, j))).uses =
      update s.uses (.user ⟨j, bound⟩) (.waits b (1, j)) := update_idem _ _ _
  have next : Reading (j + 1) (((s.use (.user ⟨j, bound⟩) (.want (1, j))).setBuf b buf).use (.user ⟨j, bound⟩)
      (.waits b (1, j))) := by
    refine ⟨reading.inOp, reading.pinned, fun i lower => ?_, fun a other => ?_⟩
    · rw [uses]
      by_cases same : i = ⟨j, bound⟩
      · subst same
        exact ⟨b, update_self _ _ _⟩
      have before : i.val < j := by
        have different := Fin.val_ne_of_ne same
        dsimp only at different
        omega
      obtain ⟨c, waits⟩ := reading.waits i before
      refine ⟨c, ?_⟩
      rw [update_of_ne (by simpa using same)]
      exact waits
    · rw [uses, update_of_ne (other ⟨j, bound⟩ (Nat.lt_succ_self j))]
      exact reading.idle a fun i lower => other i (Nat.lt_succ_of_lt lower)
  refine ⟨_, asked.next ⟨⟨.bget (update_self _ _ _) got, ?_, fun a block want => ?_⟩, reading.inOp⟩, next⟩
  · rintro ⟨i, c, block, dirty, held, -⟩
    by_cases same : i = ⟨j, bound⟩
    · rw [same, State.use_self] at held
      cases held
    · rw [State.use_other _ (by simpa using same)] at held
      rcases reading.cases (.user i) with idle | ⟨_, -, -, c, waits⟩
      · exact nomatch idle.symm.trans held
      · exact nomatch waits.symm.trans held
  · rcases next.cases a with idle | ⟨_, -, -, c, waits⟩
    · exact nomatch idle.symm.trans want
    · exact nomatch waits.symm.trans want

end Reading

theorem exists_reading (n j : Nat) (upper : j ≤ n) : ∃ s : State (n + 1) (n + 1) n, ReachReading s ∧ Reading j s := by
  induction j with
  | zero =>
    let s : State (n + 1) (n + 1) n := ⟨fun _ => ⟨false, 0, 0, none, 0, fun _ => 0⟩, binit n, fun _ _ => 0, ⟨0, false, []⟩,
      fun _ => .idle, fun _ => false, .idle, fun _ _ => 0⟩
    have init : Init s := ⟨fun _ => ⟨rfl, rfl, rfl, rfl⟩, rfl, rfl, rfl, fun _ => rfl, fun _ => rfl, rfl⟩
    exact ⟨s, .start init, fun _ => rfl, rfl, nofun, fun _ _ => rfl⟩
  | succ j ih =>
    obtain ⟨s, reached, reading⟩ := ih (by omega)
    exact reading.bget upper reached

/-- With `NBUF` processes reading, each one a block of its own, the next one finds no buffer. -/
theorem bget_no_buffers : ∃ s : State (nbuf + 1) (nbuf + 1) nbuf, ReachReading s ∧
    ∃ i block, s.uses (.user i) = .want block ∧ s.bget block = none := by
  obtain ⟨s, reached, reading⟩ := exists_reading nbuf nbuf le_rfl
  have asked := reading.bread (Nat.lt_succ_self nbuf) reached
  refine ⟨_, asked, ⟨nbuf, Nat.lt_succ_self nbuf⟩, (1, nbuf), State.use_self _ _ _, ?_⟩
  rw [reading.bget_none_iff _ reached asked]
  exact Nat.lt_succ_self nbuf

end Readers

end OShard.Cache
