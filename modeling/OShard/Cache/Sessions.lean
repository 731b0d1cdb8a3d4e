import OShard.Base.Tally
import OShard.Cache.Commit

namespace OShard.Cache

open Logging Function

variable {k m n : Nat}

instance : Fintype (Agent k) :=
  Fintype.ofEquiv (Fin k ⊕ Bool)
    { toFun := fun
        | .inl i => .user i
        | .inr false => .first
        | .inr true => .second
      invFun := fun
        | .user i => .inl i
        | .first => .inr false
        | .second => .inr true
      left_inv := by rintro (i | (_ | _)) <;> rfl
      right_inv := by rintro (i | _ | _) <;> rfl }

def Use.found : Use n → Option (Fin n × Block)
  | .waits b block | .locked b block | .held b block _ => some (b, block)
  | _ => none

def Use.count (b : Fin n) (u : Use n) : Nat := if u.buf = some b then 1 else 0

def Buf.pins (dev : Nat) (pinned : List Nat) (buf : Buf k) : Nat := if buf.dev = dev ∧ buf.blockno ∈ pinned then 1 else 0

structure Sessions (dev : Nat) (pinned : List Nat) (bufs : Fin n → Buf k) (uses : Agent k → Use n) : Prop where
  lock : ∀ a b, (uses a).owns = some b → (bufs b).lock = some a
  found : ∀ a b block, (uses a).found = some (b, block) → (bufs b).block = block
  valid : ∀ a b block dirty, uses a = .held b block dirty → (bufs b).valid = true
  unique : ∀ b b', (bufs b).dev ≠ 0 → (bufs b).block = (bufs b').block → b = b'
  refcnt : ∀ b, (bufs b).refcnt = ∑ a, (uses a).count b + (bufs b).pins dev pinned
  cached : ∀ blockno ∈ pinned, ∃ b, (bufs b).block = (dev, blockno) ∧ (bufs b).valid = true

section Change

variable {dev : Nat} {pinned : List Nat} {bufs : Fin n → Buf k} {uses : Agent k → Use n} {a : Agent k} {b : Fin n} {buf : Buf k}
  {u : Use n} {block : Block} {pinned' : List Nat} {blockno : Nat}

section Sessions

variable (sessions : Sessions dev pinned bufs uses)

include sessions

theorem Sessions.change (block : buf.block = (bufs b).block)
    (owns : ∀ b', u.owns = some b' → (update bufs b buf b').lock = some a)
    (lock : ∀ a', a' ≠ a → (uses a').owns = some b → buf.lock = some a')
    (found : ∀ b' block, u.found = some (b', block) → (bufs b').block = block)
    (held : ∀ b' block dirty, u = .held b' block dirty → (update bufs b buf b').valid = true)
    (valid : (bufs b).valid = true → buf.valid = true)
    (count : buf.refcnt + (uses a).count b = (bufs b).refcnt + u.count b)
    (count' : ∀ b', b' ≠ b → u.count b' = (uses a).count b') :
    Sessions dev pinned (update bufs b buf) (update uses a u) := by
  have blocks : ∀ b', (update bufs b buf b').block = (bufs b').block := by
    intro b'
    by_cases same : b' = b
    · rw [same, update_self]
      exact block
    · rw [update_of_ne same]
  have pins : ∀ b', (update bufs b buf b').pins dev pinned = (bufs b').pins dev pinned := by
    intro b'
    have one := congrArg Prod.fst (blocks b')
    have two := congrArg Prod.snd (blocks b')
    change (update bufs b buf b').dev = (bufs b').dev at one
    change (update bufs b buf b').blockno = (bufs b').blockno at two
    rw [Buf.pins, Buf.pins, one, two]
  have valids : ∀ b', (bufs b').valid = true → (update bufs b buf b').valid = true := by
    intro b' before
    by_cases same : b' = b
    · rw [same] at before ⊢
      rw [update_self]
      exact valid before
    · rw [update_of_ne same]
      exact before
  constructor
  · intro a' b' has
    by_cases same : a' = a
    · subst same
      rw [update_self] at has
      exact owns b' has
    rw [update_of_ne same] at has
    by_cases target : b' = b
    · subst target
      rw [update_self]
      exact lock a' same has
    · rw [update_of_ne target]
      exact sessions.lock a' b' has
  · intro a' b' block' has
    rw [blocks]
    by_cases same : a' = a
    · subst same
      rw [update_self] at has
      exact found b' block' has
    · rw [update_of_ne same] at has
      exact sessions.found a' b' block' has
  · intro a' b' block' dirty has
    by_cases same : a' = a
    · subst same
      rw [update_self] at has
      exact held b' block' dirty has
    · rw [update_of_ne same] at has
      exact valids b' (sessions.valid a' b' block' dirty has)
  · intro b' b'' nonzero same
    have dev' := congrArg Prod.fst (blocks b')
    rw [blocks, blocks] at same
    exact sessions.unique b' b'' (fun zero => nonzero (dev'.trans zero)) same
  · intro b'
    have sum := Tally.sum_update (fun _ u => u.count b') uses a u
    have before := sessions.refcnt b'
    rw [pins]
    by_cases same : b' = b
    · rw [same] at sum before ⊢
      rw [update_self]
      omega
    · have counts := count' b' same
      rw [update_of_ne same]
      omega
  · intro blockno member
    obtain ⟨b', here, ok⟩ := sessions.cached blockno member
    exact ⟨b', (blocks b').trans here, valids b' ok⟩

theorem Sessions.use (owns : ∀ b', u.owns = some b' → (bufs b').lock = some a)
    (found : ∀ b' block, u.found = some (b', block) → (bufs b').block = block)
    (held : ∀ b' block dirty, u = .held b' block dirty → (bufs b').valid = true)
    (count : ∀ b', u.count b' = (uses a).count b') : Sessions dev pinned bufs (update uses a u) := by
  cases isEmpty_or_nonempty (Fin n) with
  | inl empty =>
    exact ⟨fun _ b => isEmptyElim b, fun _ b => isEmptyElim b, fun _ b => isEmptyElim b, fun b => isEmptyElim b,
      fun b => isEmptyElim b, sessions.cached⟩
  | inr some =>
    obtain ⟨b⟩ := some
    have self := update_eq_self b bufs
    have changed : Sessions dev pinned (update bufs b (bufs b)) (update uses a u) := by
      apply sessions.change rfl
      · rw [self]
        exact owns
      · intro a' _ has
        exact sessions.lock a' b has
      · exact found
      · rw [self]
        exact held
      · exact id
      · have same := count b
        omega
      · intro b' _
        exact count b'
    rw [self] at changed
    exact changed

theorem Sessions.data (block : buf.block = (bufs b).block) (lock : buf.lock = (bufs b).lock)
    (valid : (bufs b).valid = true → buf.valid = true) (refcnt : buf.refcnt = (bufs b).refcnt) :
    Sessions dev pinned (update bufs b buf) uses := by
  have self := update_eq_self (.first : Agent k) uses
  have locks : ∀ b', (update bufs b buf b').lock = (bufs b').lock := by
    intro b'
    by_cases same : b' = b
    · rw [same, update_self]
      exact lock
    · rw [update_of_ne same]
  have changed : Sessions dev pinned (update bufs b buf) (update uses .first (uses .first)) := by
    apply sessions.change block
    · intro b' has
      rw [locks]
      exact sessions.lock .first b' has
    · intro a' _ has
      rw [lock]
      exact sessions.lock a' b has
    · exact sessions.found .first
    · intro b' block' dirty has
      have before := sessions.valid .first b' block' dirty has
      by_cases same : b' = b
      · rw [same] at before ⊢
        rw [update_self]
        exact valid before
      · rw [update_of_ne same]
        exact before
    · exact valid
    · rw [refcnt]
    · exact fun _ _ => rfl
  rw [self] at changed
  exact changed

theorem Sessions.recycle (want : uses a = .want block)
    (missing : ∀ b, (bufs b).block ≠ block) (free : (bufs b).refcnt = 0) :
    Sessions dev pinned
      (update bufs b { bufs b with dev := block.1, blockno := block.2, valid := false, refcnt := 1 })
      (update uses a (.waits b block)) := by
  have counts := sessions.refcnt b
  rw [free] at counts
  have none : ∀ a', (uses a').buf ≠ some b := by
    intro a' has
    have one := Tally.le_sum (fun a => (uses a).count b) a'
    have here : (uses a').count b = 1 := if_pos has
    omega
  have unpinned : ∀ blockno ∈ pinned, (bufs b).block ≠ (dev, blockno) := by
    intro blockno member same
    have pin : (bufs b).pins dev pinned = 1 := by
      apply if_pos
      refine ⟨congrArg Prod.fst same, ?_⟩
      rw [show (bufs b).blockno = blockno from congrArg Prod.snd same]
      exact member
    omega
  have owner : ∀ {a' b'}, (uses a').owns = some b' → (uses a').buf = some b' := by
    intro a' b' has
    cases use : uses a' <;> simp_all [Use.owns, Use.buf]
  have finder : ∀ {a' b' block'}, (uses a').found = some (b', block') → (uses a').buf = some b' := by
    intro a' b' block' has
    cases use : uses a' <;> simp_all [Use.found, Use.buf]
  constructor
  · intro a' b' has
    by_cases same : a' = a
    · rw [same, update_self] at has
      cases has
    · rw [update_of_ne same] at has
      have other : b' ≠ b := fun target => none a' (target ▸ owner has)
      rw [update_of_ne other]
      exact sessions.lock a' b' has
  · intro a' b' block' has
    by_cases same : a' = a
    · rw [same, update_self] at has
      cases has
      rw [update_self]
      rfl
    · rw [update_of_ne same] at has
      have other : b' ≠ b := fun target => none a' (target ▸ finder has)
      rw [update_of_ne other]
      exact sessions.found a' b' block' has
  · intro a' b' block' dirty has
    by_cases same : a' = a
    · rw [same, update_self] at has
      cases has
    rw [update_of_ne same] at has
    have other : b' ≠ b := by
      rintro rfl
      apply none a'
      rw [has]
      rfl
    rw [update_of_ne other]
    exact sessions.valid a' b' block' dirty has
  · intro b' b'' nonzero same
    by_cases one : b' = b
    · by_cases two : b'' = b
      · rw [one, two]
      · rw [one, update_self, update_of_ne two] at same
        exact absurd same.symm (missing b'')
    · by_cases two : b'' = b
      · rw [two, update_self, update_of_ne one] at same
        exact absurd same (missing b')
      · rw [update_of_ne one] at nonzero same
        rw [update_of_ne two] at same
        exact sessions.unique b' b'' nonzero same
  · intro b'
    have sum := Tally.sum_update (fun _ u => u.count b') uses a (.waits b block)
    have idle : (uses a).count b' = 0 := by
      rw [want]
      rfl
    have before := sessions.refcnt b'
    by_cases same : b' = b
    · rw [same] at sum idle before ⊢
      have one : (Use.waits b block).count b = 1 := if_pos rfl
      have zero : Buf.pins dev pinned
          ({ bufs b with dev := block.1, blockno := block.2, valid := false, refcnt := 1 } : Buf k) = 0 := by
        apply if_neg
        rintro ⟨here, member⟩
        obtain ⟨c, held, -⟩ := sessions.cached _ member
        exact missing c (held.trans (Prod.ext here.symm rfl))
      rw [update_self]
      rw [zero]
      change 1 = _
      omega
    · have zero : (Use.waits b block).count b' = 0 := if_neg fun has => same (Option.some.inj has).symm
      rw [update_of_ne same]
      omega
  · intro blockno member
    obtain ⟨c, here, ok⟩ := sessions.cached blockno member
    have other : c ≠ b := fun same => unpinned blockno member (same ▸ here)
    refine ⟨c, ?_⟩
    rw [update_of_ne other]
    exact ⟨here, ok⟩

theorem Sessions.recount {count : Nat}
    (refcnt : count + (bufs b).pins dev pinned = (bufs b).refcnt + (bufs b).pins dev pinned')
    (others : ∀ b', b' ≠ b → (bufs b').pins dev pinned' = (bufs b').pins dev pinned)
    (cached : ∀ blockno ∈ pinned', ∃ c, (bufs c).block = (dev, blockno) ∧ (bufs c).valid = true) :
    Sessions dev pinned' (update bufs b { bufs b with refcnt := count }) uses := by
  have kept : ∀ b', ∃ count', update bufs b { bufs b with refcnt := count } b' = { bufs b' with refcnt := count' } ∧
      count' + (bufs b').pins dev pinned = (bufs b').refcnt + (bufs b').pins dev pinned' := by
    intro b'
    by_cases same : b' = b
    · rw [same, update_self]
      exact ⟨count, rfl, refcnt⟩
    · rw [update_of_ne same, others b' same]
      exact ⟨(bufs b').refcnt, rfl, rfl⟩
  constructor
  · intro a b' has
    obtain ⟨_, after, -⟩ := kept b'
    rw [after]
    exact sessions.lock a b' has
  · intro a b' block has
    obtain ⟨_, after, -⟩ := kept b'
    rw [after]
    exact sessions.found a b' block has
  · intro a b' block dirty has
    obtain ⟨_, after, -⟩ := kept b'
    rw [after]
    exact sessions.valid a b' block dirty has
  · intro b' b'' nonzero same
    obtain ⟨_, after, -⟩ := kept b'
    obtain ⟨_, after', -⟩ := kept b''
    rw [after] at nonzero same
    rw [after'] at same
    exact sessions.unique b' b'' nonzero same
  · intro b'
    have before := sessions.refcnt b'
    obtain ⟨count', after, sum⟩ := kept b'
    rw [after]
    change count' = ∑ a, (uses a).count b' + (bufs b').pins dev pinned'
    omega
  · intro blockno member
    obtain ⟨c, here, ok⟩ := cached blockno member
    obtain ⟨_, after, -⟩ := kept c
    refine ⟨c, ?_⟩
    rw [after]
    exact ⟨here, ok⟩

theorem Sessions.pins_congr (nonzero : dev ≠ 0) {b' : Fin n} (other : b' ≠ b) (here : (bufs b).block = (dev, blockno))
    (same : ∀ c, c ≠ blockno → (c ∈ pinned' ↔ c ∈ pinned)) : (bufs b').pins dev pinned' = (bufs b').pins dev pinned := by
  apply if_congr _ rfl rfl
  apply and_congr_right
  intro dev'
  apply same
  intro equal
  have twice : (bufs b').block = (bufs b).block := (Prod.ext dev' equal).trans here.symm
  exact other (sessions.unique b' b (fun zero => nonzero (dev'.symm.trans zero)) twice)

theorem Sessions.pin (nonzero : dev ≠ 0) (here : (bufs b).dev = dev)
    (fresh : (bufs b).blockno ∉ pinned) (valid : (bufs b).valid = true) :
    Sessions dev (pinned ++ [(bufs b).blockno]) (update bufs b { bufs b with refcnt := (bufs b).refcnt + 1 }) uses := by
  have block : (bufs b).block = (dev, (bufs b).blockno) := Prod.ext here rfl
  apply sessions.recount
  · have old : (bufs b).pins dev pinned = 0 := if_neg fun both => fresh both.2
    have new : (bufs b).pins dev (pinned ++ [(bufs b).blockno]) = 1 :=
      if_pos ⟨here, List.mem_append_right _ (List.mem_singleton_self _)⟩
    omega
  · intro b' other
    apply sessions.pins_congr nonzero other block
    intro c different
    simp [different]
  · intro blockno member
    rcases List.mem_append.mp member with old | new
    · exact sessions.cached blockno old
    · rw [List.mem_singleton.mp new]
      exact ⟨b, block, valid⟩

end Sessions

theorem Sessions.unpin {rest : List Nat} (sessions : Sessions dev (blockno :: rest) bufs uses) (nonzero : dev ≠ 0)
    (here : (bufs b).block = (dev, blockno)) (once : blockno ∉ rest) :
    Sessions dev rest (update bufs b { bufs b with refcnt := (bufs b).refcnt - 1 }) uses := by
  have number : (bufs b).blockno = blockno := congrArg Prod.snd here
  have old : (bufs b).pins dev (blockno :: rest) = 1 := by
    apply if_pos
    rw [number]
    exact ⟨congrArg Prod.fst here, List.mem_cons_self⟩
  have new : (bufs b).pins dev rest = 0 := by
    apply if_neg
    rw [number]
    exact fun both => once both.2
  have counted := sessions.refcnt b
  apply sessions.recount
  · omega
  · intro b' other
    apply sessions.pins_congr nonzero other here
    intro c different
    simp [different]
  · intro blockno' member
    exact sessions.cached blockno' (List.mem_cons_of_mem _ member)

theorem Sessions.still (sessions : Sessions dev pinned bufs uses) {dirty : Bool} (place : uses a = u)
    (owns : u.owns = some b) (found : u.found = some (b, block)) (valid : (bufs b).valid = true) :
    Sessions dev pinned bufs (update uses a (.held b block dirty)) := by
  apply sessions.use
  · intro b' has
    cases has
    apply sessions.lock a b
    rw [place]
    exact owns
  · intro b' block' has
    cases has
    apply sessions.found a b
    rw [place]
    exact found
  · intro b' block' dirty' has
    cases has
    exact valid
  · intro b'
    rw [place]
    cases u with
    | locked | held =>
      cases owns
      rfl
    | _ => cases owns

end Change

section Steps

variable {cfg : Setup k m} {s t : State k m n} {a : Agent k} {b : Fin n} {block : Block} {dirty : Bool}
  {pinned : List Nat}

section

variable (sessions : Sessions cfg.dev pinned s.bufs s.uses)

include sessions

theorem Sessions.brelse (place : s.uses a = .held b block dirty) :
    Sessions cfg.dev pinned (s.brelse a b).bufs (s.brelse a b).uses := by
  have mine := sessions.lock a b (by rw [place]; rfl)
  have count : ∀ b', (Use.drops b).count b' = (s.uses a).count b' := by
    intro b'
    rw [place]
    rfl
  refine sessions.change rfl nofun (fun a' other has => ?_) nofun nofun id ?_ fun b' _ => count b'
  · have theirs := sessions.lock a' b has
    rw [mine] at theirs
    exact absurd (Option.some.inj theirs).symm other
  · have same := count b
    change (s.bufs b).refcnt + _ = _
    omega

theorem Sessions.ask (place : s.uses a = .idle) :
    Sessions cfg.dev pinned s.bufs (update s.uses a (.want block)) := by
  refine sessions.use nofun nofun nofun fun b' => ?_
  rw [place]
  rfl

theorem Sessions.write {dirty' : Bool} (data : Data)
    (place : s.uses a = .held b block dirty') :
    Sessions cfg.dev pinned (s.setData b data).bufs (update s.uses a (.held b block dirty)) := by
  have written : Sessions cfg.dev pinned (s.setData b data).bufs (s.setData b data).uses := sessions.data rfl rfl id rfl
  exact written.still place rfl rfl (written.valid a b block dirty' place)

end

theorem bget_spec (wheel : ∃ xs, Wheel s.links xs) {buf : Buf k} (got : s.bget block = some (b, buf)) :
    (s.bufs b).block = block ∧ buf = { s.bufs b with refcnt := (s.bufs b).refcnt + 1 } ∨
      (∀ c, (s.bufs c).block ≠ block) ∧ (s.bufs b).refcnt = 0 ∧
        buf = { s.bufs b with dev := block.1, blockno := block.2, valid := false, refcnt := 1 } := by
  obtain ⟨xs, wheel⟩ := wheel
  have there := wheel.scan_next_spec fun c => (s.bufs c).block = block
  have free := wheel.scan_prev_spec fun c => (s.bufs c).refcnt = 0
  unfold State.bget State.cached State.unused at got
  cases first : scan s.links.next (fun c => (s.bufs c).block = block) (n + 1) (s.links.next none) with
  | some c =>
    rw [first] at there got
    cases got
    exact Or.inl ⟨of_decide_eq_true there, rfl⟩
  | none =>
    rw [first] at there got
    cases second : scan s.links.prev (fun c => (s.bufs c).refcnt = 0) (n + 1) (s.links.prev none) with
    | some c =>
      rw [second] at free got
      cases got
      exact Or.inr ⟨fun c => of_decide_eq_false (there c), of_decide_eq_true free, rfl⟩
    | none =>
      rw [second] at got
      cases got

theorem Sessions.step (nonzero : cfg.dev ≠ 0) (wheel : ∃ xs, Wheel s.links xs)
    (committing : Committing cfg (s.uses .first) (s.uses .second) s.log s.commit)
    (sessions : Sessions cfg.dev s.pinned s.bufs s.uses) (step : Step cfg s t) (kept : ¬Strays cfg s t) :
    Sessions cfg.dev t.pinned t.bufs t.uses := by
  cases step with
  | bread block place => exact sessions.ask place
  | bget place got =>
    rename_i a block b buf
    rcases bget_spec wheel got with ⟨here, rfl⟩ | ⟨missing, free, rfl⟩
    · have before : (s.uses a).count b = 0 := by
        rw [place]
        rfl
      have after : (Use.waits b block).count b = 1 := if_pos rfl
      refine sessions.change rfl nofun (fun a' _ has => sessions.lock a' b has) (fun b' block' has => ?_) nofun id ?_
        fun b' other => ?_
      · cases has
        exact here
      · change (s.bufs b).refcnt + 1 + _ = _
        omega
      · rw [place]
        exact if_neg fun has => other (Option.some.inj has).symm
    · exact sessions.recycle place missing free
  | acquiresleep place free =>
    rename_i a block b
    have count : ∀ b', (Use.locked b block).count b' = (s.uses a).count b' := by
      intro b'
      rw [place]
      rfl
    refine sessions.change rfl (fun b' has => ?_) (fun a' _ has => ?_) (fun b' block' has => ?_) nofun id ?_ fun b' _ => count b'
    · cases has
      rw [update_self]
    · have theirs := sessions.lock a' b has
      rw [free] at theirs
      cases theirs
    · cases has
      apply sessions.found a b
      rw [place]
      rfl
    · have same := count b
      change (s.bufs b).refcnt + _ = _
      omega
  | valid place valid => exact sessions.still place rfl rfl valid
  | diskRead place invalid =>
    rename_i a block b
    have read : Sessions cfg.dev s.pinned (s.diskRead b).bufs (s.diskRead b).uses := sessions.data rfl rfl (fun _ => rfl) rfl
    refine read.still place rfl rfl ?_
    rw [show (s.diskRead b).bufs b = _ from update_self _ _ _]
  | modify data place => exact sessions.write data place
  | logWrite place inOp result =>
    rename_i i block b dirty pin log
    obtain ⟨-, -, pins, after⟩ := Log.logWrite_ok result
    have idle := committing.idle_of_logWrite result
    have here : (s.bufs b).dev = cfg.dev := by
      rw [← (home_of_kept place inOp result kept).1]
      exact congrArg Prod.fst (sessions.found (.user i) b block (by rw [place]; rfl))
    have valid := sessions.valid _ b block dirty place
    have logged : Sessions cfg.dev log.lh (if pin then s.bpin b else s).bufs s.uses := by
      rw [State.pinned, idle] at sessions
      change Sessions cfg.dev s.log.lh s.bufs s.uses at sessions
      rw [after]
      by_cases member : (s.bufs b).blockno ∈ s.log.lh
      · have same : pin = false := by rw [pins, decide_eq_false (not_not.mpr member)]
        rw [same, if_pos member]
        exact sessions
      · have new : pin = true := by rw [pins, decide_eq_true member]
        rw [new, if_neg member]
        exact sessions.pin nonzero here member valid
    have unchanged : (if pin then s.bpin b else s).uses = s.uses ∧ (if pin then s.bpin b else s).commit = s.commit := by
      cases pin <;> exact ⟨rfl, rfl⟩
    change Sessions cfg.dev (log.lh.drop (if pin then s.bpin b else s).commit.installed) (if pin then s.bpin b else s).bufs
      (update (if pin then s.bpin b else s).uses (.user i) (.held b block false))
    rw [unchanged.1, unchanged.2, idle]
    exact logged.still place rfl rfl (logged.valid _ b block dirty place)
  | bwrite place => exact sessions.still place rfl rfl (sessions.valid _ _ _ _ place)
  | brelse place => exact sessions.brelse place
  | drop place =>
    rename_i a b
    have same : ((s.drop b).use a .idle).uses = (s.use a .idle).uses ∧ ((s.drop b).use a .idle).pinned = s.pinned ∧
        ((s.drop b).use a .idle).bufs = (s.bunpin b).bufs := by
      unfold State.drop
      split <;> exact ⟨rfl, rfl, rfl⟩
    rw [same.1, same.2.1, same.2.2]
    have one : (s.uses a).count b = 1 := by
      rw [place]
      exact if_pos rfl
    have counted : 0 < (s.bufs b).refcnt := by
      have part := Tally.le_sum (fun a => (s.uses a).count b) a
      have total := sessions.refcnt b
      omega
    refine sessions.change rfl nofun (fun a' _ has => sessions.lock a' b has) nofun nofun id ?_ fun b' other => ?_
    · have zero : (Use.idle : Use n).count b = 0 := rfl
      change (s.bufs b).refcnt - 1 + _ = _
      omega
    · rw [place]
      exact (if_neg fun has => other (Option.some.inj has).symm).symm
  | beginOp p free result =>
    obtain ⟨-, -, after⟩ := Log.beginOp_some result
    rw [State.pinned, after]
    exact sessions
  | endOp p inOp result =>
    obtain ⟨free, -, after⟩ := Log.endOp_ok result
    have idle := committing.busy free
    rename_i doCommit log
    rw [State.pinned, idle] at sessions
    rw [State.pinned, after, idle]
    cases doCommit <;> exact sessions
  | begin place =>
    rw [State.pinned, place] at sessions
    change Sessions cfg.dev (s.log.lh.drop (Commit.installed (if 0 < s.log.lh.length then .logTo 0 else .done))) s.bufs s.uses
    split <;> exact sessions
  | logTo place idle | logFrom place _ idle | headRead place idle | install place idle | installHome place _ idle =>
    rw [State.pinned, place] at sessions
    exact sessions.ask idle
  | logCopy place has | headFill place has =>
    rw [State.pinned, place] at sessions
    exact sessions.write _ has
  | logWriteLog place has | headWrite place has =>
    rw [State.pinned, place] at sessions
    exact sessions.still has rfl rfl (sessions.valid _ _ _ _ has)
  | logDropFrom place has | logDropTo place _ has | installDropLog place has | installDropHome place _ has =>
    rw [State.pinned, place] at sessions
    exact sessions.brelse has
  | logEnd place | installWrite place | done place =>
    rw [State.pinned, place] at sessions
    exact sessions
  | headDrop place has =>
    rename_i clear b block dirty
    rw [State.pinned, place] at sessions
    cases clear <;> exact sessions.brelse has
  | installCopy place has has' =>
    rw [State.pinned, place] at sessions
    exact sessions.data rfl rfl id rfl
  | installUnpin place has =>
    rename_i tail b block dirty
    have inside := committing.tail tail (by rw [place]; rfl)
    have block' := committing.two
    rw [State.pinned, place] at sessions
    rw [place, has] at block'
    change some block = (s.log.lh[tail]?).map (cfg.dev, ·) at block'
    rw [List.getElem?_eq_getElem inside] at block'
    have here := sessions.found .second b block (by rw [has]; rfl)
    rw [Option.some.inj block'] at here
    change Sessions cfg.dev (s.log.lh.drop (tail + 1)) _ _
    have split : s.log.lh.drop tail = s.log.lh[tail] :: s.log.lh.drop (tail + 1) := List.drop_eq_getElem_cons inside
    have distinct : (s.log.lh.drop tail).Nodup := committing.nodup.sublist (List.drop_sublist _ _)
    change Sessions cfg.dev (s.log.lh.drop tail) _ _ at sessions
    rw [split] at sessions distinct
    exact sessions.unpin nonzero here (List.nodup_cons.mp distinct).1
  | installEnd place idle idle' finished =>
    rename_i tail
    rw [State.pinned, place] at sessions
    change Sessions cfg.dev (s.log.lh.drop tail) _ _ at sessions
    rw [List.drop_eq_nil_of_le (Nat.not_lt.mp finished)] at sessions
    exact sessions

end Steps

end OShard.Cache
