import OShard.Cache.Sessions

namespace OShard.Cache

open Logging Function

variable {k m n : Nat}

def Commit.copied (length : Nat) : Commit → Nat
  | .logTo tail | .logFrom tail | .logCopy tail | .logWrite tail => tail
  | .logDropFrom tail | .logDropTo tail => tail + 1
  | .headRead false | .headFill false | .headWrite false | .headDrop false | .install _ | .installHome _ | .installCopy _
  | .installWrite _ | .installUnpin _ | .installDropLog _ | .installDropHome _ => length
  | _ => 0

def Fresh (bufs : Fin n → Buf k) (uses : Agent k → Use n) (latest : Block → Data) : Prop :=
  ∀ b, (bufs b).valid = true → (bufs b).dev ≠ 0 → (∀ a block, uses a ≠ .held b block true) →
    (bufs b).data = latest (bufs b).block

def Copied (cfg : Setup k m) (lh : List Nat) (count : Nat) (latest : Block → Data) : Prop :=
  ∀ i blockno, i < count → lh[i]? = some blockno → latest (cfg.dev, cfg.start + i + 1) = latest (cfg.dev, blockno)

/-- Where the contents of each block are. Only the blocks pinned by the log may differ from the disk. -/
structure Contents (cfg : Setup k m) (s : State k m n) : Prop where
  fresh : Fresh s.bufs s.uses s.latest
  disk : ∀ block, block.1 ≠ 0 → ¬(block.1 = cfg.dev ∧ block.2 ∈ s.pinned) → s.disk block = s.latest block
  copies : Copied cfg s.log.lh (s.commit.copied s.log.lh.length) s.latest
  carries : ∀ tail b block dirty blockno, s.commit = .logWrite tail → s.uses .first = .held b block dirty →
    s.log.lh[tail]? = some blockno → (s.bufs b).data = s.latest (cfg.dev, blockno)
  written : ∀ tail blockno, s.commit = .installUnpin tail → s.log.lh[tail]? = some blockno →
    s.disk (cfg.dev, blockno) = s.latest (cfg.dev, blockno)

section Fresh

variable {bufs bufs' : Fin n → Buf k} {uses uses' : Agent k → Use n} {latest : Block → Data} {a : Agent k} {b : Fin n}
  {buf : Buf k} {u : Use n} {block : Block} {dirty : Bool} (fresh : Fresh bufs uses latest)

include fresh

theorem Fresh.use (clean : (uses a).dirty = false) : Fresh bufs (update uses a u) latest := by
  intro b' valid nonzero nobody
  apply fresh b' valid nonzero
  intro a' block' has
  by_cases same : a' = a
  · rw [← same, has] at clean
    cases clean
  · apply nobody a' block'
    rw [update_of_ne same]
    exact has

theorem Fresh.setBuf (valid : buf.valid = true → (bufs b).valid = true)
    (block : buf.valid = true → buf.block = (bufs b).block) (data : buf.data = (bufs b).data) :
    Fresh (update bufs b buf) uses latest := by
  intro b' ok nonzero nobody
  by_cases same : b' = b
  · rw [same] at ok nonzero nobody ⊢
    rw [update_self] at ok nonzero ⊢
    have dev : buf.dev = (bufs b).dev := congrArg Prod.fst (block ok)
    rw [data, block ok]
    exact fresh b (valid ok) (fun zero => nonzero (dev.trans zero)) nobody
  · rw [update_of_ne same] at ok nonzero ⊢
    exact fresh b' ok nonzero nobody

theorem Fresh.modify (place : uses a = .held b block dirty) :
    Fresh (update bufs b buf) (update uses a (.held b block true)) latest := by
  intro b' ok nonzero nobody
  have other : b' ≠ b := by
    rintro rfl
    exact nobody a block (update_self _ _ _)
  rw [update_of_ne other] at ok nonzero ⊢
  apply fresh b' ok nonzero
  intro a' block' has
  by_cases same : a' = a
  · rw [same, place] at has
    cases has
    exact other rfl
  · apply nobody a' block'
    rw [update_of_ne same]
    exact has

theorem Fresh.record (place : uses a = .held b block dirty)
    (unique : ∀ b b', (bufs b).dev ≠ 0 → (bufs b).block = (bufs b').block → b = b') :
    Fresh bufs (update uses a (.held b block false)) (update latest (bufs b).block (bufs b).data) := by
  intro b' ok nonzero nobody
  by_cases same : b' = b
  · rw [same, update_self]
  rw [update_of_ne fun equal => same (unique b' b nonzero equal)]
  apply fresh b' ok nonzero
  intro a' block' has
  by_cases agent : a' = a
  · rw [agent, place] at has
    cases has
    exact same rfl
  · apply nobody a' block'
    rw [update_of_ne agent]
    exact has

end Fresh

section Change

variable {cfg : Setup k m} {s t : State k m n}
  {block : Block} {first second : Use n} {log : Log} {commit : Commit} {b : Fin n} {dirty : Bool}

theorem Copied.record {lh : List Nat} {count : Nat} {latest : Block → Data} (copies : Copied cfg lh count latest)
    (data : Data) (apart : ∀ i blockno, i < count → lh[i]? = some blockno →
      (cfg.dev, cfg.start + i + 1) ≠ block ∧ (cfg.dev, blockno) ≠ block) :
    Copied cfg lh count (update latest block data) := by
  intro i blockno below entry
  obtain ⟨one, two⟩ := apart i blockno below entry
  rw [update_of_ne one, update_of_ne two]
  exact copies i blockno below entry

theorem Committing.apart (committing : Committing cfg first second log commit)
    {i blockno : Nat} (entry : log.lh[i]? = some blockno) : cfg.Home blockno ∧ ¬cfg.Home (cfg.start + i + 1) ∧ ¬cfg.Home cfg.start := by
  obtain ⟨inside, rfl⟩ := List.getElem?_eq_some_iff.mp entry
  have room : log.lh.length < cfg.size := by
    rcases committing.room with empty | room
    · rw [empty] at inside
      cases inside
    · exact room
  exact ⟨committing.home _ (List.getElem_mem inside), Config.block_area (by omega), Config.head_area (by omega)⟩

theorem Contents.agent (contents : Contents cfg s) (fresh : Fresh t.bufs t.uses s.latest)
    (data : ∀ b block dirty, s.uses .first = .held b block dirty → (t.bufs b).data = (s.bufs b).data)
    (committing : Committing cfg (s.uses .first) (s.uses .second) s.log s.commit)
    (first : t.uses .first = s.uses .first ∨ (s.uses .first).dirty = false) (disk : t.disk = s.disk)
    (latest : t.latest = s.latest) (commit : t.commit = s.commit) (lh : t.log.lh = s.log.lh) : Contents cfg t := by
  constructor
  · rw [latest]
    exact fresh
  · rw [disk, latest, State.pinned, commit, lh]
    exact contents.disk
  · rw [commit, lh, latest]
    exact contents.copies
  · intro tail b block dirty blockno place has entry
    have busy := committing.writes
    rw [commit] at place
    rw [lh] at entry
    rw [place] at busy
    rcases first with same | clean
    · rw [same] at has
      rw [latest, data b block dirty has]
      exact contents.carries tail b block dirty blockno place has entry
    · rw [clean] at busy
      cases busy
  · rw [disk, latest, commit, lh]
    exact contents.written

theorem Contents.go (contents : Contents cfg s) (fresh : Fresh t.bufs t.uses s.latest) (disk : t.disk = s.disk)
    (latest : t.latest = s.latest) (lh : t.log.lh = s.log.lh) (installed : t.commit.installed = s.commit.installed)
    (copied : t.commit.copied s.log.lh.length ≤ s.commit.copied s.log.lh.length)
    (carries : ∀ tail, t.commit ≠ .logWrite tail) (written : ∀ tail, t.commit ≠ .installUnpin tail) : Contents cfg t := by
  constructor
  · rw [latest]
    exact fresh
  · rw [disk, latest, State.pinned, lh, installed]
    exact contents.disk
  · rw [lh, latest]
    exact fun i blockno below entry => contents.copies i blockno (Nat.lt_of_lt_of_le below copied) entry
  · exact fun tail _ _ _ _ place => absurd place (carries tail)
  · exact fun tail _ place => absurd place (written tail)

theorem apart_of_kept {i : Fin k} (place : s.uses (.user i) = .held b block dirty)
    (kept : ¬Strays cfg s (((s.bwrite b).record b).use (.user i) (.held b block false))) (dev : block.1 = cfg.dev) :
    cfg.Home block.2 ∧ (s.log.committing = true → block.2 ∉ s.log.lh) := by
  constructor
  · by_contra away
    exact kept ⟨i, b, block, dirty, place, Or.inr ⟨dev, Or.inl away, rfl⟩⟩
  · intro busy member
    exact kept ⟨i, b, block, dirty, place, Or.inr ⟨dev, Or.inr ⟨busy, member⟩, rfl⟩⟩

theorem Contents.read (contents : Contents cfg s) {pinned : List Nat} (sessions : Sessions cfg.dev pinned s.bufs s.uses)
    {a : Agent k} (has : s.uses a = .held b block false) (nonzero : block.1 ≠ 0) :
    (s.bufs b).data = s.latest block := by
  have here := sessions.found a b block (by rw [has]; rfl)
  have mine := sessions.lock a b (by rw [has]; rfl)
  rw [← here]
  apply contents.fresh b (sessions.valid a b block false has)
  · rw [← here] at nonzero
    exact nonzero
  intro a' block' has'
  have theirs := sessions.lock a' b (by rw [has']; rfl)
  rw [mine] at theirs
  cases theirs
  rw [has] at has'
  cases has'

theorem Committing.entry (committing : Committing cfg first second log commit)
    {tail blockno : Nat} (has : second = .held b block dirty)
    (place : commit.second log.lh = log.lh[tail]?) (entry : log.lh[tail]? = some blockno) :
    block = (cfg.dev, blockno) ∧ dirty = false := by
  have two := committing.two
  have reads := committing.reads
  rw [has, place, entry] at two
  rw [has] at reads
  exact ⟨Option.some.inj two, reads⟩

end Change

section Steps

variable {cfg : Setup k m} {s t : State k m n} {a : Agent k} {u : Use n} {b : Fin n}

theorem update_congr {ι α : Type*} [DecidableEq ι] {f g : ι → α} {i j : ι} {value : α} (same : f j = g j) :
    update f i value j = update g i value j := by
  rw [update_apply, update_apply, same]

theorem Fresh.brelse (fresh : Fresh s.bufs s.uses s.latest) (clean : (s.uses a).dirty = false) (b : Fin n) :
    Fresh (s.brelse a b).bufs (s.brelse a b).uses s.latest := by
  have unlocked : Fresh (s.setLock b none).bufs s.uses s.latest := fresh.setBuf id (fun _ => rfl) rfl
  exact unlocked.use clean

theorem Contents.take (contents : Contents cfg s) (committing : Committing cfg (s.uses .first) (s.uses .second) s.log s.commit) (clean : (s.uses a).dirty = false) : Contents cfg (s.use a u) := by
  refine contents.agent (contents.fresh.use clean) (fun _ _ _ _ => rfl) committing ?_ rfl rfl rfl rfl
  by_cases same : a = .first
  · rw [same] at clean
    exact Or.inr clean
  · exact Or.inl (State.use_other _ (Ne.symm same) u)

theorem Contents.hold (contents : Contents cfg s) (committing : Committing cfg (s.uses .first) (s.uses .second) s.log s.commit) {buf : Buf k} (fresh : Fresh (update s.bufs b buf) s.uses s.latest)
    (clean : (s.uses a).dirty = false) (data : ∀ a' block dirty, s.uses a' = .held b block dirty → buf.data = (s.bufs b).data) :
    Contents cfg ((s.setBuf b buf).use a u) := by
  refine contents.agent (fresh.use clean) (fun b' block dirty has => ?_) committing ?_ rfl rfl rfl rfl
  · change (update s.bufs b buf b').data = _
    by_cases same : b' = b
    · rw [same] at has ⊢
      rw [update_self]
      exact data .first block dirty has
    · rw [update_of_ne same]
  · by_cases same : a = .first
    · rw [same] at clean
      exact Or.inr clean
    · exact Or.inl (State.use_other _ (Ne.symm same) u)

section Write

variable (contents : Contents cfg s) (committing : Committing cfg (s.uses .first) (s.uses .second) s.log s.commit)
  (sessions : Sessions cfg.dev s.pinned s.bufs s.uses) {b : Fin n} {block : Block} {dirty : Bool}
  {i : Fin k} {tail : Nat}

include contents committing sessions

theorem Contents.bwrite (place : s.uses (.user i) = .held b block dirty)
    (kept : ¬Strays cfg s (((s.bwrite b).record b).use (.user i) (.held b block false))) :
    Contents cfg (((s.bwrite b).record b).use (.user i) (.held b block false)) := by
  have here := sessions.found _ b block (by rw [place]; rfl)
  have busy : s.commit ≠ .idle → s.log.committing = true := by
    intro active
    rw [← Bool.not_eq_false]
    exact fun free => active (committing.busy free)
  -- While there is a commit, the block is neither in the log nor in the transaction.
  have apart : s.commit ≠ .idle → ∀ i blockno, s.log.lh[i]? = some blockno →
      (cfg.dev, cfg.start + i + 1) ≠ (s.bufs b).block ∧ (cfg.dev, blockno) ≠ (s.bufs b).block := by
    intro active i blockno entry
    rw [here]
    constructor
    · rintro rfl
      exact (committing.apart entry).2.1 (apart_of_kept place kept rfl).1
    · rintro rfl
      exact (apart_of_kept place kept rfl).2 (busy active) (List.mem_of_getElem? entry)
  refine ⟨contents.fresh.record place sessions.unique, fun block' nonzero out => ?_, ?_, ?_, ?_⟩
  · exact update_congr (contents.disk block' nonzero out)
  · apply contents.copies.record
    intro i blockno below entry
    apply apart _ i blockno entry
    intro idle
    change i < s.commit.copied s.log.lh.length at below
    rw [idle] at below
    cases below
  · intro tail c block' dirty' blockno logging has entry
    change s.commit = _ at logging
    change (s.bufs c).data = update s.latest (s.bufs b).block (s.bufs b).data (cfg.dev, blockno)
    rw [update_of_ne (apart (by rw [logging]; nofun) tail blockno entry).2]
    exact contents.carries tail c block' dirty' blockno logging has entry
  · intro tail blockno installing entry
    change s.commit = _ at installing
    exact update_congr (contents.written tail blockno installing entry)

theorem Contents.logWrite {pin : Bool} {log : Log} (place : s.uses (.user i) = .held b block dirty)
    (inOp : s.inOp (cfg.owner i) = true) (result : s.log.logWrite cfg.toConfig (s.bufs b).blockno = .ok (pin, log))
    (kept : ¬Strays cfg s
      { ((if pin then s.bpin b else s).record b).use (.user i) (.held b block false) with log := log }) :
    Contents cfg { ((if pin then s.bpin b else s).record b).use (.user i) (.held b block false) with log := log } := by
  have idle := committing.idle_of_logWrite result
  have here := sessions.found _ b block (by rw [place]; rfl)
  have dev : (s.bufs b).dev = cfg.dev := by
    rw [← (home_of_kept place inOp result kept).1]
    exact congrArg Prod.fst here
  obtain ⟨-, -, -, after⟩ := Log.logWrite_ok result
  -- The count of the buffer is the only thing that pinning changes.
  have pinned : ∃ count, (if pin then s.bpin b else s) =
      s.setBuf b { s.bufs b with refcnt := count } := by
    cases pin with
    | false =>
      refine ⟨(s.bufs b).refcnt, ?_⟩
      change s = { s with bufs := update s.bufs b (s.bufs b) }
      rw [update_eq_self]
    | true => exact ⟨(s.bufs b).refcnt + 1, rfl⟩
  obtain ⟨count, same⟩ := pinned
  rw [same]
  have fresh : Fresh (s.setBuf b { s.bufs b with refcnt := count }).bufs s.uses s.latest :=
    contents.fresh.setBuf id (fun _ => rfl) rfl
  have blocks : ∀ b', ((s.setBuf b { s.bufs b with refcnt := count }).bufs b').block = (s.bufs b').block := by
    intro b'
    by_cases equal : b' = b
    · have self : (s.setBuf b { s.bufs b with refcnt := count }).bufs b = { s.bufs b with refcnt := count } :=
        update_self _ _ _
      rw [equal, self]
      rfl
    · exact congrArg Buf.block (update_of_ne equal _ _)
  constructor
  · refine fresh.record place fun b' b'' nonzero equal => ?_
    have dev' := congrArg Prod.fst (blocks b')
    rw [blocks, blocks] at equal
    exact sessions.unique b' b'' (fun zero => nonzero (dev'.trans zero)) equal
  · intro block' nonzero out
    change s.disk block' = update s.latest ((s.setBuf b _).bufs b).block _ block'
    change ¬(block'.1 = cfg.dev ∧ block'.2 ∈ log.lh.drop s.commit.installed) at out
    rw [idle, after] at out
    rw [blocks]
    have other : block' ≠ (s.bufs b).block := by
      rintro rfl
      apply out
      refine ⟨dev, ?_⟩
      change (s.bufs b).blockno ∈ if (s.bufs b).blockno ∈ s.log.lh then s.log.lh else s.log.lh ++ [(s.bufs b).blockno]
      split
      · assumption
      · exact List.mem_append_right _ (List.mem_singleton_self _)
    rw [update_of_ne other]
    apply contents.disk block' nonzero
    unfold State.pinned
    rw [idle]
    rintro ⟨dev', member⟩
    apply out
    refine ⟨dev', ?_⟩
    change block'.2 ∈ if (s.bufs b).blockno ∈ s.log.lh then s.log.lh else s.log.lh ++ [(s.bufs b).blockno]
    split
    · exact member
    · exact List.mem_append_left _ member
  · intro i blockno below
    change i < s.commit.copied _ at below
    rw [idle] at below
    cases below
  · exact fun _ _ _ _ _ logging => nomatch idle.symm.trans logging
  · exact fun _ _ installing => nomatch idle.symm.trans installing

theorem Contents.logWriteLog (place : s.commit = .logWrite tail) (has : s.uses .first = .held b block dirty) :
    Contents cfg ((((s.bwrite b).record b).use .first (.held b block false)).go (.logDropFrom tail)) := by
  have here := sessions.found _ b block (by rw [has]; rfl)
  have one := committing.one
  rw [has, place] at one
  have block' : (s.bufs b).block = (cfg.dev, cfg.start + tail + 1) := here.trans (Option.some.inj one)
  refine ⟨contents.fresh.record has sessions.unique, fun other nonzero out => ?_, fun i blockno below entry => ?_, nofun, nofun⟩
  · apply update_congr
    apply contents.disk other nonzero
    unfold State.pinned
    rw [place]
    exact out
  · change i < tail + 1 at below
    obtain ⟨home, area, -⟩ := committing.apart entry
    have apart : (cfg.dev, blockno) ≠ (s.bufs b).block := by
      rw [block']
      rintro equal
      obtain ⟨-, inside, -⟩ := committing.apart (s.log.lh.getElem?_eq_getElem (committing.tail tail (by rw [place]; rfl)))
      rw [← (Prod.mk.inj equal).2] at inside
      exact inside home
    change update s.latest (s.bufs b).block (s.bufs b).data (cfg.dev, cfg.start + i + 1) =
      update s.latest (s.bufs b).block (s.bufs b).data (cfg.dev, blockno)
    rw [update_of_ne apart, block']
    by_cases last : i = tail
    · rw [last, update_self]
      rw [last] at entry
      exact contents.carries tail b block dirty blockno place has entry
    rw [update_of_ne fun equal => last (by have := (Prod.mk.inj equal).2; omega)]
    apply contents.copies i blockno _ entry
    rw [place]
    change i < tail
    omega

theorem Contents.headWrite {clear : Bool} (place : s.commit = .headWrite clear) (has : s.uses .first = .held b block dirty) :
    Contents cfg ((((s.bwrite b).record b).use .first (.held b block false)).go (.headDrop clear)) := by
  have here := sessions.found _ b block (by rw [has]; rfl)
  have one := committing.one
  have copies := contents.copies
  rw [has, place] at one
  rw [place] at copies
  have block' : (s.bufs b).block = (cfg.dev, cfg.start) := here.trans (Option.some.inj one)
  refine ⟨contents.fresh.record has sessions.unique, fun other nonzero out => ?_, ?_, nofun, nofun⟩
  · apply update_congr
    apply contents.disk other nonzero
    unfold State.pinned
    rw [place]
    exact out
  · have apart : ∀ i blockno, s.log.lh[i]? = some blockno →
        (cfg.dev, cfg.start + i + 1) ≠ (s.bufs b).block ∧ (cfg.dev, blockno) ≠ (s.bufs b).block := by
      intro i blockno entry
      obtain ⟨home, -, head⟩ := committing.apart entry
      rw [block']
      constructor
      · intro equal
        have number := (Prod.mk.inj equal).2
        omega
      · intro equal
        rw [(Prod.mk.inj equal).2] at home
        exact head home
    cases clear with
    | false => exact copies.record _ fun i blockno _ entry => apart i blockno entry
    | true => exact nofun

theorem Contents.installed (nonzero : cfg.dev ≠ 0) {b' : Fin n} {block' : Block} {dirty' : Bool}
    (place : s.commit = .installCopy tail) (has : s.uses .first = .held b block dirty)
    (has' : s.uses .second = .held b' block' dirty') : (s.bufs b).data = (s.bufs b').data := by
  have inside := committing.tail tail (by rw [place]; rfl)
  have entry := s.log.lh.getElem?_eq_getElem inside
  obtain ⟨rfl, rfl⟩ := committing.entry has' (by rw [place]; rfl) entry
  have one := committing.one
  have writes := committing.writes
  have copies := contents.copies
  rw [has, place] at one writes
  rw [place] at copies
  cases Option.some.inj one
  change dirty = false at writes
  rw [writes] at has
  rw [contents.read sessions has nonzero, contents.read sessions has' nonzero]
  exact copies tail _ inside entry

theorem Contents.installWrite (nonzero : cfg.dev ≠ 0) (place : s.commit = .installWrite tail) (has : s.uses .second = .held b block dirty) :
    Contents cfg ((s.bwrite b).go (.installUnpin tail)) := by
  have entry := s.log.lh.getElem?_eq_getElem (committing.tail tail (by rw [place]; rfl))
  obtain ⟨rfl, rfl⟩ := committing.entry has (by rw [place]; rfl) entry
  have here := sessions.found .second b _ (by rw [has]; rfl)
  have data := contents.read sessions has nonzero
  have copies := contents.copies
  rw [place] at copies
  refine ⟨contents.fresh, fun other dev out => ?_, copies, nofun, fun tail' blockno installing entry' => ?_⟩
  · change update s.disk (s.bufs b).block (s.bufs b).data other = s.latest other
    by_cases same : other = (s.bufs b).block
    · rw [same, update_self, here]
      exact data
    rw [update_of_ne same]
    apply contents.disk other dev
    unfold State.pinned
    rw [place]
    exact out
  · cases installing
    cases Option.some.inj (entry.symm.trans entry')
    change update s.disk (s.bufs b).block (s.bufs b).data _ = s.latest _
    rw [here, update_self]
    exact data

end Write

theorem Contents.installUnpin (contents : Contents cfg s)
    (committing : Committing cfg (s.uses .first) (s.uses .second) s.log s.commit) {tail : Nat}
    (place : s.commit = .installUnpin tail) : Contents cfg ((s.bunpin b).go (.installDropLog tail)) := by
  have inside := committing.tail tail (by rw [place]; rfl)
  have copies := contents.copies
  rw [place] at copies
  refine ⟨contents.fresh.setBuf id (fun _ => rfl) rfl, fun block dev out => ?_, copies, nofun, nofun⟩
  change ¬(block.1 = cfg.dev ∧ block.2 ∈ s.log.lh.drop (tail + 1)) at out
  by_cases same : block = (cfg.dev, s.log.lh[tail])
  · rw [same]
    exact contents.written tail _ place (s.log.lh.getElem?_eq_getElem inside)
  apply contents.disk block dev
  unfold State.pinned
  rw [place]
  change ¬(block.1 = cfg.dev ∧ block.2 ∈ s.log.lh.drop tail)
  rw [List.drop_eq_getElem_cons inside]
  rintro ⟨log, member⟩
  rcases List.mem_cons.mp member with equal | later
  · exact same (Prod.ext log equal)
  · exact out ⟨log, later⟩

theorem Contents.diskRead (contents : Contents cfg s) (committing : Committing cfg (s.uses .first) (s.uses .second) s.log s.commit)
    (nonzero : cfg.dev ≠ 0) (sessions : Sessions cfg.dev s.pinned s.bufs s.uses) {block : Block}
    (place : s.uses a = .locked b block) (invalid : (s.bufs b).valid = false) :
    Contents cfg ((s.diskRead b).use a (.held b block false)) := by
  refine contents.hold committing ?_ (by rw [place]; rfl) fun a' block' dirty has => ?_
  · intro b' ok dev nobody
    by_cases same : b' = b
    · rw [same] at dev nobody ⊢
      rw [update_self] at dev ⊢
      apply contents.disk (s.bufs b).block dev
      rintro ⟨log, member⟩
      obtain ⟨c, here, valid⟩ := sessions.cached _ member
      have equal : (s.bufs c).block = (s.bufs b).block := here.trans (Prod.ext log.symm rfl)
      have twice := sessions.unique c b (fun zero => nonzero ((congrArg Prod.fst here).symm.trans zero)) equal
      rw [twice, invalid] at valid
      cases valid
    · rw [update_of_ne same] at ok dev ⊢
      exact contents.fresh b' ok dev nobody
  · rw [sessions.valid a' b block' dirty has] at invalid
    cases invalid

theorem Contents.step (wheel : ∃ xs, Wheel s.links xs)
    (committing : Committing cfg (s.uses .first) (s.uses .second) s.log s.commit)
    (sessions : Sessions cfg.dev s.pinned s.bufs s.uses) (nonzero : cfg.dev ≠ 0) (contents : Contents cfg s) (step : Step cfg s t)
    (kept : ¬Strays cfg s t) : Contents cfg t := by
  have reads := committing.reads
  have writes := committing.writes
  cases step with
  | bread _ place | valid place => exact contents.take committing (by rw [place]; rfl)
  | bget place got =>
    rename_i a block b buf
    refine contents.hold committing ?_ (by rw [place]; rfl) fun _ _ _ _ => ?_
    · rcases bget_spec wheel got with ⟨here, rfl⟩ | ⟨missing, free, rfl⟩
      · exact contents.fresh.setBuf id (fun _ => rfl) rfl
      · exact contents.fresh.setBuf nofun nofun rfl
    · rcases bget_spec wheel got with ⟨here, rfl⟩ | ⟨missing, free, rfl⟩ <;> rfl
  | acquiresleep place | brelse place =>
    exact contents.hold committing (contents.fresh.setBuf id (fun _ => rfl) rfl) (by rw [place]; rfl) fun _ _ _ _ => rfl
  | diskRead place invalid => exact contents.diskRead committing nonzero sessions place invalid
  | modify data place =>
    rename_i i block b dirty
    refine contents.agent (contents.fresh.modify place) (fun b' block' dirty' has => ?_) committing (Or.inl rfl) rfl rfl rfl rfl
    have other : b' ≠ b := by
      rintro rfl
      have mine := sessions.lock (.user i) b' (by rw [place]; rfl)
      have theirs := sessions.lock .first b' (by rw [has]; rfl)
      rw [mine] at theirs
      cases theirs
    change (update s.bufs b _ b').data = _
    rw [update_of_ne other]
  | logWrite place inOp result => exact contents.logWrite committing sessions place inOp result kept
  | bwrite place => exact contents.bwrite committing sessions place kept
  | drop place =>
    rename_i a b
    have dropped : Contents cfg ((s.bunpin b).use a .idle) :=
      contents.hold committing (contents.fresh.setBuf id (fun _ => rfl) rfl) (by rw [place]; rfl) fun _ _ _ _ => rfl
    unfold State.drop
    split <;> exact ⟨dropped.fresh, dropped.disk, dropped.copies, dropped.carries, dropped.written⟩
  | beginOp p free result =>
    obtain ⟨-, -, after⟩ := Log.beginOp_some result
    rw [after]
    exact ⟨contents.fresh, contents.disk, contents.copies, contents.carries, contents.written⟩
  | endOp p inOp result =>
    obtain ⟨free, -, after⟩ := Log.endOp_ok result
    have idle := committing.busy free
    rename_i doCommit log
    rw [after]
    cases doCommit with
    | false => exact ⟨contents.fresh, contents.disk, contents.copies, contents.carries, contents.written⟩
    | true => exact contents.go contents.fresh rfl rfl rfl (by rw [idle]; rfl) (Nat.zero_le _) nofun nofun
  | begin place =>
    split <;> exact contents.go contents.fresh rfl rfl rfl (by rw [place]; rfl) (Nat.zero_le _) nofun nofun
  | logTo place idle | logFrom place _ idle | install place idle | installHome place _ idle =>
    exact contents.go (contents.fresh.use (by rw [idle]; rfl)) rfl rfl rfl (by rw [place]; rfl) (by rw [place]; exact Nat.le_refl _)
      nofun nofun
  | logCopy place has has' =>
    rename_i tail b b' block block' dirty dirty'
    have copies := contents.copies
    rw [place] at copies
    refine ⟨contents.fresh.modify has, ?_, copies, fun tail' c block'' dirty'' blockno logging has'' entry => ?_, nofun⟩
    · have disk := contents.disk
      unfold State.pinned at disk
      rw [place] at disk
      exact disk
    · cases logging
      cases has''
      obtain ⟨rfl, rfl⟩ := committing.entry has' (by rw [place]; rfl) entry
      change (update s.bufs b _ b).data = _
      rw [update_self]
      exact contents.read sessions has' nonzero
  | logWriteLog place has => exact contents.logWriteLog committing sessions place has
  | logDropFrom place | installDropHome place =>
    exact contents.go (contents.fresh.brelse reads _) rfl rfl rfl (by rw [place]; rfl)
      (by rw [place]; exact Nat.le_refl _) nofun nofun
  | logDropTo place | installDropLog place =>
    rw [place] at writes
    exact contents.go (contents.fresh.brelse writes _) rfl rfl rfl (by rw [place]; rfl)
      (by rw [place]; exact Nat.le_refl _) nofun nofun
  | logEnd place idle finished =>
    exact contents.go contents.fresh rfl rfl rfl (by rw [place]; rfl) (by rw [place]; exact Nat.not_lt.mp finished) nofun nofun
  | headRead place idle =>
    rename_i clear
    refine contents.go (contents.fresh.use (by rw [idle]; rfl)) rfl rfl rfl (by rw [place]; rfl) ?_ nofun nofun
    rw [place]
    cases clear <;> exact Nat.le_refl _
  | headFill place has =>
    rename_i clear b block dirty
    refine contents.go (contents.fresh.modify has) rfl rfl rfl (by rw [place]; rfl) ?_ nofun nofun
    rw [place]
    cases clear <;> exact Nat.le_refl _
  | headWrite place has => exact contents.headWrite committing sessions place has
  | headDrop place has =>
    rename_i clear b block dirty
    rw [place] at writes
    have fresh : Fresh (s.brelse .first b).bufs (s.brelse .first b).uses s.latest :=
      contents.fresh.brelse writes _
    cases clear <;>
      exact contents.go fresh rfl rfl rfl (by rw [place]; rfl) (by rw [place]; exact Nat.le_refl _) nofun nofun
  | installCopy place has has' =>
    have data := contents.installed committing sessions nonzero place has has'
    exact contents.go (contents.fresh.setBuf id (fun _ => rfl) data) rfl rfl rfl (by rw [place]; rfl)
      (by rw [place]; exact Nat.le_refl _) nofun nofun
  | installWrite place has => exact contents.installWrite committing sessions nonzero place has
  | installUnpin place has => exact contents.installUnpin committing place
  | installEnd place idle idle' finished =>
    rename_i tail
    refine ⟨contents.fresh, fun block dev _ => contents.disk block dev ?_, nofun, nofun, nofun⟩
    unfold State.pinned
    rw [place]
    change ¬(block.1 = cfg.dev ∧ block.2 ∈ s.log.lh.drop tail)
    rw [List.drop_eq_nil_of_le (Nat.not_lt.mp finished)]
    exact fun both => absurd both.2 List.not_mem_nil
  | done place idle =>
    exact contents.go contents.fresh rfl rfl rfl (by rw [place]; rfl) (Nat.zero_le _) nofun nofun

end Steps

end OShard.Cache
