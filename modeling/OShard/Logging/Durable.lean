import OShard.Logging.Invariant

namespace OShard.Logging

open Update Function

def writes (entries : List Entry) : List (Nat × Data) := entries.map fun e => (e.block, e.data)

namespace State

def home (s : State) (base : Nat → Data) : Nat → Data := apply (writes s.committed.flatten) base

def current (s : State) (base : Nat → Data) : Nat → Data := apply (writes s.pending) (s.home base)

def entries (cfg : Config) (s : State) : List Nat :=
  match s.pc with
  | .boot => readHead (s.blocks.disk cfg.start)
  | _ => s.log.lh

def header (cfg : Config) (s : State) : List Nat :=
  match s.pc with
  | .installTrans _ | .recover _ | .boot => s.entries cfg
  | _ => []

def unsettled (cfg : Config) (s : State) : List Nat :=
  match s.pc with
  | .installTrans tail | .recover tail => s.log.lh.drop tail
  | .boot => s.entries cfg
  | _ => []

def copied (cfg : Config) (s : State) : List Nat :=
  match s.pc with
  | .writeLog tail => s.log.lh.take tail
  | .installTrans _ | .recover _ | .boot => s.entries cfg
  | _ => []

end State

def Pc.flushed : Pc → Bool
  | .idle | .writeLog _ => false
  | _ => true

/-- What the disk and the cache hold, against the transactions that were committed to `base`. -/
structure Durable (cfg : Config) (base : Nat → Data) (s : State) : Prop where
  room : (s.entries cfg).length < cfg.size
  home : ∀ b ∈ s.entries cfg, cfg.Home b
  header : readHead (s.blocks.disk cfg.start) = s.header cfg
  area : ∀ b, ¬ cfg.Home b → (s.blocks.buf b).data = s.blocks.disk b
  settled : ∀ b, cfg.Home b → b ∉ s.unsettled cfg → s.blocks.disk b = s.home base b
  copies : ∀ i b, (s.copied cfg)[i]? = some b → s.blocks.disk (cfg.start + i + 1) = s.current base b
  listed : ∀ e ∈ s.pending, e.block ∈ s.log.lh
  flushed : s.pc.flushed = true → s.pending = []
  view : s.pc.up = true → ∀ b, cfg.Home b → s.modified b = false → (s.blocks.buf b).data = s.current base b
  cold : s.pc.up = false → ∀ b, cfg.Home b → (s.blocks.buf b).data = s.blocks.disk b

section Reads

variable {cfg : Config} {base : Nat → Data} {s : State} (durable : Durable cfg base s)

include durable

theorem Durable.unwritten {b : Nat} (absent : b ∉ s.log.lh) : s.current base b = s.home base b := by
  apply apply_of_notMem
  intro write member same
  obtain ⟨e, inside, equal⟩ := List.mem_map.mp member
  rw [← equal] at same
  exact absent (by rw [← same]; exact durable.listed e inside)

theorem Durable.place {pc : Pc} (place : s.pc = pc) : Durable cfg base { s with pc := pc } := by
  rw [← place]
  exact durable

theorem Durable.current_eq (flushed : s.pc.flushed = true) : s.current base = s.home base := by
  unfold State.current
  rw [durable.flushed flushed]
  rfl

theorem Durable.unpinned (up : s.pc.up = true) {b : Nat} (home : cfg.Home b) (absent : b ∉ s.pinned) :
    s.blocks.disk b = s.current base b := by
  unfold State.pinned at absent
  have settled := durable.settled b home
  unfold State.unsettled at settled
  cases place : s.pc with
  | idle | writeLog | committed =>
    rw [place] at absent settled
    rw [durable.unwritten absent]
    exact settled (by simp)
  | installTrans tail =>
    rw [place] at absent settled
    rw [durable.current_eq (by rw [place]; rfl)]
    exact settled absent
  | boot | recover => rw [place] at up; cases up

theorem Durable.header_area : ¬ cfg.Home cfg.start := Config.head_area (Nat.zero_lt_of_lt durable.room)

theorem Durable.home_ne_start {c : Nat} (home : cfg.Home c) : c ≠ cfg.start := by
  intro same
  rw [same] at home
  exact durable.header_area home

theorem Durable.block_area {tail b : Nat} (entry : (s.entries cfg)[tail]? = some b) :
    ¬ cfg.Home (cfg.start + tail + 1) := by
  obtain ⟨bound, -⟩ := List.getElem?_eq_some_iff.mp entry
  have room := durable.room
  exact Config.block_area (by omega)

theorem Durable.frame {t : State} (disk : t.blocks.disk = s.blocks.disk) (log : t.log.lh = s.log.lh) (pc : t.pc = s.pc)
    (pending : t.pending = s.pending) (committed : t.committed = s.committed)
    (area : ∀ b, ¬ cfg.Home b → (t.blocks.buf b).data = s.blocks.disk b)
    (view : s.pc.up = true → ∀ b, cfg.Home b → t.modified b = false → (t.blocks.buf b).data = s.current base b)
    (cold : s.pc.up = false → ∀ b, cfg.Home b → (t.blocks.buf b).data = s.blocks.disk b) : Durable cfg base t := by
  have home : t.home base = s.home base := by
    unfold State.home
    rw [committed]
  have current : t.current base = s.current base := by
    unfold State.current
    rw [home, pending]
  have entries : t.entries cfg = s.entries cfg := by
    unfold State.entries
    rw [pc, disk, log]
  have header : t.header cfg = s.header cfg := by
    unfold State.header
    rw [pc, entries]
  have unsettled : t.unsettled cfg = s.unsettled cfg := by
    unfold State.unsettled
    rw [pc, entries, log]
  have copied : t.copied cfg = s.copied cfg := by
    unfold State.copied
    rw [pc, entries, log]
  refine ⟨?_, ?_, ?_, ?_, ?_, ?_, ?_, ?_, ?_, ?_⟩
  · rw [entries]
    exact durable.room
  · rw [entries]
    exact durable.home
  · rw [disk, header]
    exact durable.header
  · rw [disk]
    exact area
  · rw [disk, home, unsettled]
    exact durable.settled
  · rw [disk, current, copied]
    exact durable.copies
  · rw [pending, log]
    exact durable.listed
  · rw [pc, pending]
    exact durable.flushed
  · rw [pc, current]
    exact view
  · rw [pc, disk]
    exact cold

theorem Durable.frame_data {t : State} (disk : t.blocks.disk = s.blocks.disk) (log : t.log.lh = s.log.lh) (pc : t.pc = s.pc)
    (pending : t.pending = s.pending) (committed : t.committed = s.committed) (modified : t.modified = s.modified)
    (data : ∀ b, (t.blocks.buf b).data = (s.blocks.buf b).data) : Durable cfg base t := by
  apply durable.frame disk log pc pending committed
  · intro b area
    rw [data]
    exact durable.area b area
  · intro up b home clean
    rw [data]
    rw [modified] at clean
    exact durable.view up b home clean
  · intro down b home
    rw [data]
    exact durable.cold down b home

end Reads

section Sections

variable {cfg : Config} {base : Nat → Data} {s : State} (durable : Durable cfg base s) (control : Control s)
  {b p id : Nat} {log : Log}

include durable control

theorem Durable.evict (unused : (s.blocks.buf b).refcnt = 0) :
    Durable cfg base { s with blocks := s.blocks.evict b } := by
  have buffer : ∀ c, ((s.blocks.evict b).buf c).data = s.blocks.disk c ∨
      ((s.blocks.evict b).buf c).data = (s.blocks.buf c).data := by
    intro c
    rw [Blocks.buf_evict]
    by_cases same : c = b
    · rw [if_pos same, same]
      exact .inl rfl
    · rw [if_neg same]
      exact .inr rfl
  refine durable.frame rfl rfl rfl rfl rfl ?_ ?_ ?_
  · intro c area
    rcases buffer c with disk | kept
    · exact disk
    · exact kept.trans (durable.area c area)
  · intro up c home clean
    dsimp only
    rw [Blocks.buf_evict]
    by_cases same : c = b
    · rw [if_pos same]
      rw [same] at home ⊢
      exact durable.unpinned up home (control.pins.unlocked unused).1
    · rw [if_neg same]
      exact durable.view up c home clean
  · intro down c home
    rcases buffer c with disk | kept
    · exact disk
    · exact kept.trans (durable.cold down c home)

theorem Durable.modify (data : Data) (opened : s.op p ≠ none) (inHome : cfg.Home b) :
    Durable cfg base { s with
      blocks := s.blocks.setBuf b { s.blocks.buf b with data := data }
      modified := update s.modified b true } := by
  have idle := control.idle opened
  refine durable.frame rfl rfl rfl rfl rfl ?_ ?_ ?_
  · intro c area
    have other : c ≠ b := by
      intro same
      rw [same] at area
      exact area inHome
    dsimp only
    rw [Blocks.buf_setBuf, if_neg other]
    exact durable.area c area
  · intro up c home clean
    have other : c ≠ b := by
      intro same
      simp [same] at clean
    dsimp only
    rw [Blocks.buf_setBuf, if_neg other]
    exact durable.view up c home (by simpa [other] using clean)
  · intro down
    rw [idle] at down
    cases down

theorem Durable.logWrite {pin : Bool} (opened : s.op p = some id) (inHome : cfg.Home b)
    (result : s.log.logWrite cfg b = .ok (pin, log)) (history : List Entry) :
    Durable cfg base { s with
      blocks := if pin then s.blocks.bpin b else s.blocks
      log := log
      modified := update s.modified b false
      history := history
      pending := s.pending ++ [⟨id, b, (s.blocks.buf b).data⟩] } := by
  obtain ⟨-, fits, -, rfl⟩ := Log.logWrite_ok result
  have idle := control.idle (p := p) (by rw [opened]; simp)
  have data : ∀ c, ((if pin then s.blocks.bpin b else s.blocks).buf c).data = (s.blocks.buf c).data := by
    intro c
    cases pin with
    | false => rfl
    | true =>
      rw [if_pos rfl, Blocks.bpin, Blocks.buf_setBuf]
      by_cases same : c = b
      · rw [if_pos same, same]
      · rw [if_neg same]
  have disk : (if pin then s.blocks.bpin b else s.blocks).disk = s.blocks.disk := by
    cases pin with
    | false => rfl
    | true => rfl
  have now := durable.place idle
  have room : s.log.lh.length < cfg.size := now.room
  have grown : ∀ c, c ∈ (if b ∈ s.log.lh then s.log.lh else s.log.lh ++ [b]) ↔ c ∈ s.log.lh ∨ c = b := by
    intro c
    by_cases member : b ∈ s.log.lh
    · rw [if_pos member]
      constructor
      · exact .inl
      · rintro (old | same)
        · exact old
        · rw [same]
          exact member
    · rw [if_neg member, List.mem_append, List.mem_singleton]
  refine ⟨?_, ?_, ?_, ?_, ?_, ?_, ?_, ?_, ?_, ?_⟩
  · unfold State.entries
    rw [idle]
    dsimp only
    split
    · exact room
    · simp only [List.length_append, List.length_singleton]
      omega
  · unfold State.entries
    rw [idle]
    intro c member
    rcases (grown c).mp member with old | same
    · exact now.home c old
    · rw [same]
      exact inHome
  · unfold State.header
    rw [idle]
    dsimp only
    rw [disk]
    exact now.header
  · intro c area
    dsimp only
    rw [data, disk]
    exact durable.area c area
  · unfold State.unsettled
    rw [idle]
    dsimp only
    rw [disk]
    exact now.settled
  · unfold State.copied
    rw [idle]
    intro i c entry
    cases entry
  · intro e member
    rcases List.mem_append.mp member with old | new
    · exact (grown _).mpr (.inl (durable.listed e old))
    · rw [List.mem_singleton] at new
      rw [new]
      exact (grown _).mpr (.inr rfl)
  · intro flushed
    rw [idle] at flushed
    cases flushed
  · intro up c home clean
    have current : State.current { s with
        blocks := if pin then s.blocks.bpin b else s.blocks
        log := { s.log with lh := if b ∈ s.log.lh then s.log.lh else s.log.lh ++ [b] }
        modified := update s.modified b false
        history := history
        pending := s.pending ++ [⟨id, b, (s.blocks.buf b).data⟩] } base =
        update (s.current base) b (s.blocks.buf b).data := by
      unfold State.current writes
      rw [List.map_append]
      exact apply_snoc _ _ _ _
    rw [current]
    dsimp only at clean ⊢
    rw [data]
    by_cases same : c = b
    · rw [same, update_self]
    · rw [update_of_ne same]
      exact durable.view up c home (by simpa [same] using clean)
  · intro down
    rw [idle] at down
    cases down

theorem Durable.endOp {doCommit : Bool} (opened : s.op p = some id) (result : s.log.endOp = .ok (doCommit, log)) :
    Durable cfg base { s with
      log := log
      op := update s.op p none
      pc := if doCommit then (if log.lh = [] then .committed else .writeLog 0) else s.pc } := by
  obtain ⟨-, -, rfl⟩ := Log.endOp_ok result
  have idle := control.idle (p := p) (by rw [opened]; simp)
  have now := durable.place idle
  cases doCommit with
  | false =>
    rw [if_neg (by decide)]
    exact durable.frame rfl rfl rfl rfl rfl durable.area durable.view durable.cold
  | true =>
    rw [if_pos rfl]
    by_cases empty : s.log.lh = []
    · rw [if_pos empty]
      refine ⟨now.room, now.home, now.header, durable.area, now.settled, ?_, durable.listed, fun _ => ?_, now.view, ?_⟩
      · intro i b entry
        cases entry
      · apply List.eq_nil_iff_forall_not_mem.mpr
        intro e member
        have listed := durable.listed e member
        rw [empty] at listed
        cases listed
      · intro down
        cases down
    · rw [if_neg empty]
      refine ⟨now.room, now.home, now.header, durable.area, now.settled, ?_, durable.listed, ?_, now.view, ?_⟩
      · intro i b entry
        cases entry
      · intro flushed
        cases flushed
      · intro down
        cases down

end Sections

section Commit

variable {tail b : Nat} {pc : Pc}

theorem Blocks.data_bwrite (m : Blocks) (b c : Nat) (data : Data) :
    ((m.bwrite b data).buf c).data = if c = b then data else (m.buf c).data := by
  rw [Blocks.buf_bwrite]
  by_cases same : c = b
  · rw [if_pos same, if_pos same]
  · rw [if_neg same, if_neg same]

theorem Blocks.agree_bwrite {m : Blocks} {c : Nat} (agree : (m.buf c).data = m.disk c) (b : Nat) (data : Data) :
    ((m.bwrite b data).buf c).data = (m.bwrite b data).disk c := by
  rw [Blocks.data_bwrite, Blocks.disk_bwrite]
  by_cases same : c = b
  · rw [if_pos same, same, update_self]
  · rw [if_neg same, update_of_ne same]
    exact agree

theorem Blocks.data_bunpin (m : Blocks) (b c : Nat) : ((m.bunpin b).buf c).data = (m.buf c).data := by
  unfold Blocks.bunpin
  rw [Blocks.buf_setBuf]
  by_cases same : c = b
  · rw [if_pos same, same]
  · rw [if_neg same]

variable {cfg : Config} {base : Nat → Data} {s : State} (durable : Durable cfg base s) (control : Control s)

include durable

theorem Durable.entry_home (entry : (s.entries cfg)[tail]? = some b) : cfg.Home b :=
  durable.home b (List.mem_of_getElem? entry)

theorem Durable.apart {c : Nat} (entry : (s.entries cfg)[tail]? = some b) (home : cfg.Home c) :
    c ≠ cfg.start + tail + 1 := by
  intro same
  rw [same] at home
  exact durable.block_area entry home

include control in
theorem Durable.writeLog (place : s.pc = .writeLog tail) (entry : s.log.lh[tail]? = some b) :
    Durable cfg base { s with
      blocks := ((s.blocks.touch (cfg.start + tail + 1)).touch b).bwrite (cfg.start + tail + 1) (s.blocks.buf b).data
      pc := .writeLog (tail + 1) } := by
  have now := durable.place place
  have value := now.view rfl b (now.entry_home entry) (control.unmodified (by rw [place]; simp) b)
  refine ⟨now.room, now.home, ?_, ?_, ?_, ?_, durable.listed, ?_, ?_, ?_⟩
  · dsimp only [Blocks.disk_bwrite, Blocks.disk_touch]
    rw [update_of_ne (by omega)]
    exact now.header
  · intro c area
    apply Blocks.agree_bwrite
    simp only [Blocks.buf_touch, Blocks.disk_touch]
    exact durable.area c area
  · intro c home' absent
    simp only [Blocks.disk_bwrite, Blocks.disk_touch]
    rw [update_of_ne (now.apart entry home')]
    exact now.settled c home' absent
  · intro i c entry''
    have take : (s.log.lh.take (tail + 1))[i]? = some c := entry''
    simp only [Blocks.disk_bwrite, Blocks.disk_touch]
    by_cases last : i = tail
    · rw [last, List.getElem?_take, if_pos (Nat.lt_succ_self tail), entry] at take
      cases take
      rw [last, update_self]
      exact value
    have earlier : i < tail := by
      rw [List.getElem?_take] at take
      split at take
      · omega
      · cases take
    rw [update_of_ne (by omega)]
    apply now.copies i c
    rw [List.getElem?_take, if_pos (by omega)] at take
    change (s.log.lh.take tail)[i]? = some c
    rw [List.getElem?_take, if_pos earlier]
    exact take
  · intro flushed
    cases flushed
  · intro _ c home' clean
    simp only [Blocks.data_bwrite, Blocks.buf_touch]
    rw [if_neg (now.apart entry home')]
    exact now.view rfl c home' clean
  · intro down
    cases down

theorem Durable.commitHead (place : s.pc = .writeLog s.log.lh.length) :
    Durable cfg base { s with
      blocks := s.blocks.bwrite cfg.start (writeHead s.log.lh (s.blocks.buf cfg.start).data)
      pc := .installTrans 0
      committed := s.committed ++ [s.pending]
      pending := [] } := by
  have now := durable.place place
  have moved : apply (writes (s.committed ++ [s.pending]).flatten) base = s.current base := by
    rw [List.flatten_concat]
    unfold writes
    rw [List.map_append]
    exact apply_append _ _ _
  refine ⟨now.room, now.home, ?_, ?_, ?_, ?_, ?_, fun _ => rfl, ?_, ?_⟩
  · simp only [Blocks.disk_bwrite, update_self]
    exact readHead_writeHead _ _
  · exact fun c area => Blocks.agree_bwrite (durable.area c area) _ _
  · intro c home' absent
    change c ∉ s.log.lh at absent
    change update s.blocks.disk cfg.start _ c = apply (writes (s.committed ++ [s.pending]).flatten) base c
    rw [moved, update_of_ne (durable.home_ne_start home'), durable.unwritten absent]
    exact now.settled c home' List.not_mem_nil
  · intro i c entry
    change s.log.lh[i]? = some c at entry
    change update s.blocks.disk cfg.start _ (cfg.start + i + 1) =
      apply (writes (s.committed ++ [s.pending]).flatten) base c
    rw [moved, update_of_ne (by omega)]
    apply now.copies i c
    change (s.log.lh.take s.log.lh.length)[i]? = some c
    rw [List.take_length]
    exact entry
  · intro e member
    cases member
  · intro _ c home' clean
    change ((s.blocks.bwrite cfg.start _).buf c).data = apply (writes (s.committed ++ [s.pending]).flatten) base c
    rw [moved, Blocks.data_bwrite, if_neg (durable.home_ne_start home')]
    exact now.view rfl c home' clean
  · intro down
    cases down

theorem Durable.install {m : Blocks} (entry : s.log.lh[tail]? = some b)
    (place : (s.pc = .installTrans tail ∧ pc = .installTrans (tail + 1)) ∨ (s.pc = .recover tail ∧ pc = .recover (tail + 1)))
    (disk : m.disk = update s.blocks.disk b (s.blocks.buf (cfg.start + tail + 1)).data) (data : ∀ c, (m.buf c).data =
      if c = b then (s.blocks.buf (cfg.start + tail + 1)).data else (s.blocks.buf c).data) :
    Durable cfg base { s with blocks := m, pc := pc } := by
  let t : State := { s with blocks := m, pc := pc }
  have shape : s.entries cfg = s.log.lh ∧ s.header cfg = s.log.lh ∧ s.unsettled cfg = s.log.lh.drop tail ∧
      s.copied cfg = s.log.lh ∧ s.pc.flushed = true ∧ pc.up = s.pc.up ∧ t.entries cfg = s.log.lh ∧
      t.header cfg = s.log.lh ∧ t.unsettled cfg = s.log.lh.drop (tail + 1) ∧ t.copied cfg = s.log.lh := by
    unfold State.header State.unsettled State.copied State.entries
    rcases place with ⟨before, after⟩ | ⟨before, after⟩
    · rw [before, show t.pc = .installTrans (tail + 1) from after, after]
      exact ⟨rfl, rfl, rfl, rfl, rfl, rfl, rfl, rfl, rfl, rfl⟩
    · rw [before, show t.pc = .recover (tail + 1) from after, after]
      exact ⟨rfl, rfl, rfl, rfl, rfl, rfl, rfl, rfl, rfl, rfl⟩
  obtain ⟨entries, header, unsettled, copied, flushed, up, entries', header', unsettled', copied'⟩ := shape
  have room := durable.room
  have home := durable.home
  have head := durable.header
  have settled := durable.settled
  have copies := durable.copies
  have current := durable.current_eq flushed
  rw [entries] at room home
  rw [header] at head
  rw [unsettled] at settled
  rw [copied] at copies
  have inHome := home b (List.mem_of_getElem? entry)
  have value : (s.blocks.buf (cfg.start + tail + 1)).data = s.home base b := by
    rw [durable.area _ (durable.block_area (by rw [entries]; exact entry)), copies tail b entry, current]
  have apart : ∀ c, ¬ cfg.Home c → c ≠ b := by
    intro c area same
    rw [same] at area
    exact area inHome
  rw [value] at disk data
  refine ⟨?_, ?_, ?_, ?_, ?_, ?_, durable.listed, fun _ => durable.flushed flushed, ?_, ?_⟩
  · change (t.entries cfg).length < cfg.size
    rw [entries']
    exact room
  · change ∀ b ∈ t.entries cfg, cfg.Home b
    rw [entries']
    exact home
  · change readHead (m.disk cfg.start) = t.header cfg
    rw [header', disk, update_of_ne (apart _ durable.header_area)]
    exact head
  · intro c area
    dsimp only
    rw [data, disk, if_neg (apart c area), update_of_ne (apart c area)]
    exact durable.area c area
  · intro c home' absent
    change c ∉ t.unsettled cfg at absent
    change m.disk c = s.home base c
    rw [unsettled'] at absent
    rw [disk]
    by_cases same : c = b
    · rw [same, update_self]
    · rw [update_of_ne same]
      apply settled c home'
      rw [drop_of_getElem? entry, List.mem_cons, not_or]
      exact ⟨same, absent⟩
  · intro i c entry'
    change (t.copied cfg)[i]? = some c at entry'
    rw [copied'] at entry'
    dsimp only
    rw [disk, update_of_ne (apart _ (durable.block_area (by rw [entries]; exact entry')))]
    exact copies i c entry'
  · intro up' c home' clean
    change (m.buf c).data = s.current base c
    change pc.up = true at up'
    rw [up] at up'
    rw [data]
    by_cases same : c = b
    · rw [if_pos same, same, current]
    · rw [if_neg same]
      exact durable.view up' c home' clean
  · intro down c home'
    change pc.up = false at down
    rw [up] at down
    dsimp only
    rw [data, disk]
    by_cases same : c = b
    · rw [if_pos same, same, update_self]
    · rw [if_neg same, update_of_ne same]
      exact durable.cold down c home'

theorem Durable.clear (place : (s.pc = .installTrans s.log.lh.length ∧ pc = .committed) ∨
      (s.pc = .recover s.log.lh.length ∧ pc = .idle)) (unmodified : ∀ b, s.modified b = false) (log : Log)
    (cleared : log.lh = []) :
    Durable cfg base { s with
      blocks := s.blocks.bwrite cfg.start (writeHead [] (s.blocks.buf cfg.start).data)
      log := log
      pc := pc } := by
  let t : State := { s with
    blocks := s.blocks.bwrite cfg.start (writeHead [] (s.blocks.buf cfg.start).data), log := log, pc := pc }
  have shape : s.unsettled cfg = [] ∧ s.pc.flushed = true ∧ pc.up = true ∧ t.entries cfg = [] ∧ t.header cfg = [] ∧
      t.unsettled cfg = [] ∧ t.copied cfg = [] := by
    unfold State.header State.unsettled State.copied State.entries
    rcases place with ⟨before, after⟩ | ⟨before, after⟩
    · rw [before, show t.pc = .committed from after, after]
      exact ⟨List.drop_length, rfl, rfl, cleared, rfl, rfl, rfl⟩
    · rw [before, show t.pc = .idle from after, after]
      exact ⟨List.drop_length, rfl, rfl, cleared, rfl, rfl, rfl⟩
  obtain ⟨unsettled, flushed, up, entries', header', unsettled', copied'⟩ := shape
  have current := durable.current_eq flushed
  have empty := durable.flushed flushed
  have settled := durable.settled
  rw [unsettled] at settled
  refine ⟨?_, ?_, ?_, ?_, ?_, ?_, ?_, fun _ => empty, ?_, ?_⟩
  · change (t.entries cfg).length < cfg.size
    rw [entries']
    exact Nat.zero_lt_of_lt durable.room
  · change ∀ b ∈ t.entries cfg, cfg.Home b
    rw [entries']
    intro b member
    cases member
  · change readHead _ = t.header cfg
    rw [header']
    simp only [Blocks.disk_bwrite, update_self]
    exact readHead_writeHead _ _
  · exact fun c area => Blocks.agree_bwrite (durable.area c area) _ _
  · intro c home _
    simp only [Blocks.disk_bwrite]
    rw [update_of_ne (durable.home_ne_start home)]
    exact settled c home (by simp)
  · intro i c entry
    change (t.copied cfg)[i]? = some c at entry
    rw [copied'] at entry
    cases entry
  · intro e member
    change e ∈ s.pending at member
    rw [empty] at member
    cases member
  · intro _ c home _
    change ((s.blocks.bwrite cfg.start _).buf c).data = s.current base c
    rw [Blocks.data_bwrite, if_neg (durable.home_ne_start home)]
    rcases place with ⟨before, -⟩ | ⟨before, -⟩
    · exact durable.view (by rw [before]; rfl) c home (unmodified c)
    · rw [durable.cold (by rw [before]; rfl) c home, current]
      exact settled c home (by simp)
  · intro down
    change pc.up = false at down
    rw [up] at down
    cases down

theorem Durable.crash : Durable cfg base s.crash := by
  have head := durable.header
  have room := durable.room
  have home := durable.home
  have settled := durable.settled
  have copies := durable.copies
  have entries : s.crash.entries cfg = s.header cfg := head
  have inside : s.header cfg = [] ∨
      (s.header cfg = s.entries cfg ∧ s.unsettled cfg ⊆ s.entries cfg ∧ s.copied cfg = s.entries cfg ∧ s.pc.flushed = true) := by
    unfold State.header State.unsettled State.copied State.entries
    cases s.pc with
    | idle | writeLog | committed => exact .inl rfl
    | installTrans | recover => exact .inr ⟨rfl, List.drop_subset _ _, rfl, rfl⟩
    | boot => exact .inr ⟨rfl, List.Subset.refl _, rfl, rfl⟩
  have clear : s.header cfg = [] → s.unsettled cfg = [] := by
    unfold State.header State.unsettled State.entries
    cases s.pc with
    | idle | writeLog | committed => exact fun _ => rfl
    | installTrans | recover =>
      intro empty
      dsimp only at empty
      rw [empty]
      exact List.drop_nil
    | boot => exact fun empty => empty
  refine ⟨?_, ?_, ?_, fun b _ => rfl, ?_, ?_, ?_, fun _ => rfl, ?_, fun _ b _ => rfl⟩
  · rw [entries]
    rcases inside with empty | ⟨same, -⟩
    · rw [empty]
      exact Nat.zero_lt_of_lt room
    · rw [same]
      exact room
  · rw [entries]
    rcases inside with empty | ⟨same, -⟩
    · rw [empty]
      intro b member
      cases member
    · rw [same]
      exact home
  · rfl
  · intro b inHome absent
    change b ∉ s.crash.entries cfg at absent
    rw [entries] at absent
    change s.blocks.disk b = s.home base b
    apply settled b inHome
    rcases inside with empty | ⟨same, subset, -⟩
    · rw [clear empty]
      simp
    · rw [same] at absent
      exact fun member => absent (subset member)
  · intro i b entry
    change (s.crash.entries cfg)[i]? = some b at entry
    rw [entries] at entry
    change s.blocks.disk (cfg.start + i + 1) = s.home base b
    rcases inside with empty | ⟨same, -, copied, flushed⟩
    · rw [empty] at entry
      cases entry
    · rw [same] at entry
      rw [← durable.current_eq flushed]
      exact copies i b (by rw [copied]; exact entry)
  · intro e member
    cases member
  · intro up
    cases up

theorem Durable.load (place : s.pc = .boot) :
    Durable cfg base { s with
      blocks := s.blocks.touch cfg.start
      log := { s.log with lh := readHead (s.blocks.buf cfg.start).data }
      pc := .recover 0 } := by
  have now := durable.place place
  rw [durable.area _ durable.header_area]
  refine ⟨now.room, now.home, now.header, ?_, now.settled, now.copies, ?_, now.flushed, ?_, ?_⟩
  · intro b area
    simp only [Blocks.buf_touch, Blocks.disk_touch]
    exact durable.area b area
  · intro e member
    change e ∈ s.pending at member
    rw [now.flushed rfl] at member
    cases member
  · intro up
    cases up
  · intro _ b home
    simp only [Blocks.buf_touch, Blocks.disk_touch]
    exact now.cold rfl b home

theorem Durable.finish (place : s.pc = .committed) :
    Durable cfg base { s with log := { s.log with committing := false }, pc := .idle } := by
  have now := durable.place place
  refine ⟨now.room, now.home, now.header, durable.area, now.settled, ?_, durable.listed, ?_, now.view, ?_⟩
  · intro i b entry
    cases entry
  · intro flushed
    cases flushed
  · intro down
    cases down

end Commit

theorem Durable.step {cfg : Config} {base : Nat → Data} {s t : State} (durable : Durable cfg base s) (control : Control s)
    (step : Step cfg s t) : Durable cfg base t := by
  cases step with
  | beginOp p up free result =>
    obtain ⟨-, -, rfl⟩ := Log.beginOp_some result
    exact durable.frame_data rfl rfl rfl rfl rfl rfl fun _ => rfl
  | bread p b up free =>
    refine durable.frame_data rfl rfl rfl rfl rfl rfl fun c => ?_
    dsimp only
    rw [Blocks.buf_setBuf]
    by_cases same : c = b
    · rw [if_pos same, same]
    · rw [if_neg same]
  | modify data lock opened home => exact durable.modify control data opened home
  | logWrite lock opened home result => exact durable.logWrite control opened home result _
  | brelse lock clean =>
    rename_i p b
    refine durable.frame_data rfl rfl rfl rfl rfl rfl fun c => ?_
    dsimp only
    rw [Blocks.buf_setBuf]
    by_cases same : c = b
    · rw [if_pos same, same]
    · rw [if_neg same]
  | evict unused => exact durable.evict control unused
  | endOp opened passed result => exact durable.endOp control opened result
  | writeLog place entry free free' => exact durable.writeLog control place entry
  | writeHead place free => exact durable.commitHead place
  | installTrans place entry free free' =>
    refine durable.install entry (.inl ⟨place, rfl⟩) rfl fun c => ?_
    rw [Blocks.data_bunpin, Blocks.data_bwrite, Blocks.buf_touch, Blocks.buf_touch]
  | clearHead place free =>
    exact durable.clear (.inl ⟨place, rfl⟩) (control.unmodified (by rw [place]; simp)) _ rfl
  | finish place => exact durable.finish place
  | crash => exact durable.crash
  | readHead place => exact durable.load place
  | recover place entry =>
    refine durable.install entry (.inr ⟨place, rfl⟩) rfl fun c => ?_
    rw [Blocks.data_bwrite, Blocks.buf_touch, Blocks.buf_touch]
  | recoverClear place =>
    exact durable.clear (.inr ⟨place, rfl⟩) (control.unmodified (by rw [place]; simp)) _ rfl

end OShard.Logging
