import OShard.Grep.Match

namespace OShard.Grep

section Model

def bufSize : Nat := 1024

/-- The text before the character and the text behind it. The search ends at a NUL. -/
def strchr (c : Char) : List Char → Option (List Char × List Char)
  | [] => none
  | x :: s =>
    if x = '\x00' then none
    else if x = c then some ([], s)
    else (strchr c s).map fun found => (x :: found.1, found.2)

theorem strchr_some {c : Char} {s before after : List Char} (found : strchr c s = some (before, after)) :
    s = before ++ c :: after ∧ c ∉ before := by
  induction s generalizing before with
  | nil => cases found
  | cons x s ih =>
    rw [strchr] at found
    split at found
    · cases found
    split at found
    · cases found
      rename_i same
      exact ⟨same ▸ rfl, List.not_mem_nil⟩
    · obtain ⟨⟨first, rest⟩, inner, same⟩ := Option.map_eq_some_iff.mp found
      cases same
      obtain ⟨rfl, fresh⟩ := ih inner
      exact ⟨rfl, by grind⟩

theorem strchr_none {c : Char} {s : List Char} (text : '\x00' ∉ s) (missing : strchr c s = none) : c ∉ s := by
  induction s with
  | nil => exact List.not_mem_nil
  | cons x s ih =>
    rw [List.mem_cons, not_or] at text
    rw [strchr, if_neg (Ne.symm text.1)] at missing
    split at missing
    · cases missing
    · have rest := ih text.2 (Option.map_eq_none_iff.mp missing)
      grind

/-- The loop over the lines that are complete in the buffer: what it writes, and what is left of the buffer. -/
def eachLine (pattern p : List Char) : List (List Char) × List Char :=
  match _found : strchr '\n' p with
  | none => ([], p)
  | some (line, rest) =>
    let (out, left) := eachLine pattern rest
    (if matchText pattern line then (line ++ ['\n']) :: out else out, left)
termination_by p.length
decreasing_by
  rw [(strchr_some _found).1]
  simp
  omega

/-- How much `read` delivers: at most what is asked for, and nothing only if none is asked for or left. -/
def readSize (choice request : Nat) (stream : List Char) : Nat :=
  if min request stream.length = 0 then 0 else 1 + choice % min request stream.length

theorem readSize_le (choice request : Nat) (stream : List Char) :
    readSize choice request stream ≤ request ∧ readSize choice request stream ≤ stream.length := by
  unfold readSize
  split
  · omega
  · have size := Nat.mod_lt choice (Nat.pos_of_ne_zero ‹_›)
    omega

/-- The lines that `grep` writes, where `buf` holds the beginning of a line and `choices` is how much each `read`
    delivers. -/
def grep (pattern : List Char) (choices : Nat → Nat) (buf stream : List Char) : List (List Char) :=
  let n := readSize (choices 0) (bufSize - buf.length - 1) stream
  if 0 < n then
    let (out, rest) := eachLine pattern (buf ++ stream.take n)
    out ++ grep pattern (fun i => choices (i + 1)) rest (stream.drop n)
  else []
termination_by stream.length
decreasing_by
  have fits := (readSize_le (choices 0) (bufSize - buf.length - 1) stream).2
  rw [List.length_drop]
  omega

end Model

section Lines

/-- The lines that end in a newline, without it. -/
def textLines (s : List Char) : List (List Char) := (s.splitOn '\n').dropLast

def written (pattern : List Char) (lines : List (List Char)) : List (List Char) :=
  (lines.filter (matchText pattern)).map (· ++ ['\n'])

def short (line : List Char) : Bool := line.length + 1 < bufSize

variable {pattern line s : List Char}

theorem textLines_none (none : '\n' ∉ s) : textLines s = [] := by
  rw [textLines, List.splitOn_eq_singleton none, List.dropLast_singleton]

theorem textLines_cons (first : '\n' ∉ line) (s : List Char) : textLines (line ++ '\n' :: s) = line :: textLines s := by
  rw [textLines, List.splitOn_append_cons_self_of_not_mem first, List.dropLast_cons_of_ne_nil (List.splitOn_ne_nil _ _)]
  rfl

theorem written_append (pattern : List Char) (first second : List (List Char)) :
    written pattern (first ++ second) = written pattern first ++ written pattern second := by
  simp [written]

structure Dealt (pattern p : List Char) (out : List (List Char)) (rest : List Char) : Prop where
  out : out = written pattern (textLines p)
  left : '\n' ∉ rest
  fits : rest.length ≤ p.length
  text : '\x00' ∉ rest
  lines : ∀ line ∈ textLines p, line.length < p.length
  rest : ∀ more, textLines (p ++ more) = textLines p ++ textLines (rest ++ more)

theorem eachLine_dealt (pattern p : List Char) (text : '\x00' ∉ p) :
    Dealt pattern p (eachLine pattern p).1 (eachLine pattern p).2 := by
  induction p using eachLine.induct pattern with
  | case1 p missing =>
    have none := strchr_none text missing
    have lines := textLines_none none
    rw [show eachLine pattern p = ([], p) by rw [eachLine]; grind]
    exact ⟨by rw [lines]; rfl, none, Nat.le_refl _, text, by simp [lines], by simp [lines]⟩
  | case2 p line rest found out left result ih =>
    have value : eachLine pattern p =
        (if matchText pattern line then (line ++ ['\n']) :: out else out, left) := by rw [eachLine]; grind
    obtain ⟨rfl, first⟩ := strchr_some found
    have dealt : Dealt pattern rest out left := by simpa [result] using ih fun member => text (by simp [member])
    rw [value]
    refine ⟨?_, dealt.left, ?_, dealt.text, ?_, fun more => ?_⟩
    · rw [textLines_cons first, written, List.filter_cons, dealt.out]
      split <;> rfl
    · have := dealt.fits
      simp
      omega
    · rw [textLines_cons first]
      rintro line' (_ | ⟨_, member⟩)
      · simp
      · have := dealt.lines line' member
        simp
        omega
    · rw [List.append_assoc, List.cons_append, textLines_cons first, textLines_cons first, dealt.rest, List.cons_append]

theorem takeWhile_long {buf : List Char} (unfinished : '\n' ∉ buf) (full : bufSize ≤ buf.length + 1) (stream : List Char) :
    (textLines (buf ++ stream)).takeWhile short = [] := by
  by_cases ends : '\n' ∈ stream
  · obtain ⟨more, rest, rfl, fresh⟩ := List.eq_append_cons_of_mem ends
    have first : '\n' ∉ buf ++ more := by simp [unfinished, fresh]
    have long : short (buf ++ more) = false := by
      simp only [short, List.length_append, decide_eq_false_iff_not]
      omega
    rw [← List.append_assoc, textLines_cons first, List.takeWhile_cons, long]
    rfl
  · rw [textLines_none (by simp [unfinished, ends])]
    rfl

theorem grep_lines (choices : Nat → Nat) (buf stream : List Char) (unfinished : '\n' ∉ buf)
    (fits : buf.length < bufSize) (text : '\x00' ∉ buf ++ stream) :
    grep pattern choices buf stream = written pattern ((textLines (buf ++ stream)).takeWhile short) := by
  induction choices, buf, stream using grep.induct pattern with
  | case1 choices buf stream n more out rest result ih =>
    have bounds := readSize_le (choices 0) (bufSize - buf.length - 1) stream
    change n ≤ _ ∧ n ≤ _ at bounds
    have taken : buf ++ stream = buf ++ stream.take n ++ stream.drop n := by
      rw [List.append_assoc, List.take_append_drop]
    have size : (buf ++ stream.take n).length < bufSize := by
      rw [List.length_append, List.length_take]
      omega
    rw [taken] at text ⊢
    have dealt : Dealt pattern (buf ++ stream.take n) out rest := by
      simpa [result] using eachLine_dealt pattern (buf ++ stream.take n) fun member =>
        text (List.mem_append_left _ member)
    have allShort : ∀ line ∈ textLines (buf ++ stream.take n), short line = true := by
      intro line member
      have length := dealt.lines line member
      exact decide_eq_true (by omega)
    have next := ih dealt.left (Nat.lt_of_le_of_lt dealt.fits size) fun member => by
      rcases List.mem_append.mp member with early | late
      · exact dealt.text early
      · exact text (List.mem_append_right _ late)
    rw [grep]
    simp only [show readSize (choices 0) (bufSize - buf.length - 1) stream = n from rfl, if_pos more, result]
    rw [next, dealt.rest, List.takeWhile_append_of_pos allShort, written_append, dealt.out]
  | case2 choices buf stream n none =>
    rw [grep]
    simp only [show readSize (choices 0) (bufSize - buf.length - 1) stream = n from rfl, if_neg none]
    have ends : min (bufSize - buf.length - 1) stream.length = 0 := by
      by_contra some
      apply none
      change 0 < readSize _ _ _
      rw [readSize, if_neg some]
      omega
    rcases Nat.min_eq_zero_iff.mp ends with full | empty
    · rw [takeWhile_long unfinished (by omega)]
      rfl
    · rw [List.length_eq_zero_iff.mp empty, List.append_nil, textLines_none unfinished]
      rfl

/-- `grep` writes the matching lines exactly if none of them stands at or behind a line that fills the buffer. -/
theorem grep_exact_iff (pattern stream : List Char) (choices : Nat → Nat) (text : '\x00' ∉ stream) :
    grep pattern choices [] stream = written pattern (textLines stream) ↔
      ∀ line ∈ (textLines stream).dropWhile short, matchText pattern line = false := by
  have parts : written pattern (textLines stream) = written pattern ((textLines stream).takeWhile short) ++
      written pattern ((textLines stream).dropWhile short) := by
    rw [← written_append, List.takeWhile_append_dropWhile]
  rw [grep_lines choices [] stream List.not_mem_nil (by decide) text, List.nil_append, parts, List.self_eq_append_right,
    written, List.map_eq_nil_iff, List.filter_eq_nil_iff]
  simp

theorem grep_exact_two : grep ['a'] (fun _ => 0) [] ['a', '\n', 'b', '\n'] =
    written ['a'] (textLines ['a', '\n', 'b', '\n']) := by
  rw [grep_exact_iff _ _ _ (by decide)]
  have none : (textLines ['a', '\n', 'b', '\n']).dropWhile short = [] := by decide
  simp [none]

/-- A line of 1023 characters is not written, whatever the pattern. -/
theorem grep_drops_long_line : ∃ line : List Char, line.length = 1023 ∧ '\x00' ∉ line ++ ['\n'] ∧
    grep [] (fun _ => 0) [] (line ++ ['\n']) = [] ∧ written [] (textLines (line ++ ['\n'])) = [line ++ ['\n']] := by
  obtain ⟨line, size, all⟩ : ∃ line : List Char, line.length = 1023 ∧ ∀ c ∈ line, c = 'a' :=
    ⟨List.replicate 1023 'a', List.length_replicate, fun _ => List.eq_of_mem_replicate⟩
  have first : '\n' ∉ line := fun member => absurd (all _ member) (by decide)
  have text : '\x00' ∉ line ++ ['\n'] := by
    simpa using fun member => absurd (all _ member) (by decide)
  have lines : textLines (line ++ ['\n']) = [line] := textLines_cons first []
  have long : short line = false := by rw [short, size]; rfl
  refine ⟨line, size, text, ?_, ?_⟩
  · rw [grep_lines _ [] (line ++ ['\n']) List.not_mem_nil (by decide) text, List.nil_append, lines, List.takeWhile_cons, long]
    rfl
  · have matches' : matchText [] line = true := by cases line <;> simp [matchText, matchAny, matchhere]
    rw [lines]
    simp [written, matches']

end Lines

end OShard.Grep
