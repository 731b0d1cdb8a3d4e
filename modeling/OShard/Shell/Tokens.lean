import OShard.Shell.Grammar

namespace OShard.Shell

def Got.token (got : Got) : Option Token :=
  match got.ret with
  | 'a' => some (.word got.word.text)
  | '<' => some .less
  | '>' => some .greater
  | '+' => some .append
  | '|' => some .bar
  | '&' => some .amp
  | ';' => some .semi
  | '(' => some .opening
  | ')' => some .closing
  | _ => none

def Token.ret : Token → Char
  | .word _ => 'a'
  | .less => '<'
  | .greater => '>'
  | .append => '+'
  | .bar => '|'
  | .amp => '&'
  | .semi => ';'
  | .opening => '('
  | .closing => ')'

def Token.lead : Token → Char
  | .append => '>'
  | t => t.ret

/-- The two pointers of a word in the input: it is cut off at the first character that cannot go on with it. -/
structure Proper (text : Ptr) (w : Word) : Prop where
  start : w.q <:+ text
  cut : w.q = w.text ++ w.eq
  solid : ∀ c ∈ w.text, plain c = true
  stop : ∀ c, w.eq.head? = some c → plain c = false

theorem Proper.mono {s text : Ptr} {w : Word} (proper : Proper s w) (suffix : s <:+ text) : Proper text w :=
  ⟨proper.start.trans suffix, proper.cut, proper.solid, proper.stop⟩

section Scanner

theorem skip_suffix (s : Ptr) : skip s <:+ s := List.dropWhile_suffix _

theorem skip_cons {c : Char} {s : Ptr} (dark : strchr whitespace c = false) : skip (c :: s) = c :: s := by
  unfold skip
  rw [List.dropWhile_cons_of_neg]
  rw [dark]
  exact Bool.false_ne_true

theorem skip_head {s : Ptr} {c : Char} {rest : Ptr} (head : skip s = c :: rest) : strchr whitespace c = false := by
  have stop := List.head?_dropWhile_not (strchr whitespace) s
  rw [show s.dropWhile (strchr whitespace) = c :: rest from head] at stop
  exact stop

theorem skip_idem (s : Ptr) : skip (skip s) = skip s := by
  cases head : skip s with
  | nil => rfl
  | cons c rest => exact skip_cons (skip_head head)

theorem scan_symbol {c : Char} (rest : Ptr) (symbol : c ∈ symbols) :
    ∃ t : Token, (∀ w, t ≠ .word w) ∧ t.lead = c ∧ (scan (c :: rest)).1 = t.ret ∧ (scan (c :: rest)).2 <:+ rest := by
  simp only [symbols, List.mem_cons, List.not_mem_nil, or_false] at symbol
  rcases symbol with rfl | rfl | rfl | rfl | rfl | rfl | rfl
  · exact ⟨.less, nofun, rfl, rfl, List.suffix_rfl⟩
  · exact ⟨.bar, nofun, rfl, rfl, List.suffix_rfl⟩
  · cases rest with
    | nil => exact ⟨.greater, nofun, rfl, rfl, List.suffix_rfl⟩
    | cons d more =>
      by_cases second : d = '>'
      · subst second
        exact ⟨.append, nofun, rfl, rfl, List.suffix_cons _ _⟩
      have single : scan ('>' :: d :: more) = ('>', d :: more) := by
        unfold scan
        dsimp only
        rw [if_neg (by decide), if_pos rfl]
        split
        · next same => exact absurd (List.cons.inj same).1 second
        · rfl
      rw [single]
      exact ⟨.greater, nofun, rfl, rfl, List.suffix_rfl⟩
  · exact ⟨.amp, nofun, rfl, rfl, List.suffix_rfl⟩
  · exact ⟨.semi, nofun, rfl, rfl, List.suffix_rfl⟩
  · exact ⟨.opening, nofun, rfl, rfl, List.suffix_rfl⟩
  · exact ⟨.closing, nofun, rfl, rfl, List.suffix_rfl⟩

theorem scan_plain {c : Char} (rest : Ptr) (solid : plain c = true) :
    scan (c :: rest) = ('a', rest.dropWhile plain) := by
  have dark : strchr symbols c = false := by
    unfold plain at solid
    rw [Bool.and_eq_true, Bool.not_eq_true', Bool.not_eq_true'] at solid
    exact solid.2
  have other : c ∉ symbols := by
    intro member
    rw [strchr, List.contains_iff_mem.mpr member] at dark
    cases dark
  have first : strchr ['|', '(', ')', ';', '&', '<'] c = false := by
    rw [← Bool.not_eq_true, strchr, List.contains_iff_mem]
    intro member
    exact other ((by decide : ['|', '(', ')', ';', '&', '<'] ⊆ symbols) member)
  have second : c ≠ '>' := by
    rintro rfl
    exact other (by decide)
  unfold scan
  dsimp only
  rw [first, if_neg Bool.false_ne_true, if_neg second, List.dropWhile_cons_of_pos solid]

end Scanner

section Tokens

theorem Got.token_eq {got : Got} {t : Token} (ret : got.ret = t.ret) (text : ∀ w, t = .word w → got.word.text = w) :
    got.token = some t := by
  unfold Got.token
  rw [ret]
  cases t with
  | word w => exact congrArg (fun w => some (Token.word w)) (text w rfl)
  | _ => rfl

structure Reads (s : Ptr) (t : Token) (got : Got) : Prop where
  token : got.token = some t
  ret : got.ret = t.ret
  shorter : got.rest.length < s.length
  suffix : got.rest <:+ s
  word : ∀ w, t = .word w → got.word.text = w ∧ Proper s got.word

theorem suffix_text {w : Word} (suffix : w.eq <:+ w.q) : w.q = w.text ++ w.eq := by
  obtain ⟨front, whole⟩ := suffix
  have length := congrArg List.length whole
  rw [List.length_append] at length
  have count : w.q.length - w.eq.length = front.length := by omega
  unfold Word.text
  rw [count, ← whole, List.take_left]

theorem proper_word {c : Char} {rest : Ptr} (solid : plain c = true) :
    Proper (c :: rest) ⟨c :: rest, rest.dropWhile plain⟩ := by
  have whole : (c :: rest).dropWhile plain = rest.dropWhile plain := List.dropWhile_cons_of_pos solid
  have cut := suffix_text (w := ⟨c :: rest, rest.dropWhile plain⟩) (whole ▸ List.dropWhile_suffix _)
  have text : Word.text ⟨c :: rest, rest.dropWhile plain⟩ = (c :: rest).takeWhile plain := by
    apply (List.append_left_inj (rest.dropWhile plain)).mp
    rw [← whole, List.takeWhile_append_dropWhile, whole]
    exact cut.symm
  refine ⟨List.suffix_rfl, cut, ?_, ?_⟩
  · rw [text]
    exact fun d member => List.mem_takeWhile_imp member
  · intro d head
    have stop := List.head?_dropWhile_not plain rest
    rw [head] at stop
    exact stop

theorem gettoken_spec (s : Ptr) :
    (skip s = [] ∧ (gettoken s).token = none ∧ (gettoken s).ret = '\x00' ∧ (gettoken s).rest = []) ∨
    ∃ c rest t, skip s = c :: rest ∧ Reads s t (gettoken s) ∧
      ((c ∈ symbols ∧ t.lead = c) ∨ (c ∉ symbols ∧ t.lead ∉ symbols)) := by
  cases head : skip s with
  | nil =>
    left
    unfold gettoken
    rw [head]
    exact ⟨rfl, rfl, rfl, rfl⟩
  | cons c rest =>
    right
    have dark := skip_head head
    have tail : rest.length < s.length := by
      have bound := (skip_suffix s).length_le
      rw [head] at bound
      exact bound
    have suffix : rest <:+ s := (head ▸ List.suffix_cons c rest).trans (skip_suffix s)
    have behind : ∀ eq, eq <:+ rest → (skip eq).length < s.length ∧ skip eq <:+ s := by
      intro eq inside
      have inside' := (skip_suffix eq).trans inside
      exact ⟨Nat.lt_of_le_of_lt inside'.length_le tail, inside'.trans suffix⟩
    have got : gettoken s = ⟨(scan (c :: rest)).1, ⟨c :: rest, (scan (c :: rest)).2⟩, skip (scan (c :: rest)).2⟩ := by
      unfold gettoken
      rw [head]
    rw [got]
    by_cases symbol : c ∈ symbols
    · obtain ⟨t, noWord, lead, ret, inside⟩ := scan_symbol rest symbol
      refine ⟨c, rest, t, rfl, ⟨?_, ret, (behind _ inside).1, (behind _ inside).2, ?_⟩, Or.inl ⟨symbol, lead⟩⟩
      · exact Got.token_eq ret fun w same => absurd same (noWord w)
      · exact fun w same => absurd same (noWord w)
    have solid : plain c = true := by
      unfold plain
      rw [dark, Bool.not_false, Bool.true_and, Bool.not_eq_true', ← Bool.not_eq_true, strchr, List.contains_iff_mem]
      exact symbol
    rw [scan_plain rest solid]
    have inside : rest.dropWhile plain <:+ rest := List.dropWhile_suffix _
    refine ⟨c, rest, .word (Word.text ⟨c :: rest, rest.dropWhile plain⟩), rfl,
      ⟨Got.token_eq rfl fun w same => Token.word.inj same, rfl, (behind _ inside).1, (behind _ inside).2, ?_⟩,
      Or.inr ⟨symbol, ?_⟩⟩
    · intro w same
      exact ⟨Token.word.inj same, (proper_word solid).mono (head ▸ skip_suffix s)⟩
    · change 'a' ∉ symbols
      decide

/-- The tokens of the input, as `gettoken` splits it. -/
def tokens (s : Ptr) : List Token :=
  match _read : (gettoken s).token with
  | none => []
  | some t => t :: tokens (gettoken s).rest
termination_by s.length
decreasing_by
  rcases gettoken_spec s with ⟨-, none, -⟩ | ⟨c, rest, t', -, reads, -⟩
  · rw [none] at _read
    cases _read
  · exact reads.shorter

theorem gettoken_skip (s : Ptr) : gettoken (skip s) = gettoken s := by
  unfold gettoken
  rw [skip_idem]

theorem tokens_skip (s : Ptr) : tokens (skip s) = tokens s := by
  rw [tokens, tokens.eq_def s, gettoken_skip]

variable {s : Ptr} {t : Token} {ts : List Token}

theorem tokens_nil (none : tokens s = []) : skip s = [] ∧ (gettoken s).ret = '\x00' ∧ (gettoken s).rest = [] := by
  rcases gettoken_spec s with ⟨empty, -, ret, rest⟩ | ⟨c, rest, t', -, reads, -⟩
  · exact ⟨empty, ret, rest⟩
  rw [tokens] at none
  split at none
  · next read =>
    rw [reads.token] at read
    cases read
  · cases none

theorem tokens_empty (empty : skip s = []) : tokens s = [] := by
  rcases gettoken_spec s with ⟨-, token, -⟩ | ⟨c, rest, t', head, -, -⟩
  · rw [tokens]
    split
    · rfl
    · next read =>
      rw [token] at read
      cases read
  · rw [empty] at head
    cases head

theorem tokens_cons (some : tokens s = t :: ts) : Reads s t (gettoken s) ∧ tokens (gettoken s).rest = ts ∧
    ∃ c rest, skip s = c :: rest ∧ ((c ∈ symbols ∧ t.lead = c) ∨ (c ∉ symbols ∧ t.lead ∉ symbols)) := by
  rcases gettoken_spec s with ⟨empty, -, -⟩ | ⟨c, rest, t', head, reads, lead⟩
  · rw [tokens_empty empty] at some
    cases some
  rw [tokens] at some
  split at some
  · cases some
  next read =>
  rw [reads.token] at read
  cases read
  obtain ⟨same, rest⟩ := List.cons.inj some
  subst same
  exact ⟨reads, rest, c, _, head, lead⟩

theorem peek_nil (none : tokens s = []) (toks : List Char) : peek s toks = (false, skip s) := by
  unfold peek
  rw [(tokens_nil none).1]

theorem peek_cons (some : tokens s = t :: ts) {toks : List Char} (sub : toks ⊆ symbols) :
    peek s toks = (strchr toks t.lead, skip s) := by
  obtain ⟨-, -, c, rest, head, lead⟩ := tokens_cons some
  unfold peek
  rw [head]
  rcases lead with ⟨-, same⟩ | ⟨plain, word⟩
  · rw [same]
  have first : strchr toks c = false := by
    rw [← Bool.not_eq_true, strchr, List.contains_iff_mem]
    exact fun member => plain (sub member)
  have second : strchr toks t.lead = false := by
    rw [← Bool.not_eq_true, strchr, List.contains_iff_mem]
    exact fun member => word (sub member)
  rw [second]
  exact congrArg (·, c :: rest) first

end Tokens

end OShard.Shell
