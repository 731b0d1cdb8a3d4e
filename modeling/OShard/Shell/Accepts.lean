import OShard.Base.Parsing
import OShard.Shell.Tokens

namespace OShard.Shell

def Cmd.map {α β : Type} (f : α → β) : Cmd α → Cmd β
  | .exec argv => .exec (argv.map f)
  | .redir cmd file mode fd => .redir (cmd.map f) (f file) mode fd
  | .pipe left right => .pipe (left.map f) (right.map f)
  | .list left right => .list (left.map f) (right.map f)
  | .back cmd => .back (cmd.map f)

def Cmd.words {ω : Type} : Cmd ω → List ω
  | .exec argv => argv
  | .redir cmd file _ _ => cmd.words ++ [file]
  | .pipe left right => left.words ++ right.words
  | .list left right => left.words ++ right.words
  | .back cmd => cmd.words

section Trees

variable {α β : Type}

theorem redirect_map (f : α → β) (tok : Char) (cmd : Cmd α) (file : α) :
    (redirect tok cmd file).map f = redirect tok (cmd.map f) (f file) := by
  unfold redirect
  split_ifs <;> rfl

theorem redirect_words {tok : Char} {cmd : Cmd α} {file w : α} (member : w ∈ (redirect tok cmd file).words) :
    w ∈ cmd.words ∨ w = file := by
  unfold redirect at member
  split_ifs at member
  · exact (List.mem_append.mp member).imp_right List.mem_singleton.mp
  · exact (List.mem_append.mp member).imp_right List.mem_singleton.mp
  · exact (List.mem_append.mp member).imp_right List.mem_singleton.mp
  · exact Or.inl member

theorem addArg_map (f : α → β) (word : α) (cmd : Cmd α) : (cmd.addArg word).map f = (cmd.map f).addArg (f word) := by
  induction cmd with
  | exec argv =>
    rw [Cmd.addArg, Cmd.map, Cmd.map, Cmd.addArg, List.map_append]
    rfl
  | redir cmd file mode fd ih =>
    rw [Cmd.addArg, Cmd.map, Cmd.map, Cmd.addArg, ih]
  | _ => rfl

theorem addArg_words {cmd : Cmd α} {word w : α} (member : w ∈ (cmd.addArg word).words) : w ∈ cmd.words ∨ w = word := by
  induction cmd with
  | exec argv => exact (List.mem_append.mp member).imp_right List.mem_singleton.mp
  | redir cmd file mode fd ih =>
    rcases List.mem_append.mp member with inner | last
    · exact (ih inner).imp_left fun old => List.mem_append.mpr (Or.inl old)
    · exact Or.inl (List.mem_append.mpr (Or.inr last))
  | _ => exact Or.inl member

theorem addArg_redirect (tok : Char) (cmd : Cmd α) (file word : α) :
    (redirect tok cmd file).addArg word = redirect tok (cmd.addArg word) file := by
  unfold redirect
  split_ifs <;> rfl

theorem wrap_append (cmd : Cmd (List Char)) (rs rs' : List Redir) : wrap cmd (rs ++ rs') = wrap (wrap cmd rs) rs' :=
  List.foldl_append

theorem addArg_wrap (cmd : Cmd (List Char)) (rs : List Redir) (word : List Char) :
    (wrap cmd rs).addArg word = wrap (cmd.addArg word) rs := by
  induction rs generalizing cmd with
  | nil => rfl
  | cons r rs ih =>
    change (wrap (redirect r.way.ret cmd r.file) rs).addArg word = wrap (redirect r.way.ret (cmd.addArg word) r.file) rs
    rw [ih, addArg_redirect]

def addArgs (cmd : Cmd (List Char)) (args : List Arg) : Cmd (List Char) :=
  args.foldl (fun cmd a => wrap (cmd.addArg a.text) a.redirs) cmd

theorem addArgs_eq (words : List (List Char)) (rs : List Redir) (args : List Arg) :
    addArgs (wrap (.exec words) rs) args =
      wrap (.exec (words ++ args.map Arg.text)) (rs ++ args.flatMap Arg.redirs) := by
  induction args generalizing words rs with
  | nil =>
    rw [List.map_nil, List.flatMap_nil, List.append_nil, List.append_nil]
    rfl
  | cons a args ih =>
    change addArgs (wrap ((wrap (.exec words) rs).addArg a.text) a.redirs) args = _
    rw [addArg_wrap, ← wrap_append, Cmd.addArg, ih, List.map_cons, List.flatMap_cons, List.append_assoc,
      List.append_assoc]
    rfl

end Trees

section Steps

variable {s : Ptr} {t : Token} {ts : List Token} {fuel : Nat}

structure Past (s s' : Ptr) (ts : List Token) : Prop where
  tokens : tokens s' = ts
  suffix : s' <:+ s
  shorter : s'.length < s.length

theorem past (some : tokens s = t :: ts) : Past s (gettoken s).rest ts := by
  obtain ⟨reads, rest, -⟩ := tokens_cons some
  exact ⟨rest, reads.suffix, reads.shorter⟩

theorem Past.trans {s' s'' : Ptr} {us : List Token} (first : Past s s' ts) (second : Past s' s'' us) : Past s s'' us :=
  ⟨second.tokens, second.suffix.trans first.suffix, Nat.lt_trans second.shorter first.shorter⟩

theorem got_word {w : List Char} (some : tokens s = .word w :: ts) :
    (gettoken s).ret = 'a' ∧ (gettoken s).word.text = w ∧ Proper s (gettoken s).word := by
  obtain ⟨reads, -⟩ := tokens_cons some
  exact ⟨reads.ret, reads.word w rfl⟩

theorem ret_word (some : tokens s = t :: ts) (ret : (gettoken s).ret = 'a') : ∃ w, t = .word w := by
  rw [(tokens_cons some).1.ret] at ret
  cases t with
  | word w => exact ⟨w, rfl⟩
  | _ => exact absurd ret (by decide)

theorem lead_way (lead : t.lead ∈ ['<', '>']) : ∃ way : Way, t = way.token := by
  cases t with
  | less => exact ⟨.input, rfl⟩
  | greater => exact ⟨.output, rfl⟩
  | append => exact ⟨.append, rfl⟩
  | word w => exact absurd lead (by change 'a' ∉ _; decide)
  | _ => exact absurd lead (by decide)

theorem peek_some {toks : List Char} (some : tokens s = t :: ts) (sub : toks ⊆ symbols) (lead : t.lead ∈ toks) :
    peek s toks = (true, skip s) := by
  rw [peek_cons some sub]
  exact congrArg (·, skip s) (List.contains_iff_mem.mpr lead)

theorem peek_none {toks : List Char} (sub : toks ⊆ symbols)
    (other : ∀ u us, tokens s = u :: us → u.lead ∉ toks) : peek s toks = (false, skip s) := by
  cases some : tokens s with
  | nil => exact peek_nil some toks
  | cons t ts =>
    rw [peek_cons some sub]
    apply congrArg (·, skip s)
    rw [← Bool.not_eq_true, strchr, List.contains_iff_mem]
    exact other t ts some

def Token.sign (t : Token) : Prop := t ∈ [Token.bar, .amp, .semi, .opening, .closing]

instance (t : Token) : Decidable t.sign := inferInstanceAs (Decidable (t ∈ [Token.bar, .amp, .semi, .opening, .closing]))

theorem sign_symbol (sign : t.sign) : ∀ c ∈ [t.lead], c ∈ symbols := by
  intro c member
  rw [List.mem_singleton.mp member]
  exact (by decide : ∀ t ∈ [Token.bar, .amp, .semi, .opening, .closing], t.lead ∈ symbols) t sign

theorem lead_sign {u : Token} (sign : t.sign) (lead : u.lead = t.lead) : u = t := by
  simp only [Token.sign, List.mem_cons, List.not_mem_nil, or_false] at sign
  rcases sign with rfl | rfl | rfl | rfl | rfl
  all_goals
    cases u with
    | word w => exact absurd (show 'a' = _ from lead) (by decide)
    | _ => first | rfl | exact absurd lead (by decide)

theorem lead_other (sign : t.sign) (stop : ∀ rest, tokens s ≠ t :: rest) (u : Token) (us : List Token)
    (some : tokens s = u :: us) : u.lead ∉ [t.lead] := by
  intro lead
  have same := lead_sign sign (List.mem_singleton.mp lead)
  exact stop us (by rw [some, same])

theorem parseredirs_stop (stop : NoRedir (tokens s)) (cmd : Cmd Word) :
    parseredirs (fuel + 1) cmd s = .ok (cmd, skip s) := by
  have none : peek s ['<', '>'] = (false, skip s) := by
    refine peek_none (by decide) fun t ts some lead => ?_
    obtain ⟨way, same⟩ := lead_way lead
    exact stop way ts (by rw [some, same])
  rw [parseredirs, none]
  exact if_neg Bool.false_ne_true

theorem parseredirs_more {way : Way} (some : tokens s = way.token :: ts) (cmd : Cmd Word) :
    parseredirs (fuel + 1) cmd s =
      if (gettoken (gettoken s).rest).ret ≠ 'a' then .error (.panic "missing file for redirection")
      else parseredirs fuel (redirect way.ret cmd (gettoken (gettoken s).rest).word) (gettoken (gettoken s).rest).rest := by
  have ret : (gettoken s).ret = way.ret := by
    rw [(tokens_cons some).1.ret]
    cases way <;> rfl
  have lead : way.token.lead ∈ ['<', '>'] := by
    cases way <;> decide
  rw [parseredirs, peek_some some (by decide) lead]
  simp only [if_true, gettoken_skip, ret]

theorem parsebacks_stop (stop : ∀ rest, tokens s ≠ .amp :: rest) (cmd : Cmd Word) :
    parsebacks (fuel + 1) cmd s = .ok (cmd, skip s) := by
  have none : peek s [Token.amp.lead] = (false, skip s) := peek_none (by decide) (lead_other (by decide) stop)
  rw [parsebacks, show '&' = Token.amp.lead from rfl, none]
  exact if_neg Bool.false_ne_true

theorem parsebacks_more (some : tokens s = .amp :: ts) (cmd : Cmd Word) :
    parsebacks (fuel + 1) cmd s = parsebacks fuel (.back cmd) (gettoken s).rest := by
  rw [parsebacks, peek_some some (by decide) (by decide)]
  simp only [if_true, gettoken_skip]

theorem parseargs_stop (stop : Follow afterExec (tokens s)) (fuel argc : Nat) (ret : Cmd Word) :
    ∃ s', parseargs (fuel + 1) argc ret s = .ok (ret, s') ∧ tokens s' = tokens s ∧ s' <:+ s := by
  rw [parseargs]
  cases some : tokens s with
  | nil =>
    obtain ⟨-, zero, rest⟩ := tokens_nil some
    rw [peek_nil some]
    simp only [gettoken_skip, zero, rest, Bool.false_eq_true, if_false, if_true]
    exact ⟨[], rfl, tokens_empty rfl, List.nil_suffix⟩
  | cons t ts =>
    rw [peek_cons some (by decide)]
    have member := stop t (by rw [some]; rfl)
    have lead : strchr ['|', ')', '&', ';'] t.lead = true := 
      (by decide : ∀ t ∈ afterExec, strchr ['|', ')', '&', ';'] t.lead = true) t member
    rw [lead]
    exact ⟨skip s, if_pos rfl, by rw [tokens_skip, some], skip_suffix s⟩

theorem parseargs_word {w : List Char} (some : tokens s = .word w :: ts) (argc : Nat) (ret : Cmd Word) :
    parseargs (fuel + 1) argc ret s =
      if maxArgs ≤ argc + 1 then .error (.panic "too many args")
      else parseredirs fuel (ret.addArg (gettoken s).word) (gettoken s).rest >>= fun r =>
        parseargs fuel (argc + 1) r.1 r.2 := by
  obtain ⟨word, -⟩ := got_word some
  rw [parseargs, peek_cons some (by decide)]
  have lead : strchr ['|', ')', '&', ';'] (Token.word w).lead = false := rfl
  rw [lead]
  simp only [gettoken_skip, word, Bool.false_eq_true, if_false, ne_eq, not_true_eq_false]
  rw [if_neg (by decide)]

theorem parseargs_bad (some : tokens s = t :: ts) (other : t ∉ afterExec) (noWord : ∀ w, t ≠ .word w) (argc : Nat)
    (ret : Cmd Word) : parseargs (fuel + 1) argc ret s = .error (.panic "syntax") := by
  rw [parseargs, peek_cons some (by decide)]
  simp only [gettoken_skip, (tokens_cons some).1.ret]
  cases t with
  | word w => exact absurd rfl (noWord w)
  | less => rfl
  | greater => rfl
  | append => rfl
  | opening => rfl
  | _ => exact absurd (by decide) other

end Steps

section Parser

open Parsing

def Solid (text : Ptr) (cmd : Cmd Word) : Prop := ∀ w ∈ cmd.words, Proper text w

/-- What is returned denotes what the derivation does; a refusal is a panic. -/
abbrev Reading {τ : Type} (text : Ptr) (yield : τ → List Token) (follow : List Token → Prop)
    (meaning : τ → Cmd (List Char)) (s : Ptr) (x : Except Fault (Cmd Word × Ptr)) : Prop :=
  Parses tokens (fun fault => ∃ message, fault = .panic message) yield follow
    (fun t cmd => cmd.map Word.text = meaning t ∧ Solid text cmd) s x

variable {text s : Ptr} {cmd : Cmd Word} {fuel : Nat}

theorem Reading.seq {τ₁ τ₂ : Type} {yield₁ : τ₁ → List Token} {follow₁ follow₂ : List Token → Prop}
    {meaning₁ : τ₁ → Cmd (List Char)} {x : Except Fault (Cmd Word × Ptr)} (first : Reading text yield₁ follow₁ meaning₁ s x)
    (yield₂ : τ₂ → List Token) (meaning₂ : τ₁ → τ₂ → Cmd (List Char)) (f : Cmd Word × Ptr → Except Fault (Cmd Word × Ptr))
    (next : ∀ t cmd s₁, cmd.map Word.text = meaning₁ t → Solid text cmd → s₁ <:+ s →
      Reading text yield₂ follow₂ (meaning₂ t) s₁ (f (cmd, s₁)))
    (fits : ∀ t rest, follow₂ rest → follow₁ (yield₂ t ++ rest)) :
    Reading text (fun t : τ₁ × τ₂ => yield₁ t.1 ++ yield₂ t.2) follow₂ (fun t => meaning₂ t.1 t.2) s (x >>= f) :=
  Parses.seq first yield₂ (fun t t' cmd => cmd.map Word.text = meaning₂ t t' ∧ Solid text cmd) f
    (fun t cmd s₁ value suffix => next t cmd s₁ value.1 value.2 suffix) fits

theorem Solid.redirect (solid : Solid text cmd) {file : Word} (proper : Proper text file) (tok : Char) :
    Solid text (redirect tok cmd file) := by
  intro w member
  rcases redirect_words member with old | rfl
  · exact solid w old
  · exact proper

theorem Solid.addArg (solid : Solid text cmd) {word : Word} (proper : Proper text word) :
    Solid text (cmd.addArg word) := by
  intro w member
  rcases addArg_words member with old | rfl
  · exact solid w old
  · exact proper

theorem parseredirs_reads (inside : s <:+ text) (solid : Solid text cmd) (enough : s.length < fuel) :
    Reading text redirTokens NoRedir (wrap (cmd.map Word.text)) s (parseredirs fuel cmd s) := by
  induction fuel generalizing s cmd with
  | zero => omega
  | succ fuel ih =>
    by_cases stop : NoRedir (tokens s)
    · rw [parseredirs_stop stop]
      refine .done [] rfl ⟨rfl, solid⟩ (tokens_skip s) (skip_suffix s) fun rs rest fits whole => ?_
      cases rs with
      | nil => rfl
      | cons r rs => exact absurd whole (stop r.way _)
    obtain ⟨way, ts, some⟩ : ∃ way ts, tokens s = Way.token way :: ts := by
      unfold NoRedir at stop
      push Not at stop
      exact stop
    have behind := past some
    -- a derivation has to begin with this redirection
    have first : ∀ rs rest, NoRedir rest → tokens s = redirTokens rs ++ rest →
        ∃ file rs', rs = ⟨way, file⟩ :: rs' ∧ ts = .word file :: (redirTokens rs' ++ rest) := by
      intro rs rest fits whole
      rw [some] at whole
      cases rs with
      | nil => exact absurd whole.symm (fits way ts)
      | cons r rs =>
        obtain ⟨v, file⟩ := r
        obtain ⟨same, tail⟩ := List.cons.inj whole
        cases Way.token_inj same
        exact ⟨file, rs, rfl, tail⟩
    rw [parseredirs_more some]
    by_cases word : (gettoken (gettoken s).rest).ret = 'a'
    · rw [if_neg (not_not_intro word)]
      cases ts with
      | nil =>
        rw [(tokens_nil behind.tokens).2.1] at word
        exact absurd word (by decide)
      | cons t ts =>
        obtain ⟨file, rfl⟩ := ret_word behind.tokens word
        obtain ⟨-, equal, proper⟩ := got_word behind.tokens
        have behind' := past behind.tokens
        have further := behind.trans behind'
        have proper' : Proper text (gettoken (gettoken s).rest).word := proper.mono (behind.suffix.trans inside)
        have rest := ih (further.suffix.trans inside) (solid.redirect proper' way.ret)
          (Nat.lt_of_lt_of_le further.shorter (Nat.le_of_lt_succ enough))
        have both := (rest.shift (s := (gettoken s).rest) (by rw [behind.tokens, behind'.tokens]) behind'.suffix).shift
          (by rw [some, behind.tokens]) behind.suffix
        refine both.map (fun rs => ⟨way, file⟩ :: rs) (fun rs => rfl) ?_ (fun _ fits => fits) ?_
        · intro rs cmd value
          rw [redirect_map, equal] at value
          exact value
        · intro rs rest fits whole
          obtain ⟨file', rs', rfl, tail⟩ := first rs rest fits whole
          cases (List.cons.inj tail).1
          exact ⟨rs', rfl⟩
    · rw [if_pos word]
      refine .error ⟨_, rfl⟩ fun rs rest fits whole => ?_
      obtain ⟨file, rs', -, tail⟩ := first rs rest fits whole
      rw [tail] at behind
      exact word (got_word behind.tokens).1

theorem parsebacks_reads (inside : s <:+ text) (solid : Solid text cmd) (enough : s.length < fuel) :
    Reading text (fun n => List.replicate n .amp) (fun rest => ∀ ts, rest ≠ .amp :: ts)
      (fun n => Cmd.back^[n] (cmd.map Word.text)) s (parsebacks fuel cmd s) := by
  induction fuel generalizing s cmd with
  | zero => omega
  | succ fuel ih =>
    by_cases stop : ∀ ts, tokens s ≠ .amp :: ts
    · rw [parsebacks_stop stop]
      refine .done 0 rfl ⟨rfl, solid⟩ (tokens_skip s) (skip_suffix s) fun n rest fits whole => ?_
      cases n with
      | zero => rfl
      | succ n => exact absurd whole (stop _)
    push Not at stop
    obtain ⟨ts, some⟩ := stop
    have behind := past some
    rw [parsebacks_more some]
    have rest := ih (behind.suffix.trans inside) (show Solid text (.back cmd) from solid)
      (Nat.lt_of_lt_of_le behind.shorter (Nat.le_of_lt_succ enough))
    refine (rest.shift (by rw [some, behind.tokens]) behind.suffix).map Nat.succ (fun n => rfl) ?_
      (fun _ fits => fits) ?_
    · intro n cmd' value
      exact value
    · intro n rest fits whole
      cases n with
      | zero => exact absurd (whole.symm.trans some) (fits ts)
      | succ n => exact ⟨n, rfl⟩

abbrev Args (argc : Nat) := {args : List Arg // argc + args.length < maxArgs}

theorem parseargs_reads {argc : Nat} (few : argc < maxArgs) (inside : s <:+ text) (solid : Solid text cmd)
    (enough : s.length < fuel) :
    Reading text (fun args : Args argc => argTokens args.1) (Follow afterExec)
      (fun args => addArgs (cmd.map Word.text) args.1) s (parseargs fuel argc cmd s) := by
  induction fuel generalizing s cmd argc with
  | zero => omega
  | succ fuel ih =>
    by_cases stop : Follow afterExec (tokens s)
    · obtain ⟨s', result, same, suffix⟩ := parseargs_stop stop fuel argc cmd
      rw [result]
      refine .done ⟨[], few⟩ rfl ⟨rfl, solid⟩ same suffix fun args rest fits whole => ?_
      obtain ⟨args, bound⟩ := args
      cases args with
      | nil => rfl
      | cons a args => exact absurd whole (stop.ne (word_not_after a.text) _)
    obtain ⟨t, ts, some, other⟩ : ∃ t ts, tokens s = t :: ts ∧ t ∉ afterExec := by
      cases some : tokens s with
      | nil =>
        rw [some] at stop
        exact absurd Follow.nil stop
      | cons t ts =>
        rw [some] at stop
        exact ⟨t, ts, rfl, fun member => stop (Follow.cons member ts)⟩
    -- a derivation has to begin with this token
    have first : ∀ args : Args argc, ∀ rest, Follow afterExec rest → tokens s = argTokens args.1 ++ rest →
        ∃ a as, args.1 = a :: as ∧ t = .word a.text ∧ ts = redirTokens a.redirs ++ (argTokens as ++ rest) := by
      intro args rest fits whole
      obtain ⟨args, bound⟩ := args
      rw [some] at whole
      cases args with
      | nil => exact absurd whole.symm (fits.ne other ts)
      | cons a as =>
        obtain ⟨same, tail⟩ := List.cons.inj whole
        exact ⟨a, as, rfl, same, tail.trans (List.append_assoc _ _ _)⟩
    by_cases word : ∃ w, t = .word w
    · obtain ⟨w, rfl⟩ := word
      have behind := past some
      obtain ⟨-, equal, proper⟩ := got_word some
      rw [parseargs_word some]
      by_cases full : maxArgs ≤ argc + 1
      · rw [if_pos full]
        refine .error ⟨_, rfl⟩ fun args rest fits whole => ?_
        obtain ⟨a, as, split, -⟩ := first args rest fits whole
        have bound := args.2
        rw [split, List.length_cons] at bound
        omega
      rw [if_neg full]
      have small : (gettoken s).rest.length < fuel := Nat.lt_of_lt_of_le behind.shorter (Nat.le_of_lt_succ enough)
      have within := behind.suffix.trans inside
      have redirs := parseredirs_reads within (solid.addArg (proper.mono inside)) small
      have both := Reading.seq redirs (fun args : Args (argc + 1) => argTokens args.1)
        (fun rs args => addArgs (wrap ((cmd.addArg (gettoken s).word).map Word.text) rs) args.1)
        (fun r => parseargs fuel (argc + 1) r.1 r.2)
        (fun rs cmd' s' value solid' suffix => by
          have next := ih (show argc + 1 < maxArgs by omega) (suffix.trans within) solid'
            (Nat.lt_of_le_of_lt suffix.length_le small)
          rw [value] at next
          exact next)
        fun args rest fits => noRedir_args args.1 fits
      refine (both.shift (by rw [some, behind.tokens]) behind.suffix).map
        (fun p => ⟨⟨w, p.1⟩ :: p.2.1, by have := p.2.2; rw [List.length_cons]; omega⟩) (fun p => rfl) ?_
        (fun _ fits => fits) ?_
      · intro p cmd' value
        rw [addArg_map, equal] at value
        exact value
      · intro args rest fits whole
        obtain ⟨a, as, split, same, -⟩ := first args rest fits whole
        obtain ⟨args, bound⟩ := args
        dsimp only at split
        subst split
        cases same
        rw [List.length_cons] at bound
        exact ⟨(a.redirs, ⟨as, by omega⟩), rfl⟩
    · rw [parseargs_bad some other (fun w same => word ⟨w, same⟩)]
      refine .error ⟨_, rfl⟩ fun args rest fits whole => ?_
      obtain ⟨a, as, -, same, -⟩ := first args rest fits whole
      exact word ⟨_, same⟩

def optional {τ : Type} (sep : Token) (yield : τ → List Token) : Option τ → List Token
  | none => []
  | some t => sep :: yield t

theorem reads_optional {τ : Type} {sep : Token} (sign : sep.sign) {yield : τ → List Token} {follow : List Token → Prop}
    {meaning : τ → Cmd (List Char)} {next : Ptr → Except Fault (Cmd Word × Ptr)} {node : Cmd Word → Cmd Word → Cmd Word}
    {node' : Cmd (List Char) → Cmd (List Char) → Cmd (List Char)}
    (maps : ∀ l r, (node l r).map Word.text = node' (l.map Word.text) (r.map Word.text))
    (words : ∀ l r, (node l r).words = l.words ++ r.words) (solid : Solid text cmd)
    (after : ∀ s', s' <:+ s → s'.length < s.length → Reading text yield follow meaning s' (next s'))
    (stops : ∀ rest, follow rest → ∀ ts, rest ≠ sep :: ts) :
    Reading text (optional sep yield) follow
      (fun o => o.elim (cmd.map Word.text) fun t => node' (cmd.map Word.text) (meaning t)) s
      (match peek s [sep.lead] with
        | (more, s) => if more = true then next (gettoken s).rest >>= fun r => .ok (node cmd r.1, r.2) else .ok (cmd, s)) := by
  have symbol := sign_symbol sign
  by_cases stop : ∀ ts, tokens s ≠ sep :: ts
  · rw [peek_none symbol (lead_other sign stop)]
    refine .done none rfl ⟨rfl, solid⟩ (tokens_skip s) (skip_suffix s) fun o rest fits whole => ?_
    cases o with
    | none => rfl
    | some t => exact absurd whole (stop _)
  push Not at stop
  obtain ⟨ts, some⟩ := stop
  have behind := past some
  rw [peek_some some symbol List.mem_cons_self]
  simp only [if_true, gettoken_skip]
  have right : Reading text yield follow (fun t => node' (cmd.map Word.text) (meaning t)) (gettoken s).rest
      (next (gettoken s).rest >>= fun r => .ok (node cmd r.1, r.2)) := by
    refine (after _ behind.suffix behind.shorter).value fun t right value => ?_
    refine ⟨by rw [maps, value.1], fun w member => ?_⟩
    rw [words] at member
    rcases List.mem_append.mp member with old | new
    · exact solid w old
    · exact value.2 w new
  refine (right.shift (by rw [some, behind.tokens]) behind.suffix).map Option.some (fun t => rfl)
    (fun t cmd' value => value) (fun _ fits => fits) fun o rest fits whole => ?_
  cases o with
  | none => exact absurd (whole.symm.trans some) (stops rest fits ts)
  | some t => exact ⟨t, rfl⟩

structure Descent (text : Ptr) (fuel : Nat) : Prop where
  line : ∀ s, s <:+ text → 4 * s.length + 4 ≤ fuel →
    Reading text Line.tokens (Follow afterLine) Line.cmd s (parseline fuel s)
  pipe : ∀ s, s <:+ text → 4 * s.length + 3 ≤ fuel →
    Reading text Pipe.tokens (Follow afterPipe) Pipe.cmd s (parsepipe fuel s)
  exec : ∀ s, s <:+ text → 4 * s.length + 2 ≤ fuel →
    Reading text Exec.tokens (Follow afterExec) Exec.cmd s (parseexec fuel s)
  block : ∀ s ts, s <:+ text → 4 * s.length + 1 ≤ fuel → tokens s = .opening :: ts →
    Reading text Exec.tokens (Follow afterExec) Exec.cmd s (parseblock fuel s)

section Descent

variable (descent : Descent text fuel) (inside : s <:+ text)

include descent inside

theorem Descent.parsepipe (enough : 4 * s.length + 3 ≤ fuel + 1) :
    Reading text Pipe.tokens (Follow afterPipe) Pipe.cmd s (parsepipe (fuel + 1) s) := by
  have both : Reading text (fun t : Exec × Option Pipe => t.1.tokens ++ optional .bar Pipe.tokens t.2) (Follow afterPipe)
      (fun t => t.2.elim t.1.cmd fun p => .pipe t.1.cmd p.cmd) s (Shell.parsepipe (fuel + 1) s) := by
    rw [Shell.parsepipe]
    refine Reading.seq (descent.exec s inside (by omega)) (optional .bar Pipe.tokens)
      (fun e o => o.elim e.cmd fun p => .pipe e.cmd p.cmd) _ ?_ ?_
    · intro e cmd s₁ value solid suffix
      have bound := suffix.length_le
      rw [← value]
      exact reads_optional (by decide) (fun _ _ => rfl) (fun _ _ => rfl) solid
        (fun s' suffix' shorter => descent.pipe s' (suffix'.trans (suffix.trans inside)) (by omega))
        fun rest fits => fits.ne (by decide)
    · intro o rest fits
      cases o with
      | none => exact fits.afterBar
      | some p => exact Follow.cons (by decide) _
  refine both.map (fun t => t.2.elim (.last t.1) (.more t.1)) ?_ ?_ (fun _ fits => fits) ?_
  · intro t
    obtain ⟨e, o⟩ := t
    cases o with
    | none => exact (List.append_nil _).symm
    | some p => rfl
  · intro t cmd value
    obtain ⟨e, o⟩ := t
    cases o with
    | none => exact value
    | some p => exact value
  · intro p rest fits whole
    cases p with
    | last e => exact ⟨(e, none), rfl⟩
    | more e p => exact ⟨(e, some p), rfl⟩

theorem Descent.parseline (enough : 4 * s.length + 4 ≤ fuel + 1) :
    Reading text Line.tokens (Follow afterLine) Line.cmd s (parseline (fuel + 1) s) := by
  have stop : ∀ o : Option Line, ∀ rest, Follow afterLine rest →
      Follow [.closing, .semi] (optional .semi Line.tokens o ++ rest) := by
    intro o rest fits
    cases o with
    | none => exact fits.mono (by decide)
    | some l => exact Follow.cons (by decide) _
  have both : Reading text
      (fun t : Pipe × Nat × Option Line => t.1.tokens ++ (List.replicate t.2.1 .amp ++ optional .semi Line.tokens t.2.2))
      (Follow afterLine)
      (fun t => t.2.2.elim (Cmd.back^[t.2.1] t.1.cmd) fun l => .list (Cmd.back^[t.2.1] t.1.cmd) l.cmd) s
      (Shell.parseline (fuel + 1) s) := by
    rw [Shell.parseline]
    refine Reading.seq (descent.pipe s inside (by omega))
      (fun t : Nat × Option Line => List.replicate t.1 .amp ++ optional .semi Line.tokens t.2)
      (fun p (t : Nat × Option Line) => t.2.elim (Cmd.back^[t.1] p.cmd) fun l => .list (Cmd.back^[t.1] p.cmd) l.cmd) _ ?_ ?_
    · intro p cmd s₁ value solid suffix
      have bound := suffix.length_le
      rw [← value]
      refine Reading.seq (parsebacks_reads (suffix.trans inside) solid (by omega)) (optional .semi Line.tokens)
        (fun n o => o.elim (Cmd.back^[n] (cmd.map Word.text)) fun l => .list (Cmd.back^[n] (cmd.map Word.text)) l.cmd)
        _ ?_ ?_
      · intro n cmd' s₂ value' solid' suffix'
        have bound' := suffix'.length_le
        rw [← value']
        exact reads_optional (by decide) (fun _ _ => rfl) (fun _ _ => rfl) solid'
          (fun s' suffix'' shorter =>
            descent.line s' (suffix''.trans (suffix'.trans (suffix.trans inside))) (by omega))
          fun rest fits => fits.ne (by decide)
      · exact fun o rest fits => (stop o rest fits).ne (by decide)
    · intro t rest fits
      have after := stop t.2 rest fits
      rw [List.append_assoc]
      cases t.1 with
      | zero => exact after.mono (by decide)
      | succ n => exact Follow.cons (by decide) _
  refine both.map (fun t => t.2.2.elim (.last t.1 t.2.1) (.seq t.1 t.2.1)) ?_ ?_ (fun _ fits => fits) ?_
  · intro t
    obtain ⟨p, n, o⟩ := t
    cases o with
    | none =>
      dsimp only [Option.elim, optional]
      rw [List.append_nil, Line.tokens]
    | some l => rfl
  · intro t cmd value
    obtain ⟨p, n, o⟩ := t
    cases o with
    | none => exact value
    | some l => exact value
  · intro l rest fits whole
    cases l with
    | last p n => exact ⟨(p, n, none), rfl⟩
    | seq p n l => exact ⟨(p, n, some l), rfl⟩

theorem Descent.parseblock (enough : 4 * s.length + 1 ≤ fuel + 1)
    {ts : List Token} (opens : tokens s = .opening :: ts) :
    Reading text Exec.tokens (Follow afterExec) Exec.cmd s (parseblock (fuel + 1) s) := by
  have behind := past opens
  have shorter := behind.shorter
  have inner : Reading text (fun t : Line × List Redir => t.1.tokens ++ .closing :: redirTokens t.2) (Follow afterExec)
      (fun t => wrap t.1.cmd t.2) (gettoken s).rest (Shell.parseblock (fuel + 1) s) := by
    rw [Shell.parseblock, peek_some opens (by decide) (by decide)]
    simp only [gettoken_skip, Bool.not_true, Bool.false_eq_true, if_false]
    refine Reading.seq (descent.line _ (behind.suffix.trans inside) (by omega)) (fun rs => .closing :: redirTokens rs)
      (fun l rs => wrap l.cmd rs) _ ?_ fun rs rest fits => Follow.cons (by decide) _
    intro l cmd s₁ value solid suffix
    have bound := suffix.length_le
    by_cases stop : ∀ us, tokens s₁ ≠ .closing :: us
    · have none : peek s₁ [Token.closing.lead] = (false, skip s₁) := peek_none (by decide) (lead_other (by decide) stop)
      dsimp only
      rw [show ')' = Token.closing.lead from rfl, none]
      exact .error ⟨_, rfl⟩ fun rs rest fits => stop _
    push Not at stop
    obtain ⟨us, closes⟩ := stop
    have behind' := past closes
    have shorter' := behind'.shorter
    dsimp only
    rw [peek_some closes (by decide) (by decide)]
    simp only [gettoken_skip, Bool.not_true, Bool.false_eq_true, if_false]
    have redirs := parseredirs_reads (behind'.suffix.trans (suffix.trans (behind.suffix.trans inside))) solid
      (show (gettoken s₁).rest.length < fuel by omega)
    rw [value] at redirs
    exact (redirs.shift (by rw [closes, behind'.tokens]) behind'.suffix).map id (fun rs => rfl) (fun rs cmd' same => same)
      (fun rest fits => fits.noRedir) fun rs rest fits whole => ⟨rs, rfl⟩
  refine (inner.shift (by rw [opens, behind.tokens]) behind.suffix).map (fun t => .block t.1 t.2) (fun t => rfl)
    (fun t cmd value => value) (fun _ fits => fits) ?_
  intro e rest fits whole
  cases e with
  | block l rs => exact ⟨(l, rs), rfl⟩
  | simple rs args few => exact absurd (whole.symm.trans opens) (not_opening_simple rs args fits ts)

theorem Descent.parseexec (enough : 4 * s.length + 2 ≤ fuel + 1) :
    Reading text Exec.tokens (Follow afterExec) Exec.cmd s (parseexec (fuel + 1) s) := by
  have bound := (skip_suffix s).length_le
  have inside' := (skip_suffix s).trans inside
  rw [Shell.parseexec]
  by_cases stop : ∀ ts, tokens s ≠ .opening :: ts
  · have none : peek s [Token.opening.lead] = (false, skip s) := peek_none (by decide) (lead_other (by decide) stop)
    rw [show '(' = Token.opening.lead from rfl, none]
    simp only [Bool.false_eq_true, if_false]
    have both := Reading.seq (parseredirs_reads inside' (show Solid text (.exec []) from nofun) (show _ < fuel by omega))
      (fun args : Args 0 => argTokens args.1) (fun rs args => addArgs (wrap (.exec []) rs) args.1)
      (fun r => parseargs fuel 0 r.1 r.2)
      (fun rs cmd s₁ value solid suffix => by
        have length := suffix.length_le
        have args := parseargs_reads (show 0 < maxArgs by decide) (suffix.trans inside') solid (show s₁.length < fuel by omega)
        rw [value] at args
        exact args)
      fun args rest fits => noRedir_args args.1 fits
    refine (both.skip (tokens_skip s) (skip_suffix s)).map (fun t => .simple t.1 t.2.1 (by have := t.2.2; omega))
      (fun t => rfl) ?_ (fun _ fits => fits) ?_
    · intro t cmd value
      rw [Exec.cmd, ← List.nil_append (t.2.1.map Arg.text), ← addArgs_eq]
      exact value
    · intro e rest fits whole
      cases e with
      | block l rs => exact absurd whole (stop _)
      | simple rs args few => exact ⟨(rs, ⟨args, by omega⟩), rfl⟩
  · push Not at stop
    obtain ⟨ts, opens⟩ := stop
    rw [peek_some opens (by decide) (by decide)]
    simp only [if_true]
    exact (descent.block _ ts inside' (by omega) (by rw [tokens_skip, opens])).skip (tokens_skip s) (skip_suffix s)

end Descent

theorem descent (text : Ptr) (fuel : Nat) : Descent text fuel := by
  induction fuel with
  | zero =>
    constructor
    · exact fun s inside enough => absurd enough (by omega)
    · exact fun s inside enough => absurd enough (by omega)
    · exact fun s inside enough => absurd enough (by omega)
    · exact fun s ts inside enough => absurd enough (by omega)
  | succ fuel ih =>
    constructor
    · exact fun s inside enough => ih.parseline inside enough
    · exact fun s inside enough => ih.parsepipe inside enough
    · exact fun s inside enough => ih.parseexec inside enough
    · exact fun s ts inside enough opens => ih.parseblock inside enough opens

end Parser

end OShard.Shell
