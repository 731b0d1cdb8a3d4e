import OShard.Shell.Accepts

namespace OShard.Shell

section Buffer

variable {text : Ptr} {ws : List Word}

theorem clear_eq (es : Nat) (cmd : Cmd Word) (buf : List Char) :
    nulterminate es cmd buf = cmd.words.foldl (fun buf w => clear es buf w.eq) buf := by
  induction cmd generalizing buf with
  | exec argv => rfl
  | redir cmd file mode fd ih =>
    rw [nulterminate, ih, Cmd.words, List.foldl_append]
    rfl
  | pipe _ _ first second | list _ _ first second => rw [nulterminate, first, second, Cmd.words, List.foldl_append]
  | back cmd ih => exact ih buf

theorem clear_kept (es i : Nat) (buf : List Char) (kept : ∀ w ∈ ws, es - w.eq.length ≠ i) :
    (ws.foldl (fun buf w => clear es buf w.eq) buf)[i]? = buf[i]? := by
  induction ws generalizing buf with
  | nil => rfl
  | cons w ws ih =>
    rw [List.foldl_cons, ih _ fun v member => kept v (List.mem_cons_of_mem _ member)]
    exact List.getElem?_set_ne (kept w List.mem_cons_self)

theorem clear_cleared (es i : Nat) (buf : List Char) (found : ∃ w ∈ ws, es - w.eq.length = i) (inside : i < buf.length) :
    (ws.foldl (fun buf w => clear es buf w.eq) buf)[i]? = some '\x00' := by
  induction ws generalizing buf with
  | nil => exact absurd found nofun
  | cons v ws ih =>
    rw [List.foldl_cons]
    by_cases later : ∃ w ∈ ws, es - w.eq.length = i
    · exact ih _ later (by rw [clear, List.length_set]; exact inside)
    obtain ⟨w, member, place⟩ := found
    push Not at later
    rw [clear_kept es i _ later]
    rcases List.mem_cons.mp member with rfl | old
    · rw [clear, place, List.getElem?_set_self inside]
    · exact absurd place (later w old)

theorem takeWhile_eq_take {l : List Char} {p : Char → Bool} {n : Nat} (front : ∀ j < n, ∃ c, l[j]? = some c ∧ p c = true)
    (stop : ∃ c, l[n]? = some c ∧ p c = false) : l.takeWhile p = l.take n := by
  induction n generalizing l with
  | zero =>
    obtain ⟨c, here, dark⟩ := stop
    cases l with
    | nil => cases here
    | cons d l =>
      cases here
      rw [List.takeWhile_cons_of_neg (by rw [dark]; exact Bool.false_ne_true), List.take_zero]
  | succ n ih =>
    obtain ⟨c, here, light⟩ := front 0 (Nat.succ_pos n)
    cases l with
    | nil => cases here
    | cons d l =>
      cases here
      rw [List.takeWhile_cons_of_pos light, List.take_succ_cons,
        ih (fun j lower => front (j + 1) (Nat.succ_lt_succ lower)) stop]

theorem getElem?_suffix {p : Ptr} (suffix : p <:+ text) (j : Nat) : text[text.length - p.length + j]? = p[j]? := by
  obtain ⟨front, rfl⟩ := suffix
  rw [List.length_append, Nat.add_sub_cancel, List.getElem?_append_right (Nat.le_add_right _ _), Nat.add_sub_cancel_left]

theorem Proper.ends {w : Word} (word : Proper text w) : w.eq <:+ text :=
  List.IsSuffix.trans ⟨w.text, word.cut.symm⟩ word.start

theorem Proper.length {w : Word} (word : Proper text w) :
    text.length - w.eq.length = text.length - w.q.length + w.text.length ∧ w.q.length ≤ text.length := by
  have whole := congrArg List.length word.cut
  have bound := word.start.length_le
  rw [List.length_append] at whole
  omega

theorem Proper.at {w : Word} (word : Proper text w) {j : Nat} (lower : j < w.text.length) :
    ∃ c, text[text.length - w.q.length + j]? = some c ∧ w.text[j]? = some c ∧ plain c = true := by
  refine ⟨w.text[j], ?_, List.getElem?_eq_getElem lower, word.solid _ (List.getElem_mem lower)⟩
  rw [getElem?_suffix word.start, word.cut, List.getElem?_append_left lower, List.getElem?_eq_getElem lower]

theorem Proper.uncut {w v : Word} (word : Proper text w) (other : Proper text v) {j : Nat} (lower : j < w.text.length) :
    text.length - v.eq.length ≠ text.length - w.q.length + j := by
  intro place
  obtain ⟨c, here, -, solid⟩ := word.at lower
  have head := getElem?_suffix other.ends 0
  rw [Nat.add_zero, place, here, ← List.head?_eq_getElem?] at head
  rw [other.stop c head.symm] at solid
  cases solid

theorem cstring_word (nul : '\x00' ∉ text) (solid : ∀ w ∈ ws, Proper text w) {w : Word} (member : w ∈ ws) :
    cstring text.length (ws.foldl (fun buf w => clear text.length buf w.eq) (text ++ ['\x00'])) w.q = w.text := by
  have word := solid w member
  obtain ⟨place, bound⟩ := word.length
  have front : ∀ j < w.text.length, ∃ c,
      (ws.foldl (fun buf w => clear text.length buf w.eq) (text ++ ['\x00']))[text.length - w.q.length + j]? = some c ∧
        w.text[j]? = some c ∧ c ≠ '\x00' := by
    intro j lower
    obtain ⟨c, here, same, -⟩ := word.at lower
    refine ⟨c, ?_, same, ?_⟩
    · rw [clear_kept _ _ _ fun v member => word.uncut (solid v member) lower]
      obtain ⟨inside, -⟩ := List.getElem?_eq_some_iff.mp here
      rw [List.getElem?_append_left inside, here]
    · rintro rfl
      exact nul (List.mem_of_getElem? here)
  have last : (ws.foldl (fun buf w => clear text.length buf w.eq) (text ++ ['\x00']))[text.length - w.q.length +
      w.text.length]? = some '\x00' := by
    refine clear_cleared _ _ _ ⟨w, member, place⟩ ?_
    rw [List.length_append, List.length_singleton]
    omega
  unfold cstring
  rw [takeWhile_eq_take (n := w.text.length)]
  · apply List.ext_getElem?
    intro j
    rw [List.getElem?_take, List.getElem?_drop]
    by_cases lower : j < w.text.length
    · obtain ⟨c, here, same, -⟩ := front j lower
      rw [if_pos lower, here, same]
    · rw [if_neg lower, List.getElem?_eq_none (Nat.le_of_not_lt lower)]
  · intro j lower
    obtain ⟨c, here, -, other⟩ := front j lower
    exact ⟨c, by rw [List.getElem?_drop, here], decide_eq_true other⟩
  · exact ⟨'\x00', by rw [List.getElem?_drop, last], rfl⟩

theorem map_congr {cmd : Cmd Word} {f g : Word → List Char} (same : ∀ w ∈ cmd.words, f w = g w) : cmd.map f = cmd.map g := by
  induction cmd with
  | exec argv => exact congrArg Cmd.exec (List.map_congr_left same)
  | redir cmd file mode fd ih =>
    rw [Cmd.map, Cmd.map, ih fun w member => same w (List.mem_append_left _ member),
      same file (List.mem_append_right _ (List.mem_singleton_self file))]
  | pipe _ _ first second | list _ _ first second =>
    rw [Cmd.map, Cmd.map, first fun w member => same w (List.mem_append_left _ member),
      second fun w member => same w (List.mem_append_right _ member)]
  | back cmd ih => rw [Cmd.map, Cmd.map, ih same]

end Buffer

section Strings

open Parsing

variable {text : List Char}

theorem parsecmd_eq (text : List Char) :
    parsecmd text = parseline (4 * text.length + 5) text >>= fun r =>
      if tokens r.2 = [] then .ok (r.1, nulterminate text.length r.1 (text ++ ['\x00'])) else .error (.panic "syntax") := by
  unfold parsecmd
  apply bind_congr
  intro r
  have rest : (peek r.2 []).2 = skip r.2 := by
    unfold peek
    cases skip r.2 <;> rfl
  dsimp only
  rw [rest]
  by_cases empty : skip r.2 = []
  · rw [if_pos (tokens_empty empty), if_neg (not_not_intro empty)]
    rfl
  · rw [if_pos empty, if_neg fun none => empty (tokens_nil none).1]
    rfl

theorem parsecmd_returns {cmd : Cmd Word} {buf : List Char} (parsed : parsecmd text = .ok (cmd, buf)) :
    ∃ t : Line, t.tokens = tokens text ∧ cmd.map Word.text = t.cmd ∧ Solid text cmd ∧
      buf = nulterminate text.length cmd (text ++ ['\x00']) := by
  have reading := (descent text (4 * text.length + 5)).line text List.suffix_rfl (by omega)
  rw [parsecmd_eq] at parsed
  generalize parseline (4 * text.length + 5) text = outcome at reading parsed
  cases reading with
  | error => cases parsed
  | ok t whole suffix value only =>
    rename_i cmd' rest
    change (if tokens rest = [] then _ else _) = _ at parsed
    by_cases empty : tokens rest = []
    · rw [if_pos empty] at parsed
      cases parsed
      rw [empty, List.append_nil] at whole
      exact ⟨t, whole.symm, value.1, value.2, rfl⟩
    · rw [if_neg empty] at parsed
      cases parsed

/-- The parser ends on every string, accepts those that the grammar derives and returns what the derivation denotes. -/
theorem parsecmd_accepts (nul : '\x00' ∉ text) :
    ((∃ r, parsecmd text = .ok r) ∨ ∃ message, parsecmd text = .error (.panic message)) ∧
    ((∃ r, parsecmd text = .ok r) ↔ ∃ t : Line, t.tokens = tokens text) ∧
    ∀ cmd buf, parsecmd text = .ok (cmd, buf) →
      ∃ t : Line, t.tokens = tokens text ∧ (∀ t' : Line, t'.tokens = tokens text → t' = t) ∧
        cmd.map (fun w => cstring text.length buf w.q) = t.cmd := by
  have reading := (descent text (4 * text.length + 5)).line text List.suffix_rfl (by omega)
  rw [parsecmd_eq]
  generalize parseline (4 * text.length + 5) text = outcome at reading
  cases reading with
  | error admitted none =>
    obtain ⟨message, rfl⟩ := admitted
    refine ⟨.inr ⟨message, rfl⟩, ⟨nofun, ?_⟩, nofun⟩
    rintro ⟨t, whole⟩
    exact absurd (whole.symm.trans (List.append_nil _).symm) (none t [] Follow.nil)
  | ok t whole suffix value only =>
    rename_i cmd rest
    change (_ ∨ _) ∧ _
    have all : ∀ t' : Line, t'.tokens = tokens text → t' = t ∧ tokens rest = [] := by
      intro t' whole'
      obtain ⟨same, empty⟩ := only t' [] Follow.nil (whole'.symm.trans (List.append_nil _).symm)
      exact ⟨same, empty.symm⟩
    by_cases empty : tokens rest = []
    · have result : (Except.ok (cmd, rest) >>= fun r => if tokens r.2 = [] then
          Except.ok (r.1, nulterminate text.length r.1 (text ++ ['\x00'])) else .error (Fault.panic "syntax")) =
          .ok (cmd, nulterminate text.length cmd (text ++ ['\x00'])) := if_pos empty
      rw [empty, List.append_nil] at whole
      rw [result]
      refine ⟨.inl ⟨_, rfl⟩, ⟨fun _ => ⟨t, whole.symm⟩, fun _ => ⟨_, rfl⟩⟩, ?_⟩
      intro cmd' buf equal
      cases equal
      refine ⟨t, whole.symm, fun t' whole' => (all t' whole').1, ?_⟩
      rw [← value.1, clear_eq]
      exact map_congr fun w member => cstring_word nul value.2 member
    · have result : (Except.ok (cmd, rest) >>= fun r => if tokens r.2 = [] then
          Except.ok (r.1, nulterminate text.length r.1 (text ++ ['\x00'])) else .error (Fault.panic "syntax")) =
          .error (.panic "syntax") := if_neg empty
      rw [result]
      refine ⟨.inr ⟨_, rfl⟩, ⟨nofun, ?_⟩, nofun⟩
      rintro ⟨t', whole'⟩
      exact absurd (all t' whole').2 empty

/-- `a b>f|(c)&` -/
theorem parsecmd_accepts_back :
    ∃ cmd buf, parsecmd ['a', ' ', 'b', '>', 'f', '|', '(', 'c', ')', '&'] = .ok (cmd, buf) ∧
      cmd.map (fun w => cstring 10 buf w.q) =
        .back (.pipe (.redir (.exec [['a'], ['b']]) ['f'] 0x601 1) (.exec [['c']])) ∧
      ∃ t : Line, t.tokens = tokens ['a', ' ', 'b', '>', 'f', '|', '(', 'c', ')', '&'] ∧
        cmd.map (fun w => cstring 10 buf w.q) = t.cmd := by
  obtain ⟨⟨cmd, buf⟩, result, tree⟩ := returns_ok (show returns
    (parsecmd ['a', ' ', 'b', '>', 'f', '|', '(', 'c', ')', '&'])
    (fun r => decide (r.1.map (fun w => cstring 10 r.2 w.q) =
      .back (.pipe (.redir (.exec [['a'], ['b']]) ['f'] 0x601 1) (.exec [['c']])))) = true by decide +kernel)
  obtain ⟨t, derives, -, denotes⟩ := (parsecmd_accepts (by decide)).2.2 cmd buf result
  exact ⟨cmd, buf, result, of_decide_eq_true tree, t, derives, denotes⟩

end Strings

section Words

variable {text : List Char} {cmd : Cmd Word} {buf : List Char}

/-- Each array of arguments has room for the null behind them. -/
def Cmd.Bounded {ω : Type} : Cmd ω → Prop
  | .exec argv => argv.length < maxArgs
  | .redir cmd _ _ _ | .back cmd => cmd.Bounded
  | .pipe left right | .list left right => left.Bounded ∧ right.Bounded

theorem Cmd.bounded_map {α β : Type} (f : α → β) (cmd : Cmd α) : (cmd.map f).Bounded ↔ cmd.Bounded := by
  induction cmd with
  | exec argv => rw [Cmd.map, Cmd.Bounded, Cmd.Bounded, List.length_map]
  | redir cmd file mode fd ih => exact ih
  | pipe left right first second | list left right first second => exact and_congr first second
  | back cmd ih => exact ih

theorem wrap_bounded {cmd : Cmd (List Char)} (bounded : cmd.Bounded) (rs : List Redir) : (wrap cmd rs).Bounded := by
  induction rs generalizing cmd with
  | nil => exact bounded
  | cons r rs ih =>
    apply ih
    change (redirect r.way.ret cmd r.file).Bounded
    unfold redirect
    split_ifs <;> exact bounded

theorem back_bounded {cmd : Cmd (List Char)} (bounded : cmd.Bounded) (amps : Nat) : (Cmd.back^[amps] cmd).Bounded := by
  induction amps generalizing cmd with
  | zero => exact bounded
  | succ amps ih => exact ih bounded

mutual

theorem Line.bounded : (line : Line) → line.cmd.Bounded
  | .last pipe amps => back_bounded pipe.bounded amps
  | .seq pipe amps next => ⟨back_bounded pipe.bounded amps, next.bounded⟩

theorem Pipe.bounded : (pipe : Pipe) → pipe.cmd.Bounded
  | .last exec => exec.bounded
  | .more exec next => ⟨exec.bounded, next.bounded⟩

theorem Exec.bounded : (exec : Exec) → exec.cmd.Bounded
  | .block line redirs => wrap_bounded line.bounded redirs
  | .simple redirs args few => wrap_bounded (by rw [Cmd.Bounded, List.length_map]; exact few) _

end

/-- The words of the tree are those of the input, and strings of the buffer in the end: a NUL that is written behind
    one of them is not in another one. It may overwrite an operator. -/
theorem words_keep_text (nul : '\x00' ∉ text) (parsed : parsecmd text = .ok (cmd, buf)) :
    (∃ t : Line, t.tokens = tokens text ∧ cmd.map Word.text = t.cmd) ∧ cmd.Bounded ∧
    (∀ w ∈ cmd.words, Proper text w ∧ cstring text.length buf w.q = w.text) ∧
    ∀ v ∈ cmd.words, ∀ w ∈ cmd.words, ∀ j < w.text.length, text.length - v.eq.length ≠ text.length - w.q.length + j := by
  obtain ⟨t, whole, value, solid, rfl⟩ := parsecmd_returns parsed
  refine ⟨⟨t, whole, value⟩, ?_, fun w member => ⟨solid w member, ?_⟩, fun v other w member j lower => ?_⟩
  · rw [← Cmd.bounded_map Word.text, value]
    exact t.bounded
  · rw [clear_eq]
    exact cstring_word nul solid member
  · exact (solid w member).uncut (solid v other) lower

/-- `ab>f|c` -/
theorem words_keep_text_pipe :
    ∃ cmd buf, parsecmd ['a', 'b', '>', 'f', '|', 'c'] = .ok (cmd, buf) ∧ buf = ['a', 'b', '\x00', 'f', '\x00', 'c', '\x00'] ∧
      ∀ w ∈ cmd.words, cstring 6 buf w.q = w.text := by
  obtain ⟨⟨cmd, buf⟩, result, text⟩ := returns_ok (show returns (parsecmd ['a', 'b', '>', 'f', '|', 'c'])
    (fun r => decide (r.2 = ['a', 'b', '\x00', 'f', '\x00', 'c', '\x00'])) = true by decide +kernel)
  exact ⟨cmd, buf, result, of_decide_eq_true text, fun w member => ((words_keep_text (by decide) result).2.2.1 w member).2⟩

end Words

end OShard.Shell
