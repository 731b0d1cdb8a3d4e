import OShard.Kernel.Machine

namespace OShard.Shell

def maxArgs : Nat := 10

def oRdonly : Nat := 0x000
def oWronly : Nat := 0x001
def oCreate : Nat := 0x200
def oTrunc : Nat := 0x400

/-- A pointer into the input, as the characters from there to its end: `s < es` says that there are some. -/
abbrev Ptr := List Char

structure Word where
  q : Ptr
  eq : Ptr
  deriving DecidableEq, Repr

def Word.text (w : Word) : List Char := w.q.take (w.q.length - w.eq.length)

/-- A command tree. The parser's words are pairs of pointers. -/
inductive Cmd (ω : Type) where
  | exec (argv : List ω)
  | redir (cmd : Cmd ω) (file : ω) (mode fd : Nat)
  | pipe (left right : Cmd ω)
  | list (left right : Cmd ω)
  | back (cmd : Cmd ω)
  deriving DecidableEq, Repr

section Scanner

def whitespace : List Char := [' ', '\t', '\r', '\n', '\x0b']

def symbols : List Char := ['<', '|', '>', '&', ';', '(', ')']

def strchr (s : List Char) (c : Char) : Bool := s.contains c

def skip (s : Ptr) : Ptr := s.dropWhile (strchr whitespace)

/-- A character that a word goes on with. -/
def plain (c : Char) : Bool := !strchr whitespace c && !strchr symbols c

structure Got where
  ret : Char
  word : Word
  rest : Ptr
  deriving DecidableEq, Repr

/-- The `switch` of `gettoken`: the token's kind and the end of the token. -/
def scan (s : Ptr) : Char × Ptr :=
  match s with
  | [] => ('\x00', s)
  | c :: rest =>
    if strchr ['|', '(', ')', ';', '&', '<'] c then (c, rest)
    else if c = '>' then
      match rest with
      | '>' :: more => ('+', more)
      | _ => ('>', rest)
    else ('a', s.dropWhile plain)

def gettoken (s : Ptr) : Got :=
  let s := skip s
  let (ret, eq) := scan s
  ⟨ret, ⟨s, eq⟩, skip eq⟩

def peek (s : Ptr) (toks : List Char) : Bool × Ptr :=
  let s := skip s
  match s with
  | [] => (false, s)
  | c :: _ => (strchr toks c, s)

end Scanner

/-- `cmd->argv[argc] = q`: `cmd` is the command that the redirections in `ret` have been wrapped around. -/
def Cmd.addArg {ω : Type} (word : ω) : Cmd ω → Cmd ω
  | .exec argv => .exec (argv ++ [word])
  | .redir cmd file mode fd => .redir (cmd.addArg word) file mode fd
  | cmd => cmd

def redirect {ω : Type} (tok : Char) (cmd : Cmd ω) (file : ω) : Cmd ω :=
  if tok = '<' then .redir cmd file oRdonly 0
  else if tok = '>' then .redir cmd file (oWronly ||| oCreate ||| oTrunc) 1
  else if tok = '+' then .redir cmd file (oWronly ||| oCreate) 1
  else cmd

/-- Every loop and every call spends one unit of `fuel`. -/
def parseredirs : Nat → Cmd Word → Ptr → Except Fault (Cmd Word × Ptr)
  | 0, _, _ => .error .diverges
  | fuel + 1, cmd, s =>
    let (more, s) := peek s ['<', '>']
    if more then
      let tok := gettoken s
      let file := gettoken tok.rest
      if file.ret ≠ 'a' then .error (.panic "missing file for redirection")
      else parseredirs fuel (redirect tok.ret cmd file.word) file.rest
    else .ok (cmd, s)

def parseargs : Nat → Nat → Cmd Word → Ptr → Except Fault (Cmd Word × Ptr)
  | 0, _, _, _ => .error .diverges
  | fuel + 1, argc, ret, s =>
    let (stop, s) := peek s ['|', ')', '&', ';']
    if stop then .ok (ret, s)
    else
      let tok := gettoken s
      if tok.ret = '\x00' then .ok (ret, tok.rest)
      else if tok.ret ≠ 'a' then .error (.panic "syntax")
      else if maxArgs ≤ argc + 1 then .error (.panic "too many args")
      else do
        let (ret, s) ← parseredirs fuel (ret.addArg tok.word) tok.rest
        parseargs fuel (argc + 1) ret s

def parsebacks : Nat → Cmd Word → Ptr → Except Fault (Cmd Word × Ptr)
  | 0, _, _ => .error .diverges
  | fuel + 1, cmd, s =>
    let (more, s) := peek s ['&']
    if more then parsebacks fuel (.back cmd) (gettoken s).rest else .ok (cmd, s)

mutual

def parseline : Nat → Ptr → Except Fault (Cmd Word × Ptr)
  | 0, _ => .error .diverges
  | fuel + 1, s => do
    let (cmd, s) ← parsepipe fuel s
    let (cmd, s) ← parsebacks fuel cmd s
    let (more, s) := peek s [';']
    if more then
      let (right, s) ← parseline fuel (gettoken s).rest
      return (.list cmd right, s)
    else return (cmd, s)

def parsepipe : Nat → Ptr → Except Fault (Cmd Word × Ptr)
  | 0, _ => .error .diverges
  | fuel + 1, s => do
    let (cmd, s) ← parseexec fuel s
    let (more, s) := peek s ['|']
    if more then
      let (right, s) ← parsepipe fuel (gettoken s).rest
      return (.pipe cmd right, s)
    else return (cmd, s)

def parseblock : Nat → Ptr → Except Fault (Cmd Word × Ptr)
  | 0, _ => .error .diverges
  | fuel + 1, s =>
    let (opening, s) := peek s ['(']
    if !opening then .error (.panic "parseblock")
    else do
      let (cmd, s) ← parseline fuel (gettoken s).rest
      let (closing, s) := peek s [')']
      if !closing then .error (.panic "syntax - missing )")
      else parseredirs fuel cmd (gettoken s).rest

def parseexec : Nat → Ptr → Except Fault (Cmd Word × Ptr)
  | 0, _ => .error .diverges
  | fuel + 1, s =>
    let (opening, s) := peek s ['(']
    if opening then parseblock fuel s
    else do
      let (ret, s) ← parseredirs fuel (.exec []) s
      parseargs fuel 0 ret s

end

/-- `*p = 0` in the buffer that holds the input and its NUL. -/
def clear (es : Nat) (buf : List Char) (p : Ptr) : List Char := buf.set (es - p.length) '\x00'

def nulterminate (es : Nat) : Cmd Word → List Char → List Char
  | .exec argv, buf => argv.foldl (fun buf w => clear es buf w.eq) buf
  | .redir cmd file _ _, buf => clear es (nulterminate es cmd buf) file.eq
  | .pipe left right, buf => nulterminate es right (nulterminate es left buf)
  | .list left right, buf => nulterminate es right (nulterminate es left buf)
  | .back cmd, buf => nulterminate es cmd buf

/-- The tree and the buffer its words lie in. The first line of a refusal, `leftovers`, is only printed. -/
def parsecmd (text : List Char) : Except Fault (Cmd Word × List Char) := do
  let (cmd, s) ← parseline (4 * text.length + 5) text
  let (_, s) := peek s []
  if s ≠ [] then throw (.panic "syntax")
  return (cmd, nulterminate text.length cmd (text ++ ['\x00']))

/-- The string that `p` points to once the buffer is `buf`. -/
def cstring (es : Nat) (buf : List Char) (p : Ptr) : List Char :=
  (buf.drop (es - p.length)).takeWhile (· ≠ '\x00')

end OShard.Shell
