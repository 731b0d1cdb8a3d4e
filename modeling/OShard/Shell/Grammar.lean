import OShard.Shell.Model

namespace OShard.Shell

inductive Token where
  | word (text : List Char)
  | less
  | greater
  | append
  | bar
  | amp
  | semi
  | opening
  | closing
  deriving DecidableEq, Repr

inductive Way where
  | input
  | output
  | append
  deriving DecidableEq, Repr

def Way.token : Way → Token
  | .input => .less
  | .output => .greater
  | .append => .append

def Way.ret : Way → Char
  | .input => '<'
  | .output => '>'
  | .append => '+'

structure Redir where
  way : Way
  file : List Char
  deriving DecidableEq, Repr

structure Arg where
  text : List Char
  redirs : List Redir
  deriving DecidableEq, Repr

mutual

inductive Line where
  | last (pipe : Pipe) (amps : Nat)
  | seq (pipe : Pipe) (amps : Nat) (next : Line)

inductive Pipe where
  | last (exec : Exec)
  | more (exec : Exec) (next : Pipe)

/-- exec ::= '(' line ')' redir* | redir* (word redir*)*, with fewer than `maxArgs` words -/
inductive Exec where
  | block (line : Line) (redirs : List Redir)
  | simple (redirs : List Redir) (args : List Arg) (few : args.length < maxArgs)

end

section Yield

def Redir.tokens (r : Redir) : List Token := [r.way.token, .word r.file]

def redirTokens (rs : List Redir) : List Token := rs.flatMap Redir.tokens

def Arg.tokens (a : Arg) : List Token := .word a.text :: redirTokens a.redirs

def argTokens (args : List Arg) : List Token := args.flatMap Arg.tokens

mutual

def Line.tokens : Line → List Token
  | .last pipe amps => pipe.tokens ++ List.replicate amps .amp
  | .seq pipe amps next => pipe.tokens ++ (List.replicate amps .amp ++ .semi :: next.tokens)

def Pipe.tokens : Pipe → List Token
  | .last exec => exec.tokens
  | .more exec next => exec.tokens ++ .bar :: next.tokens

def Exec.tokens : Exec → List Token
  | .block line redirs => .opening :: (line.tokens ++ .closing :: redirTokens redirs)
  | .simple redirs args _ => redirTokens redirs ++ argTokens args

end

end Yield

section Meaning

/-- The redirections of a command in order of appearance, the last one outermost. -/
def wrap (cmd : Cmd (List Char)) (rs : List Redir) : Cmd (List Char) :=
  rs.foldl (fun cmd r => redirect r.way.ret cmd r.file) cmd

mutual

def Line.cmd : Line → Cmd (List Char)
  | .last pipe amps => Cmd.back^[amps] pipe.cmd
  | .seq pipe amps next => .list (Cmd.back^[amps] pipe.cmd) next.cmd

def Pipe.cmd : Pipe → Cmd (List Char)
  | .last exec => exec.cmd
  | .more exec next => .pipe exec.cmd next.cmd

def Exec.cmd : Exec → Cmd (List Char)
  | .block line redirs => wrap line.cmd redirs
  | .simple redirs args _ => wrap (.exec (args.map Arg.text)) (redirs ++ args.flatMap Arg.redirs)

end

end Meaning

section Follow

def Follow (allowed : List Token) (ts : List Token) : Prop := ∀ t, ts.head? = some t → t ∈ allowed

def afterLine : List Token := [.closing]
def afterPipe : List Token := [.closing, .amp, .semi]
def afterExec : List Token := [.closing, .amp, .semi, .bar]

def NoRedir (ts : List Token) : Prop := ∀ (w : Way) rest, ts ≠ w.token :: rest

variable {allowed allowed' : List Token} {ts : List Token}

theorem Follow.cons {t : Token} (member : t ∈ allowed) (ts : List Token) : Follow allowed (t :: ts) := by
  intro u head
  cases head
  exact member

theorem Follow.nil : Follow allowed [] := nofun

theorem Follow.mono (follow : Follow allowed ts) (sub : ∀ t ∈ allowed, t ∈ allowed') : Follow allowed' ts :=
  fun t head => sub t (follow t head)

theorem Follow.ne (follow : Follow allowed ts) {t : Token} (other : t ∉ allowed) (rest : List Token) :
    ts ≠ t :: rest := by
  intro same
  exact other (follow t (by rw [same]; rfl))

theorem Follow.noRedir (follow : Follow afterExec ts) : NoRedir ts := by
  intro w rest
  apply follow.ne
  cases w <;> decide

theorem Follow.afterBar (follow : Follow afterPipe ts) : Follow afterExec ts := follow.mono (by decide)

theorem word_not_after (w : List Char) : .word w ∉ afterExec := by
  simp [afterExec]

theorem Way.token_inj {v w : Way} (same : v.token = w.token) : v = w := by
  cases v <;> cases w <;> first | rfl | cases same

theorem noRedir_args (args : List Arg) (follow : Follow afterExec ts) : NoRedir (argTokens args ++ ts) := by
  cases args with
  | nil => exact follow.noRedir
  | cons a args =>
    intro w rest equal
    have head := (List.cons.inj equal).1
    cases w <;> cases head

theorem not_opening_simple (redirs : List Redir) (args : List Arg) (follow : Follow afterExec ts) (rest : List Token) :
    redirTokens redirs ++ argTokens args ++ ts ≠ .opening :: rest := by
  intro same
  cases redirs with
  | cons redir redirs =>
    have head := (List.cons.inj same).1
    cases way : redir.way <;> rw [way] at head <;> cases head
  | nil =>
    cases args with
    | cons arg args => cases (List.cons.inj same).1
    | nil => exact follow.ne (by decide) rest same

end Follow

end OShard.Shell
