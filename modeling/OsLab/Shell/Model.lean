import Mathlib.Data.List.Basic
import Mathlib.Tactic.Common

/-!
# The parser of the shell (`parser.c`, `main` of `shell_main.cpp`)

A C string is the list of its characters. `cmd_parse` and `tokenise_on_pipe` are nested loops over
one index, which goes up by one for each character read: the scanners are a step for each character,
and the state of a scanner says where in its loops the code is when it reads the next one. The
variable `temp` grows in place.

`glob` is a parameter. A rejection says where the code found the reason, beside the text it prints.
-/

namespace OsLab.Shell

/-- What `glob` returns when it fails. -/
inductive GlobErr where
  | nospace
  | aborted
  | nomatch
  | other
  deriving DecidableEq

/-- Why a line is rejected. -/
inductive Err where
  /-- `cmd_parse`: nothing after a backslash -/
  | backslash
  /-- `cmd_parse`: an unclosed quote -/
  | quotes
  /-- `cmd_parse`: no file after `<` or `>` -/
  | redirection
  /-- `cmd_parse`: token `j` of the command is `&`, and not the last one -/
  | afterAmp (cmd : List Char) (j : ℕ)
  /-- `cmd_parse`: `glob` failed -/
  | glob (e : GlobErr)
  /-- `tokenise_on_pipe`: an unclosed quote -/
  | pipeQuotes
  /-- `tokenise_on_pipe`: a pipe at the end of the line -/
  | pipeLast
  /-- `tokenise_on_pipe`: no command before a pipe -/
  | pipeFirst
  /-- `tokenise_on_pipe`: `strchr` has found an `&` at `k`, and the command is not the last one -/
  | ampNotLast (cmd : List Char) (k : ℕ)
  deriving DecidableEq

/-- The string `err`. -/
def Err.text : Err → String
  | .backslash => "Invalid command! Command cannot end with a backslash\n"
  | .quotes => "Invalid command! Error in handling quotes\n"
  | .redirection => "Invalid command! Incorrect use of input redirection\n"
  | .afterAmp _ _ => "Invalid command! No other arguments allowed after &\n"
  | .glob .nospace => "glob failed: insufficient memory\n"
  | .glob .aborted => "glob failed: read error\n"
  | .glob .nomatch => "glob failed: no match found\n"
  | .glob .other => "glob failed: unknown error\n"
  | .pipeQuotes => "Invalid command! Error in quotes"
  | .pipeLast => "Invalid command! No command after a pipe.\n"
  | .pipeFirst => "Invalid command! Error in using pipe.\n"
  | .ampNotLast _ _ =>
    "Invalid command! Cannot have an & in a cmd if it is not the last cmd in a seq of piped cmds.\n"

/-- `cmd`. -/
structure Cmd where
  fullCmd : List Char
  args : List (List Char)
  inputFile : Option (List Char)
  outputFile : Option (List Char)
  inRedirect : Bool
  outRedirect : Bool
  inFd : ℕ
  outFd : ℕ
  background : Bool

/-- `cmd_init`. -/
def cmdInit (userInput : List Char) : Cmd where
  fullCmd := userInput
  args := []
  inputFile := none
  outputFile := none
  inRedirect := false
  outRedirect := false
  inFd := 0
  outFd := 1
  background := false

/-- `if (strlen(temp) != 0) vector_string_push_back(v, temp)`. -/
def pushTemp (v : List (List Char)) (temp : List Char) : List (List Char) :=
  if temp ≠ [] then v ++ [temp] else v

/-! ## `cmd_parse` -/

/-- Where `cmd_parse` reads `full_cmd[i]`. -/
inductive ParsePc where
  /-- at the head of the `for` loop -/
  | head
  /-- after a backslash -/
  | escape
  /-- after the character that the backslash escapes, before the tests of the operators, of the
  double quote and of the space -/
  | chain
  /-- in the `while` loop of a quoted region, which keeps the quotes if it started after a `/` -/
  | quoted (keep : Bool)
  deriving DecidableEq

/-- The variables of the scan, and `full_cmd[i-1]`. -/
structure Parse where
  pc : ParsePc
  prev : Option Char
  temp : List Char
  tokens : List (List Char)

def Parse.init : Parse := ⟨.head, none, [], []⟩

/-- The tests of the operators, of the double quote and of the space. -/
def parseChain (x : Parse) (ch : Char) : Parse :=
  if ch = '<' ∨ ch = '>' ∨ ch = '&' then ⟨.head, some ch, [], pushTemp x.tokens x.temp ++ [[ch]]⟩
  else if ch = '"' then
    if x.prev = some '/' then ⟨.quoted true, some ch, x.temp ++ [ch], x.tokens⟩
    else ⟨.quoted false, some ch, x.temp, x.tokens⟩
  else if ch = ' ' then ⟨.head, some ch, [], pushTemp x.tokens x.temp⟩
  else ⟨.head, some ch, x.temp ++ [ch], x.tokens⟩

/-- One character of `full_cmd`. -/
def parseStep (x : Parse) (ch : Char) : Parse :=
  match x.pc with
  | .head => if ch = '\\' then ⟨.escape, some ch, x.temp, x.tokens⟩ else parseChain x ch
  | .escape => ⟨.chain, some ch, x.temp ++ [ch], x.tokens⟩
  | .chain => parseChain x ch
  | .quoted keep =>
    if ch ≠ '"' ∨ x.prev = some '\\' then ⟨.quoted keep, some ch, x.temp ++ [ch], x.tokens⟩
    else ⟨.head, some ch, if keep then x.temp ++ [ch] else x.temp, x.tokens⟩

/-- The scan of `s`. -/
def parseScan (s : List Char) : Parse := s.foldl parseStep .init

/-- The end of `full_cmd`. At `chain` the code appends the terminator, which changes nothing. -/
def parseEnd (x : Parse) : Except Err (List (List Char)) :=
  match x.pc with
  | .escape => .error .backslash
  | .quoted _ => .error .quotes
  | .head | .chain => .ok (pushTemp x.tokens x.temp)

/-- The tokens of a command. -/
def tokensOf (s : List Char) : Except Err (List (List Char)) := parseEnd (parseScan s)

section Glob

variable (glob : List Char → Except GlobErr (List (List Char)))

/-- The loop over the tokens, from token `j`. -/
def parseTokens : Cmd → ℕ → List (List Char) → Except Err Cmd
  | c, _, [] => .ok c
  | c, j, t :: ts =>
    if t = ['<'] then
      match ts with
      | [] => .error .redirection
      | file :: rest =>
        if file = ['>'] ∨ file = ['<'] then .error .redirection
        else parseTokens { c with inputFile := some file, inRedirect := true } (j + 2) rest
    else if t = ['>'] then
      match ts with
      | [] => .error .redirection
      | file :: rest =>
        if file = ['>'] ∨ file = ['<'] then .error .redirection
        else parseTokens { c with outputFile := some file, outRedirect := true } (j + 2) rest
    else if t = ['&'] then
      if ts ≠ [] then .error (.afterAmp c.fullCmd j)
      else parseTokens { c with background := true } (j + 1) ts
    else if '*' ∈ t ∨ '?' ∈ t then
      match glob t with
      | .error e => .error (.glob e)
      | .ok found => parseTokens { c with args := c.args ++ found } (j + 1) ts
    else parseTokens { c with args := c.args ++ [t] } (j + 1) ts

section

variable {glob} {c : Cmd} {j : ℕ} {t file : List Char} {ts : List (List Char)}

theorem parseTokens_word (hless : t ≠ ['<']) (hgreater : t ≠ ['>']) (hamp : t ≠ ['&'])
    (hglob : ¬ ('*' ∈ t ∨ '?' ∈ t)) :
    parseTokens glob c j (t :: ts) = parseTokens glob { c with args := c.args ++ [t] } (j + 1) ts := by
  rw [parseTokens.eq_def]
  simp only [if_neg hless, if_neg hgreater, if_neg hamp, if_neg hglob]

theorem parseTokens_input (h : ¬ (file = ['>'] ∨ file = ['<'])) :
    parseTokens glob c j (['<'] :: file :: ts) =
      parseTokens glob { c with inputFile := some file, inRedirect := true } (j + 2) ts := by
  rw [parseTokens.eq_def]
  simp only [if_neg h, if_true]

theorem parseTokens_output (h : ¬ (file = ['>'] ∨ file = ['<'])) :
    parseTokens glob c j (['>'] :: file :: ts) =
      parseTokens glob { c with outputFile := some file, outRedirect := true } (j + 2) ts := by
  rw [parseTokens.eq_def]
  simp [h]

theorem parseTokens_amp : parseTokens glob c j [['&']] = .ok { c with background := true } := by
  simp [parseTokens]

end

/-- `cmd_parse`: 0 with the command, or -1 with `err`. -/
def cmdParse (c : Cmd) : Except Err Cmd := (tokensOf c.fullCmd).bind (parseTokens glob c 0)

end Glob

/-! ## `tokenise_on_pipe` -/

/-- The string `user_input`, which is not empty. The loops look for its characters but the last one,
which is the newline unless the line was cut off. -/
structure Line where
  body : List Char
  last : Char
  noNul : '\x00' ∉ body ++ [last]

/-- Where `tokenise_on_pipe` reads `user_input[i]`. -/
inductive PipePc where
  /-- at the head of the `for` loop -/
  | head
  /-- in the `while` loop of a quoted region, after `prev` -/
  | quoted (prev : Char)
  /-- after a pipe, in the `while` loop over spaces -/
  | skip
  deriving DecidableEq

/-- The variables of the scan. -/
structure Pipe where
  i : ℕ
  pc : PipePc
  temp : List Char
  cmds : List (List Char)

def Pipe.init : Pipe := ⟨0, .head, [], []⟩

/-- The body of the `for` loop, with `n = strlen(user_input) - 1`. -/
def pipeHead (n : ℕ) (x : Pipe) (ch : Char) : Except Err Pipe :=
  if ch = '"' then .ok ⟨x.i + 1, .quoted ch, x.temp ++ [ch], x.cmds⟩
  else if ch = '|' then
    if x.i + 1 = n then .error .pipeLast
    else if x.temp ≠ [] then .ok ⟨x.i + 1, .skip, [], x.cmds ++ [x.temp]⟩
    else .error .pipeFirst
  else .ok ⟨x.i + 1, .head, x.temp ++ [ch], x.cmds⟩

/-- One character of `user_input`. -/
def pipeStep (n : ℕ) (x : Pipe) (ch : Char) : Except Err Pipe :=
  match x.pc with
  | .head => pipeHead n x ch
  | .quoted prev =>
    if ch ≠ '"' ∨ prev = '\\' then .ok ⟨x.i + 1, .quoted ch, x.temp ++ [ch], x.cmds⟩
    else .ok ⟨x.i + 1, .head, x.temp ++ [ch], x.cmds⟩
  -- the loop over spaces ends before `strlen(user_input)`: the test after it never holds
  | .skip => if ch = ' ' then .ok { x with i := x.i + 1 } else pipeHead n x ch

/-- The scan of the first characters `s` of a line of `n` characters and a last one. -/
def pipeScan (n : ℕ) (s : List Char) : Except Err Pipe := s.foldlM (pipeStep n) .init

/-- The end of the loop. -/
def pipeEnd (x : Pipe) : Except Err (List (List Char)) :=
  match x.pc with
  | .quoted _ => .error .pipeQuotes
  | .head | .skip => .ok (pushTemp x.cmds x.temp)

/-- `piped_cmds`. -/
def pipedCmds (line : Line) : Except Err (List (List Char)) :=
  (pipeScan line.body.length line.body).bind pipeEnd

/-- The loop that looks for an `&`: `bg_flag`. -/
def bgFlag : List (List Char) → Except Err Bool
  | [] => .ok false
  | [cmd] => .ok (decide ('&' ∈ cmd))
  | cmd :: next :: rest =>
    if '&' ∈ cmd then .error (.ampNotLast cmd (cmd.idxOf '&')) else bgFlag (next :: rest)

/-- `piped_cmds_seq`: the last command has `background` 1 if `bg_flag` is 1. -/
def initCmds (bg : Bool) : List (List Char) → List Cmd
  | [] => []
  | [cmd] => [{ cmdInit cmd with background := bg }]
  | cmd :: next :: rest => cmdInit cmd :: initCmds bg (next :: rest)

def tokeniseOnPipe (line : Line) : Except Err (List Cmd) :=
  (pipedCmds line).bind fun cmds => (bgFlag cmds).map fun bg => initCmds bg cmds

/-! ## `main` -/

/-- The loop of `main` over the commands: the commands parsed, and `background_flag`. -/
def parseCmds (glob : List Char → Except GlobErr (List (List Char))) :
    List Cmd → Except Err (List Cmd × Bool)
  | [] => .ok ([], false)
  | c :: cs =>
    (cmdParse glob c).bind fun c' =>
      (parseCmds glob cs).map fun p => (c' :: p.1, c'.background || p.2)

/-- From the line read to the commands that `main` runs. -/
def parseLine (glob : List Char → Except GlobErr (List (List Char))) (line : Line) :
    Except Err (List Cmd × Bool) := (tokeniseOnPipe line).bind (parseCmds glob)

theorem bind_eq_ok {α β : Type} {r : Except Err α} {f : α → Except Err β} {b : β}
    (h : r >>= f = .ok b) : ∃ a, r = .ok a ∧ f a = .ok b := by
  cases r with
  | ok a => exact ⟨a, rfl, h⟩
  | error e => cases h

theorem exists_ok {α : Type} {r : Except Err α} (h : r.toOption.isSome) : ∃ y, r = .ok y := by
  cases r with
  | ok y => exact ⟨y, rfl⟩
  | error e => cases h

section

variable {glob : List Char → Except GlobErr (List (List Char))} {line : Line}

theorem parseCmds_cons {c : Cmd} {cs : List Cmd} {p : List Cmd × Bool} :
    parseCmds glob (c :: cs) = .ok p ↔ ∃ c' q, cmdParse glob c = .ok c' ∧ parseCmds glob cs = .ok q ∧
      p = (c' :: q.1, c'.background || q.2) := by
  rw [parseCmds]
  cases cmdParse glob c with
  | error e => simp [Except.bind]
  | ok c' => cases parseCmds glob cs <;> simp [Except.bind, Except.map, eq_comm]

theorem parseCmds_error {c : Cmd} {cs : List Cmd} {e : Err}
    (h : parseCmds glob (c :: cs) = .error e) :
    cmdParse glob c = .error e ∨ parseCmds glob cs = .error e := by
  rw [parseCmds] at h
  cases hc : cmdParse glob c with
  | error e' =>
    rw [hc] at h
    cases h
    exact .inl rfl
  | ok c' =>
    rw [hc] at h
    cases hcs : parseCmds glob cs with
    | error e' =>
      rw [hcs] at h
      cases h
      exact .inr rfl
    | ok p =>
      rw [hcs] at h
      cases h

theorem parseCmds_ok {cs : List Cmd} {p : List Cmd × Bool} (h : parseCmds glob cs = .ok p) :
    ∀ c ∈ cs, ∃ c', cmdParse glob c = .ok c' := by
  induction cs generalizing p with
  | nil => intro c hc; exact absurd hc List.not_mem_nil
  | cons c cs ih =>
    obtain ⟨c', q, hc', hq, -⟩ := parseCmds_cons.1 h
    intro d hd
    rcases List.mem_cons.1 hd with rfl | hd
    · exact ⟨c', hc'⟩
    · exact ih hq d hd

theorem parseLine_ok {p : List Cmd × Bool} :
    parseLine glob line = .ok p ↔ ∃ cmds, tokeniseOnPipe line = .ok cmds ∧
      parseCmds glob cmds = .ok p := by
  rw [parseLine]
  cases tokeniseOnPipe line <;> simp [Except.bind]

end

end OsLab.Shell
