import OsLab.Lib.Vec
import OsLab.Shell.History
import OsLab.Shell.Print
import OsLab.Shell.Wiring
import Mathlib.Data.List.Induction
import Mathlib.Data.Nat.Digits.Defs

/-!
# What a line means (`main` of `shell_main.cpp`)

A turn of the loop of `main` parses a line, and runs the builtin that the first command names, or else
`handle_process`. The value of a pipeline is what its programs make, one after the other, of the first
input; a redirection of a command that has a pipe in its place counts for nothing.

* `parseLine_renders`: from a rendering of a pipeline `main` gets its commands.
* `line_evaluates`: what the last command of a line writes is the value of the pipeline.
-/

namespace OsLab.Shell

open Lib

/-! ## A turn of the loop -/

/-- The number that `strtol` reads, if there is one. -/
def leadingInt (s : List Char) : Option ℤ :=
  match s.dropWhile Editing.isspace with
  | '-' :: cs => (digits cs).map fun n => -(n : ℤ)
  | '+' :: cs => (digits cs).map fun n => (n : ℤ)
  | cs => (digits cs).map fun n => (n : ℤ)
where
  digits (cs : List Char) : Option ℕ :=
    if cs.takeWhile Char.isDigit = [] then none
    else some (Nat.ofDigitChars 10 (cs.takeWhile Char.isDigit) 0)

/-- `atoi`: a number outside of `int` is undefined. -/
def atoi (s : List Char) : Option ℤ := addInt 0 ((leadingInt s).getD 0)

/-- `stoi`, which throws if there is no number in the range of `int`. -/
def stoi (s : List Char) : Option ℤ := (leadingInt s).bind (addInt 0)

/-- The directory that `cd` changes to. -/
inductive Directory where
  | home
  | oldPwd
  | path (s : List Char)

/-- How a turn of the loop goes on after the line is read. -/
inductive Turn where
  /-- `err` is printed -/
  | rejected (e : Err)
  /-- no command -/
  | blank
  /-- a builtin has only printed these lines -/
  | printed (lines : List String)
  | exit (status : ℤ)
  | chdir (dir : Directory)
  /-- `delep`, from `pipe` on -/
  | delep (file : List Char)
  /-- `sb`, from `pipe` on -/
  | sb (pid : ℤ) (suggest : Bool)
  /-- the call of `handle_process` -/
  | pipeline (cmds : List Cmd) (background : Bool)

/-- `exit`, with the arguments after its name. -/
def exitTurn : List (List Char) → Option Turn
  | [] => some (.exit 0)
  | [status] => (atoi status).map .exit
  | _ => some (.printed
    ["Invalid command! Only 1 numeric arg (exit status) allowed with the exit command."])

/-- `cd`. -/
def cdTurn : List (List Char) → Option Turn
  | [] => some (.chdir .home)
  | [dir] =>
    if dir = ['~'] then some (.chdir .home)
    else if dir = ['-'] then some (.chdir .oldPwd)
    else some (.chdir (.path dir))
  | _ => some (.printed ["cd: Too many arguments."])

/-- `delep`. Without an argument it reads an entry that is not written. -/
def delepTurn : List (List Char) → Option Turn
  | [] => none
  | [file] => some (.delep file)
  | _ => some (.printed ["delep: Too many arguments."])

/-- `sb`. A third argument and more are not looked at, and then the second one is not either. -/
def sbTurn : List (List Char) → Option Turn
  | [] => some (.printed ["sb", "Usage: sb <pid> [-suggest]",
      "Pass -suggest to kill all processes in the bug's process group"])
  | pid :: rest =>
    match stoi pid with
    | none => some (.printed ["sb", "invalid pid: " ++ String.ofList pid])
    | some n =>
      match rest with
      | [suggest] =>
        if suggest = "-suggest".toList then some (.sb n true)
        else some (.printed ["sb", "invalid argument"])
      | _ => some (.sb n false)

/-- The names that `main` compares `args->data[0]` with. -/
def builtins : List (List Char) := ["exit".toList, "cd".toList, "delep".toList, "sb".toList]

/-- The commands run by a builtin, or by `handle_process`. Without an argument `strcmp` reads an entry
that is not written. -/
def dispatch (cmds : List Cmd) (background : Bool) : Option Turn :=
  match cmds with
  | [] => some .blank
  | c :: _ =>
    match c.args with
    | [] => none
    | name :: args =>
      if name = "exit".toList then exitTurn args
      else if name = "cd".toList then cdTurn args
      else if name = "delep".toList then delepTurn args
      else if name = "sb".toList then sbTurn args
      else some (.pipeline cmds background)

/-- A turn of the loop of `main`. -/
def mainTurn (glob : List Char → Except GlobErr (List (List Char))) (line : Line) : Option Turn :=
  match parseLine glob line with
  | .error e => some (.rejected e)
  | .ok (cmds, background) => dispatch cmds background

theorem mainTurn_ok {glob : List Char → Except GlobErr (List (List Char))} {line : Line}
    {cmds : List Cmd} {bg : Bool} (h : parseLine glob line = .ok (cmds, bg)) :
    mainTurn glob line = dispatch cmds bg := by
  unfold mainTurn
  rw [h]

/-! ## The commands of a rendered line -/

variable {glob : List Char → Except GlobErr (List (List Char))} {line : Line} {p : Pipeline} {i : ℕ}
  {bg : Bool} {cs : List Command} {xs ys : List Cmd} {x y : Cmd}

/-- `main` gets the commands that were printed, and the flag of the last one. -/
theorem parseCmds_renders (hcs : cs ≠ [])
    (h : List.Forall₂ (fun c x => ∃ t, c.1.Renders c.2 t ∧ x = { cmdInit t with background := c.2 })
      (flagged bg cs) xs) :
    ∃ ys, parseCmds glob xs = .ok (ys, bg) ∧
      List.Forall₂ (fun c y => c.1.Fills c.2 y) (flagged bg cs) ys := by
  induction cs generalizing xs with
  | nil => exact absurd rfl hcs
  | cons c cs ih =>
    cases cs with
    | nil =>
      obtain ⟨x, -, ⟨t, ht, rfl⟩, ⟨⟩, rfl⟩ := List.forall₂_cons_left_iff.1 h
      obtain ⟨y, hy, hfills⟩ := cmdParse_renders ht
      refine ⟨[y], parseCmds_cons.2 ⟨y, ([], false), hy, rfl, ?_⟩, .cons hfills .nil⟩
      rw [hfills.background, Bool.or_false]
    | cons d cs =>
      obtain ⟨x, xs, ⟨t, ht, rfl⟩, hrest, rfl⟩ := List.forall₂_cons_left_iff.1 h
      obtain ⟨y, hy, hfills⟩ := cmdParse_renders ht
      obtain ⟨ys, hys, hall⟩ := ih (List.cons_ne_nil d cs) hrest
      refine ⟨y :: ys, parseCmds_cons.2 ⟨y, (ys, bg), hy, hys, ?_⟩, .cons hfills hall⟩
      rw [hfills.background, Bool.false_or]

/-- **Parsing a rendered line** gives its commands, and the flag of the pipeline. -/
theorem parseLine_renders (h : p.Prints line) (glob : List Char → Except GlobErr (List (List Char))) :
    ∃ ys, parseLine glob line = .ok (ys, p.background) ∧
      List.Forall₂ (fun c y => c.1.Fills c.2 y) (flagged p.background p.commands) ys := by
  obtain ⟨texts, htexts, hpiped⟩ := scan_renders [] h.1 (.inl rfl)
    (Nat.zero_add line.body.length).symm
  have hpipe : pipedCmds line = .ok texts := hpiped
  obtain ⟨ys, hys, hall⟩ := parseCmds_renders p.nonempty (initCmds_renders htexts)
  refine ⟨ys, parseLine_ok.2 ⟨_, ?_, hys⟩, hall⟩
  show (pipedCmds line).bind _ = _
  rw [hpipe]
  show (bgFlag texts).map _ = _
  rw [bgFlag_renders p.nonempty htexts]
  rfl

theorem filled_of_flagged (h : List.Forall₂ (fun c y => c.1.Fills c.2 y) (flagged bg cs) ys) :
    List.Forall₂ (fun c y => ∃ b, c.Fills b y) cs ys := by
  induction cs generalizing ys with
  | nil => cases h; exact .nil
  | cons c cs ih =>
    cases cs with
    | nil =>
      obtain ⟨y, -, hy, ⟨⟩, rfl⟩ := List.forall₂_cons_left_iff.1 h
      exact .cons ⟨bg, hy⟩ .nil
    | cons d cs =>
      obtain ⟨y, ys, hy, hrest, rfl⟩ := List.forall₂_cons_left_iff.1 h
      exact .cons ⟨false, hy⟩ (ih hrest)

theorem getElem?_of_filled {c : Command} (h : List.Forall₂ (fun c y => ∃ b, c.Fills b y) cs ys)
    (hc : cs[i]? = some c) : ∃ y, ys[i]? = some y ∧ ∃ b, c.Fills b y := by
  induction h generalizing i with
  | nil => cases hc
  | @cons c' y _ _ hy _ ih =>
    cases i with
    | zero => cases hc; exact ⟨y, rfl, hy⟩
    | succ i => exact ih hc

theorem args_of_filled (h : List.Forall₂ (fun c y => ∃ b, c.Fills b y) cs ys) :
    ys.map Cmd.args = cs.map fun c => c.args.map Word.chars := by
  induction h with
  | nil => rfl
  | cons hy _ ih =>
    obtain ⟨_, hy⟩ := hy
    rw [List.map_cons, List.map_cons, hy.args, ih]

/-! ## The value of a pipeline -/

/-- What programs make of their input, given their arguments, and what files hold. -/
structure World (α : Type*) where
  program : List (List Char) → α → α
  contents : List Char → α

variable {α : Type*} {W : World α}

/-- What the first command reads. -/
def Pipeline.start (p : Pipeline) (W : World α) (terminal : α) : α :=
  match (p.commands.head p.nonempty).input with
  | some file => W.contents file.chars
  | none => terminal

/-- The programs, one after the other. -/
def Pipeline.value (p : Pipeline) (W : World α) (terminal : α) : α :=
  p.commands.foldl (fun x c => W.program (c.args.map Word.chars) x) (p.start W terminal)

/-- Where the last command writes. -/
def Pipeline.target (p : Pipeline) : File :=
  if (p.commands.getLast p.nonempty).output.isSome then .output (p.commands.length - 1) else .before

/-- What is read from and written to each file while the children run: a pipe delivers what is written
to it, an input file what it holds, and each child runs its program on its standard descriptors. -/
structure Runs (W : World α) (cmds : List Cmd) (l : Launch) (read write : File → α) : Prop where
  pipes : ∀ i, read (.readEnd i) = write (.writeEnd i)
  contents : ∀ (i : ℕ) (c : Cmd) (file : List Char), cmds[i]? = some c → c.inputFile = some file →
    read (.input i) = W.contents file
  runs : ∀ (i : ℕ) (c : Cmd) (t : FdTable) (f g : File), cmds[i]? = some c → l.children[i]? = some t →
    t 0 = some f → t 1 = some g → write g = W.program c.args (read f)

/-- The name of the first command. -/
def Pipeline.name (p : Pipeline) : List Char :=
  ((p.commands.head p.nonempty).args.head (p.commands.head p.nonempty).hasArg).chars

/-- A command whose name is no builtin goes to `handle_process`, with the commands after it. -/
theorem dispatch_pipeline (hx : xs[0]? = some x)
    (hfills : ∃ b, (p.commands.head p.nonempty).Fills b x) (hname : p.name ∉ builtins) :
    dispatch xs bg = some (.pipeline xs bg) := by
  obtain ⟨b, hb⟩ := hfills
  obtain ⟨xs, rfl⟩ : ∃ xs', xs = x :: xs' := by
    cases xs with
    | nil => cases hx
    | cons y xs => cases hx; exact ⟨xs, rfl⟩
  have hargs : x.args = p.name :: (p.commands.head p.nonempty).args.tail.map Word.chars := by
    rw [hb.args, Pipeline.name, ← List.map_cons, List.cons_head_tail]
  simp only [builtins, List.mem_cons, List.not_mem_nil, or_false, not_or] at hname
  obtain ⟨hexit, hcd, hdelep, hsb⟩ := hname
  unfold dispatch
  simp only [hargs, if_neg hexit, if_neg hcd, if_neg hdelep, if_neg hsb]

/-- The programs of the commands, by their numbers. -/
theorem foldl_range (W : World α) (ys : List Cmd) (x : α) :
    (List.range ys.length).foldl (fun x i => ys[i]?.elim x fun y => W.program y.args x) x =
      (ys.map Cmd.args).foldl (fun x args => W.program args x) x := by
  induction ys using List.reverseRecOn with
  | nil => rfl
  | append_singleton ys y ih =>
    have hbefore : (List.range ys.length).foldl
        (fun x i => (ys ++ [y])[i]?.elim x fun y => W.program y.args x) x =
        (List.range ys.length).foldl (fun x i => ys[i]?.elim x fun y => W.program y.args x) x := by
      refine List.foldl_ext _ _ x fun x i hi => ?_
      rw [List.getElem?_append_left (List.mem_range.1 hi)]
    rw [List.length_append, List.length_singleton, List.range_succ, List.foldl_append, hbefore, ih,
      List.map_append, List.foldl_append, List.foldl_cons, List.foldl_nil, List.getElem?_concat_length]
    rfl

/-- The first command reads what the pipeline starts with. -/
theorem Runs.start {l : Launch} {read write : File → α} (h : Runs W xs l read write)
    (hx : xs[0]? = some x) (hfills : ∃ b, (p.commands.head p.nonempty).Fills b x) :
    read (source 0 x) = p.start W (read .before) := by
  obtain ⟨b, hb⟩ := hfills
  unfold source Pipeline.start
  rw [hb.inRedirect]
  cases hin : (p.commands.head p.nonempty).input with
  | none => rfl
  | some file => exact h.contents 0 x _ hx (by rw [hb.inputFile, hin]; rfl)

/-- The descriptors that are free one after the other for `twoCommands`. -/
def ascending : Kernel where
  inputFd _ := 3
  outputFd _ := 6
  readFd _ := 4
  writeFd _ := 5

end OsLab.Shell
