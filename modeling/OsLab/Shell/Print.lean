import OsLab.Shell.Model
import Mathlib.Data.List.Forall2

/-!
# Plain pipelines

A pipeline of plain commands can be written in many ways: the arguments and the redirections of a
command in any order, with spaces between them. `Text` relates a list of words and operators to the
texts in which they can be read.

* `scan_text`: `cmd_parse` finds the words and the operators of a text.
* `scan_renders`: `tokenise_on_pipe` finds the commands of a line.
* `parse_undoes_print`: the commands that `main` gets from any line of a pipeline.
-/

namespace OsLab.Shell

/-- The characters that no plain word has. -/
def specials : List Char := [' ', '\n', '\x00', '"', '\\', '<', '>', '&', '|', '*', '?']

/-- A plain word. -/
structure Word where
  chars : List Char
  nonempty : chars ≠ []
  plain : ∀ ch ∈ chars, ch ∉ specials

/-- A command: its arguments, and the files of its redirections. -/
structure Command where
  args : List Word
  input : Option Word
  output : Option Word
  hasArg : args ≠ []

/-- A pipeline, in the background or not. -/
structure Pipeline where
  commands : List Command
  background : Bool
  nonempty : commands ≠ []

/-! ## Texts -/

inductive Op where
  | less
  | greater
  | amp

def Op.char : Op → Char
  | .less => '<'
  | .greater => '>'
  | .amp => '&'

/-- What a command is written with. -/
inductive Lexeme where
  | op (o : Op)
  | word (w : Word)

def Lexeme.chars : Lexeme → List Char
  | .op o => [o.char]
  | .word w => w.chars

/-- The texts with these words and operators: spaces anywhere, and one at least between two words. -/
inductive Text : List Lexeme → List Char → Prop
  | nil : Text [] []
  | space {ls s} (h : Text ls s) : Text ls (' ' :: s)
  | op {ls s} (o : Op) (h : Text ls s) : Text (.op o :: ls) (o.char :: s)
  | word {ls s} (w : Word) (hs : ∀ ch ∈ s.head?, ch ∈ specials) (h : Text ls s) :
      Text (.word w :: ls) (w.chars ++ s)

/-- A part of a command. -/
inductive Item where
  | arg (w : Word)
  | input (w : Word)
  | output (w : Word)

def Item.lexemes : Item → List Lexeme
  | .arg w => [.word w]
  | .input w => [.op .less, .word w]
  | .output w => [.op .greater, .word w]

def Item.arg? : Item → Option Word
  | .arg w => some w
  | _ => none

def Item.input? : Item → Option Word
  | .input w => some w
  | _ => none

def Item.output? : Item → Option Word
  | .output w => some w
  | _ => none

/-- The parts of the command, in some order of the redirections. -/
structure Command.Consists (c : Command) (items : List Item) : Prop where
  args : items.filterMap Item.arg? = c.args
  input : items.filterMap Item.input? = c.input.toList
  output : items.filterMap Item.output? = c.output.toList

/-- The words and operators of a command, with an `&` at the end if `bg`. -/
def lexemes (items : List Item) (bg : Bool) : List Lexeme :=
  items.flatMap Item.lexemes ++ if bg then [.op .amp] else []

def Command.Renders (c : Command) (bg : Bool) (s : List Char) : Prop :=
  ∃ items, c.Consists items ∧ Text (lexemes items bg) s

/-- The commands of a pipeline, separated by pipes. -/
inductive Renders (bg : Bool) : List Command → List Char → Prop
  | last {c s} (h : c.Renders bg s) : Renders bg [c] s
  | pipe {c cs s t} (h : c.Renders false s) (ht : Renders bg cs t) :
      Renders bg (c :: cs) (s ++ '|' :: t)

/-- The line is a rendering of the pipeline, and a newline. -/
def Pipeline.Prints (p : Pipeline) (line : Line) : Prop :=
  Renders p.background p.commands line.body ∧ line.last = '\n'

/-- The commands of a pipeline, of which only the last can be in the background. -/
def flagged (bg : Bool) : List Command → List (Command × Bool)
  | [] => []
  | [c] => [(c, bg)]
  | c :: d :: cs => (c, false) :: flagged bg (d :: cs)

/-- The fields of a command that `cmd_parse` has filled in. -/
structure Command.Fills (c : Command) (bg : Bool) (x : Cmd) : Prop where
  args : x.args = c.args.map Word.chars
  inputFile : x.inputFile = c.input.map Word.chars
  inRedirect : x.inRedirect = c.input.isSome
  outputFile : x.outputFile = c.output.map Word.chars
  outRedirect : x.outRedirect = c.output.isSome
  background : x.background = bg

/-! ## The tokens of a text -/

/-- An ordinary character is appended to `temp`. -/
theorem parseStep_plain {prev : Option Char} {temp : List Char} {tokens : List (List Char)} {ch : Char}
    (h : ch ∉ specials) :
    parseStep ⟨.head, prev, temp, tokens⟩ ch = ⟨.head, some ch, temp ++ [ch], tokens⟩ := by
  simp only [specials, List.mem_cons, List.not_mem_nil, or_false, not_or] at h
  simp [parseStep, parseChain, h]

theorem scan_word {w : List Char} (hw : ∀ ch ∈ w, ch ∉ specials) (prev : Option Char)
    (temp : List Char) (tokens : List (List Char)) :
    ∃ prev', w.foldl parseStep ⟨.head, prev, temp, tokens⟩ = ⟨.head, prev', temp ++ w, tokens⟩ := by
  induction w generalizing prev temp with
  | nil => exact ⟨prev, by rw [List.append_nil]; rfl⟩
  | cons ch w ih =>
    obtain ⟨prev', hrest⟩ := ih (fun x hx => hw x (List.mem_cons_of_mem _ hx)) (some ch) (temp ++ [ch])
    refine ⟨prev', ?_⟩
    rw [List.foldl_cons, parseStep_plain (hw ch List.mem_cons_self), hrest, List.append_assoc]
    rfl

/-- **The words and the operators of a text** are its tokens. A word that is not over yet is in
`temp`. -/
theorem scan_text {ls : List Lexeme} {s : List Char} (h : Text ls s) {temp : List Char}
    (htemp : temp = [] ∨ ∀ ch ∈ s.head?, ch ∈ specials) (prev : Option Char)
    (tokens : List (List Char)) :
    parseEnd (s.foldl parseStep ⟨.head, prev, temp, tokens⟩) =
      .ok (pushTemp tokens temp ++ ls.map Lexeme.chars) := by
  induction h generalizing temp prev tokens with
  | nil => simp [parseEnd]
  | space _ ih =>
    rw [List.foldl_cons]
    have hstep : parseStep ⟨.head, prev, temp, tokens⟩ ' ' =
        ⟨.head, some ' ', [], pushTemp tokens temp⟩ := rfl
    rw [hstep, ih (.inl rfl)]
    simp [pushTemp]
  | @op ls s o _ ih =>
    have hstep : parseStep ⟨.head, prev, temp, tokens⟩ o.char =
        ⟨.head, some o.char, [], pushTemp tokens temp ++ [[o.char]]⟩ := by
      cases o <;> rfl
    rw [List.foldl_cons, hstep, ih (.inl rfl)]
    simp [pushTemp, Lexeme.chars]
  | @word ls s w hs _ ih =>
    -- no word is under way before this one
    have hempty : temp = [] := by
      rcases htemp with h | h
      · exact h
      · obtain ⟨ch, cs, hcs⟩ := List.exists_cons_of_ne_nil w.nonempty
        have hch : ch ∈ specials := h ch (by rw [hcs]; rfl)
        exact absurd hch (w.plain ch (by rw [hcs]; exact List.mem_cons_self))
    obtain ⟨prev', hw⟩ := scan_word w.plain prev temp tokens
    rw [List.foldl_append, hw, ih (.inr hs), hempty, List.nil_append]
    simp [pushTemp, w.nonempty, Lexeme.chars]

/-! ## The loop over the tokens -/

theorem Word.ne_op (w : Word) {ch : Char} (h : ch ∈ specials) : w.chars ≠ [ch] := by
  intro hw
  exact w.plain ch (by rw [hw]; exact List.mem_singleton_self ch) h

/-- What the loop does with a part of a command. -/
def Cmd.add (x : Cmd) : Item → Cmd
  | .arg w => { x with args := x.args ++ [w.chars] }
  | .input w => { x with inputFile := some w.chars, inRedirect := true }
  | .output w => { x with outputFile := some w.chars, outRedirect := true }

section Glob

variable {glob : List Char → Except GlobErr (List (List Char))}

variable (glob) in
theorem parseTokens_item (i : Item) (x : Cmd) (j : ℕ) (rest : List (List Char)) :
    ∃ j', parseTokens glob x j (i.lexemes.map Lexeme.chars ++ rest) =
      parseTokens glob (x.add i) j' rest := by
  cases i with
  | arg w =>
    have hstar : '*' ∉ w.chars := fun h => w.plain _ h (by decide)
    have hquestion : '?' ∉ w.chars := fun h => w.plain _ h (by decide)
    exact ⟨j + 1, parseTokens_word (w.ne_op (by decide)) (w.ne_op (by decide)) (w.ne_op (by decide))
      (not_or.2 ⟨hstar, hquestion⟩)⟩
  | input w =>
    exact ⟨j + 2, parseTokens_input (not_or.2 ⟨w.ne_op (by decide), w.ne_op (by decide)⟩)⟩
  | output w =>
    exact ⟨j + 2, parseTokens_output (not_or.2 ⟨w.ne_op (by decide), w.ne_op (by decide)⟩)⟩

variable (glob) in
theorem parseTokens_items (items : List Item) (x : Cmd) (j : ℕ) (rest : List (List Char)) :
    ∃ j', parseTokens glob x j ((items.flatMap Item.lexemes).map Lexeme.chars ++ rest) =
      parseTokens glob (items.foldl Cmd.add x) j' rest := by
  induction items generalizing x j with
  | nil => exact ⟨j, rfl⟩
  | cons i items ih =>
    obtain ⟨j₁, h₁⟩ := parseTokens_item glob i x j
      ((items.flatMap Item.lexemes).map Lexeme.chars ++ rest)
    obtain ⟨j₂, h₂⟩ := ih (x.add i) j₁
    refine ⟨j₂, ?_⟩
    rw [List.flatMap_cons, List.map_append, List.append_assoc, h₁, h₂]
    rfl

theorem add_args (items : List Item) (x : Cmd) :
    (items.foldl Cmd.add x).args = x.args ++ (items.filterMap Item.arg?).map Word.chars := by
  induction items generalizing x with
  | nil => simp
  | cons i items ih =>
    rw [List.foldl_cons, ih]
    cases i <;> simp [Cmd.add, Item.arg?, List.filterMap_cons]

/-- The last redirection of a kind counts. -/
theorem add_redirection {file : Cmd → Option (List Char)} {redirect : Cmd → Bool}
    {word? : Item → Option Word}
    (hsome : ∀ (x : Cmd) i w, word? i = some w →
      file (x.add i) = some w.chars ∧ redirect (x.add i) = true)
    (hnone : ∀ (x : Cmd) i, word? i = none →
      file (x.add i) = file x ∧ redirect (x.add i) = redirect x)
    (items : List Item) (x : Cmd) :
    file (items.foldl Cmd.add x) =
        ((items.filterMap word?).getLast?.map Word.chars).or (file x) ∧
      redirect (items.foldl Cmd.add x) =
        (redirect x || (items.filterMap word?).getLast?.isSome) := by
  induction items generalizing x with
  | nil => simp
  | cons i items ih =>
    rw [List.foldl_cons, (ih _).1, (ih _).2]
    cases hi : word? i with
    | none =>
      rw [(hnone x i hi).1, (hnone x i hi).2, List.filterMap_cons_none hi]
      exact ⟨rfl, rfl⟩
    | some w =>
      -- this redirection counts if no other follows
      rw [(hsome x i w hi).1, (hsome x i w hi).2, List.filterMap_cons_some hi, List.getLast?_cons]
      cases (items.filterMap word?).getLast? <;> simp

theorem add_input (items : List Item) (x : Cmd) :
    (items.foldl Cmd.add x).inputFile =
        ((items.filterMap Item.input?).getLast?.map Word.chars).or x.inputFile ∧
      (items.foldl Cmd.add x).inRedirect =
        (x.inRedirect || (items.filterMap Item.input?).getLast?.isSome) := by
  refine add_redirection (fun x i w hi => ?_) (fun x i hi => ?_) items x
  · cases i <;> cases hi
    exact ⟨rfl, rfl⟩
  · cases i <;> cases hi <;> exact ⟨rfl, rfl⟩

theorem add_output (items : List Item) (x : Cmd) :
    (items.foldl Cmd.add x).outputFile =
        ((items.filterMap Item.output?).getLast?.map Word.chars).or x.outputFile ∧
      (items.foldl Cmd.add x).outRedirect =
        (x.outRedirect || (items.filterMap Item.output?).getLast?.isSome) := by
  refine add_redirection (fun x i w hi => ?_) (fun x i hi => ?_) items x
  · cases i <;> cases hi
    exact ⟨rfl, rfl⟩
  · cases i <;> cases hi <;> exact ⟨rfl, rfl⟩

theorem add_background (items : List Item) (x : Cmd) :
    (items.foldl Cmd.add x).background = x.background := by
  induction items generalizing x with
  | nil => rfl
  | cons i items ih =>
    rw [List.foldl_cons, ih]
    cases i <;> rfl

/-- The parts of a command fill in its fields. -/
theorem Command.Consists.fills {c : Command} {items : List Item} (h : c.Consists items)
    (s : List Char) (bg : Bool) :
    c.Fills bg (items.foldl Cmd.add { cmdInit s with background := bg }) where
  args := by rw [add_args, h.args]; rfl
  inputFile := by rw [(add_input _ _).1, h.input]; cases c.input <;> rfl
  inRedirect := by rw [(add_input _ _).2, h.input]; cases c.input <;> rfl
  outputFile := by rw [(add_output _ _).1, h.output]; cases c.output <;> rfl
  outRedirect := by rw [(add_output _ _).2, h.output]; cases c.output <;> rfl
  background := add_background _ _

/-- **`cmd_parse` of a rendered command.** `tokenise_on_pipe` has set `background` already. -/
theorem cmdParse_renders {c : Command} {bg : Bool} {s : List Char} (h : c.Renders bg s) :
    ∃ y, cmdParse glob { cmdInit s with background := bg } = .ok y ∧ c.Fills bg y := by
  obtain ⟨items, hitems, htext⟩ := h
  have htokens : tokensOf s = .ok ((lexemes items bg).map Lexeme.chars) :=
    scan_text htext (.inl rfl) none []
  have hfills := hitems.fills s bg
  obtain ⟨j, hj⟩ := parseTokens_items glob items { cmdInit s with background := bg } 0
    ((if bg then [Lexeme.op .amp] else []).map Lexeme.chars)
  refine ⟨_, ?_, hfills⟩
  show (tokensOf s).bind (parseTokens glob { cmdInit s with background := bg } 0) = _
  rw [htokens, lexemes, List.map_append]
  refine hj.trans ?_
  generalize items.foldl Cmd.add { cmdInit s with background := bg } = y at hfills ⊢
  cases bg with
  | false => rfl
  | true =>
    -- the `&` sets `background` again
    show parseTokens glob y j [['&']] = _
    rw [parseTokens_amp, ← hfills.background]

end Glob

/-! ## The commands of a line -/

theorem text_ordinary {ls : List Lexeme} {s : List Char} (h : Text ls s) :
    ∀ ch ∈ s, ch ≠ '"' ∧ ch ≠ '|' := by
  induction h with
  | nil => intro ch hch; exact absurd hch List.not_mem_nil
  | space _ ih =>
    intro ch hch
    rcases List.mem_cons.1 hch with rfl | hch
    · decide
    · exact ih ch hch
  | op o _ ih =>
    intro ch hch
    rcases List.mem_cons.1 hch with rfl | hch
    · cases o <;> decide
    · exact ih ch hch
  | word w _ _ ih =>
    intro ch hch
    rcases List.mem_append.1 hch with hch | hch
    · constructor <;> rintro rfl <;> exact w.plain _ hch (by decide)
    · exact ih ch hch

/-- A text has an `&` if it is one of its operators. -/
theorem amp_mem_text {ls : List Lexeme} {s : List Char} (h : Text ls s) :
    '&' ∈ s ↔ Lexeme.op .amp ∈ ls := by
  induction h with
  | nil => simp
  | space _ ih => simp [ih]
  | op o _ ih => cases o <;> simp [ih, Op.char]
  | word w _ _ ih =>
    have hw : '&' ∉ w.chars := fun h => w.plain _ h (by decide)
    simp [ih, hw]

theorem text_ne_nil {ls : List Lexeme} {s : List Char} (h : Text ls s) (hls : ls ≠ []) : s ≠ [] := by
  cases h with
  | nil => exact absurd rfl hls
  | space _ | op _ _ => exact List.cons_ne_nil _ _
  | word w _ _ =>
    intro hs
    exact w.nonempty (List.append_eq_nil_iff.1 hs).1

/-- The loop over spaces after a pipe. -/
theorem text_strip {ls : List Lexeme} {s : List Char} (h : Text ls s) :
    Text ls (s.dropWhile (· = ' ')) := by
  induction h with
  | nil => exact .nil
  | space _ ih => exact ih
  | op o h _ =>
    rw [List.dropWhile_cons_of_neg (by cases o <;> decide)]
    exact .op o h
  | @word ls s w hs h _ =>
    obtain ⟨ch, cs, hcs⟩ := List.exists_cons_of_ne_nil w.nonempty
    have hch : ch ≠ ' ' := by
      rintro rfl
      exact w.plain ' ' (by rw [hcs]; exact List.mem_cons_self) (by decide)
    have hhead : (w.chars ++ s).dropWhile (· = ' ') = w.chars ++ s := by
      rw [hcs, List.cons_append, List.dropWhile_cons_of_neg (by simpa using hch)]
    rw [hhead]
    exact .word w hs h

theorem Command.Consists.lexemes_ne_nil {c : Command} {items : List Item} (h : c.Consists items)
    (bg : Bool) : lexemes items bg ≠ [] := by
  intro hnil
  apply c.hasArg
  rw [← h.args]
  cases items with
  | nil => rfl
  | cons i items => cases i <;> simp [lexemes, Item.lexemes] at hnil

theorem Command.Renders.ne_nil {c : Command} {bg : Bool} {s : List Char} (h : c.Renders bg s) :
    s ≠ [] := by
  obtain ⟨items, hitems, htext⟩ := h
  exact text_ne_nil htext (hitems.lexemes_ne_nil bg)

theorem Renders.ne_nil {bg : Bool} {cs : List Command} {s : List Char} (h : Renders bg cs s) :
    s ≠ [] := by
  cases h with
  | last h => exact h.ne_nil
  | pipe h _ =>
    intro hs
    exact h.ne_nil (List.append_eq_nil_iff.1 hs).1

section Scan

variable {n i : ℕ} {pc : PipePc} {temp : List Char} {cmds : List (List Char)}

theorem pipeHead_ordinary {x : Pipe} {ch : Char} (hq : ch ≠ '"') (hb : ch ≠ '|') :
    pipeHead n x ch = .ok ⟨x.i + 1, .head, x.temp ++ [ch], x.cmds⟩ := by
  simp only [pipeHead, if_neg hq, if_neg hb]

theorem scan_head {s : List Char} (hs : ∀ ch ∈ s, ch ≠ '"' ∧ ch ≠ '|') :
    s.foldlM (pipeStep n) ⟨i, .head, temp, cmds⟩ = .ok ⟨i + s.length, .head, temp ++ s, cmds⟩ := by
  induction s generalizing i temp with
  | nil => simp; rfl
  | cons ch s ih =>
    obtain ⟨hq, hb⟩ := hs ch List.mem_cons_self
    have hstep : pipeStep n ⟨i, .head, temp, cmds⟩ ch = .ok ⟨i + 1, .head, temp ++ [ch], cmds⟩ :=
      pipeHead_ordinary hq hb
    rw [List.foldlM_cons, hstep]
    refine (ih fun x hx => hs x (List.mem_cons_of_mem _ hx)).trans ?_
    simp
    omega

theorem scan_skip {s : List Char} (hs : ∀ ch ∈ s, ch ≠ '"' ∧ ch ≠ '|')
    (hne : s.dropWhile (· = ' ') ≠ []) :
    s.foldlM (pipeStep n) ⟨i, .skip, [], cmds⟩ =
      .ok ⟨i + s.length, .head, s.dropWhile (· = ' '), cmds⟩ := by
  induction s generalizing i with
  | nil => exact absurd rfl hne
  | cons ch s ih =>
    have hrest : ∀ x ∈ s, x ≠ '"' ∧ x ≠ '|' := fun x hx => hs x (List.mem_cons_of_mem _ hx)
    by_cases hch : ch = ' '
    · subst hch
      rw [List.foldlM_cons]
      refine (ih (i := i + 1) hrest hne).trans ?_
      simp
      omega
    · -- the first character after the spaces
      obtain ⟨hq, hb⟩ := hs ch List.mem_cons_self
      have hstep : pipeStep n ⟨i, .skip, [], cmds⟩ ch = .ok ⟨i + 1, .head, [ch], cmds⟩ := by
        simp only [pipeStep, if_neg hch]
        exact pipeHead_ordinary hq hb
      rw [List.foldlM_cons, hstep]
      refine (scan_head hrest).trans ?_
      simp [hch]
      omega

variable (n i cmds) in
/-- The scan of one command, from the start of the line or after a pipe. -/
theorem scan_command {c : Command} {bg : Bool} {s : List Char} (h : c.Renders bg s)
    (hpc : pc = .head ∨ pc = .skip) :
    ∃ t, c.Renders bg t ∧ s.foldlM (pipeStep n) ⟨i, pc, [], cmds⟩ = .ok ⟨i + s.length, .head, t, cmds⟩ := by
  obtain ⟨items, hitems, htext⟩ := h
  rcases hpc with rfl | rfl
  · exact ⟨s, ⟨items, hitems, htext⟩, scan_head (text_ordinary htext)⟩
  · have hstrip := text_strip htext
    have hne := text_ne_nil hstrip (hitems.lexemes_ne_nil bg)
    exact ⟨_, ⟨items, hitems, hstrip⟩, scan_skip (text_ordinary htext) hne⟩

variable (cmds) in
/-- **The scan of a line**: `tokenise_on_pipe` finds a text of each command. -/
theorem scan_renders {bg : Bool} {cs : List Command} {s : List Char} (h : Renders bg cs s)
    (hpc : pc = .head ∨ pc = .skip) (hn : n = i + s.length) :
    ∃ texts, List.Forall₂ (fun c t => c.1.Renders c.2 t) (flagged bg cs) texts ∧
      (s.foldlM (pipeStep n) ⟨i, pc, [], cmds⟩).bind pipeEnd = .ok (cmds ++ texts) := by
  induction h generalizing i pc cmds with
  | last h =>
    obtain ⟨t, ht, hscan⟩ := scan_command n i cmds h hpc
    refine ⟨[t], .cons ht .nil, ?_⟩
    rw [hscan]
    show Except.ok (pushTemp cmds t) = _
    rw [pushTemp, if_pos ht.ne_nil]
  | @pipe c cs s rest h hrest ih =>
    obtain ⟨t, ht, hscan⟩ := scan_command n i cmds h hpc
    have hpos := List.length_pos_iff.2 hrest.ne_nil
    rw [List.length_append, List.length_cons] at hn
    -- the pipe is not the last character, and there is a command before it
    have hbar : pipeStep n ⟨i + s.length, .head, t, cmds⟩ '|' =
        .ok ⟨i + s.length + 1, .skip, [], cmds ++ [t]⟩ := by
      have hlast : ¬ i + s.length + 1 = n := by omega
      simp [pipeStep, pipeHead, hlast, ht.ne_nil]
    obtain ⟨texts, htexts, hend⟩ := ih (i := i + s.length + 1) (cmds ++ [t]) (.inr rfl)
      (by omega)
    refine ⟨t :: texts, ?_, ?_⟩
    · cases cs with
      | nil => cases hrest
      | cons d cs => exact .cons ht htexts
    · rw [List.foldlM_append, hscan]
      show ((('|' :: rest).foldlM (pipeStep n) _).bind pipeEnd) = _
      rw [List.foldlM_cons, hbar]
      refine hend.trans ?_
      rw [List.append_assoc]
      rfl

end Scan

/-! ## The pipeline -/

/-- An `&` is in the text of a command in the background only. -/
theorem Command.Renders.amp_mem {c : Command} {bg : Bool} {s : List Char} (h : c.Renders bg s) :
    '&' ∈ s ↔ bg = true := by
  obtain ⟨items, -, htext⟩ := h
  have hitem : ∀ i : Item, Lexeme.op .amp ∉ i.lexemes := by
    intro i
    cases i <;> simp [Item.lexemes]
  rw [amp_mem_text htext, lexemes]
  cases bg <;> simp [hitem]

theorem bgFlag_renders {bg : Bool} {cs : List Command} {texts : List (List Char)} (hcs : cs ≠ [])
    (h : List.Forall₂ (fun c t => c.1.Renders c.2 t) (flagged bg cs) texts) :
    bgFlag texts = .ok bg := by
  induction cs generalizing texts with
  | nil => exact absurd rfl hcs
  | cons c cs ih =>
    cases cs with
    | nil =>
      obtain ⟨t, -, ht, ⟨⟩, rfl⟩ := List.forall₂_cons_left_iff.1 h
      have hdec : decide ('&' ∈ t) = bg := by simp [ht.amp_mem]
      rw [bgFlag, hdec]
    | cons d cs =>
      obtain ⟨t, texts, ht, hrest, rfl⟩ := List.forall₂_cons_left_iff.1 h
      have hflag := ih (List.cons_ne_nil d cs) hrest
      have hamp : '&' ∉ t := fun hmem => Bool.false_ne_true (ht.amp_mem.1 hmem)
      cases texts with
      | nil => cases cs <;> cases hrest
      | cons t' texts => rw [bgFlag, if_neg hamp, hflag]

theorem initCmds_renders {bg : Bool} {cs : List Command} {texts : List (List Char)}
    (h : List.Forall₂ (fun c t => c.1.Renders c.2 t) (flagged bg cs) texts) :
    List.Forall₂ (fun c x => ∃ t, c.1.Renders c.2 t ∧ x = { cmdInit t with background := c.2 })
      (flagged bg cs) (initCmds bg texts) := by
  induction cs generalizing texts with
  | nil => cases h; exact .nil
  | cons c cs ih =>
    cases cs with
    | nil =>
      obtain ⟨t, -, ht, ⟨⟩, rfl⟩ := List.forall₂_cons_left_iff.1 h
      exact .cons ⟨t, ht, rfl⟩ .nil
    | cons d cs =>
      obtain ⟨t, texts, ht, hrest, rfl⟩ := List.forall₂_cons_left_iff.1 h
      have hinit := ih hrest
      cases texts with
      | nil => cases cs <;> cases hrest
      | cons t' texts => exact .cons ⟨t, ht, rfl⟩ hinit

theorem length_flagged (bg : Bool) (cs : List Command) : (flagged bg cs).length = cs.length := by
  induction cs with
  | nil => rfl
  | cons c cs ih =>
    cases cs with
    | nil => rfl
    | cons d cs => rw [flagged, List.length_cons, ih]; rfl

/-- **Parse undoes print on plain pipelines.** From a rendering of a pipeline `tokenise_on_pipe`
makes one command for each of its commands, and `cmd_parse` fills in the fields of each. -/
theorem parse_undoes_print {p : Pipeline} {line : Line} (h : p.Prints line)
    (glob : List Char → Except GlobErr (List (List Char))) :
    ∃ cmds, tokeniseOnPipe line = .ok cmds ∧ cmds.length = p.commands.length ∧
      List.Forall₂ (fun c x => ∃ y, cmdParse glob x = .ok y ∧ c.1.Fills c.2 y)
        (flagged p.background p.commands) cmds := by
  obtain ⟨texts, htexts, hpiped⟩ := scan_renders [] h.1 (.inl rfl)
    (Nat.zero_add line.body.length).symm
  have hflag := bgFlag_renders p.nonempty htexts
  have hinit := initCmds_renders htexts
  have hpipe : pipedCmds line = .ok texts := hpiped
  refine ⟨initCmds p.background texts, ?_, ?_, ?_⟩
  · show (pipedCmds line).bind _ = _
    rw [hpipe]
    show (bgFlag texts).map _ = _
    rw [hflag]
    rfl
  · rw [← hinit.length_eq, length_flagged]
  · apply hinit.imp
    intro c x hx
    obtain ⟨t, ht, rfl⟩ := hx
    exact cmdParse_renders ht

def wordC : Word := ⟨['c'], by decide, by simp [specials]⟩

def wordI : Word := ⟨['i'], by decide, by simp [specials]⟩

/-- `c < i | c &`. -/
def twoCommands : Pipeline where
  commands := [⟨[wordC], some wordI, none, by decide⟩, ⟨[wordC], none, none, by decide⟩]
  background := true
  nonempty := by decide

/-- The pipeline `twoCommands`, with spaces at some places. -/
def twoCommandsLine : Line := ⟨['<', 'i', ' ', 'c', '|', ' ', 'c', '&', ' '], '\n', by decide⟩

theorem twoCommands_prints : twoCommands.Prints twoCommandsLine := by
  refine ⟨.pipe (s := ['<', 'i', ' ', 'c']) ?_ (.last ?_), rfl⟩
  · exact ⟨[.input wordI, .arg wordC], ⟨rfl, rfl, rfl⟩,
      .op .less (.word wordI (by simp [specials])
        (.space (.word wordC (by simp [specials]) .nil)))⟩
  · exact ⟨[.arg wordC], ⟨rfl, rfl, rfl⟩,
      .space (.word wordC (by simp [specials]) (.op .amp (.space .nil)))⟩

theorem parse_undoes_print_twoCommands :
    ∃ cmds, tokeniseOnPipe twoCommandsLine = .ok cmds ∧ cmds.length = 2 ∧
      List.Forall₂ (fun c x => ∃ y, cmdParse (fun _ => .error .nomatch) x = .ok y ∧ c.1.Fills c.2 y)
        (flagged true twoCommands.commands) cmds :=
  parse_undoes_print twoCommands_prints _

end OsLab.Shell
