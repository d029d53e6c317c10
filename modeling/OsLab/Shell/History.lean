import OsLab.Shell.Editor
import OsLab.Lib.Lines
import OsLab.Lib.Vec
import Mathlib.Data.List.TakeWhile

/-!
# The history of the line editor (`getCmd` of `editing.cpp`)

A command is appended to `history.txt` with a newline. The next call reads the file with
`"%[^\n]\n"`, whose second newline takes any white space, also that at the start of the next line.
`offset` and `saved_history` are `int`s, and the size of the vector is not one.

* `reloads_iff`: what is read back is what was appended.
* `navigation_iff`: the arrow keys stay within the vector.
-/

namespace OsLab.Shell.Editing

open Lib

/-! ## The file -/

/-- `isspace`. -/
def isspace (c : Char) : Bool := c = ' ' ∨ (9 ≤ c.toNat ∧ c.toNat ≤ 13)

/-- What a call of `fscanf` leaves: the string in `buff`, the rest of the file, and `feof`. -/
structure Scan where
  buff : Text
  rest : Text
  feof : Bool

/-- `fscanf(fp, "%[^\n]\n", buff)`, where `buff` has 1024 zeros. Nothing is taken at a newline. -/
def scanLine (file : Text) : Option Scan :=
  let line := file.takeWhile (· ≠ '\n')
  if line = [] then some ⟨[], file, file.isEmpty⟩
  else if 1024 ≤ line.length then none
  else
    let rest := (file.dropWhile (· ≠ '\n')).dropWhile isspace
    some ⟨line.takeWhile (· ≠ '\x00'), rest, rest.isEmpty⟩

/-- `while (!feof(fp))`, with at most `fuel` rounds. -/
def loadLoop : ℕ → Text → Option (List Text)
  | 0, _ => none
  | fuel + 1, file => do
    let s ← scanLine file
    if s.feof then some [s.buff]
    else
      let history ← loadLoop fuel s.rest
      some (s.buff :: history)

/-- The vector `history` that is loaded from the file. -/
def Loads (file : Text) (history : List Text) : Prop := ∃ fuel, loadLoop fuel file = some history

/-- What a call of `getCmd` appends to the file. -/
def appendCmd (file cmd : Text) : Text := if 0 < cmd.length then file ++ cmd ++ ['\n'] else file

/-- A line that the editor can build, and `buff` can hold. -/
structure Command (l : Text) : Prop where
  nonempty : l ≠ []
  short : l.length < 1024
  printable : ∀ c ∈ l, 31 < c.toNat ∧ c.toNat < 127

/-- What is loaded from an empty file after these lines were appended is these lines. -/
def Reloads (lines : List Text) : Prop := Loads (lines.foldl appendCmd []) lines

/-! ## The arrow keys -/

/-- An `int` as a `size_t`. -/
def toSize (i : ℤ) : ℕ := (i % 2 ^ 64).toNat

/-- A `size_t` as an `int`. -/
def toInt (n : ℕ) : ℤ := (n + 2 ^ 31) % 2 ^ 32 - 2 ^ 31

/-- The variables of `getCmd`, where `offset` and `saved_history` are `int`s. -/
structure Session where
  offset : ℤ
  savedHistory : ℤ
  history : List Text
  typing : Bool
  editMode : EditMode
  left : Text
  cmd : Text
  right : Text

/-- Before the loop. -/
def Session.start (history : List Text) : Session where
  offset := 0
  savedHistory := toInt history.length
  history := history
  typing := true
  editMode := .none
  left := []
  cmd := []
  right := []

/-- `left + cmd + right`. -/
def Session.line (s : Session) : Text := s.left ++ s.cmd ++ s.right

/-- `cmd = history[history.size() - 1 - offset]`. -/
def Session.recall (s : Session) : Option Session :=
  s.history[toSize (s.history.length - 1 - s.offset)]?.map fun e => { s with cmd := e }

/-- The body of `if (typing && offset == 1)`. -/
def Session.save (s : Session) : Option Session :=
  let history := if s.history.length = toSize s.savedHistory then s.history ++ [s.line] else s.history
  if toSize s.savedHistory < history.length then
    some { s with
      typing := false
      editMode := .none
      history := history.set (toSize s.savedHistory) s.line
      left := []
      right := [] }
  else none

/-- `if (typing && offset == 1)`. -/
def Session.saveTyped (s : Session) : Option Session :=
  if s.typing = true ∧ s.offset = 1 then s.save else some s

/-- `offset++`, and no further than the first entry. -/
def Session.above (s : Session) : Option ℤ :=
  (addInt s.offset 1).map fun offset =>
    if s.history.length ≤ toSize offset then toInt (toSize (s.history.length - 1)) else offset

/-- The Up arrow. -/
def Session.up (s : Session) : Option Session := do
  let offset ← s.above
  let s ← Session.saveTyped { s with offset := offset }
  if toSize s.offset < s.history.length then s.recall else some s

/-- The Down arrow. -/
def Session.down (s : Session) : Option Session := do
  let offset ← addInt s.offset (-1)
  let s := { s with offset := if offset < 0 then 0 else offset }
  if 0 ≤ s.offset then s.recall else some s

/-- The same variables, with natural numbers. -/
def Session.editor (s : Session) : Editor where
  history := s.history
  savedHistory := s.savedHistory.toNat
  offset := s.offset.toNat
  typing := s.typing
  editMode := s.editMode
  left := s.left
  cmd := s.cmd
  right := s.right

/-- One round of the loop. Only the arrow keys look at the vector. -/
def Session.press (s : Session) : Key → Option Session
  | .up => s.up
  | .down => s.down
  | k => (s.editor.press k).map fun t =>
      { s with typing := t.typing, editMode := t.editMode, left := t.left, cmd := t.cmd, right := t.right }

/-- No index is outside the vector, whatever keys are pressed when the file has been loaded. -/
def Navigable (file : Text) : Prop :=
  ∀ history, Loads file history → ∀ keys, (run Session.press (.start history) keys).isSome

/-- The lines that are not blank. -/
def visibleLines (text : Text) : ℕ :=
  (text.splitOnP (· = '\n')).countP fun l => l.any fun c => !isspace c

/-- The first line, and the lines after it that are not blank. -/
def entryCount (file : Text) : ℕ := 1 + visibleLines (file.dropWhile (· ≠ '\n'))

section

variable {file rest : Text} {l : Text} {lines history : List Text} {c : Char} {fuel : ℕ}

/-! ## What is read back -/

theorem foldl_appendCmd (h : ∀ l ∈ lines, l ≠ []) :
    lines.foldl appendCmd file = file ++ (lines.map (· ++ ['\n'])).flatten := by
  induction lines generalizing file with
  | nil => simp
  | cons l lines ih =>
    have hpos : 0 < l.length := List.length_pos_iff.2 (h l List.mem_cons_self)
    rw [List.foldl_cons, ih fun a ha => h a (List.mem_cons_of_mem l ha), appendCmd, if_pos hpos]
    simp

theorem Command.noNewline (h : Command l) : ∀ c ∈ l, c ≠ '\n' := by
  rintro c hc rfl
  exact absurd (h.printable _ hc).1 (by decide)

theorem Command.noNul (h : Command l) : ∀ c ∈ l, c ≠ '\x00' := by
  rintro c hc rfl
  exact absurd (h.printable _ hc).1 (by decide)

/-- The first entry, and what the white space leaves of the rest. -/
theorem scanLine_command (h : Command l) (rest : Text) : scanLine (l ++ '\n' :: rest) =
    some ⟨l, rest.dropWhile isspace, (rest.dropWhile isspace).isEmpty⟩ := by
  have hline : (l ++ '\n' :: rest).takeWhile (· ≠ '\n') = l := by
    rw [List.takeWhile_append_of_pos fun c hc => by simpa using h.noNewline c hc]
    simp
  have hafter : (l ++ '\n' :: rest).dropWhile (· ≠ '\n') = '\n' :: rest := by
    rw [List.dropWhile_append_of_pos fun c hc => by simpa using h.noNewline c hc]
    simp
  have hbuff : l.takeWhile (· ≠ '\x00') = l :=
    List.takeWhile_eq_self_iff.2 fun c hc => by simpa using h.noNul c hc
  have hspace : ('\n' :: rest).dropWhile isspace = rest.dropWhile isspace :=
    List.dropWhile_cons_of_pos (by decide)
  unfold scanLine
  simp only [hline, hafter, hbuff, hspace]
  rw [if_neg h.nonempty, if_neg (not_le.2 h.short)]

/-- A round of the loop. -/
theorem loads_iff : Loads file history ↔ ∃ s more, scanLine file = some s ∧ history = s.buff :: more ∧
    if s.feof then more = [] else Loads s.rest more := by
  constructor
  · rintro ⟨fuel, h⟩
    cases fuel with
    | zero => exact absurd h (by simp [loadLoop])
    | succ fuel =>
      obtain ⟨s, hs, h⟩ := Option.bind_eq_some_iff.1 h
      by_cases heof : s.feof = true
      · rw [if_pos heof] at h
        cases h
        exact ⟨s, [], hs, rfl, by rw [if_pos heof]⟩
      · rw [if_neg heof] at h
        obtain ⟨more, hmore, h⟩ := Option.bind_eq_some_iff.1 h
        cases h
        exact ⟨s, more, hs, rfl, by rw [if_neg heof]; exact ⟨fuel, hmore⟩⟩
  · rintro ⟨s, more, hs, rfl, h⟩
    by_cases heof : s.feof = true
    · rw [if_pos heof] at h
      subst h
      exact ⟨1, by rw [loadLoop, hs, Option.bind_eq_bind, Option.bind_some, if_pos heof]⟩
    · rw [if_neg heof] at h
      obtain ⟨fuel, hmore⟩ := h
      refine ⟨fuel + 1, ?_⟩
      rw [loadLoop, hs, Option.bind_eq_bind, Option.bind_some, if_neg heof, hmore]
      rfl

theorem loads_command_iff (h : Command l) : Loads (l ++ '\n' :: rest) history ↔
    ∃ more, history = l :: more ∧
      if rest.dropWhile isspace = [] then more = [] else Loads (rest.dropWhile isspace) more := by
  rw [loads_iff]
  constructor
  · rintro ⟨s, more, hs, rfl, hmore⟩
    rw [scanLine_command h] at hs
    cases hs
    exact ⟨more, rfl, by simpa only [List.isEmpty_iff] using hmore⟩
  · rintro ⟨more, rfl, hmore⟩
    exact ⟨_, more, scanLine_command h rest, rfl, by simpa only [List.isEmpty_iff] using hmore⟩

/-- A call of `fscanf` that does not stand at a newline. -/
theorem scanLine_cons {s : Scan} (hc : c ≠ '\n') (h : scanLine (c :: rest) = some s) :
    s.buff = (c :: rest.takeWhile (· ≠ '\n')).takeWhile (· ≠ '\x00') ∧
      s.rest = (rest.dropWhile (· ≠ '\n')).dropWhile isspace ∧ s.feof = s.rest.isEmpty := by
  have hline : (c :: rest).takeWhile (· ≠ '\n') = c :: rest.takeWhile (· ≠ '\n') :=
    List.takeWhile_cons_of_pos (by simpa using hc)
  have hafter : (c :: rest).dropWhile (· ≠ '\n') = rest.dropWhile (· ≠ '\n') :=
    List.dropWhile_cons_of_pos (by simpa using hc)
  unfold scanLine at h
  simp only [hline, hafter] at h
  rw [if_neg (List.cons_ne_nil _ _)] at h
  split_ifs at h
  cases h
  exact ⟨rfl, rfl, rfl⟩

theorem not_isspace_newline (h : isspace c ≠ true) : c ≠ '\n' := by
  rintro rfl
  exact h (by decide)

/-- What the white space leaves is nothing, or does not begin with white space. -/
theorem dropWhile_isspace_cases (rest : Text) : rest.dropWhile isspace = [] ∨
    ∃ c more, rest.dropWhile isspace = c :: more ∧ isspace c ≠ true := by
  cases hdrop : rest.dropWhile isspace with
  | nil => exact .inl rfl
  | cons c more =>
    have hc := List.head_dropWhile_not isspace (l := rest) (by rw [hdrop]; exact List.cons_ne_nil _ _)
    simp only [hdrop, List.head_cons] at hc
    exact .inr ⟨c, more, rfl, by rw [hc]; decide⟩

/-- No entry but the first begins with a space. -/
theorem loads_head_ne_space (hrest : rest.dropWhile isspace ≠ [])
    (h : Loads (rest.dropWhile isspace) (l :: lines)) : l.head? ≠ some ' ' := by
  rcases dropWhile_isspace_cases rest with hnil | ⟨c, more, hcons, hc⟩
  · exact absurd hnil hrest
  obtain ⟨s, _, hs, heq, -⟩ := loads_iff.1 h
  obtain ⟨rfl, -⟩ := List.cons.inj heq
  rw [hcons] at hs
  rw [(scanLine_cons (not_isspace_newline hc) hs).1, List.takeWhile_cons]
  split_ifs
  · rw [List.head?_cons]
    rintro ⟨rfl⟩
    exact hc (by decide)
  · exact fun hnone => by cases hnone

theorem Command.dropWhile_isspace (h : Command l) (hhead : l.head? ≠ some ' ') (rest : Text) :
    (l ++ rest).dropWhile isspace = l ++ rest := by
  obtain ⟨c, more, rfl⟩ := List.exists_cons_of_ne_nil h.nonempty
  have hc := h.printable c List.mem_cons_self
  refine List.dropWhile_cons_of_neg ?_
  have hne : c ≠ ' ' := fun heq => hhead (by rw [heq]; rfl)
  have hle : ¬ c.toNat ≤ 13 := by omega
  simp [isspace, hne, hle]

/-- The lines are loaded if no line but the first begins with a space. -/
theorem loads_commands_iff (hne : lines ≠ []) (h : ∀ l ∈ lines, Command l) :
    Loads (lines.map (· ++ ['\n'])).flatten lines ↔ ∀ l ∈ lines.tail, l.head? ≠ some ' ' := by
  induction lines with
  | nil => exact absurd rfl hne
  | cons l lines ih =>
    have hl := h l List.mem_cons_self
    have hstep : Loads ((l :: lines).map (· ++ ['\n'])).flatten (l :: lines) ↔
        if (lines.map (· ++ ['\n'])).flatten.dropWhile isspace = [] then lines = []
        else Loads ((lines.map (· ++ ['\n'])).flatten.dropWhile isspace) lines := by
      rw [List.map_cons, List.flatten_cons, List.append_assoc, List.singleton_append,
        loads_command_iff hl]
      simp
    rw [hstep, List.tail_cons]
    cases lines with
    | nil => simp
    | cons m lines =>
      have hm := h m (List.mem_cons_of_mem l List.mem_cons_self)
      by_cases hspace : m.head? = some ' '
      · refine iff_of_false (fun hload => ?_) fun hall => hall m List.mem_cons_self hspace
        split_ifs at hload with hnil
        exact loads_head_ne_space hnil hload hspace
      · have hdrop : ((m :: lines).map (· ++ ['\n'])).flatten.dropWhile isspace =
            ((m :: lines).map (· ++ ['\n'])).flatten := by
          rw [List.map_cons, List.flatten_cons, List.append_assoc]
          exact hm.dropWhile_isspace hspace _
        have hcons : ((m :: lines).map (· ++ ['\n'])).flatten ≠ [] := by simp
        rw [hdrop, if_neg hcons, ih (List.cons_ne_nil _ _) fun a ha => h a (List.mem_cons_of_mem l ha)]
        simp [hspace]

/-- **The history is read back** as it was appended if and only if no line but the first begins with a
space. -/
theorem reloads_iff (lines : List Text) (hne : lines ≠ []) (h : ∀ l ∈ lines, Command l) :
    Reloads lines ↔ ∀ l ∈ lines.tail, l.head? ≠ some ' ' := by
  rw [Reloads, foldl_appendCmd fun l hl => (h l hl).nonempty, List.nil_append,
    loads_commands_iff hne h]

/-- Two lines that are read back. -/
theorem reloads_twoLines : Reloads ["ls".toList, "echo a".toList] := by
  have hcommands : ∀ l ∈ ["ls".toList, "echo a".toList], Command l := by
    simp only [List.forall_mem_cons, List.not_mem_nil, false_imp_iff, implies_true, and_true]
    exact ⟨⟨by decide, by decide, forall_of_all (by decide)⟩,
      ⟨by decide, by decide, forall_of_all (by decide)⟩⟩
  exact (reloads_iff ["ls".toList, "echo a".toList] (by decide) hcommands).2 (by decide)

/-- **The space at the start of a line** is white space after the line before it. -/
theorem leading_space_lost :
    ¬ ∀ lines : List Text, lines ≠ [] → (∀ l ∈ lines, Command l) → Reloads lines := by
  intro hclaim
  have hcommands : ∀ l ∈ [['a'], [' ', 'b']], Command l := by
    simp only [List.forall_mem_cons, List.not_mem_nil, false_imp_iff, implies_true, and_true]
    exact ⟨⟨by decide, by decide, forall_of_all (by decide)⟩,
      ⟨by decide, by decide, forall_of_all (by decide)⟩⟩
  have hload := hclaim [['a'], [' ', 'b']] (by decide) hcommands
  rw [Reloads, foldl_appendCmd fun l hl => (hcommands l hl).nonempty, List.nil_append,
    loads_commands_iff (by decide) hcommands] at hload
  exact hload [' ', 'b'] (by decide) rfl

/-- The lines that the editor starts with. -/
theorem loads_loadHistory (h : ∀ l ∈ lines, Command l) (hhead : ∀ l ∈ lines.tail, l.head? ≠ some ' ') :
    Loads (lines.map (· ++ ['\n'])).flatten (loadHistory lines) := by
  cases lines with
  | nil => exact ⟨1, rfl⟩
  | cons l lines => exact (loads_commands_iff (List.cons_ne_nil _ _) h).2 hhead

/-! ## The size of the history -/

theorem visibleLines_cons_space (h : isspace c = true) (rest : Text) :
    visibleLines (c :: rest) = visibleLines rest := by
  unfold visibleLines
  rw [List.splitOnP_cons_eq_if_modifyHead]
  split_ifs
  · rw [List.countP_cons_of_neg (by simp)]
  · obtain ⟨l, lines, hsplit⟩ := List.exists_cons_of_ne_nil
      (List.splitOnP_ne_nil (fun c => decide (c = '\n')) rest)
    simp [hsplit, List.countP_cons, h]

theorem visibleLines_dropWhile (rest : Text) :
    visibleLines (rest.dropWhile isspace) = visibleLines rest := by
  induction rest with
  | nil => rfl
  | cons c rest ih =>
    by_cases h : isspace c = true
    · rw [List.dropWhile_cons_of_pos h, ih, visibleLines_cons_space h]
    · rw [List.dropWhile_cons_of_neg h]

/-- A line that does not begin with white space. -/
theorem visibleLines_cons (h : isspace c ≠ true) (rest : Text) :
    visibleLines (c :: rest) = entryCount (c :: rest) := by
  have hsplit : (c :: rest).takeWhile (· ≠ '\n') ++ (c :: rest).dropWhile (· ≠ '\n') = c :: rest :=
    List.takeWhile_append_dropWhile
  have hplain : ∀ a ∈ (c :: rest).takeWhile (· ≠ '\n'), decide (a = '\n') = false := by
    intro a ha
    simpa using List.mem_takeWhile_imp ha
  have hfirst : (c :: rest).takeWhile (· ≠ '\n') = c :: rest.takeWhile (· ≠ '\n') :=
    List.takeWhile_cons_of_pos (by simpa using not_isspace_newline h)
  have hone : [(c :: rest).takeWhile (· ≠ '\n')].countP (fun l => l.any fun c => !isspace c) = 1 := by
    rw [hfirst]
    simp [h]
  rw [entryCount]
  cases hafter : (c :: rest).dropWhile (· ≠ '\n') with
  | nil =>
    rw [hafter, List.append_nil] at hsplit
    rw [visibleLines, ← hsplit, List.splitOnP_eq_singleton hplain, hone]
    rfl
  | cons d after =>
    have hd := List.head_dropWhile_not (fun a => decide (a ≠ '\n')) (l := c :: rest)
      (by rw [hafter]; exact List.cons_ne_nil _ _)
    simp only [hafter, List.head_cons] at hd
    obtain rfl : d = '\n' := by simpa using hd
    have hnewline : visibleLines ('\n' :: after) = visibleLines after :=
      visibleLines_cons_space (by decide) after
    rw [hafter] at hsplit
    rw [hnewline, visibleLines, ← hsplit, List.splitOnP_append_cons _ _ (by decide),
      List.splitOnP_eq_singleton hplain, List.countP_append, hone, visibleLines]

/-- A file that begins with a newline is read for ever. -/
theorem not_loads_newline : ¬ Loads ('\n' :: rest) history := by
  induction history with
  | nil =>
    intro h
    obtain ⟨_, _, _, heq, -⟩ := loads_iff.1 h
    cases heq
  | cons l history ih =>
    intro h
    obtain ⟨s, more, hs, heq, hmore⟩ := loads_iff.1 h
    cases heq
    cases hs
    exact ih (by simpa using hmore)

/-- **The size of the vector** after the load. -/
theorem loads_length (h : Loads file history) : history.length = entryCount file := by
  induction history generalizing file with
  | nil =>
    obtain ⟨_, _, _, heq, -⟩ := loads_iff.1 h
    cases heq
  | cons l history ih =>
    obtain ⟨s, more, hs, heq, hmore⟩ := loads_iff.1 h
    cases heq
    cases file with
    | nil =>
      cases hs
      have hnil : history = [] := by simpa using hmore
      rw [hnil]
      rfl
    | cons c rest =>
      by_cases hc : c = '\n'
      · subst hc
        exact absurd h not_loads_newline
      obtain ⟨-, hrest, heof⟩ := scanLine_cons hc hs
      have hcount : entryCount (c :: rest) = 1 + visibleLines s.rest := by
        rw [entryCount, List.dropWhile_cons_of_pos (by simpa using hc), hrest, visibleLines_dropWhile]
      rw [heof, hrest] at hmore
      rw [List.length_cons, hcount, hrest, Nat.add_comm]
      rcases dropWhile_isspace_cases (rest.dropWhile (· ≠ '\n')) with hnil | ⟨d, after, hcons, hd⟩
      · rw [hnil] at hmore ⊢
        have hnil : history = [] := by simpa using hmore
        rw [hnil]
        rfl
      · rw [hcons] at hmore ⊢
        rw [ih (by simpa using hmore), visibleLines_cons hd]

/-! ## Within the range of `int` -/

/-- The variables of the editor, as `int`s. -/
def Session.ofEditor (e : Editor) : Session where
  offset := e.offset
  savedHistory := e.savedHistory
  history := e.history
  typing := e.typing
  editMode := e.editMode
  left := e.left
  cmd := e.cmd
  right := e.right

/-- The vector has the size it had after the load, or one more, and `offset` is an index of it. -/
structure Indexed (e : Editor) : Prop where
  saved : e.savedHistory ≤ e.history.length
  grown : e.history.length ≤ e.savedHistory + 1
  offset : e.offset < e.history.length

variable {e t : Editor} {k : Key}

theorem toSize_natCast {n : ℕ} (h : (n : ℤ) ≤ intMax) : toSize n = n := by
  unfold toSize
  unfold intMax at h
  omega

theorem toInt_eq {n : ℕ} (h : (n : ℤ) ≤ intMax) : toInt n = n := by
  unfold toInt
  unfold intMax at h
  omega

theorem Indexed.move (h : Indexed e) {o : ℕ} (ho : o < e.history.length) :
    Indexed { e with offset := o } := ⟨h.saved, h.grown, ho⟩

theorem Indexed.edit (h : Indexed e) (he : Edited e t) : Indexed t ∧ t.savedHistory = e.savedHistory := by
  obtain ⟨hsaved, hgrown, hoffset⟩ := h
  rw [← he.history] at hsaved hgrown hoffset
  rw [← he.savedHistory] at hsaved hgrown
  rw [← he.offset] at hoffset
  exact ⟨⟨hsaved, hgrown, hoffset⟩, he.savedHistory⟩

/-- The vector is one longer than it was after the load, and keeps its other elements. -/
theorem save_indexed (h : Indexed e) : ∃ t, e.save = some t ∧ Indexed t ∧
    t.savedHistory = e.savedHistory ∧ t.offset = e.offset := by
  obtain ⟨hsaved, hgrown, hoffset⟩ := h
  have hlen : (if e.history.length = e.savedHistory then e.history ++ [e.line] else e.history).length =
      e.savedHistory + 1 := by
    split_ifs with heq
    · rw [List.length_append, heq, List.length_singleton]
    · omega
  unfold Editor.save
  simp only [hlen]
  rw [if_pos (Nat.lt_succ_self _)]
  refine ⟨_, rfl, ⟨?_, ?_, ?_⟩, rfl, rfl⟩
  · simp only [List.length_set, hlen]
    omega
  · simp only [List.length_set, hlen]
    omega
  · simp only [List.length_set, hlen]
    omega

theorem recall_indexed (h : Indexed e) :
    ∃ t, e.recall = some t ∧ Indexed t ∧ t.savedHistory = e.savedHistory :=
  ⟨_, recall_eq h.offset, ⟨h.saved, h.grown, h.offset⟩, rfl⟩

/-- **A key** leaves the indices right. -/
theorem press_indexed (h : Indexed e) (k : Key) :
    ∃ t, e.press k = some t ∧ Indexed t ∧ t.savedHistory = e.savedHistory := by
  have hne : e.history ≠ [] := List.length_pos_iff.1 (Nat.zero_lt_of_lt h.offset)
  cases k with
  | up =>
    have habove := h.move (above_lt hne)
    obtain ⟨s, hs, hind, hsaved⟩ : ∃ s, (if e.typing = true ∧ e.above = 1 then
        Editor.save { e with offset := e.above } else some { e with offset := e.above }) = some s ∧
          Indexed s ∧ s.savedHistory = e.savedHistory := by
      split_ifs
      · obtain ⟨s, hs, hind, hsaved, -⟩ := save_indexed habove
        exact ⟨s, hs, hind, hsaved⟩
      · exact ⟨_, rfl, habove, rfl⟩
    obtain ⟨t, ht, hindt, hsavedt⟩ := recall_indexed hind
    refine ⟨t, ?_, hindt, hsavedt.trans hsaved⟩
    show e.up = some t
    rw [Editor.up, hs, Option.bind_some, if_pos hind.offset, ht]
  | down => exact recall_indexed (h.move (Nat.lt_of_le_of_lt (Nat.sub_le _ _) h.offset))
  | char c => exact ⟨_, rfl, h.edit (char_edited e c.1)⟩
  | backspace => exact ⟨_, rfl, h.edit (backspace_edited e)⟩
  | ctrlA | ctrlE | other => exact ⟨_, rfl, h.edit ⟨rfl, rfl, rfl, id⟩⟩

theorem recall_ofEditor (h : Indexed e) (hfits : (e.savedHistory : ℤ) < intMax) :
    (Session.ofEditor e).recall = e.recall.map Session.ofEditor := by
  obtain ⟨hsaved, hgrown, hoffset⟩ := h
  have hindex : toSize (e.history.length - 1 - e.offset) = e.history.length - 1 - e.offset := by
    have hcast : ((e.history.length : ℤ) - 1 - e.offset) = (e.history.length - 1 - e.offset : ℕ) := by
      omega
    rw [hcast, toSize_natCast (by omega)]
  unfold Session.recall Editor.recall
  rw [if_pos hoffset]
  show (e.history[toSize (e.history.length - 1 - e.offset)]?).map _ = _
  rw [hindex, Option.map_map]
  rfl

theorem save_ofEditor (hfits : (e.savedHistory : ℤ) < intMax) :
    (Session.ofEditor e).save = e.save.map Session.ofEditor := by
  have hsize : toSize (Session.ofEditor e).savedHistory = e.savedHistory := toSize_natCast (by omega)
  have hhistory : (Session.ofEditor e).history = e.history := rfl
  have hline : (Session.ofEditor e).line = e.line := rfl
  unfold Session.save Editor.save
  simp only [hsize, hhistory, hline]
  split_ifs <;> rfl

theorem above_ofEditor (h : Indexed e) (hfits : (e.savedHistory : ℤ) < intMax) :
    (Session.ofEditor e).above = some (e.above : ℤ) := by
  obtain ⟨hsaved, hgrown, hoffset⟩ := h
  have hmin : intMin ≤ 0 := by decide
  have hnext : ((e.offset : ℤ) + 1) = (e.offset + 1 : ℕ) := by omega
  have hlast : (e.history.length : ℤ) - 1 = (e.history.length - 1 : ℕ) := by omega
  have hadd : addInt (Session.ofEditor e).offset 1 = some ((e.offset + 1 : ℕ) : ℤ) :=
    addInt_eq_some.2 ⟨by omega, hnext.symm⟩
  have hsize : (Session.ofEditor e).history = e.history := rfl
  rw [Session.above, hadd, Option.map_some, hsize, hlast, toSize_natCast (by omega),
    toSize_natCast (by omega), toInt_eq (by omega), Editor.above]
  split_ifs <;> rfl

theorem up_ofEditor (h : Indexed e) (hfits : (e.savedHistory : ℤ) < intMax) :
    (Session.ofEditor e).up = e.up.map Session.ofEditor := by
  have hne : e.history ≠ [] := List.length_pos_iff.1 (Nat.zero_lt_of_lt h.offset)
  have habove := h.move (above_lt hne)
  have hone : (e.above : ℤ) = 1 ↔ e.above = 1 := by omega
  have hsaveTyped : Session.saveTyped (.ofEditor { e with offset := e.above }) =
      (if e.typing = true ∧ e.above = 1 then Editor.save { e with offset := e.above }
        else some { e with offset := e.above }).map Session.ofEditor := by
    show (if e.typing = true ∧ (e.above : ℤ) = 1 then _ else _) = _
    have hsave : (Session.ofEditor { e with offset := e.above }).save =
        (Editor.save { e with offset := e.above }).map Session.ofEditor := save_ofEditor hfits
    simp only [hone]
    rw [hsave]
    split_ifs <;> rfl
  have hend : ∀ t, Indexed t → t.savedHistory = e.savedHistory →
      (if toSize (Session.ofEditor t).offset < (Session.ofEditor t).history.length then
        (Session.ofEditor t).recall else some (Session.ofEditor t)) =
      (if t.offset < t.history.length then t.recall else some t).map Session.ofEditor := by
    intro t ht hsaved
    have hsize : toSize (Session.ofEditor t).offset = t.offset := by
      have := ht.offset
      have := ht.grown
      exact toSize_natCast (by omega)
    have hhistory : (Session.ofEditor t).history = t.history := rfl
    rw [hsize, hhistory, if_pos ht.offset, if_pos ht.offset, recall_ofEditor ht (by omega)]
  rw [Session.up, above_ofEditor h hfits, Option.bind_eq_bind, Option.bind_some]
  show (Session.saveTyped (.ofEditor { e with offset := e.above })).bind _ = _
  rw [hsaveTyped, Editor.up]
  split_ifs
  · obtain ⟨t, ht, hind, hsaved, -⟩ := save_indexed habove
    rw [ht, Option.map_some, Option.bind_some, Option.bind_some]
    exact hend t hind hsaved
  · rw [Option.map_some, Option.bind_some, Option.bind_some]
    exact hend _ habove rfl

theorem down_ofEditor (h : Indexed e) (hfits : (e.savedHistory : ℤ) < intMax) :
    (Session.ofEditor e).down = e.down.map Session.ofEditor := by
  have hgrown := h.grown
  have hoffset := h.offset
  have hmin : intMin ≤ -1 := by decide
  have hadd : addInt (Session.ofEditor e).offset (-1) = some ((e.offset : ℤ) + -1) :=
    addInt_eq_some.2 ⟨by omega, rfl⟩
  have hbelow : (if (e.offset : ℤ) + -1 < 0 then 0 else (e.offset : ℤ) + -1) = (e.offset - 1 : ℕ) := by
    split_ifs <;> omega
  have hmoved : ({ Session.ofEditor e with offset := ((e.offset - 1 : ℕ) : ℤ) } : Session) =
      Session.ofEditor { e with offset := e.offset - 1 } := rfl
  rw [Session.down, hadd, Option.bind_eq_bind, Option.bind_some]
  simp only [hbelow, hmoved]
  rw [if_pos (Int.natCast_nonneg _), Editor.down]
  exact recall_ofEditor (h.move (by omega)) hfits

theorem edit_ofEditor (h : Edited e t) :
    ({ Session.ofEditor e with typing := t.typing, editMode := t.editMode, left := t.left, cmd := t.cmd,
                               right := t.right } : Session) = Session.ofEditor t := by
  unfold Session.ofEditor
  rw [h.history, h.savedHistory, h.offset]

/-- **A key** does the same to both. -/
theorem press_ofEditor (h : Indexed e) (hfits : (e.savedHistory : ℤ) < intMax) (k : Key) :
    (Session.ofEditor e).press k = (e.press k).map Session.ofEditor := by
  cases k with
  | up => exact up_ofEditor h hfits
  | down => exact down_ofEditor h hfits
  | char c => exact congrArg some (edit_ofEditor (char_edited e c.1))
  | backspace => exact congrArg some (edit_ofEditor (backspace_edited e))
  | ctrlA | ctrlE | other => rfl

/-- **The keys** do the same to both, and find every index in range. -/
theorem run_ofEditor (h : Indexed e) (hfits : (e.savedHistory : ℤ) < intMax) (keys : List Key) :
    ∃ t, run Editor.press e keys = some t ∧
      run Session.press (.ofEditor e) keys = some (.ofEditor t) := by
  induction keys generalizing e with
  | nil => exact ⟨e, rfl, rfl⟩
  | cons k keys ih =>
    obtain ⟨u, hu, hind, hsaved⟩ := press_indexed h k
    obtain ⟨t, ht, hs⟩ := ih hind (by rw [hsaved]; exact hfits)
    have hpress := press_ofEditor h hfits k
    rw [hu, Option.map_some] at hpress
    exact ⟨t, run_cons_eq_some.2 ⟨u, hu, ht⟩, run_cons_eq_some.2 ⟨_, hpress, hs⟩⟩

theorem loads_ne_nil (h : Loads file history) : history ≠ [] := by
  obtain ⟨s, more, -, heq, -⟩ := loads_iff.1 h
  rw [heq]
  exact List.cons_ne_nil _ _

theorem start_eq (hne : history ≠ []) (hfits : (history.length : ℤ) ≤ intMax) :
    Session.start history = .ofEditor (.start history) := by
  obtain ⟨l, lines, rfl⟩ := List.exists_cons_of_ne_nil hne
  unfold Session.start
  rw [toInt_eq hfits]
  rfl

theorem start_indexed (lines : List Text) : Indexed (.start lines) where
  saved := Nat.le_refl _
  grown := Nat.le_succ _
  offset := List.length_pos_iff.2 (loadHistory_ne_nil lines)

/-! ## Past the range of `int` -/

variable {s u : Session} {n : ℕ}

/-- Every Up goes one entry further. -/
structure Far (s : Session) : Prop where
  size : intMax < s.history.length
  offset : 1 ≤ s.offset

theorem above_far (h0 : 0 ≤ s.offset) (hsize : s.offset < intMax → s.offset + 1 < s.history.length)
    {offset : ℤ} (h : s.above = some offset) : offset = s.offset + 1 ∧ offset ≤ intMax := by
  obtain ⟨next, hnext, rfl⟩ := Option.map_eq_some_iff.1 h
  obtain ⟨⟨-, hmax⟩, rfl⟩ := addInt_eq_some.1 hnext
  have hlt := hsize (by omega)
  obtain ⟨n, hn⟩ : ∃ n : ℕ, s.offset + 1 = n := ⟨(s.offset + 1).toNat, by omega⟩
  rw [hn] at hlt hmax ⊢
  rw [toSize_natCast hmax, if_neg (by omega)]
  exact ⟨rfl, hmax⟩

/-- What an Up has done. -/
theorem up_eq_some (h : s.up = some u) : ∃ offset v, s.above = some offset ∧
    Session.saveTyped { s with offset := offset } = some v ∧ u.offset = v.offset ∧
      u.history = v.history := by
  obtain ⟨offset, hoffset, h⟩ := Option.bind_eq_some_iff.1 h
  obtain ⟨v, hv, h⟩ := Option.bind_eq_some_iff.1 h
  refine ⟨offset, v, hoffset, hv, ?_⟩
  split_ifs at h
  · obtain ⟨text, -, rfl⟩ := Option.map_eq_some_iff.1 h
    exact ⟨rfl, rfl⟩
  · cases h
    exact ⟨rfl, rfl⟩

theorem save_eq_some (h : s.save = some u) : u.offset = s.offset ∧ u.history.length =
    if s.history.length = toSize s.savedHistory then s.history.length + 1 else s.history.length := by
  unfold Session.save at h
  simp only [Option.ite_none_right_eq_some, Option.some.injEq] at h
  obtain ⟨-, rfl⟩ := h
  refine ⟨rfl, ?_⟩
  simp only [List.length_set]
  split_ifs
  · simp
  · rfl

/-- The first Up. -/
theorem up_start (hsize : intMax ≤ history.length) (h : (Session.start history).up = some u) :
    Far u ∧ u.offset = 1 := by
  have hmax : 1 < intMax := by decide
  obtain ⟨offset, v, hoffset, hv, huo, huh⟩ := up_eq_some h
  have hlen : (Session.start history).history = history := rfl
  obtain ⟨rfl, -⟩ := above_far le_rfl (fun _ => by rw [hlen]; exact hmax.trans_le hsize) hoffset
  have hsave : Session.save { Session.start history with offset := 0 + 1 } = some v := by
    rwa [Session.saveTyped, if_pos ⟨rfl, rfl⟩] at hv
  obtain ⟨hvo, hvlen⟩ := save_eq_some hsave
  have hone : u.offset = 1 := huo.trans hvo
  refine ⟨⟨?_, hone.ge⟩, hone⟩
  rw [huh, hvlen]
  show intMax < ((if history.length = toSize (toInt history.length) then history.length + 1
    else history.length : ℕ) : ℤ)
  split_ifs with heq
  · omega
  · refine lt_of_le_of_ne hsize fun hmaxeq => heq ?_
    rw [toInt_eq hmaxeq.ge, toSize_natCast hmaxeq.ge]

theorem up_far (hs : Far s) (h : s.up = some u) :
    Far u ∧ u.offset = s.offset + 1 ∧ u.offset ≤ intMax := by
  obtain ⟨hsize, hone⟩ := hs
  obtain ⟨offset, v, habove, hv, huo, huh⟩ := up_eq_some h
  obtain ⟨rfl, hmax⟩ := above_far (by omega) (fun hlt => by omega) habove
  rw [Session.saveTyped, if_neg (by rintro ⟨-, heq⟩; simp only at heq; omega)] at hv
  cases hv
  exact ⟨⟨by rwa [huh], by rw [huo]; simp only; omega⟩, huo, by rwa [huo]⟩

theorem run_up_far (hs : Far s) (hmax : s.offset ≤ intMax)
    (h : run Session.press s (List.replicate n .up) = some u) : s.offset + n ≤ intMax := by
  induction n generalizing s with
  | zero => simpa using hmax
  | succ n ih =>
    rw [List.replicate_succ] at h
    obtain ⟨t, ht, h⟩ := run_cons_eq_some.1 h
    obtain ⟨hfar, hoffset, hmax⟩ := up_far hs ht
    have := ih hfar hmax h
    omega

/-- **Up is pressed** once more than there are `int`s for. -/
theorem run_up_none (hsize : intMax ≤ history.length) :
    run Session.press (.start history) (.up :: List.replicate intMax.toNat .up) = none := by
  rw [Option.eq_none_iff_forall_ne_some]
  intro u h
  obtain ⟨t, ht, h⟩ := run_cons_eq_some.1 h
  obtain ⟨hfar, hone⟩ := up_start hsize ht
  have hmax : 0 ≤ intMax := by decide
  have := run_up_far hfar (by rw [hone]; decide) h
  omega

/-- **The indices are in range**, whatever keys are pressed, if and only if the vector that is loaded is
shorter than `INT_MAX`. -/
theorem navigable_iff (file : Text) :
    Navigable file ↔ ((∃ history, Loads file history) → (entryCount file : ℤ) < intMax) := by
  constructor
  · rintro h ⟨history, hload⟩
    by_contra hle
    rw [← loads_length hload, not_lt] at hle
    have := h history hload (.up :: List.replicate intMax.toNat .up)
    rw [run_up_none hle] at this
    cases this
  · intro h history hload keys
    have hlt := h ⟨history, hload⟩
    rw [← loads_length hload] at hlt
    have hne := loads_ne_nil hload
    have hsaved : ((Editor.start history).savedHistory : ℤ) < intMax := by
      obtain ⟨l, lines, rfl⟩ := List.exists_cons_of_ne_nil hne
      exact hlt
    obtain ⟨t, -, hrun⟩ := run_ofEditor (start_indexed history) hsaved keys
    rw [start_eq hne hlt.le, hrun]
    rfl

/-- A file of `2 ^ 31` lines: `saved_history` is negative, and the first Up writes to that index. -/
theorem long_history_escapes : ¬ ∀ file, Navigable file := by
  intro hclaim
  have hcommands : ∀ l ∈ List.replicate (2 ^ 31) ['a'], Command l := by
    intro l hl
    rw [List.eq_of_mem_replicate hl]
    exact ⟨by decide, by decide, forall_of_all (by decide)⟩
  have hhead : ∀ l ∈ (List.replicate (2 ^ 31) ['a']).tail, l.head? ≠ some ' ' := by
    intro l hl
    rw [List.eq_of_mem_replicate (List.mem_of_mem_tail hl)]
    decide
  have hne : List.replicate (2 ^ 31) ['a'] ≠ [] := by
    rw [ne_eq, List.replicate_eq_nil_iff]
    decide
  have hsize : intMax ≤ (List.replicate (2 ^ 31) ['a']).length := by
    rw [List.length_replicate]
    decide
  have hkeys := hclaim _ _ ((loads_commands_iff hne hcommands).2 hhead)
    (.up :: List.replicate intMax.toNat .up)
  rw [run_up_none hsize] at hkeys
  cases hkeys

end

end OsLab.Shell.Editing
