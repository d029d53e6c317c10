import OsLab.Lib.Terminal
import OsLab.Shell.Editor

/-!
# What the line editor shows (`getCmd` of `editing.cpp`)

`getCmd` turns the echo of the terminal off, and prints for each key what is to change in the row, which
is wide enough here. The Right and the Left arrow move the cursor and nothing else, Ctrl-E goes right by
the length of the whole line from wherever the cursor is, and Backspace at the start of a line does not
move the rest of it.

* `display_step`: one key, from a row that shows the line with the cursor at the point.
* `screen_shows_iff`: the keys that keep it so, throughout a session.
* `plain_shown`: without Ctrl-A, Ctrl-E and the Left and the Right arrow it stays so.
-/

namespace OsLab.Shell.Editing

open Lib

/-! ## The output -/

/-- A key, with the two arrows that change no variable. -/
inductive Stroke where
  | key (k : Key)
  | right
  | left
  deriving DecidableEq

def Stroke.toKey : Stroke → Key
  | .key k => k
  | .right | .left => .other

/-- No control characters. -/
def AllPrintable (l : Text) : Prop := ∀ c ∈ l, 31 < c.toNat ∧ c.toNat < 127

instance (l : Text) : Decidable (AllPrintable l) := List.decidableBAll _ _

/-- A text that is printed, one glyph for each character. -/
def glyphs (l : Text) : Option (List Output) := if AllPrintable l then some (l.map .glyph) else none

/-- What the Up arrow prints: `len` is taken after the save, and the loop over it is made twice. -/
def Editor.upOutput (s : Editor) : Option (List Output) :=
  (if s.typing = true ∧ s.above = 1 then Editor.save { s with offset := s.above }
    else some { s with offset := s.above }).bind fun s =>
      let len := s.line.length
      if s.offset < s.history.length then
        s.recall.bind fun t =>
          (glyphs t.cmd).map fun e => Terminal.erases len ++ (Terminal.erases len ++ e)
      else some (Terminal.erases len)

def Editor.downOutput (s : Editor) : Option (List Output) :=
  s.down.bind fun t => (glyphs t.cmd).map fun e => Terminal.erases s.line.length ++ e

def Editor.backspaceOutput (s : Editor) : List Output :=
  match s.editMode with
  | .ctrlA => if s.left ≠ [] then Terminal.erases 1 else []
  | .ctrlE =>
    if s.right ≠ [] then Terminal.erases 1 else if s.cmd ≠ [] then Terminal.erases 1 else []
  | .none => if s.cmd ≠ [] then Terminal.erases 1 else []

def Editor.charOutput (s : Editor) (c : Char) : Option (List Output) :=
  (glyphs (s.char c).line).map fun e =>
    Terminal.erases s.line.length ++ e ++
      if s.editMode = .ctrlA then [.left (s.char c).cmd.length] else []

/-- What a round of the loop prints. -/
def Editor.output (s : Editor) : Stroke → Option (List Output)
  | .key (.char c) => s.charOutput c
  | .key .backspace => some s.backspaceOutput
  | .key .ctrlA => some (List.replicate s.line.length (.left 1))
  | .key .ctrlE => some (List.replicate s.line.length (.right 1))
  | .key .up => s.upOutput
  | .key .down => s.downOutput
  | .key .other => some []
  | .right => some [.right 1]
  | .left => some [.left 1]

/-- A round of the loop, with the row of the terminal. -/
def display (x : Editor × Terminal) (k : Stroke) : Option (Editor × Terminal) :=
  (x.1.output k).bind fun os => (x.1.press k.toKey).map fun s => (s, x.2.puts os)

/-! ## The condition -/

/-- The row shows the line, with the cursor at the point. -/
def Faithful (s : Editor) (t : Terminal) : Prop := t.Shows s.line s.buffer.before.length

/-- Nothing that one could see. -/
def Blank (l : Text) : Prop := ∀ c ∈ l, c = ' '

instance (l : Text) : Decidable (Blank l) := List.decidableBAll _ _

/-- The entry that the Up arrow finds when it has saved the line. -/
def Editor.lastEntry (s : Editor) : Text :=
  s.entry (if s.history.length = s.savedHistory then 0 else 1)

/-- `e` is written over the line, and then shown with what stays beside it. In the Ctrl-A mode the cursor
would be behind `e`, unless `e` is what was typed at the start; the rest of the line stays on the row
then, and has to look like `e`. -/
def Editor.Replaces (s : Editor) (e : Text) : Prop :=
  (s.editMode = .ctrlA → e = s.left ∧
    if e = [] then Blank s.cmd.tail
    else s.cmd ++ List.replicate e.length ' ' = e ++ List.replicate s.cmd.length ' ') ∧
  (s.editMode = .ctrlE → s.right = [])

instance (s : Editor) (e : Text) : Decidable (s.Replaces e) :=
  inferInstanceAs (Decidable ((_ → _) ∧ (_ → _)))

/-- What a key has to find:

* a character after Ctrl-A: some text behind the point, as a move by 0 is one by 1;
* Backspace: no text behind the point;
* Ctrl-E and Left: the cursor at the left end;
* an Up that saves the line: enough characters in `cmd` to get back to the left end, and nothing on the
  row from the cursor on, or it is written over;
* any other Up, and Down: nothing typed after Ctrl-E, and hardly ever the Ctrl-A mode
  (`Editor.Replaces`). -/
def Displays (s : Editor) : Stroke → Prop
  | .key (.char _) => s.editMode = .ctrlA → s.cmd ≠ []
  | .key .backspace => s.buffer.before ≠ [] → Blank s.buffer.after
  | .key .up =>
    if s.typing = true ∧ s.above = 1 then
      s.buffer.before.length ≤ 2 * s.cmd.length ∧
        Blank (s.line.drop (max s.lastEntry.length (max s.buffer.before.length 1)))
    else s.Replaces (s.entry s.above)
  | .key .down => s.Replaces (s.entry (s.offset - 1))
  | .key .ctrlE | .left => s.buffer.before = []
  | .key .ctrlA | .key .other => True
  | .right => False

instance (s : Editor) (k : Stroke) : Decidable (Displays s k) :=
  match k with
  | .key (.char _) => inferInstanceAs (Decidable (_ → _))
  | .key .backspace => inferInstanceAs (Decidable (_ → _))
  | .key .up => inferInstanceAs (Decidable (
      if s.typing = true ∧ s.above = 1 then
        s.buffer.before.length ≤ 2 * s.cmd.length ∧
          Blank (s.line.drop (max s.lastEntry.length (max s.buffer.before.length 1)))
      else s.Replaces (s.entry s.above)))
  | .key .down => inferInstanceAs (Decidable (s.Replaces _))
  | .key .ctrlE | .left => inferInstanceAs (Decidable (_ = _))
  | .key .ctrlA | .key .other => inferInstanceAs (Decidable True)
  | .right => inferInstanceAs (Decidable False)

/-! ## What every key keeps -/

variable {s : Editor} {t : Terminal} {k : Stroke} {c : Char} {e l : Text} {o : ℕ}

/-- The vector holds the history, and at most one line more; nothing in it or in the line has control
characters. -/
structure Editor.Running (s : Editor) : Prop where
  parted : s.Parted
  offset : s.offset < s.history.length
  savedLe : s.savedHistory ≤ s.history.length
  leSaved : s.history.length ≤ s.savedHistory + 1
  entries : ∀ e ∈ s.history, AllPrintable e
  line : AllPrintable s.line

theorem running_start {lines : List Text} (h : ∀ l ∈ lines, AllPrintable l) :
    (Editor.start lines).Running where
  parted := ⟨fun _ => rfl, fun _ => rfl⟩
  offset := List.length_pos_iff.2 (loadHistory_ne_nil lines)
  savedLe := Nat.le_refl _
  leSaved := Nat.le_succ _
  entries := by
    intro e he
    cases lines with
    | nil =>
      obtain rfl := List.mem_singleton.1 he
      exact fun c hc => absurd hc List.not_mem_nil
    | cons => exact h e he
  line := fun c hc => absurd hc List.not_mem_nil

theorem Editor.Running.entry (h : s.Running) (o : ℕ) : AllPrintable (s.entry o) := by
  unfold Editor.entry
  by_cases hlt : s.history.length - 1 - o < s.history.length
  · rw [List.getD_eq_getElem _ _ hlt]
    exact h.entries _ (List.getElem_mem hlt)
  · rw [List.getD_eq_default _ _ (Nat.le_of_not_lt hlt)]
    exact fun c hc => absurd hc List.not_mem_nil

theorem glyphs_eq (h : AllPrintable l) : glyphs l = some (l.map .glyph) := if_pos h

theorem mem_line : c ∈ s.line ↔ c ∈ s.left ∨ c ∈ s.cmd ∨ c ∈ s.right := by
  simp [Editor.line]

/-- Outside of the Ctrl-A mode the point is at the end. -/
theorem Editor.Parted.before_eq (h : s.Parted) (hm : s.editMode ≠ .ctrlA) :
    s.buffer.before = s.line := by
  have hafter : s.buffer.after = [] := by
    unfold Editor.buffer
    cases hmode : s.editMode with
    | ctrlA => exact absurd hmode hm
    | none | ctrlE => rfl
  rw [h.line, Buffer.text, hafter, List.append_nil]

theorem Editor.Parted.ctrlA (h : s.Parted) (hm : s.editMode = .ctrlA) :
    s.buffer.before = s.left ∧ s.line = s.left ++ s.cmd := by
  refine ⟨by rw [Editor.buffer, hm], ?_⟩
  rw [h.line, Editor.buffer, hm]
  rfl

theorem Editor.Parted.before_le (h : s.Parted) : s.buffer.before.length ≤ s.line.length := by
  rw [h.line, Buffer.text, List.length_append]
  exact Nat.le_add_right _ _

/-- An arrow key that puts `e` into `cmd`. -/
theorem Editor.Running.moved (h : s.Running) (ho : o < s.history.length) (he : AllPrintable e) :
    Editor.Running { s with offset := o, cmd := e } where
  parted := (h.parted.moved o e []).1
  offset := ho
  savedLe := h.savedLe
  leSaved := h.leSaved
  entries := h.entries
  line := by
    intro c hc
    rcases mem_line.1 hc with hc | hc | hc
    · exact h.line c (mem_line.2 (.inl hc))
    · exact he c hc
    · exact h.line c (mem_line.2 (.inr (.inr hc)))

/-! ## Characters and Backspace -/

/-- What `display` does with a key: `C` is the condition on it. -/
def DisplaysIff (s : Editor) (t : Terminal) (k : Stroke) (C : Prop) : Prop :=
  ∃ s' t', display (s, t) k = some (s', t') ∧ s'.Running ∧ (Faithful s' t' ↔ C)

theorem displaysIff_of {s' : Editor} {os : List Output} {C : Prop} (hout : s.output k = some os)
    (hpress : s.press k.toKey = some s') (hs : s'.Running) (hC : Faithful s' (t.puts os) ↔ C) :
    DisplaysIff s t k C := by
  refine ⟨s', t.puts os, ?_, hs, hC⟩
  rw [display, hout, Option.bind_some, hpress]
  rfl

/-- Only the text changes. -/
theorem Editor.Running.edited {s' : Editor} (h : s.Running) (hp : s'.Parted)
    (hh : s'.history = s.history) (ho : s'.offset = s.offset) (hs : s'.savedHistory = s.savedHistory)
    (hl : AllPrintable s'.line) : s'.Running where
  parted := hp
  offset := by rw [ho, hh]; exact h.offset
  savedLe := by rw [hs, hh]; exact h.savedLe
  leSaved := by rw [hs, hh]; exact h.leSaved
  entries := by rw [hh]; exact h.entries
  line := hl

theorem char_fields (s : Editor) (c : Char) : (s.char c).history = s.history ∧
    (s.char c).offset = s.offset ∧ (s.char c).savedHistory = s.savedHistory ∧
    (s.char c).editMode = s.editMode := by
  unfold Editor.char
  cases s.editMode <;> exact ⟨rfl, rfl, rfl, rfl⟩

theorem Editor.Running.char (h : s.Running) (c : Printable) : (s.char c).Running := by
  obtain ⟨hparted, hbuffer⟩ := h.parted.char c
  obtain ⟨hh, ho, hs, -⟩ := char_fields s c
  refine h.edited hparted hh ho hs fun d hd => ?_
  have hline := h.line
  rw [h.parted.line] at hline
  rw [hparted.line, hbuffer, Buffer.text, Buffer.insert] at hd
  rcases List.mem_append.1 hd with hd | hd
  · rcases List.mem_append.1 hd with hd | hd
    · exact hline d (List.mem_append_left _ hd)
    · obtain rfl := List.mem_singleton.1 hd
      exact c.2
  · exact hline d (List.mem_append_right _ hd)

theorem length_char (h : s.Parted) (c : Char) : (s.char c).line.length = s.line.length + 1 := by
  obtain ⟨hparted, hbuffer⟩ := h.char c
  rw [hparted.line, hbuffer, h.line]
  simp only [Buffer.insert, Buffer.text, List.length_append, List.length_singleton]
  omega

theorem display_char (h : s.Running) (hf : Faithful s t) (c : Printable) :
    DisplaysIff s t (.key (.char c)) (s.editMode = .ctrlA → s.cmd ≠ []) := by
  have hrun := h.char c
  have hmode := (char_fields s c).2.2.2
  have hlen := length_char h.parted c
  -- the line is erased from the cursor on to the left, and written again
  have hwritten := hf.rewritten h.parted.before_le (by omega : s.line.length ≤ (s.char c).line.length)
  have hout : s.output (.key (.char c)) = some (Terminal.erases s.line.length ++
      (s.char c).line.map .glyph ++
        if s.editMode = .ctrlA then [.left (s.char c).cmd.length] else []) := by
    show s.charOutput c = _
    rw [Editor.charOutput, glyphs_eq hrun.line]
    rfl
  refine displaysIff_of hout rfl hrun ?_
  unfold Faithful
  by_cases hm : s.editMode = .ctrlA
  · obtain ⟨hbefore, hline⟩ := hrun.parted.ctrlA (hmode.trans hm)
    have hcmd : (s.char c).cmd = s.cmd := by rw [Editor.char, hm]
    have hleft : 0 < (s.char c).left.length := by
      rw [Editor.char, hm]
      simp
    rw [if_pos hm, Terminal.puts_append, hbefore]
    -- back over the text behind the point
    have hback : ∀ p, ((t.puts (Terminal.erases s.line.length ++ (s.char c).line.map .glyph)).puts
        [.left (s.char c).cmd.length]).Shows (s.char c).line p ↔
          (s.char c).line.length - max (s.char c).cmd.length 1 = p := fun p => by
      constructor
      · intro hp
        rw [← hp.cursor, ← hwritten.cursor]
        rfl
      · rintro rfl
        refine ⟨hwritten.cells, ?_⟩
        rw [← hwritten.cursor]
        rfl
    rw [hback, hline, hcmd, List.length_append]
    constructor
    · intro hcur _ hnil
      rw [hnil, List.length_nil] at hcur
      omega
    · intro hcond
      have hpos := List.length_pos_iff.2 (hcond hm)
      omega
  · rw [if_neg hm, List.append_nil, hrun.parted.before_eq (by rw [hmode]; exact hm)]
    exact iff_of_true hwritten fun h => absurd h hm

theorem blank_iff : Blank l ↔ ∀ i, l.getD i ' ' = ' ' := by
  constructor
  · intro h i
    by_cases hi : i < l.length
    · rw [List.getD_eq_getElem _ _ hi]
      exact h _ (List.getElem_mem hi)
    · exact List.getD_eq_default _ _ (Nat.le_of_not_lt hi)
  · intro h c hc
    obtain ⟨i, hi, rfl⟩ := List.getElem_of_mem hc
    rw [← List.getD_eq_getElem _ ' ' hi]
    exact h i

theorem getD_append_iff (a b : Text) : (∀ i, (a ++ b).getD i ' ' = (a ++ e).getD i ' ') ↔
    ∀ i, b.getD i ' ' = e.getD i ' ' := by
  constructor
  · intro h i
    have hi := h (a.length + i)
    rwa [List.getD_append_right _ _ _ _ (Nat.le_add_right _ _),
      List.getD_append_right _ _ _ _ (Nat.le_add_right _ _), Nat.add_sub_cancel_left] at hi
  · intro h i
    rcases Nat.lt_or_ge i a.length with hi | hi
    · rw [List.getD_append _ _ _ _ hi, List.getD_append _ _ _ _ hi]
    · rw [List.getD_append_right _ _ _ _ hi, List.getD_append_right _ _ _ _ hi]
      exact h _

/-- A gap in front of a text does not show exactly if the text does not. -/
theorem gap_iff : (∀ i, (' ' :: l).getD i ' ' = l.getD i ' ') ↔ Blank l := by
  rw [blank_iff]
  constructor
  · intro h i
    induction i with
    | zero => exact (h 0).symm
    | succ i ih => exact (h (i + 1)).symm.trans ih
  · intro h i
    rw [h i]
    cases i with
    | zero => rfl
    | succ i => exact h i

theorem backspaceOutput_eq (s : Editor) :
    s.backspaceOutput = if s.buffer.before ≠ [] then Terminal.erases 1 else [] := by
  unfold Editor.backspaceOutput Editor.buffer
  cases s.editMode with
  | none | ctrlA => rfl
  | ctrlE =>
    by_cases hr : s.right = []
    · simp [Buffer.ofText, hr]
    · simp [Buffer.ofText, hr]

theorem display_backspace (h : s.Running) (hf : Faithful s t) :
    DisplaysIff s t (.key .backspace) (s.buffer.before ≠ [] → Blank s.buffer.after) := by
  obtain ⟨hparted, hbuffer⟩ := h.parted.backspace
  have hrun : s.backspace.Running := by
    have hline := h.line
    rw [h.parted.line] at hline
    have hfields : s.backspace.history = s.history ∧ s.backspace.offset = s.offset ∧
        s.backspace.savedHistory = s.savedHistory := by
      unfold Editor.backspace
      split <;> try split_ifs
      all_goals exact ⟨rfl, rfl, rfl⟩
    refine h.edited hparted hfields.1 hfields.2.1 hfields.2.2 fun c hc => ?_
    rw [hparted.line, hbuffer] at hc
    rcases List.mem_append.1 hc with hc | hc
    · exact hline c (List.mem_append_left _ ((List.dropLast_sublist _).subset hc))
    · exact hline c (List.mem_append_right _ hc)
  refine displaysIff_of (congrArg some (backspaceOutput_eq s)) rfl hrun ?_
  unfold Faithful at hf ⊢
  rw [hparted.line, hbuffer, Buffer.text, Buffer.backspace]
  rw [h.parted.line, Buffer.text] at hf
  dsimp only
  by_cases hb : s.buffer.before = []
  · rw [if_neg fun hne => hne hb, hb]
    rw [hb] at hf
    exact iff_of_true hf fun hne => absurd rfl hne
  · rw [if_pos hb, (hf.gap hb).iff, List.length_dropLast, getD_append_iff, gap_iff]
    exact ⟨fun hc _ => hc.2, fun hc => ⟨rfl, hc hb⟩⟩

/-! ## Moves -/

/-- The three texts are put together. -/
theorem Editor.Running.joined (h : s.Running) (m : EditMode) :
    Editor.Running { s with editMode := m, cmd := s.line, left := [], right := [] } := by
  have hline : Editor.line { s with editMode := m, cmd := s.line, left := [], right := [] } = s.line :=
    List.append_nil _
  exact h.edited ⟨fun _ => rfl, fun _ => rfl⟩ rfl rfl rfl (hline.symm ▸ h.line)

theorem display_ctrlA (h : s.Running) (hf : Faithful s t) :
    DisplaysIff s t (.key .ctrlA) True := by
  refine displaysIff_of rfl rfl (h.joined .ctrlA) (iff_of_true ?_ trivial)
  rw [Terminal.puts_lefts]
  refine ⟨fun i => ?_, ?_⟩
  · rw [hf.cells]
    exact congrArg (List.getD · i ' ') (List.append_nil _).symm
  · show t.cursor - s.line.length = 0
    have := h.parted.before_le
    rw [hf.cursor]
    omega

/-- The cursor goes right by the whole line. -/
theorem display_ctrlE (h : s.Running) (hf : Faithful s t) :
    DisplaysIff s t (.key .ctrlE) (s.buffer.before = []) := by
  refine displaysIff_of rfl rfl (h.joined .ctrlE) ?_
  have hline : Editor.line { s with editMode := .ctrlE, cmd := s.line, left := [], right := [] } =
      s.line := List.append_nil _
  have hbefore : (Editor.buffer
      { s with editMode := .ctrlE, cmd := s.line, left := [], right := [] }).before = s.line :=
    List.append_nil _
  unfold Faithful
  rw [Terminal.puts_rights, hline, hbefore, ← List.length_eq_zero_iff]
  constructor
  · intro hs
    have hcur : t.cursor + s.line.length = s.line.length := hs.cursor
    rw [hf.cursor] at hcur
    omega
  · intro hzero
    refine ⟨hf.cells, ?_⟩
    show t.cursor + s.line.length = s.line.length
    rw [hf.cursor, hzero, Nat.zero_add]

theorem display_right (h : s.Running) (hf : Faithful s t) : DisplaysIff s t .right False := by
  refine displaysIff_of rfl rfl h (iff_of_false (fun hs => ?_) id)
  have hcur : t.cursor + 1 = s.buffer.before.length := hs.cursor
  rw [hf.cursor] at hcur
  omega

theorem display_left (h : s.Running) (hf : Faithful s t) :
    DisplaysIff s t .left (s.buffer.before = []) := by
  refine displaysIff_of rfl rfl h ?_
  rw [← List.length_eq_zero_iff]
  constructor
  · intro hs
    have hcur : t.cursor - 1 = s.buffer.before.length := hs.cursor
    rw [hf.cursor] at hcur
    omega
  · intro hzero
    refine ⟨hf.cells, ?_⟩
    show t.cursor - 1 = s.buffer.before.length
    rw [hf.cursor, hzero]

/-! ## Entries of the history -/

theorem padded_iff : (∀ i, l.getD i ' ' = e.getD i ' ') ↔
    l ++ List.replicate e.length ' ' = e ++ List.replicate l.length ' ' := by
  have hpad : ∀ (a : Text) n i, (a ++ List.replicate n ' ').getD i ' ' = a.getD i ' ' := by
    intro a n i
    rcases Nat.lt_or_ge i a.length with hi | hi
    · rw [List.getD_append _ _ _ _ hi]
    · rw [List.getD_append_right _ _ _ _ hi, List.getD_eq_default a _ hi]
      exact blank_iff.1 (fun c hc => List.eq_of_mem_replicate hc) _
  constructor
  · intro h
    refine List.ext_getElem ?_ fun i h1 h2 => ?_
    · simp only [List.length_append, List.length_replicate, Nat.add_comm]
    · rw [← List.getD_eq_getElem _ ' ' h1, ← List.getD_eq_getElem _ ' ' h2, hpad, hpad]
      exact h i
  · intro h i
    rw [← hpad l e.length, h, hpad]

theorem blank_drop_iff (n : ℕ) : Blank (l.drop n) ↔ ∀ i, n ≤ i → l.getD i ' ' = ' ' := by
  rw [blank_iff]
  have hdrop : ∀ i, (l.drop n).getD i ' ' = l.getD (n + i) ' ' := fun i => by
    simp only [List.getD_eq_getElem?_getD, List.getElem?_drop]
  constructor
  · intro h i hi
    obtain ⟨k, rfl⟩ := Nat.exists_eq_add_of_le hi
    rw [← hdrop]
    exact h k
  · intro h i
    rw [hdrop]
    exact h _ (Nat.le_add_right _ _)

/-- The row after the entry `e` is written over a line, with the cursor at `p`. -/
def rowAfter (l e : Text) (p : ℕ) : Terminal :=
  ⟨fun i => if i < e.length then e.getD i ' ' else if i < max p 1 then ' ' else l.getD i ' ', e.length⟩

theorem rowAfter_of_end (l e : Text) : (rowAfter l e l.length).Shows e e.length := by
  refine ⟨fun i => ?_, rfl⟩
  show (if i < e.length then e.getD i ' ' else if i < max l.length 1 then ' ' else l.getD i ' ') = _
  split_ifs with h1 h2
  · rfl
  · exact (List.getD_eq_default _ _ (Nat.le_of_not_lt h1)).symm
  · rw [List.getD_eq_default l _ (by omega), List.getD_eq_default e _ (by omega)]

/-- After Ctrl-A, what was typed at the start has to be the entry, and the rest to look like it. -/
theorem rowAfter_start {a b : Text} : (rowAfter (a ++ b) e a.length).Shows (a ++ e) a.length ↔
    e = a ∧ if e = [] then Blank b.tail
      else b ++ List.replicate e.length ' ' = e ++ List.replicate b.length ' ' := by
  constructor
  · rintro ⟨hcells, hcursor⟩
    have hlen : e.length = a.length := hcursor
    obtain rfl : e = a := by
      refine List.ext_getElem hlen fun i h1 h2 => ?_
      have hi := hcells i
      rw [List.getD_append _ _ _ _ h2, List.getD_eq_getElem _ _ h2] at hi
      rw [← hi, ← List.getD_eq_getElem e ' ' h1]
      exact (if_pos h1).symm
    refine ⟨rfl, ?_⟩
    split_ifs with he
    · subst he
      rw [← List.drop_one, blank_drop_iff]
      intro i hi
      have hcell : (rowAfter b [] 0).cells i = b.getD i ' ' := by
        show (if i < 0 then ([] : Text).getD i ' ' else if i < max 0 1 then ' ' else b.getD i ' ') = _
        rw [if_neg (Nat.not_lt_zero i), if_neg (by omega)]
      rw [← hcell]
      exact hcells i
    · have hpos := List.length_pos_iff.2 he
      rw [← padded_iff, ← getD_append_iff e]
      intro i
      rcases Nat.lt_or_ge i e.length with hi | hi
      · rw [List.getD_append _ _ _ _ hi, List.getD_append _ _ _ _ hi]
      · have hcell : (rowAfter (e ++ b) e e.length).cells i = (e ++ b).getD i ' ' := by
          show (if i < e.length then e.getD i ' ' else if i < max e.length 1 then ' '
            else (e ++ b).getD i ' ') = _
          rw [if_neg (by omega), if_neg (by omega)]
        rw [← hcell]
        exact hcells i
  · rintro ⟨rfl, hrest⟩
    refine ⟨fun i => ?_, rfl⟩
    show (if i < e.length then e.getD i ' ' else if i < max e.length 1 then ' '
      else (e ++ b).getD i ' ') = _
    split_ifs at hrest with he
    · subst he
      rw [← List.drop_one, blank_drop_iff] at hrest
      rw [if_neg (by exact Nat.not_lt_zero i)]
      split_ifs with h1
      · rfl
      · exact hrest i (by rw [List.length_nil] at h1; omega)
    · have hpos := List.length_pos_iff.2 he
      rw [← padded_iff, ← getD_append_iff e] at hrest
      split_ifs with h1 h2
      · rw [List.getD_append _ _ _ _ h1]
      · omega
      · exact hrest i

/-- An entry is written over the line, and put into `cmd`. -/
theorem faithful_moved (h : s.Running) (hf : Faithful s t) {m : ℕ} (hm : s.line.length ≤ m)
    (o : ℕ) (e : Text) :
    Faithful { s with offset := o, cmd := e } (t.puts (Terminal.erases m ++ e.map .glyph)) ↔
      s.Replaces e := by
  have hle := h.parted.before_le
  have hrow : t.puts (Terminal.erases m ++ e.map .glyph) = rowAfter s.line e s.buffer.before.length :=
    hf.replaced (by omega) (fun h0 => List.length_eq_zero_iff.1 (by omega)) e
  have hmoved := (h.parted.moved o e []).1
  have hline : Editor.line { s with offset := o, cmd := e } = s.left ++ e ++ s.right := rfl
  have hmode' : Editor.editMode { s with offset := o, cmd := e } = s.editMode := rfl
  have hleft : Editor.left { s with offset := o, cmd := e } = s.left := rfl
  rw [hrow, Faithful]
  generalize ({ s with offset := o, cmd := e } : Editor) = s' at *
  unfold Editor.Replaces
  cases hmode : s.editMode with
  | none =>
    have hne : s.editMode ≠ .ctrlA := by rw [hmode]; decide
    rw [h.parted.left hne, h.parted.right (by rw [hmode]; decide), List.nil_append,
      List.append_nil] at hline
    rw [hmoved.before_eq (by rwa [hmode']), hline, h.parted.before_eq hne]
    exact iff_of_true (rowAfter_of_end _ _)
      ⟨fun h => absurd h (by decide), fun h => absurd h (by decide)⟩
  | ctrlE =>
    have hne : s.editMode ≠ .ctrlA := by rw [hmode]; decide
    rw [h.parted.left hne, List.nil_append] at hline
    rw [hmoved.before_eq (by rwa [hmode']), hline, h.parted.before_eq hne, (rowAfter_of_end _ _).iff]
    constructor
    · rintro ⟨hlen, -⟩
      rw [List.length_append] at hlen
      exact ⟨fun h => absurd h (by decide), fun _ => List.length_eq_zero_iff.1 (by omega)⟩
    · rintro ⟨-, hr⟩
      rw [hr rfl, List.append_nil]
      exact ⟨rfl, fun _ => rfl⟩
  | ctrlA =>
    obtain ⟨hbefore, hwhole⟩ := h.parted.ctrlA hmode
    rw [h.parted.right (by rw [hmode]; decide), List.append_nil] at hline
    rw [(hmoved.ctrlA (hmode'.trans hmode)).1, hleft, hline, hbefore, hwhole, rowAfter_start]
    exact ⟨fun h => ⟨fun _ => h, fun h => absurd h (by decide)⟩, fun h => h.1 rfl⟩

theorem display_down (h : s.Running) (hf : Faithful s t) :
    DisplaysIff s t (.key .down) (s.Replaces (s.entry (s.offset - 1))) := by
  have hlt : s.offset - 1 < s.history.length := Nat.lt_of_le_of_lt (Nat.sub_le _ _) h.offset
  have hdown := down_eq hlt
  have hprint := h.entry (s.offset - 1)
  have hout : s.output (.key .down) = some (Terminal.erases s.line.length ++
      (s.entry (s.offset - 1)).map .glyph) := by
    show s.downOutput = _
    rw [Editor.downOutput, hdown, Option.bind_some]
    dsimp only
    rw [glyphs_eq hprint]
    rfl
  exact displaysIff_of hout hdown (h.moved hlt hprint) (faithful_moved h hf (Nat.le_refl _) _ _)

/-- What the Up arrow prints, with the loop over `len` made twice. -/
theorem erased_twice (n : ℕ) (e : Text) :
    Terminal.erases n ++ (Terminal.erases n ++ e.map .glyph) =
      Terminal.erases (2 * n) ++ e.map .glyph := by
  rw [← List.append_assoc, ← Terminal.erases_add, Nat.two_mul]

/-- An Up that saves nothing. -/
theorem display_up (h : s.Running) (hf : Faithful s t) (hns : ¬ (s.typing = true ∧ s.above = 1)) :
    DisplaysIff s t (.key .up) (s.Replaces (s.entry s.above)) := by
  have hne : s.history ≠ [] := List.ne_nil_of_length_pos (Nat.zero_lt_of_lt h.offset)
  have hlt := above_lt hne
  have hprint := h.entry s.above
  have hout : s.output (.key .up) = some (Terminal.erases (2 * s.line.length) ++
      (s.entry s.above).map .glyph) := by
    show s.upOutput = _
    rw [Editor.upOutput, if_neg hns, Option.bind_some]
    dsimp only
    rw [if_pos hlt, recall_eq hlt, Option.bind_some]
    show (glyphs (s.entry s.above)).map _ = _
    rw [glyphs_eq hprint, ← erased_twice]
    rfl
  exact displaysIff_of hout (up_eq hne hns) (h.moved hlt hprint)
    (faithful_moved h hf (by omega) _ _)

/-! ## The Up that saves the line -/

/-- After the save, before the entry is put into `cmd`. -/
def Editor.saved (s : Editor) : Editor :=
  { s with
    offset := 1
    typing := false
    editMode := .none
    history := (if s.history.length = s.savedHistory then s.history ++ [s.line] else s.history).set
      s.savedHistory s.line
    left := []
    right := [] }

theorem saved_length (h : s.Running) :
    s.saved.history.length = s.savedHistory + 1 ∧ s.savedHistory < s.saved.history.length := by
  have h1 := h.savedLe
  have h2 := h.leSaved
  have hlen : s.saved.history.length = s.savedHistory + 1 := by
    show (List.set _ _ _).length = _
    rw [List.length_set]
    split_ifs with heq
    · rw [List.length_append, heq, List.length_singleton]
    · omega
  exact ⟨hlen, by omega⟩

theorem save_eq (h : s.Running) (ha : s.above = 1) :
    Editor.save { s with offset := s.above } = some s.saved := by
  have hlt := (saved_length h).2
  have hlen : s.saved.history.length =
      (if s.history.length = s.savedHistory then s.history ++ [s.line] else s.history).length :=
    List.length_set
  unfold Editor.save
  rw [ha]
  exact if_pos (hlen ▸ hlt)

theorem two_le_of_above (ha : s.above = 1) : 2 ≤ s.history.length := by
  unfold Editor.above at ha
  split_ifs at ha <;> omega

theorem saved_entry (h : s.Running) (ha : s.above = 1) : s.saved.entry 1 = s.lastEntry := by
  have hlen := (saved_length h).1
  have htwo := two_le_of_above ha
  have hle := h.leSaved
  rw [Editor.entry, hlen, Editor.lastEntry, Editor.entry]
  show (List.set _ _ _).getD _ _ = _
  simp only [List.getD_eq_getElem?_getD]
  rw [List.getElem?_set_ne (by have := h.savedLe; omega)]
  split_ifs with heq
  · rw [List.getElem?_append_left (by omega), heq]
    rfl
  · rw [show s.savedHistory + 1 = s.history.length by have := h.savedLe; omega]

theorem one_lt_saved (h : s.Running) (ha : s.above = 1) : 1 < s.saved.history.length := by
  have htwo := two_le_of_above ha
  have hle := h.leSaved
  have hlen := (saved_length h).1
  omega

theorem running_saved (h : s.Running) (ha : s.above = 1) (he : AllPrintable e) :
    Editor.Running { s.saved with cmd := e } where
  parted := ⟨fun _ => rfl, fun _ => rfl⟩
  offset := one_lt_saved h ha
  savedLe := Nat.le_of_lt (saved_length h).2
  leSaved := Nat.le_of_eq (saved_length h).1
  entries := by
    intro x hx
    rcases List.mem_or_eq_of_mem_set hx with hx | rfl
    · split_ifs at hx
      · rcases List.mem_append.1 hx with hx | hx
        · exact h.entries x hx
        · rw [List.mem_singleton.1 hx]
          exact h.line
      · exact h.entries x hx
    · exact h.line
  line := by
    have hline : Editor.line { s.saved with cmd := e } = e := List.append_nil e
    rw [hline]
    exact he

theorem rowAfter_blank (p : ℕ) : (rowAfter l e p).Shows e e.length ↔
    Blank (l.drop (max e.length (max p 1))) := by
  rw [blank_drop_iff]
  constructor
  · intro hs i hi
    have hcell : (rowAfter l e p).cells i = l.getD i ' ' := by
      show (if i < e.length then e.getD i ' ' else if i < max p 1 then ' ' else l.getD i ' ') = _
      rw [if_neg (by omega), if_neg (by omega)]
    rw [← hcell, hs.cells, List.getD_eq_default _ _ (by omega)]
  · intro hblank
    refine ⟨fun i => ?_, rfl⟩
    show (if i < e.length then e.getD i ' ' else if i < max p 1 then ' ' else l.getD i ' ') = _
    split_ifs with h1 h2
    · rfl
    · exact (List.getD_eq_default _ _ (Nat.le_of_not_lt h1)).symm
    · rw [List.getD_eq_default e _ (Nat.le_of_not_lt h1)]
      exact hblank i (by omega)

theorem recall_saved (h : s.Running) (ha : s.above = 1) :
    s.saved.recall = some { s.saved with cmd := s.lastEntry } := by
  rw [recall_eq (one_lt_saved h ha)]
  exact congrArg (fun e => some { s.saved with cmd := e }) (saved_entry h ha)

theorem up_saved (h : s.Running) (ht : s.typing = true) (ha : s.above = 1) :
    s.up = some { s.saved with cmd := s.lastEntry } := by
  rw [Editor.up, if_pos ⟨ht, ha⟩, save_eq h ha, Option.bind_some]
  exact (if_pos (one_lt_saved h ha)).trans (recall_saved h ha)

/-- `len` is only the length of `cmd` here. -/
theorem display_upSave (h : s.Running) (hf : Faithful s t) (ht : s.typing = true) (ha : s.above = 1) :
    DisplaysIff s t (.key .up) (s.buffer.before.length ≤ 2 * s.cmd.length ∧
      Blank (s.line.drop (max s.lastEntry.length (max s.buffer.before.length 1)))) := by
  have hprint : AllPrintable s.lastEntry := h.entry _
  have hline : s.saved.line = s.cmd := List.append_nil _
  have hout : s.output (.key .up) = some (Terminal.erases (2 * s.cmd.length) ++
      s.lastEntry.map .glyph) := by
    show s.upOutput = _
    rw [Editor.upOutput, if_pos ⟨ht, ha⟩, save_eq h ha, Option.bind_some]
    dsimp only
    rw [if_pos (by exact one_lt_saved h ha), recall_saved h ha, Option.bind_some]
    dsimp only
    rw [glyphs_eq hprint, hline, ← erased_twice]
    rfl
  refine displaysIff_of hout (up_saved h ht ha) (running_saved h ha hprint) ?_
  have hnew : Editor.line { s.saved with cmd := s.lastEntry } = s.lastEntry := List.append_nil _
  have hpoint : (Editor.buffer { s.saved with cmd := s.lastEntry }).before = s.lastEntry := rfl
  rw [Faithful, hnew, hpoint]
  by_cases hp : s.buffer.before.length ≤ 2 * s.cmd.length
  · have h0 : 2 * s.cmd.length = 0 → s.line = [] := by
      intro hzero
      have hcmd : s.cmd = [] := List.length_eq_zero_iff.1 (by omega)
      have hbefore : s.buffer.before = [] := List.length_eq_zero_iff.1 (by omega)
      by_cases hm : s.editMode = .ctrlA
      · obtain ⟨hb, hl⟩ := h.parted.ctrlA hm
        rw [hl, ← hb, hbefore, hcmd]
        rfl
      · rw [← h.parted.before_eq hm, hbefore]
    rw [hf.replaced hp h0]
    exact (rowAfter_blank _).trans (and_iff_right hp).symm
  · refine iff_of_false (fun hs => hp ?_) fun hc => hp hc.1
    have hcur := hs.cursor
    rw [Terminal.puts_append, Terminal.puts_glyphs, Terminal.puts_erases] at hcur
    dsimp only at hcur
    rw [hf.cursor] at hcur
    omega

/-! ## A session -/

/-- **One key**, from a row that shows the line with the cursor at the point. -/
theorem display_step (h : s.Running) (hf : Faithful s t) (k : Stroke) :
    DisplaysIff s t k (Displays s k) := by
  cases k with
  | key k =>
    cases k with
    | char c => exact display_char h hf c
    | backspace => exact display_backspace h hf
    | ctrlA => exact display_ctrlA h hf
    | ctrlE => exact display_ctrlE h hf
    | up =>
      unfold Displays
      split_ifs with hsave
      · exact display_upSave h hf hsave.1 hsave.2
      · exact display_up h hf hsave
    | down => exact display_down h hf
    | other => exact displaysIff_of rfl rfl h (iff_of_true hf trivial)
  | right => exact display_right h hf
  | left => exact display_left h hf

/-- The keys that leave `edit_mode` at 0, and the cursor to the text. -/
def Stroke.Plain : Stroke → Prop
  | .key .ctrlA | .key .ctrlE | .right | .left => False
  | _ => True

theorem displays_plain (h : s.Running) (hm : s.editMode = .none) (hk : k.Plain) : Displays s k := by
  have hbefore : s.buffer.before = s.line := h.parted.before_eq (by rw [hm]; decide)
  have hcmd : s.buffer.before = s.cmd := by rw [Editor.buffer, hm]; rfl
  have hafter : s.buffer.after = [] := by rw [Editor.buffer, hm]; rfl
  have hreplaces : ∀ e, s.Replaces e := fun e =>
    ⟨fun h => absurd (hm.symm.trans h) (by decide), fun h => absurd (hm.symm.trans h) (by decide)⟩
  cases k with
  | key k =>
    cases k with
    | char c => exact fun hA => absurd (hm.symm.trans hA) (by decide)
    | backspace =>
      intro _ c hc
      rw [hafter] at hc
      exact absurd hc List.not_mem_nil
    | up =>
      unfold Displays
      split_ifs
      · refine ⟨by rw [hcmd]; omega, fun c hc => ?_⟩
        rw [List.drop_eq_nil_of_le (by rw [hbefore]; omega)] at hc
        exact absurd hc List.not_mem_nil
      · exact hreplaces _
    | down => exact hreplaces _
    | other => exact trivial
    | ctrlA | ctrlE => exact hk.elim
  | right | left => exact hk.elim

theorem mode_plain {s' : Editor} {t' : Terminal} (h : s.Running) (hm : s.editMode = .none)
    (hk : k.Plain) (hd : display (s, t) k = some (s', t')) : s'.editMode = .none := by
  obtain ⟨os, -, hd⟩ := Option.bind_eq_some_iff.1 hd
  obtain ⟨u, hu, hd⟩ := Option.map_eq_some_iff.1 hd
  obtain ⟨rfl, -⟩ := Prod.mk.inj hd
  cases k with
  | key k =>
    cases k with
    | char c =>
      obtain rfl := Option.some.inj hu
      exact (char_fields s c).2.2.2.trans hm
    | backspace =>
      obtain rfl := Option.some.inj hu
      show s.backspace.editMode = _
      simp only [Editor.backspace, hm]
    | up =>
      have hne : s.history ≠ [] := List.ne_nil_of_length_pos (Nat.zero_lt_of_lt h.offset)
      by_cases hsave : s.typing = true ∧ s.above = 1
      · obtain rfl := Option.some.inj ((up_saved h hsave.1 hsave.2).symm.trans hu)
        rfl
      · obtain rfl := Option.some.inj ((up_eq hne hsave).symm.trans hu)
        exact hm
    | down =>
      have hlt : s.offset - 1 < s.history.length := Nat.lt_of_le_of_lt (Nat.sub_le _ _) h.offset
      obtain rfl := Option.some.inj ((down_eq hlt).symm.trans hu)
      exact hm
    | other =>
      obtain rfl := Option.some.inj hu
      exact hm
    | ctrlA | ctrlE => exact hk.elim
  | right | left => exact hk.elim

/-- **Without Ctrl-A, Ctrl-E, Left and Right** the row shows the line throughout. -/
theorem plain_shown {lines : List Text} (h : ∀ l ∈ lines, AllPrintable l) {keys : List Stroke}
    (hkeys : ∀ k ∈ keys, k.Plain) :
    Survives display (fun x => Faithful x.1 x.2) (.start lines, .blank) keys := by
  have hstart : Faithful (.start lines) .blank := ⟨fun _ => rfl, rfl⟩
  refine (survives_iff (I := fun (x : Editor × Terminal) => x.1.Running ∧ x.1.editMode = .none)
    (C := fun _ _ => True) (V := fun _ (k : Stroke) => k.Plain) (B := fun _ => True)
    (fun x k hI hP hk _ => ?_) (fun _ _ _ _ _ _ => trivial) ⟨running_start h, rfl⟩ hstart
    (called_of_forall hkeys _)).2 ⟨fun _ _ => trivial, along_true _ _⟩
  obtain ⟨s', t', hdisplay, hrun, hiff⟩ := display_step hI.1 hP k
  exact ⟨(s', t'), hdisplay, ⟨hrun, mode_plain hI.1 hI.2 hk hdisplay⟩,
    iff_true_intro (hiff.2 (displays_plain hI.1 hI.2 hk))⟩

end OsLab.Shell.Editing
