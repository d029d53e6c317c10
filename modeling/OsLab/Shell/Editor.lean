import OsLab.Lib.Machine
import OsLab.Lib.Buffer
import Mathlib.Data.List.GetD

/-!
# The line editor (`getCmd` of `editing.cpp`)

The text is `left + cmd + right`, and `edit_mode` says where a character goes. An arrow key puts an
entry of the vector `history` into `cmd`; the first Up appends the text that was being typed to it.
The reference editor has one buffer, and a list that it moves in.

* `getCmd_reference`: what the arrow keys have to find for the two to agree (`Safe`).
* `typed_text_lost`: the text that was being typed, with one entry in the history.
-/

namespace OsLab.Shell.Editing

open Lib

/-- What the last branch of the loop takes. -/
abbrev Printable := { c : Char // 31 < c.toNat ∧ c.toNat < 127 }

/-- `edit_mode`: 0, `CTRL_A` or `CTRL_E`. -/
inductive EditMode where
  | none
  | ctrlA
  | ctrlE
  deriving DecidableEq

/-- A round of the loop that does not end it. `other` is one that changes no variable: the Right and
the Left arrow, and what no branch takes. -/
inductive Key where
  | char (c : Printable)
  | backspace
  | ctrlA
  | ctrlE
  | up
  | down
  | other
  deriving DecidableEq

abbrev Text := List Char

/-- The variables of `getCmd`. -/
structure Editor where
  history : List Text
  savedHistory : ℕ
  offset : ℕ
  typing : Bool
  editMode : EditMode
  left : Text
  cmd : Text
  right : Text
  deriving DecidableEq

/-- The vector `history` after the load of these lines. An empty file gives one empty entry. -/
def loadHistory : List Text → List Text
  | [] => [[]]
  | lines => lines

/-- Before the loop. -/
def Editor.start (lines : List Text) : Editor where
  history := loadHistory lines
  savedHistory := (loadHistory lines).length
  offset := 0
  typing := true
  editMode := .none
  left := []
  cmd := []
  right := []

/-- `left + cmd + right`. -/
def Editor.line (s : Editor) : Text := s.left ++ s.cmd ++ s.right

/-- `cmd = history[history.size() - 1 - offset]`, where the subtraction is unsigned. -/
def Editor.recall (s : Editor) : Option Editor :=
  if s.offset < s.history.length then
    (s.history[s.history.length - 1 - s.offset]?).map fun e => { s with cmd := e }
  else none

/-- The body of `if (typing && offset == 1)`. -/
def Editor.save (s : Editor) : Option Editor :=
  let history := if s.history.length = s.savedHistory then s.history ++ [s.line] else s.history
  if s.savedHistory < history.length then
    some { s with
      typing := false
      editMode := .none
      history := history.set s.savedHistory s.line
      left := []
      right := [] }
  else none

/-- `offset++`, and no further than the first entry. -/
def Editor.above (s : Editor) : ℕ :=
  if s.history.length ≤ s.offset + 1 then s.history.length - 1 else s.offset + 1

/-- The Up arrow. -/
def Editor.up (s : Editor) : Option Editor :=
  (if s.typing = true ∧ s.above = 1 then Editor.save { s with offset := s.above }
    else some { s with offset := s.above }).bind fun s =>
      if s.offset < s.history.length then s.recall else some s

/-- The Down arrow. -/
def Editor.down (s : Editor) : Option Editor := Editor.recall { s with offset := s.offset - 1 }

def Editor.backspace (s : Editor) : Editor :=
  match s.editMode with
  | .ctrlA => { s with left := s.left.dropLast }
  | .ctrlE =>
    if s.right ≠ [] then { s with right := s.right.dropLast } else { s with cmd := s.cmd.dropLast }
  | .none => { s with cmd := s.cmd.dropLast }

def Editor.char (s : Editor) (c : Char) : Editor :=
  match s.editMode with
  | .ctrlA => { s with typing := true, left := s.left ++ [c] }
  | .ctrlE => { s with typing := true, right := s.right ++ [c] }
  | .none => { s with typing := true, cmd := s.cmd ++ [c] }

/-- One round of the loop. -/
def Editor.press (s : Editor) : Key → Option Editor
  | .char c => some (s.char c)
  | .backspace => some s.backspace
  | .ctrlA => some { s with editMode := .ctrlA, cmd := s.line, left := [], right := [] }
  | .ctrlE => some { s with editMode := .ctrlE, cmd := s.line, left := [], right := [] }
  | .up => s.up
  | .down => s.down
  | .other => some s

/-- The command that is built when Enter follows the keys. -/
def getCmd (lines : List Text) (keys : List Key) : Option Text :=
  (run Editor.press (.start lines) keys).map Editor.line

/-! ## The reference editor -/

/-- A buffer, the history, the text that was being typed before the first Up, and the place in the
list of the two. -/
structure Reference where
  history : List Text
  typed : Option Text
  pos : ℕ
  buffer : Buffer Char

def Reference.start (lines : List Text) : Reference := ⟨lines, none, lines.length, .ofText []⟩

/-- The history, followed by the text being typed before the first Up. -/
def Reference.entries (r : Reference) : List Text := r.history ++ [r.typed.getD r.buffer.text]

/-- The whole text is replaced by the entry at `i`, with the point at its end. -/
def Reference.goTo (r : Reference) (i : ℕ) : Reference :=
  { r with pos := i, buffer := .ofText (r.entries.getD i []) }

def Reference.press (r : Reference) : Key → Reference
  | .char c => { r with buffer := r.buffer.insert c }
  | .backspace => { r with buffer := r.buffer.backspace }
  | .ctrlA => { r with buffer := r.buffer.toStart }
  | .ctrlE => { r with buffer := r.buffer.toEnd }
  | .up => Reference.goTo { r with typed := some (r.typed.getD r.buffer.text) } (r.pos - 1)
  | .down => r.goTo (min (r.pos + 1) r.history.length)
  | .other => r

/-- What the reference editor has at Enter. -/
def reference (lines : List Text) (keys : List Key) : Text :=
  (keys.foldl Reference.press (.start lines)).buffer.text

/-! ## The condition -/

/-- The entry `o` above the end of the vector. -/
def Editor.entry (s : Editor) (o : ℕ) : Text := s.history.getD (s.history.length - 1 - o) []

/-- Nothing of the earlier text stays beside `e`, and the point will be at its end. -/
def Editor.Bare (s : Editor) (e : Text) : Prop :=
  s.left = [] ∧ s.right = [] ∧ (s.editMode = .ctrlA → e = [])

/-- The last element of the vector happens to make up `l` with what stays beside it. -/
def Editor.MakesUp (s : Editor) (l : Text) : Prop :=
  s.left ++ s.entry 0 ++ s.right = l ∧ (s.editMode = .ctrlA → s.entry 0 = [])

/-- What a key has to find, with these lines in the history and this text before the first Up:

* an Up that saves the text: no other text was saved before;
* an arrow key to an entry of the history, or to the text that was saved: no earlier text beside it,
  and no Ctrl-A mode unless the entry is empty;
* a Down before the first Up, a Down with one line in the history, and an arrow key with none: these
  take the last element of the vector for the text being typed. -/
def Safe (lines : List Text) (typed : Option Text) (s : Editor) : Key → Prop
  | .up =>
    if s.typing = true ∧ s.offset = 0 ∧ 2 ≤ lines.length then ∀ d ∈ typed, s.line = d
    else if lines = [] then s.MakesUp (typed.getD s.line)
    else s.Bare (s.entry s.above)
  | .down =>
    if typed = none ∨ lines.length ≤ 1 then s.MakesUp (typed.getD s.line)
    else s.Bare (s.entry (s.offset - 1))
  | _ => True

instance (s : Editor) (e : Text) : Decidable (s.Bare e) := inferInstanceAs (Decidable (_ ∧ _ ∧ _))

instance (s : Editor) (l : Text) : Decidable (s.MakesUp l) := inferInstanceAs (Decidable (_ ∧ _))

instance (lines : List Text) (typed : Option Text) (s : Editor) (k : Key) :
    Decidable (Safe lines typed s k) :=
  match k with
  | .up => inferInstanceAs (Decidable (
      if s.typing = true ∧ s.offset = 0 ∧ 2 ≤ lines.length then ∀ d ∈ typed, s.line = d
      else if lines = [] then s.MakesUp (typed.getD s.line)
      else s.Bare (s.entry s.above)))
  | .down => inferInstanceAs (Decidable (
      if typed = none ∨ lines.length ≤ 1 then s.MakesUp (typed.getD s.line)
      else s.Bare (s.entry (s.offset - 1))))
  | .char _ | .backspace | .ctrlA | .ctrlE | .other => inferInstanceAs (Decidable True)

/-- The two editors side by side. -/
def pressBoth (x : Editor × Reference) (k : Key) : Option (Editor × Reference) :=
  (x.1.press k).map fun t => (t, x.2.press k)

/-- Each key finds what it has to find. -/
abbrev SafeKeys (x : Editor × Reference) (keys : List Key) : Prop :=
  Along pressBoth (fun x k => Safe x.2.history x.2.typed x.1 k) x keys

variable {s t : Editor} {r r' : Reference} {k : Key} {c : Char}

/-! ## The buffer of `getCmd` -/

/-- The text of the three variables, with the point where `edit_mode` puts it. -/
def Editor.buffer (s : Editor) : Buffer Char :=
  match s.editMode with
  | .none => .ofText s.cmd
  | .ctrlA => ⟨s.left, s.cmd⟩
  | .ctrlE => .ofText (s.cmd ++ s.right)

/-- Only Ctrl-A fills `left`, and only Ctrl-E fills `right`. -/
@[mk_iff parted_iff]
structure Editor.Parted (s : Editor) : Prop where
  left : s.editMode ≠ .ctrlA → s.left = []
  right : s.editMode ≠ .ctrlE → s.right = []

theorem Editor.Parted.line (h : s.Parted) : s.line = s.buffer.text := by
  obtain ⟨hl, hr⟩ := h
  cases hm : s.editMode with
  | none => simp [Editor.line, Editor.buffer, hm, hl, hr]
  | ctrlA => simp [Editor.line, Editor.buffer, hm, hr, Buffer.text]
  | ctrlE => simp [Editor.line, Editor.buffer, hm, hl]

theorem Editor.Parted.char (h : s.Parted) (c : Char) :
    (s.char c).Parted ∧ (s.char c).buffer = s.buffer.insert c := by
  obtain ⟨hl, hr⟩ := h
  cases hm : s.editMode <;>
    simp_all [Editor.char, Editor.parted_iff, Editor.buffer, Buffer.ofText, Buffer.insert]

theorem Editor.Parted.backspace (h : s.Parted) :
    s.backspace.Parted ∧ s.backspace.buffer = s.buffer.backspace := by
  obtain ⟨hl, hr⟩ := h
  cases hm : s.editMode with
  | none =>
    simp_all [Editor.backspace, Editor.parted_iff, Editor.buffer, Buffer.ofText, Buffer.backspace]
  | ctrlA => simp_all [Editor.backspace, Editor.parted_iff, Editor.buffer, Buffer.backspace]
  | ctrlE =>
    have hleft : s.left = [] := hl (by rw [hm]; nofun)
    by_cases hright : s.right = []
    · simp [Editor.backspace, Editor.parted_iff, Editor.buffer, Buffer.ofText, Buffer.backspace, hm, hleft,
        hright]
    · simp [Editor.backspace, Editor.parted_iff, Editor.buffer, Buffer.ofText, Buffer.backspace, hm, hleft,
        hright, List.dropLast_append_of_ne_nil]

/-- What an arrow key leaves, when it puts `e` into `cmd` and saves nothing. -/
theorem Editor.Parted.moved (h : s.Parted) (o : ℕ) (e l : Text) :
    Editor.Parted { s with offset := o, cmd := e } ∧
      (Editor.buffer { s with offset := o, cmd := e } = .ofText l ↔
        s.left ++ e ++ s.right = l ∧ (s.editMode = .ctrlA → e = [])) := by
  obtain ⟨hl, hr⟩ := h
  refine ⟨⟨hl, hr⟩, ?_⟩
  cases hm : s.editMode with
  | none => simp [Editor.buffer, hm, hl, hr, Buffer.ofText]
  | ctrlA =>
    simp only [Editor.buffer, Buffer.ofText, Buffer.mk.injEq, true_implies]
    rw [hr (by rw [hm]; nofun), List.append_nil]
    constructor
    · rintro ⟨rfl, rfl⟩
      exact ⟨List.append_nil _, rfl⟩
    · rintro ⟨hl, rfl⟩
      exact ⟨(List.append_nil _).symm.trans hl, rfl⟩
  | ctrlE => simp [Editor.buffer, hm, hl, Buffer.ofText]

theorem bare_iff {e : Text} :
    s.Bare e ↔ s.left ++ e ++ s.right = e ∧ (s.editMode = .ctrlA → e = []) := by
  unfold Editor.Bare
  constructor
  · rintro ⟨hl, hr, hm⟩
    exact ⟨by rw [hl, hr, List.nil_append, List.append_nil], hm⟩
  · rintro ⟨heq, hm⟩
    have hlen := congrArg List.length heq
    simp only [List.length_append] at hlen
    exact ⟨List.length_eq_zero_iff.1 (by omega), List.length_eq_zero_iff.1 (by omega), hm⟩

/-! ## The arrow keys -/

theorem recall_eq (h : s.offset < s.history.length) :
    s.recall = some { s with cmd := s.entry s.offset } := by
  have hlt : s.history.length - 1 - s.offset < s.history.length := by omega
  rw [Editor.recall, if_pos h, List.getElem?_eq_getElem hlt, Option.map_some, Editor.entry,
    List.getD_eq_getElem _ _ hlt]

theorem above_lt (h : s.history ≠ []) : s.above < s.history.length := by
  have hpos := List.length_pos_iff.2 h
  unfold Editor.above
  split_ifs <;> omega

/-- An Up that saves nothing. -/
theorem up_eq (h : s.history ≠ []) (hns : ¬ (s.typing = true ∧ s.above = 1)) :
    s.up = some { s with offset := s.above, cmd := s.entry s.above } := by
  have hlt := above_lt h
  rw [Editor.up, if_neg hns, Option.bind_some, if_pos hlt, recall_eq hlt]
  rfl

theorem down_eq (h : s.offset - 1 < s.history.length) :
    s.down = some { s with offset := s.offset - 1, cmd := s.entry (s.offset - 1) } := by
  rw [Editor.down, recall_eq h]
  rfl

/-- An Up that saves the text, at the end of `lines` or over the last element. -/
theorem up_save {lines : List Text} (hlen : 2 ≤ lines.length) (hs : s.savedHistory = lines.length)
    (hh : s.history = lines ∨ ∃ d, s.history = lines ++ [d]) (ht : s.typing = true)
    (ho : s.offset = 0) :
    s.up = some { s with
      history := lines ++ [s.line]
      offset := 1
      typing := false
      editMode := .none
      left := []
      cmd := (lines ++ [s.line]).getD (lines.length - 1) []
      right := [] } := by
  have hge : lines.length ≤ s.history.length := by
    rcases hh with hh | ⟨d, hh⟩ <;> simp [hh]
  have habove : s.above = 1 := by
    unfold Editor.above
    rw [ho, if_neg (by omega)]
  have hset : (if s.history.length = s.savedHistory then s.history ++ [s.line] else s.history).set
      s.savedHistory s.line = lines ++ [s.line] := by
    rw [hs]
    rcases hh with hh | ⟨d, hh⟩ <;> simp [hh]
  have hlt : s.savedHistory <
      (if s.history.length = s.savedHistory then s.history ++ [s.line] else s.history).length := by
    rw [hs]
    rcases hh with hh | ⟨d, hh⟩ <;> simp [hh]
  have hsave : Editor.save { s with offset := 1 } = some { s with
      history := lines ++ [s.line]
      offset := 1
      typing := false
      editMode := .none
      left := []
      right := [] } := by
    unfold Editor.save
    show (if s.savedHistory <
      (if s.history.length = s.savedHistory then s.history ++ [s.line] else s.history).length then
        _ else _) = _
    rw [if_pos hlt]
    show some { s with
      history := (if s.history.length = s.savedHistory then s.history ++ [s.line]
        else s.history).set s.savedHistory s.line
      offset := 1
      typing := false
      editMode := .none
      left := []
      right := [] } = _
    rw [hset]
  have hone : 1 < (lines ++ [s.line]).length := by simp; omega
  rw [Editor.up, if_pos ⟨ht, habove⟩, habove, hsave, Option.bind_some, if_pos hone, recall_eq hone]
  simp [Editor.entry]

/-! ## The two editors side by side -/

theorem loadHistory_ne_nil (lines : List Text) : loadHistory lines ≠ [] := by
  cases lines <;> exact List.cons_ne_nil _ _

theorem loadHistory_eq {lines : List Text} (h : lines ≠ []) : loadHistory lines = lines := by
  cases lines with
  | nil => exact absurd rfl h
  | cons => rfl

/-- Where the two are in their lists. The vector has the text that was being typed when there are two
lines before it; with fewer it never gets it. -/
structure Placed (s : Editor) (r : Reference) : Prop where
  savedHistory : s.savedHistory = (loadHistory r.history).length
  pos : r.pos ≤ r.history.length
  untyped : r.typed = none → s.typing = true ∧ r.pos = r.history.length
  loaded : r.typed = none ∨ r.history.length ≤ 1 → s.history = loadHistory r.history ∧ s.offset = 0
  saved : ∀ d, r.typed = some d → 2 ≤ r.history.length →
    s.history = r.history ++ [d] ∧ s.offset + r.pos = r.history.length

/-- The two have one buffer, and they are at one place. -/
structure Shows (s : Editor) (r : Reference) : Prop where
  parted : s.Parted
  buffer : s.buffer = r.buffer
  placed : Placed s r

theorem Shows.line (h : Shows s r) : s.line = r.buffer.text := by
  rw [h.parted.line, h.buffer]

theorem shows_start (lines : List Text) : Shows (.start lines) (.start lines) where
  parted := ⟨fun _ => rfl, fun _ => rfl⟩
  buffer := rfl
  placed := ⟨rfl, Nat.le_refl _, fun _ => ⟨rfl, rfl⟩, fun _ => ⟨rfl, rfl⟩, fun _ hd => by cases hd⟩

/-- One more safe key at most tells the two apart. -/
def Apart (s : Editor) (r : Reference) : Prop :=
  ∃ more : List Key, more.length ≤ 1 ∧ SafeKeys (s, r) more ∧
    (run Editor.press s more).map Editor.line ≠ some (more.foldl Reference.press r).buffer.text

/-- Two buffers are told apart by a letter. -/
theorem apart_of_buffer (h : s.Parted) (hne : s.buffer ≠ r.buffer) : Apart s r := by
  by_contra hnot
  have htyped : ∀ c : Printable, (s.buffer.insert c).text = (r.buffer.insert c).text := by
    intro c
    by_contra hc
    refine hnot ⟨[.char c], Nat.le_refl _, fun _ _ => ⟨trivial, trivial⟩, ?_⟩
    obtain ⟨hparted, hbuffer⟩ := h.char c
    show some (s.char c).line ≠ some (r.buffer.insert c).text
    rw [hparted.line, hbuffer]
    exact fun heq => hc (Option.some.inj heq)
  exact hne (Buffer.eq_of_insert (c := 'a') (d := 'b') (by decide) (htyped ⟨'a', by decide⟩)
    (htyped ⟨'b', by decide⟩))

/-- A key that saves nothing: the two have one buffer after it exactly when it is safe. -/
theorem Shows.moved (h : Shows s r) {o : ℕ} {e l : Text} (hb : r'.buffer = .ofText l)
    (hp : Placed { s with offset := o, cmd := e } r') {P : Prop}
    (hsafe : P ↔ s.left ++ e ++ s.right = l ∧ (s.editMode = .ctrlA → e = [])) :
    (P → Shows { s with offset := o, cmd := e } r') ∧
      (¬ P → Apart { s with offset := o, cmd := e } r') := by
  obtain ⟨hparted, hbuffer⟩ := h.parted.moved o e l
  rw [← hb] at hbuffer
  constructor
  · intro hP
    exact ⟨hparted, hbuffer.2 (hsafe.1 hP), hp⟩
  · intro hP
    exact apart_of_buffer hparted fun heq => hP (hsafe.2 (hbuffer.1 heq))

/-- What `press` does, when the two are side by side: a safe key keeps them so, and any other key
tells them apart. -/
def Keeps (s : Editor) (r : Reference) (k : Key) : Prop :=
  ∃ t, s.press k = some t ∧ (Safe r.history r.typed s k → Shows t (r.press k)) ∧
    (¬ Safe r.history r.typed s k → Apart t (r.press k))

theorem getD_last (lines : List Text) (l : Text) : (lines ++ [l]).getD lines.length [] = l := by
  simp

/-- Another text was saved over `d`: Down brings it back. -/
theorem apart_of_saved {d l : Text} (hh : t.history = r.history ++ [l]) (ho : t.offset = 1)
    (hl : t.left = []) (hr : t.right = []) (hm : t.editMode ≠ .ctrlA) (htyped : r.typed = some d)
    (hlen : 2 ≤ r.history.length) (hpos : r.pos + 1 = r.history.length) (hne : l ≠ d) : Apart t r := by
  have hlt : t.offset - 1 < t.history.length := by rw [ho, hh]; simp
  refine ⟨[.down], Nat.le_refl _, fun _ _ => ⟨?_, trivial⟩, ?_⟩
  · have hnot : ¬ (r.typed = none ∨ r.history.length ≤ 1) := by
      rw [htyped]
      rintro (hnone | hle)
      · cases hnone
      · omega
    show Safe r.history r.typed t .down
    rw [Safe, if_neg hnot]
    exact ⟨hl, hr, fun hA => absurd hA hm⟩
  · have hentry : t.entry (t.offset - 1) = l := by
      rw [Editor.entry, hh, ho]
      simp
    show (t.down.bind _).map _ ≠
      some (Buffer.ofText (r.entries.getD (min (r.pos + 1) r.history.length) [])).text
    rw [down_eq hlt, hentry, Reference.entries, htyped, hpos, Nat.min_self]
    show some (t.left ++ l ++ t.right) ≠ _
    simpa [hl, hr] using hne

/-- The Up that saves the text. -/
theorem keeps_save (h : Shows s r) (ht : s.typing = true) (ho : s.offset = 0)
    (hlen : 2 ≤ r.history.length) : Keeps s r .up := by
  have hp := h.placed
  have hne : r.history ≠ [] := List.ne_nil_of_length_pos (by omega)
  have hh : s.history = r.history ∨ ∃ d, s.history = r.history ++ [d] := by
    cases htyped : r.typed with
    | none => exact .inl ((hp.loaded (.inl htyped)).1.trans (loadHistory_eq hne))
    | some d => exact .inr ⟨d, (hp.saved d htyped hlen).1⟩
  have hpos : r.pos = r.history.length := by
    cases htyped : r.typed with
    | none => exact (hp.untyped htyped).2
    | some d =>
      have hsum := (hp.saved d htyped hlen).2
      omega
  have hsaved := hp.savedHistory
  rw [loadHistory_eq hne] at hsaved
  have hsafe : Safe r.history r.typed s .up ↔ ∀ d ∈ r.typed, s.line = d := by
    rw [Safe, if_pos ⟨ht, ho, hlen⟩]
  refine ⟨_, up_save hlen hsaved hh ht ho, ?_, ?_⟩
  · intro hkey
    have htyped : r.typed.getD r.buffer.text = s.line := by
      cases htyped : r.typed with
      | none => exact h.line.symm
      | some d => exact (hsafe.1 hkey d htyped).symm
    refine ⟨⟨fun _ => rfl, fun _ => rfl⟩, ?_, ?_⟩
    · show Buffer.ofText ((r.history ++ [s.line]).getD (r.history.length - 1) []) =
        .ofText ((r.history ++ [r.typed.getD r.buffer.text]).getD (r.pos - 1) [])
      rw [htyped, hpos]
    · refine ⟨hp.savedHistory, ?_, nofun, ?_, ?_⟩
      · show r.pos - 1 ≤ r.history.length
        omega
      · rintro (hnone | hle)
        · cases hnone
        · exact absurd hlen (Nat.not_le.2 (Nat.lt_succ_of_le hle))
      · intro d hd _
        obtain rfl : r.typed.getD r.buffer.text = d := Option.some.inj hd
        refine ⟨by rw [htyped]; rfl, ?_⟩
        show 1 + (r.pos - 1) = r.history.length
        omega
  · intro hkey
    rw [hsafe] at hkey
    push Not at hkey
    obtain ⟨d, htyped, hline⟩ := hkey
    refine apart_of_saved rfl rfl rfl rfl nofun ?_ hlen ?_ hline
    · show some (r.typed.getD r.buffer.text) = some d
      rw [htyped]
      rfl
    · show r.pos - 1 + 1 = r.history.length
      omega

/-- The text was saved, and the two come to one entry. -/
theorem Shows.together (h : Shows s r) {d : Text} (htyped : r.typed = some d)
    (hlen : 2 ≤ r.history.length) {o i : ℕ} (hsum : o + i = r.history.length)
    (hr : r' = Reference.goTo { r with typed := some d } i) :
    (s.Bare (s.entry o) → Shows { s with offset := o, cmd := s.entry o } r') ∧
      (¬ s.Bare (s.entry o) → Apart { s with offset := o, cmd := s.entry o } r') := by
  obtain ⟨hh, -⟩ := h.placed.saved d htyped hlen
  have hentry : (r.history ++ [d]).getD i [] = s.entry o := by
    rw [Editor.entry, hh]
    congr 1
    simp
    omega
  subst hr
  refine h.moved (l := s.entry o) ?_ ?_ bare_iff
  · show Buffer.ofText ((r.history ++ [d]).getD i []) = _
    rw [hentry]
  · refine ⟨h.placed.savedHistory, ?_, nofun, ?_, ?_⟩
    · show i ≤ r.history.length
      omega
    · rintro (hnone | hle)
      · cases hnone
      · exact absurd hle (Nat.not_le.2 hlen)
    · intro d' hd' _
      cases hd'
      exact ⟨hh, hsum⟩

/-- The Up that saves nothing. -/
theorem keeps_up (h : Shows s r)
    (hns : ¬ (s.typing = true ∧ s.offset = 0 ∧ 2 ≤ r.history.length)) : Keeps s r .up := by
  have hp := h.placed
  have hposle := hp.pos
  by_cases hle : r.history.length ≤ 1
  · -- the vector is as it was loaded, and has one element
    obtain ⟨hh, ho⟩ := hp.loaded (.inr hle)
    have hlen : s.history.length = 1 := by
      rw [hh]
      cases hlines : r.history with
      | nil => rfl
      | cons l rest =>
        rw [hlines] at hle
        simp only [List.length_cons] at hle
        simp only [loadHistory, List.length_cons]
        omega
    have habove : s.above = 0 := by
      unfold Editor.above
      rw [ho, hlen]
      rfl
    have hup := up_eq (s := s) (by rw [hh]; exact loadHistory_ne_nil _) (by
      rw [habove]
      rintro ⟨-, hone⟩
      cases hone)
    have hpos : r.pos - 1 = 0 := by omega
    have hplaced : Placed { s with offset := s.above, cmd := s.entry s.above } (r.press .up) := by
      refine ⟨hp.savedHistory, ?_, nofun, fun _ => ⟨hh, habove⟩, fun d _ h2 => ?_⟩
      · show r.pos - 1 ≤ r.history.length
        omega
      · exact absurd hle (Nat.not_le.2 h2)
    refine ⟨_, hup, h.moved (l := (r.history ++ [r.typed.getD r.buffer.text]).getD (r.pos - 1) []) rfl
      hplaced ?_⟩
    rw [Safe, if_neg hns, habove, hpos]
    by_cases hnil : r.history = []
    · rw [if_pos hnil, hnil, ← h.line]
      rfl
    · rw [if_neg hnil, bare_iff]
      have hentry : (r.history ++ [r.typed.getD r.buffer.text]).getD 0 [] = s.entry 0 := by
        rw [Editor.entry, hh, loadHistory_eq hnil, List.getD_append _ _ _ _ (List.length_pos_iff.2 hnil)]
        congr 1
        omega
      rw [hentry]
  · -- the text was saved, and the two move together
    have hne : r.history ≠ [] := List.ne_nil_of_length_pos (by omega)
    cases htyped : r.typed with
    | none =>
      obtain ⟨-, ho⟩ := hp.loaded (.inl htyped)
      exact absurd ⟨(hp.untyped htyped).1, ho, by omega⟩ hns
    | some d =>
      obtain ⟨hh, hsum⟩ := hp.saved d htyped (by omega)
      have hlen : s.history.length = r.history.length + 1 := by rw [hh]; simp
      have habove : s.above + (r.pos - 1) = r.history.length := by
        unfold Editor.above
        rw [hlen]
        split_ifs <;> omega
      have hup := up_eq (s := s) (by rw [hh]; simp) (by
        rintro ⟨ht, hone⟩
        refine hns ⟨ht, ?_, by omega⟩
        unfold Editor.above at hone
        split_ifs at hone <;> omega)
      refine ⟨_, hup, ?_⟩
      rw [Safe, if_neg hns, if_neg hne]
      apply h.together htyped (by omega) habove
      rw [Reference.press, htyped]
      rfl

theorem keeps_down (h : Shows s r) : Keeps s r .down := by
  have hp := h.placed
  have hposle := hp.pos
  by_cases hlast : r.typed = none ∨ r.history.length ≤ 1
  · -- the reference editor comes to the text being typed
    obtain ⟨hh, ho⟩ := hp.loaded hlast
    have hpos : min (r.pos + 1) r.history.length = r.history.length := by
      rcases hlast with hnone | hle
      · have huntyped := (hp.untyped hnone).2
        omega
      · omega
    have hdown := down_eq (s := s) (by
      rw [ho, hh]
      exact List.length_pos_iff.2 (loadHistory_ne_nil _))
    have hplaced : Placed { s with offset := s.offset - 1, cmd := s.entry (s.offset - 1) }
        (r.press .down) := by
      refine ⟨hp.savedHistory, ?_, fun hnone => ⟨(hp.untyped hnone).1, hpos⟩, fun _ => ⟨hh, ?_⟩, ?_⟩
      · show min (r.pos + 1) r.history.length ≤ r.history.length
        omega
      · show s.offset - 1 = 0
        omega
      · intro d hd h2
        rcases hlast with hnone | hle
        · have hnone' : (r.press .down).typed = none := hnone
          rw [hnone'] at hd
          cases hd
        · exact absurd hle (Nat.not_le.2 h2)
    refine ⟨_, hdown, h.moved (l := r.typed.getD r.buffer.text) ?_ hplaced ?_⟩
    · show Buffer.ofText ((r.history ++ [r.typed.getD r.buffer.text]).getD
        (min (r.pos + 1) r.history.length) []) = _
      rw [hpos, getD_last]
    · rw [Safe, if_pos hlast, ho, ← h.line]
      rfl
  · -- the text was saved, and the two move together
    have hlen2 : 2 ≤ r.history.length := by omega
    cases htyped : r.typed with
    | none => exact absurd (.inl htyped) hlast
    | some d =>
      obtain ⟨hh, hsum⟩ := hp.saved d htyped hlen2
      have hlen : s.history.length = r.history.length + 1 := by rw [hh]; simp
      have hsum' : s.offset - 1 + min (r.pos + 1) r.history.length = r.history.length := by omega
      refine ⟨_, down_eq (s := s) (by omega), ?_⟩
      rw [Safe, if_neg hlast]
      apply h.together htyped hlen2 hsum'
      rw [Reference.press, ← htyped]

/-- What a character or Backspace leaves alone. -/
structure Edited (s t : Editor) : Prop where
  history : t.history = s.history
  savedHistory : t.savedHistory = s.savedHistory
  offset : t.offset = s.offset
  typing : s.typing = true → t.typing = true

theorem char_edited (s : Editor) (c : Char) : Edited s (s.char c) := by
  cases hm : s.editMode <;> simp only [Editor.char, hm] <;> exact ⟨rfl, rfl, rfl, fun _ => rfl⟩

theorem backspace_edited (s : Editor) : Edited s s.backspace := by
  cases hm : s.editMode with
  | ctrlE =>
    by_cases hr : s.right = []
    · simp only [Editor.backspace, hm, hr, ne_eq, not_true_eq_false, if_false]
      exact ⟨rfl, rfl, rfl, id⟩
    · simp only [Editor.backspace, hm, ne_eq, hr, not_false_eq_true, if_true]
      exact ⟨rfl, rfl, rfl, id⟩
  | none | ctrlA =>
    simp only [Editor.backspace, hm]
    exact ⟨rfl, rfl, rfl, id⟩

/-- A key that edits the text is safe. -/
theorem Shows.edit (h : Shows s r) (he : Edited s t) {b : Buffer Char} (hparted : t.Parted)
    (hbuffer : t.buffer = b) : Shows t { r with buffer := b } := by
  obtain ⟨hsaved, hpos, huntyped, hloaded, hplace⟩ := h.placed
  obtain ⟨hh, hs, ho, ht⟩ := he
  refine ⟨hparted, hbuffer, ⟨hs.trans hsaved, hpos, ?_, ?_, ?_⟩⟩
  · intro hnone
    exact ⟨ht (huntyped hnone).1, (huntyped hnone).2⟩
  · intro hor
    rw [hh, ho]
    exact hloaded hor
  · intro d hd hlen
    rw [hh, ho]
    exact hplace d hd hlen

theorem keeps (h : Shows s r) (k : Key) : Keeps s r k := by
  have hedit : ∀ {t : Editor} {b : Buffer Char}, s.press k = some t → Safe r.history r.typed s k →
      r.press k = { r with buffer := b } → Edited s t → t.Parted → t.buffer = b → Keeps s r k := by
    intro t b hpress hsafe href he hparted hbuffer
    refine ⟨t, hpress, fun _ => ?_, fun hnot => absurd hsafe hnot⟩
    rw [href]
    exact h.edit he hparted hbuffer
  have hline := h.line
  cases k with
  | up =>
    by_cases hsave : s.typing = true ∧ s.offset = 0 ∧ 2 ≤ r.history.length
    · exact keeps_save h hsave.1 hsave.2.1 hsave.2.2
    · exact keeps_up h hsave
  | down => exact keeps_down h
  | char c =>
    obtain ⟨hparted, hbuffer⟩ := h.parted.char c.1
    exact hedit rfl trivial rfl (char_edited s c.1) hparted (hbuffer.trans (by rw [h.buffer]))
  | backspace =>
    obtain ⟨hparted, hbuffer⟩ := h.parted.backspace
    exact hedit rfl trivial rfl (backspace_edited s) hparted (hbuffer.trans (by rw [h.buffer]))
  | ctrlA =>
    refine hedit rfl trivial rfl ⟨rfl, rfl, rfl, id⟩ ⟨fun _ => rfl, fun _ => rfl⟩ ?_
    show Buffer.mk [] s.line = r.buffer.toStart
    rw [hline]
    rfl
  | ctrlE =>
    refine hedit rfl trivial rfl ⟨rfl, rfl, rfl, id⟩ ⟨fun _ => rfl, fun _ => rfl⟩ ?_
    show Buffer.ofText (s.line ++ []) = r.buffer.toEnd
    rw [List.append_nil, hline]
    rfl
  | other => exact hedit rfl trivial rfl ⟨rfl, rfl, rfl, id⟩ h.parted h.buffer

/-! ## Runs -/

theorem pressBoth_eq {k : Key} (h : s.press k = some t) :
    pressBoth (s, r) k = some (t, r.press k) := by rw [pressBoth, h, Option.map_some]

/-- Safe keys keep the two side by side. -/
theorem shows_run {keys : List Key} (h : Shows s r) (hsafe : SafeKeys (s, r) keys) :
    ∃ t, run Editor.press s keys = some t ∧ Shows t (keys.foldl Reference.press r) := by
  induction keys generalizing s r with
  | nil => exact ⟨s, rfl, h⟩
  | cons k keys ih =>
    obtain ⟨t, ht, hkeep, -⟩ := keeps h k
    obtain ⟨hkey, hrest⟩ := hsafe _ (pressBoth_eq ht)
    obtain ⟨u, hu, hshows⟩ := ih (hkeep hkey) hrest
    exact ⟨u, run_cons_eq_some.2 ⟨t, ht, hu⟩, hshows⟩

theorem run_pressBoth {keys : List Key} (h : run Editor.press s keys = some t) :
    run pressBoth (s, r) keys = some (t, keys.foldl Reference.press r) := by
  induction keys generalizing s r with
  | nil => cases h; rfl
  | cons k keys ih =>
    obtain ⟨u, hu, hrest⟩ := run_cons_eq_some.1 h
    exact run_cons_eq_some.2 ⟨_, pressBoth_eq hu, ih hrest⟩

end OsLab.Shell.Editing
