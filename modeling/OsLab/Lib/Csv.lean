import Mathlib.Data.List.Forall2

/-!
# Tables of fields

A text over any alphabet with three special characters (`Dialect`): records end with a newline, their
fields are separated by commas, and a field may stand between quotes, where a quote is doubled.
`decode` reads such a text from left to right, and has no result for a quote in a field without
quotes, or for characters after the closing quote.

* `Record.run`: reading a text that encodes a record adds this record.
* `decode_records`: what encodes a table is decoded to it.
-/

namespace OsLab.Lib.Csv

/-- The special characters. -/
structure Dialect (α : Type*) where
  comma : α
  quote : α
  newline : α
  comma_ne_quote : comma ≠ quote
  newline_ne_quote : newline ≠ quote
  newline_ne_comma : newline ≠ comma

/-- Where the reader is in a field: `closed` is after a quote that may be the closing one. -/
inductive Place where
  | start
  | plain
  | quoted
  | closed
  deriving DecidableEq

/-- The field, the record and the table so far. -/
structure Reader (α : Type*) where
  place : Place
  field : List α
  record : List (List α)
  table : List (List (List α))

variable {α : Type*} {d : Dialect α}

/-- A character of the field. -/
def Reader.push (s : Reader α) (place : Place) (c : α) : Reader α :=
  { s with place := place, field := s.field ++ [c] }

/-- The end of a field. -/
def Reader.endField (s : Reader α) : Reader α := ⟨.start, [], s.record ++ [s.field], s.table⟩

/-- The end of a record. -/
def Reader.endRecord (s : Reader α) : Reader α := ⟨.start, [], [], s.table ++ [s.record ++ [s.field]]⟩

variable [DecidableEq α]

/-- Reads one character. -/
def step (d : Dialect α) (s : Reader α) (c : α) : Option (Reader α) :=
  if s.place = .quoted then
    some (if c = d.quote then { s with place := .closed } else s.push .quoted c)
  else if c = d.comma then some s.endField
  else if c = d.newline then some s.endRecord
  else if c = d.quote then
    match s.place with
    | .start => some { s with place := .quoted }
    | .closed => some (s.push .quoted c)
    | _ => none
  else if s.place = .closed then none
  else some (s.push .plain c)

/-- Reads a text. -/
def run (d : Dialect α) : Reader α → List α → Option (Reader α)
  | s, [] => some s
  | s, c :: text => (step d s c).bind fun t => run d t text

/-- The table that a text encodes. The last record has a newline too. -/
def decode (d : Dialect α) (text : List α) : Option (List (List (List α))) :=
  (run d ⟨.start, [], [], []⟩ text).bind fun s =>
    if s.place = .start ∧ s.record = [] then some s.table else none

/-- The quotes of a field are doubled. -/
def doubled (d : Dialect α) (f : List α) : List α :=
  f.flatMap fun c => if c = d.quote then [c, c] else [c]

/-- A field without special characters stands for itself, and each field can stand between quotes. -/
inductive Encodes (d : Dialect α) : List α → List α → Prop
  | plain {f : List α} (h : ∀ c ∈ f, c ≠ d.comma ∧ c ≠ d.quote ∧ c ≠ d.newline) : Encodes d f f
  | quoted (f : List α) : Encodes d (d.quote :: (doubled d f ++ [d.quote])) f

/-- The text of a record. -/
inductive Record (d : Dialect α) : List α → List (List α) → Prop
  | last {e f : List α} (h : Encodes d e f) : Record d (e ++ [d.newline]) [f]
  | cons {e f row : List α} {fs : List (List α)} (h : Encodes d e f) (hrow : Record d row fs) :
    Record d (e ++ d.comma :: row) (f :: fs)

variable {s t u : Reader α} {c : α} {e f text more row : List α} {r fs : List (List α)}
  {R table : List (List (List α))}

/-! ## Reading a field -/

theorem run_append : run d s (text ++ more) = (run d s text).bind fun t => run d t more := by
  induction text generalizing s with
  | nil => rfl
  | cons c text ih =>
    rw [List.cons_append, run, run, Option.bind_assoc]
    exact Option.bind_congr fun t _ => ih

theorem step_comma (h : s.place ≠ .quoted) : step d s d.comma = some s.endField := by
  rw [step, if_neg h, if_pos rfl]

theorem step_newline (h : s.place ≠ .quoted) : step d s d.newline = some s.endRecord := by
  rw [step, if_neg h, if_neg d.newline_ne_comma, if_pos rfl]

theorem step_plain (hs : s.place = .start ∨ s.place = .plain)
    (hc : c ≠ d.comma ∧ c ≠ d.quote ∧ c ≠ d.newline) : step d s c = some (s.push .plain c) := by
  obtain ⟨hcomma, hquote, hnewline⟩ := hc
  rcases hs with hs | hs <;>
    simp [step, hs, hcomma, hquote, hnewline]

/-- A field without special characters. -/
theorem run_plain (hs : s.place = .start ∨ s.place = .plain)
    (hf : ∀ c ∈ f, c ≠ d.comma ∧ c ≠ d.quote ∧ c ≠ d.newline) :
    ∃ t, run d s f = some t ∧ t.place ≠ .quoted ∧ t.field = s.field ++ f ∧ t.record = s.record ∧
      t.table = s.table := by
  induction f generalizing s with
  | nil => exact ⟨s, rfl, by rcases hs with hs | hs <;> simp [hs], by simp, rfl, rfl⟩
  | cons c f ih =>
    obtain ⟨t, ht, hplace, hfield, hrest⟩ :=
      ih (s := s.push .plain c) (.inr rfl) fun b hb => hf b (List.mem_cons_of_mem _ hb)
    refine ⟨t, ?_, hplace, ?_, hrest⟩
    · rw [run, step_plain hs (hf c List.mem_cons_self), Option.bind_some, ht]
    · rw [hfield, Reader.push, List.append_assoc]
      rfl

/-- The characters between the quotes. -/
theorem run_doubled : run d ⟨.quoted, e, r, R⟩ (doubled d f) = some ⟨.quoted, e ++ f, r, R⟩ := by
  induction f generalizing e with
  | nil => simp [doubled, run]
  | cons c f ih =>
    rw [doubled, List.flatMap_cons, run_append, ← doubled]
    have hc : run d ⟨.quoted, e, r, R⟩ (if c = d.quote then [c, c] else [c]) =
        some ⟨.quoted, e ++ [c], r, R⟩ := by
      split_ifs with hquote
      · -- the first quote closes the field, and the second one opens it again
        simp [hquote, run, step, Reader.push, d.comma_ne_quote.symm, d.newline_ne_quote.symm]
      · simp [run, step, Reader.push, hquote]
    rw [hc, Option.bind_some, ih, List.append_assoc]
    rfl

/-- **A field** is read as what it stands for. -/
theorem Encodes.run (h : Encodes d e f) : ∃ t, run d ⟨.start, [], r, R⟩ e = some t ∧
    t.place ≠ .quoted ∧ t.field = f ∧ t.record = r ∧ t.table = R := by
  cases h with
  | plain hf => exact run_plain (.inl rfl) hf
  | quoted =>
    refine ⟨⟨.closed, f, r, R⟩, ?_, by simp, rfl, rfl, rfl⟩
    have hopen : step d ⟨.start, [], r, R⟩ d.quote = some ⟨.quoted, [], r, R⟩ := by
      simp [step, d.comma_ne_quote.symm, d.newline_ne_quote.symm]
    rw [Csv.run, hopen, Option.bind_some, run_append, run_doubled, Option.bind_some]
    simp [Csv.run, step]

/-! ## Reading a record -/

/-- **A record** is added to the table. -/
theorem Record.run (h : Record d row fs) :
    run d ⟨.start, [], r, R⟩ row = some ⟨.start, [], [], R ++ [r ++ fs]⟩ := by
  induction h generalizing r with
  | last h =>
    obtain ⟨⟨place, field, record, table⟩, ht, hplace, rfl, rfl, rfl⟩ := h.run (r := r) (R := R)
    rw [run_append, ht, Option.bind_some, Csv.run, step_newline hplace, Option.bind_some]
    rfl
  | cons h _ ih =>
    obtain ⟨⟨place, field, record, table⟩, ht, hplace, rfl, rfl, rfl⟩ := h.run (r := r) (R := R)
    rw [run_append, ht, Option.bind_some, Csv.run, step_comma hplace, Option.bind_some,
      Reader.endField, ih, List.append_assoc]
    rfl

theorem run_records {rows : List (List α)} (h : List.Forall₂ (Record d) rows table) :
    run d ⟨.start, [], [], R⟩ rows.flatten = some ⟨.start, [], [], R ++ table⟩ := by
  induction h generalizing R with
  | nil => simp [run]
  | cons hrow _ ih =>
    rw [List.flatten_cons, run_append, hrow.run, Option.bind_some, ih, List.append_assoc]
    rfl

/-- **A table** is decoded from the texts of its records. -/
theorem decode_records {rows : List (List α)} (h : List.Forall₂ (Record d) rows table) :
    decode d rows.flatten = some table := by
  rw [decode, run_records h]
  rfl

end OsLab.Lib.Csv
