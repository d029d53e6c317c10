import OsLab.Lib.Csv
import OsLab.Lib.Lines
import OsLab.Scripts.Arith
import Mathlib.Data.List.DropRight

/-!
# The rows of the tables (`Q3/Assgn1_3_17.sh`)

For each line the script takes the values of the attributes from `jq`, quotes those with special
characters, and appends the row with `echo`. Command substitution takes newlines off the end of a
value, and `echo` takes a row such as `-n` for options.

* `decodes_iff`: a row is decoded to the values exactly when none of this happens.
* `appendRows_decodes`: the rows of a whole file.
* `option_row_lost`: the value `-n` of a single attribute.
-/

namespace OsLab.Scripts

open Lib

/-! ## The model -/

/-- The special characters of the files. -/
def csv : Csv.Dialect Char := ⟨',', '"', '\n', by decide, by decide, by decide⟩

/-- `$(…)` drops NUL characters, and the newlines at the end. -/
def substitution (output : Text) : Text := (output.filter (· ≠ '\x00')).rdropWhile (· = '\n')

/-- A value with a special character stands between quotes, and its quotes are doubled. -/
def quoteValue (cur_value : Text) : Text :=
  if '"' ∈ cur_value ∨ ',' ∈ cur_value ∨ '\n' ∈ cur_value then
    '"' :: ((cur_value.flatMap fun c => if c = '"' then ['"', '"'] else [c]) ++ ['"'])
  else cur_value

/-- The loop over the attributes. `jq line attr` is what `jq -j` prints. -/
def fieldValue (jq : Text → Text → Text) (line : Text) (attrs : List Text) : Text :=
  attrs.foldl (fun field_value attr =>
    field_value ++ quoteValue (substitution (jq line attr)) ++ [',']) []

/-- The letters of an argument that `echo` takes for options. -/
def echoOptions : Text → Option Text
  | '-' :: letters =>
    if letters ≠ [] ∧ letters.all fun c => c = 'n' ∨ c = 'e' ∨ c = 'E' then some letters else none
  | _ => none

/-- What `echo` prints for its argument: options are not printed. -/
def echo (arg : Text) : Text :=
  match echoOptions arg with
  | some letters => if 'n' ∈ letters then [] else ['\n']
  | none => arg ++ ['\n']

/-- What is appended for a line. -/
def appendRow (jq : Text → Text → Text) (attrs : List Text) (line : Text) : Text :=
  echo (fieldValue jq line attrs).dropLast

/-- What is appended for the lines of a file. -/
def appendRows (jq : Text → Text → Text) (attrs lines : List Text) : Text :=
  lines.flatMap (appendRow jq attrs)

/-- The values of the attributes do not end with newlines, and a single one does not look like options
of `echo`. -/
def Plain (jq : Text → Text → Text) (attrs : List Text) (line : Text) : Prop :=
  (∀ attr ∈ attrs, (jq line attr).getLast? ≠ some '\n') ∧
    ∀ attr, attrs = [attr] → echoOptions (jq line attr) = none

section

variable {jq : Text → Text → Text} {line value t letters attr : Text} {attrs lines : List Text}

/-! ## Values -/

theorem substitution_of_noNul (h : '\x00' ∉ t) : substitution t = t.rdropWhile (· = '\n') := by
  have hkeep : ∀ c ∈ t, decide (c ≠ '\x00') = true :=
    fun c hc => decide_eq_true (ne_of_mem_of_not_mem hc h)
  rw [substitution, List.filter_eq_self.2 hkeep]

/-- A value survives the substitution unless it ends with a newline. -/
theorem substitution_eq_iff (h : '\x00' ∉ t) : substitution t = t ↔ t.getLast? ≠ some '\n' := by
  rw [substitution_of_noNul h, List.rdropWhile_eq_self_iff]
  rcases List.eq_nil_or_concat t with rfl | ⟨t, c, rfl⟩
  · simp
  · simp

theorem quoteValue_encodes (value : Text) : Csv.Encodes csv (quoteValue value) value := by
  rw [quoteValue]
  split_ifs with hspecial
  · have hdoubled : (value.flatMap fun c => if c = '"' then ['"', '"'] else [c]) =
        Csv.doubled csv value := by
      refine List.flatMap_congr fun c _ => ?_
      show (if c = '"' then ['"', '"'] else [c]) = if c = '"' then [c, c] else [c]
      split_ifs with hc
      · rw [hc]
      · rfl
    rw [hdoubled]
    exact .quoted value
  · push Not at hspecial
    obtain ⟨hquote, hcomma, hnewline⟩ := hspecial
    exact .plain fun c hc => ⟨ne_of_mem_of_not_mem hc hcomma, ne_of_mem_of_not_mem hc hquote,
      ne_of_mem_of_not_mem hc hnewline⟩

/-! ## Rows -/

/-- The row before the last comma is taken off. -/
theorem fieldValue_eq : fieldValue jq line attrs =
    attrs.flatMap fun attr => quoteValue (substitution (jq line attr)) ++ [','] := by
  have hgen : ∀ acc : Text, attrs.foldl (fun field_value attr =>
      field_value ++ quoteValue (substitution (jq line attr)) ++ [',']) acc =
      acc ++ attrs.flatMap fun attr => quoteValue (substitution (jq line attr)) ++ [','] := by
    induction attrs with
    | nil => simp
    | cons attr attrs ih =>
      intro acc
      rw [List.foldl_cons, ih, List.flatMap_cons]
      simp
  exact hgen []

theorem dropLast_single :
    (fieldValue jq line [attr]).dropLast = quoteValue (substitution (jq line attr)) := by
  rw [fieldValue_eq, List.flatMap_singleton, List.dropLast_concat]

theorem dropLast_cons (h : attrs ≠ []) : (fieldValue jq line (attr :: attrs)).dropLast =
    quoteValue (substitution (jq line attr)) ++ ',' :: (fieldValue jq line attrs).dropLast := by
  have hne : fieldValue jq line attrs ≠ [] := by
    obtain ⟨b, rest, rfl⟩ := List.exists_cons_of_ne_nil h
    rw [fieldValue_eq, List.flatMap_cons]
    simp
  rw [fieldValue_eq, List.flatMap_cons, ← fieldValue_eq, List.dropLast_append_of_ne_nil hne]
  simp

/-- The row encodes what is left of the values. -/
theorem row_encodes (h : attrs ≠ []) : Csv.Record csv ((fieldValue jq line attrs).dropLast ++ ['\n'])
    (attrs.map fun attr => substitution (jq line attr)) := by
  induction attrs with
  | nil => exact absurd rfl h
  | cons attr attrs ih =>
    by_cases hne : attrs = []
    · rw [hne, dropLast_single]
      exact .last (quoteValue_encodes _)
    · rw [dropLast_cons hne, List.append_assoc]
      exact .cons (quoteValue_encodes _) (ih hne)

/-! ## `echo` -/

theorem echoOptions_eq_some (h : echoOptions t = some letters) :
    t = '-' :: letters ∧ ∀ c ∈ letters, c = 'n' ∨ c = 'e' ∨ c = 'E' := by
  unfold echoOptions at h
  split at h
  · split_ifs at h with hletters
    cases h
    exact ⟨rfl, forall_of_all hletters.2⟩
  · cases h

/-- A comma is no option. -/
theorem echoOptions_comma (h : ',' ∈ t) : echoOptions t = none := by
  cases hopt : echoOptions t with
  | none => rfl
  | some letters =>
    obtain ⟨rfl, hletters⟩ := echoOptions_eq_some hopt
    rcases List.mem_cons.1 h with h | h
    · exact absurd h (by decide)
    · rcases hletters _ h with h | h | h <;> exact absurd h (by decide)

/-- Only a single value can look like options. -/
theorem echoOptions_row (hne : attrs ≠ [])
    (h : echoOptions (fieldValue jq line attrs).dropLast = some letters) :
    ∃ attr, attrs = [attr] ∧ substitution (jq line attr) = '-' :: letters := by
  obtain ⟨hrow, -⟩ := echoOptions_eq_some h
  obtain ⟨attr, rest, rfl⟩ := List.exists_cons_of_ne_nil hne
  by_cases hrest : rest = []
  · subst hrest
    refine ⟨attr, rfl, ?_⟩
    rw [dropLast_single, quoteValue] at hrow
    split_ifs at hrow with hspecial
    · exact absurd (List.head_eq_of_cons_eq hrow) (by decide)
    · exact hrow
  · have hcomma : ',' ∈ (fieldValue jq line (attr :: rest)).dropLast := by
      rw [dropLast_cons hrest]
      simp
    rw [echoOptions_comma hcomma] at h
    cases h

/-- A row that `echo` takes for options is not decoded to a record of it. -/
theorem decode_options (h : echoOptions t = some letters) (hv : value ≠ []) :
    Csv.decode csv (echo t) ≠ some [[value]] := by
  rw [echo, h]
  simp only
  split_ifs
  · simp [Csv.decode, Csv.run]
  · have hempty : Csv.decode csv ['\n'] = some [[[]]] := by decide
    rw [hempty]
    simpa using Ne.symm hv

/-- A row that is not taken for options. -/
theorem decode_row (hne : attrs ≠ []) (h : echoOptions (fieldValue jq line attrs).dropLast = none) :
    Csv.Record csv (appendRow jq attrs line) (attrs.map fun attr => substitution (jq line attr)) := by
  rw [appendRow, echo, h]
  exact row_encodes hne

/-- The row of a line that meets the condition encodes the values. -/
theorem Plain.record (hne : attrs ≠ []) (hnul : ∀ attr ∈ attrs, '\x00' ∉ jq line attr)
    (h : Plain jq attrs line) : Csv.Record csv (appendRow jq attrs line) (attrs.map (jq line)) := by
  obtain ⟨hend, hsingle⟩ := h
  have hsame : ∀ attr ∈ attrs, substitution (jq line attr) = jq line attr :=
    fun attr hattr => (substitution_eq_iff (hnul attr hattr)).2 (hend attr hattr)
  have hnone : echoOptions (fieldValue jq line attrs).dropLast = none := by
    cases hopt : echoOptions (fieldValue jq line attrs).dropLast with
    | none => rfl
    | some letters =>
      obtain ⟨attr, rfl, hvalue⟩ := echoOptions_row hne hopt
      rw [(echoOptions_eq_some hopt).1, ← hvalue, hsame attr List.mem_cons_self,
        hsingle attr rfl] at hopt
      exact hopt.symm
  rw [← List.map_congr_left hsame]
  exact decode_row hne hnone

/-- Options have no special characters. -/
theorem quoteValue_of_options (h : echoOptions t = some letters) : quoteValue t = t := by
  obtain ⟨rfl, hletters⟩ := echoOptions_eq_some h
  refine if_neg fun hspecial => ?_
  have hnot : ∀ c, c ∈ '-' :: letters → c ≠ '"' ∧ c ≠ ',' ∧ c ≠ '\n' := by
    intro c hc
    rcases List.mem_cons.1 hc with rfl | hc
    · decide
    · rcases hletters c hc with rfl | rfl | rfl <;> decide
  rcases hspecial with hc | hc | hc
  · exact (hnot _ hc).1 rfl
  · exact (hnot _ hc).2.1 rfl
  · exact (hnot _ hc).2.2 rfl

/-- If a row is decoded to the values, then they meet the condition. -/
theorem plain_of_decode (hne : attrs ≠ []) (hnul : ∀ attr ∈ attrs, '\x00' ∉ jq line attr)
    (h : Csv.decode csv (appendRow jq attrs line) = some [attrs.map (jq line)]) :
    Plain jq attrs line := by
  cases hopt : echoOptions (fieldValue jq line attrs).dropLast with
  | some letters =>
    obtain ⟨attr, rfl, hvalue⟩ := echoOptions_row hne hopt
    refine absurd h (decode_options hopt fun hempty => ?_)
    rw [hempty] at hvalue
    cases hvalue
  | none =>
    have hrecord := Csv.decode_records (.cons (decode_row hne hopt) .nil)
    rw [List.flatten_singleton, h, Option.some.injEq, List.cons.injEq, List.map_inj_left] at hrecord
    have hsame : ∀ attr ∈ attrs, substitution (jq line attr) = jq line attr :=
      fun attr hattr => (hrecord.1 attr hattr).symm
    refine ⟨fun attr hattr => (substitution_eq_iff (hnul attr hattr)).1 (hsame attr hattr), ?_⟩
    rintro attr rfl
    rw [dropLast_single, hsame attr List.mem_cons_self] at hopt
    cases hvalue : echoOptions (jq line attr) with
    | none => rfl
    | some letters =>
      rw [quoteValue_of_options hvalue, hvalue] at hopt
      exact hopt

/-- **The rows of a file** are decoded to the values of its lines. -/
theorem appendRows_decodes (hne : attrs ≠ [])
    (hnul : ∀ line ∈ lines, ∀ attr ∈ attrs, '\x00' ∉ jq line attr)
    (h : ∀ line ∈ lines, Plain jq attrs line) :
    Csv.decode csv (appendRows jq attrs lines) = some (lines.map fun line => attrs.map (jq line)) := by
  rw [appendRows, List.flatMap_def]
  refine Csv.decode_records (List.forall₂_map_left_iff.2 (List.forall₂_map_right_iff.2 ?_))
  exact List.forall₂_same.2 fun line hline => (h line hline).record hne (hnul line hline)

end

/-- **A row is decoded** to the values of the attributes exactly if these do not end with newlines, and
a single one is not taken for options. -/
theorem decodes_iff (jq : Text → Text → Text) (line : Text) (attrs : List Text) (hne : attrs ≠ [])
    (hnul : ∀ attr ∈ attrs, '\x00' ∉ jq line attr) :
    Csv.decode csv (appendRow jq attrs line) = some [attrs.map (jq line)] ↔ Plain jq attrs line := by
  refine ⟨plain_of_decode hne hnul, fun h => ?_⟩
  have hrecord := Csv.decode_records (.cons (h.record hne hnul) .nil)
  rwa [List.flatten_singleton] at hrecord

/-- A line with the values `x,y` and `-n`. -/
def twoValues : Text := "\x7b\"a\":\"x,y\",\"b\":\"-n\"\x7d".toList

/-- What `jq` prints for this line. -/
def jqTwoValues (_ attr : Text) : Text := if attr = ['a'] then ['x', ',', 'y'] else ['-', 'n']

theorem decodes_twoValues : Csv.decode csv (appendRow jqTwoValues [['a'], ['b']] twoValues) =
    some [[['x', ',', 'y'], ['-', 'n']]] :=
  (decodes_iff jqTwoValues twoValues [['a'], ['b']] (by decide) (by decide)).2
    ⟨by decide, fun attr h => absurd h (by simp)⟩

/-- A line with the value `-n`. -/
def optionValue : Text := "\x7b\"a\":\"-n\"\x7d".toList

/-- What `jq` prints for this line. -/
def jqOptionValue (_ _ : Text) : Text := ['-', 'n']

/-- **A row is lost**: for the value `-n` of a single attribute nothing is appended. -/
theorem option_row_lost : ¬ ∀ (jq : Text → Text → Text) (line : Text) (attrs : List Text), attrs ≠ [] →
    (∀ attr ∈ attrs, '\x00' ∉ jq line attr) →
      Csv.decode csv (appendRow jq attrs line) = some [attrs.map (jq line)] := by
  intro hclaim
  have hdecoded := hclaim jqOptionValue optionValue [['a']] (by decide) (by decide)
  have hempty : Csv.decode csv (appendRow jqOptionValue [['a']] optionValue) = some [] := by decide
  rw [hempty] at hdecoded
  exact absurd hdecoded (by decide)

end OsLab.Scripts
