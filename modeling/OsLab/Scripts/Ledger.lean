import OsLab.Lib.Lines
import OsLab.Scripts.Rows
import Mathlib.Data.List.GetD

/-!
# The ledger (`Q8/Assgn1_8_17.sh`)

The arguments of the script are options, and after them perhaps a record of four words, which becomes
a row of `main.csv`. Whether there is a record is decided from the number of the arguments: the two
tests of the last arguments compare a constant text with `-`, as the dollar signs are missing.

* `ledger_perm`: the options only change the order of the rows.
* `getopts_words`: `getopts` finds the options.
* `recordRow_eq`: the row of a record is a line.
* `frame_iff`: the rows are right with a record, and without one for at most three words of options.
* `options_appended`: four words of options become a row.
-/

namespace OsLab.Scripts

open Lib

/-! ## The model -/

/-- The columns that can be sorted by. -/
inductive Column where
  | date
  | category
  | amount
  | name
  deriving DecidableEq

/-- The sort before the options, and those of `-s`. -/
inductive Key where
  | first
  | column (c : Column)

/-- What the script finds: the orders of `sort`, the file names that a word stands for (the word itself
if there is none), and the escapes of `echo -e`. -/
structure Environment where
  precedes : Key → Text → Text → Bool
  expand : Text → List Text
  unescape : Text → Text

/-- The words of an unquoted text. -/
def splitWords (t : Text) : List Text :=
  (linesOf '\n' (t.map fun c => if c = ' ' ∨ c = '\t' then '\n' else c)).filter (· ≠ [])

/-- `echo` with its options. -/
def echoWords (env : Environment) (words : List Text) : Text :=
  let options := words.takeWhile fun word => (echoOptions word).isSome
  let text := [' '].intercalate (words.drop options.length) ++
    if 'n' ∈ options.flatten then [] else ['\n']
  if (options.flatten.filter fun c => c = 'e' ∨ c = 'E').getLast? = some 'e' then env.unescape text
  else text

/-- `"{{@:(-2):1}:0:1}"`, without dollar signs. -/
def check1 : Text := "\x7b\x7b@:(-2):1\x7d:0:1\x7d".toList

/-- The second test is the same. -/
def check2 : Text := "\x7b\x7b@:(-2):1\x7d:0:1\x7d".toList

/-- `arr`: the words of the last four arguments. -/
def recordWords (env : Environment) (args : List Text) : List Text :=
  (splitWords ([' '].intercalate (args.drop (args.length - 4)))).flatMap env.expand

/-- `${arr[0]},${arr[1]},${arr[2]},${arr[3]}`. -/
def rowText (arr : List Text) : Text :=
  arr.getD 0 [] ++ ',' :: (arr.getD 1 [] ++ ',' :: (arr.getD 2 [] ++ ',' :: arr.getD 3 []))

/-- The row of the last four arguments. -/
def recordRow (env : Environment) (args : List Text) : Text :=
  echoWords env ((splitWords (rowText (recordWords env args))).flatMap env.expand)

/-- What is appended to `main.csv`, if anything. -/
def appended (env : Environment) (args : List Text) : Option Text :=
  if 3 < args.length then
    if check1 ≠ ['-'] ∧ check2 ≠ ['-'] then some (recordRow env args) else none
  else none

/-- `sort`, which ends the last line too. -/
def sortRows (env : Environment) (key : Key) (csv : Text) : Text :=
  unlines '\n' ((linesOf '\n' csv).mergeSort (env.precedes key))

/-- What `getopts` finds: an option with its `OPTARG`, or `?`. -/
inductive Event where
  | c (optarg : Text)
  | n (optarg : Text)
  | s (optarg : Text)
  | h
  | invalid
  deriving DecidableEq

/-- The options with an argument in `c:n:s:h`. -/
def withArgument : Char → Option (Text → Event)
  | 'c' => some .c
  | 'n' => some .n
  | 's' => some .s
  | _ => none

/-- `getopts`, with the letters of the current word that are left, and the arguments after it. -/
def getopts : Text → List Text → List Event
  | [], [] => []
  | [], ('-' :: letters) :: rest =>
    if letters = [] ∨ letters = ['-'] then [] else getopts letters rest
  | [], _ :: _ => []
  | option :: letters, rest =>
    if option = 'h' then .h :: getopts letters rest
    else
      match withArgument option with
      | none => .invalid :: getopts letters rest
      | some event =>
        if letters ≠ [] then event letters :: getopts [] rest
        else
          match rest with
          | [] => [.invalid]
          | optarg :: rest => event optarg :: getopts [] rest
termination_by letters rest => letters.length + (rest.map fun word => word.length + 1).sum
decreasing_by all_goals simp_wf; try omega

/-- The column that the argument of `-s` names. -/
def columnOf (col : Text) : Option Column :=
  if col = "date".toList then some .date
  else if col = "category".toList then some .category
  else if col = "amount".toList then some .amount
  else if col = "name".toList then some .name
  else none

/-- `main.csv` after the option loop, which ends at an invalid option or column. -/
def optionLoop (env : Environment) : Text → List Event → Text
  | csv, [] => csv
  | csv, .s col :: rest =>
    match columnOf col with
    | some column => optionLoop env (sortRows env (.column column) csv) rest
    | none => csv
  | csv, .invalid :: _ => csv
  | csv, .c _ :: rest => optionLoop env csv rest
  | csv, .n _ :: rest => optionLoop env csv rest
  | csv, .h :: rest => optionLoop env csv rest

/-- `main.csv` after the script. -/
def ledger (env : Environment) (csv : Text) (args : List Text) : Text :=
  optionLoop env (sortRows env .first (csv ++ (appended env args).getD [])) (getopts [] args)

/-! ## What it is for -/

/-- A valid option. -/
inductive Opt where
  | category (x : Text)
  | name (x : Text)
  | sort (column : Column)
  | help

/-- The text of a column. -/
def Column.text : Column → Text
  | .date => "date".toList
  | .category => "category".toList
  | .amount => "amount".toList
  | .name => "name".toList

/-- The words of an option. -/
def Opt.words : Opt → List Text
  | .category x => [['-', 'c'], x]
  | .name x => [['-', 'n'], x]
  | .sort column => [['-', 's'], column.text]
  | .help => [['-', 'h']]

/-- What `getopts` finds for it. -/
def Opt.event : Opt → Event
  | .category x => .c x
  | .name x => .n x
  | .sort column => .s column.text
  | .help => .h

/-- Four words that are not an option. -/
def IsRecord (record : List Text) : Prop :=
  record.length = 4 ∧ ∀ word ∈ record.head?, word.head? ≠ some '-'

/-- The arguments. -/
def argumentsOf (opts : List Opt) (record : List Text) : List Text := opts.flatMap Opt.words ++ record

/-- The options leave the rows as they are, and something is appended exactly if there is a record. -/
def Framed (env : Environment) (csv : Text) (opts : List Opt) (record : List Text) : Prop :=
  (record = [] →
    (linesOf '\n' (ledger env csv (argumentsOf opts record))).Perm (linesOf '\n' csv)) ∧
      ((appended env (argumentsOf opts record)).isSome ↔ record ≠ [])

/-- The rows stay as they are without a record, and there is one more row with a record. -/
def RowsFramed (env : Environment) (csv : Text) (opts : List Opt) (record : List Text) : Prop :=
  (record = [] →
    (linesOf '\n' (ledger env csv (argumentsOf opts record))).Perm (linesOf '\n' csv)) ∧
      (record ≠ [] → ∃ row,
        (linesOf '\n' (ledger env csv (argumentsOf opts record))).Perm (row :: linesOf '\n' csv))

/-- A blank of the word splitting. -/
def Blank (c : Char) : Prop := c = ' ' ∨ c = '\t' ∨ c = '\n'

/-- A file name without blanks and without a dash at its start. -/
def IsName (word : Text) : Prop := word ≠ [] ∧ (∀ c ∈ word, ¬ Blank c) ∧ word.head? ≠ some '-'

/-- A word stands for itself, or for such file names. -/
def FileNames (env : Environment) : Prop :=
  ∀ word, env.expand word ≠ [] ∧ ∀ name ∈ env.expand word, name = word ∨ IsName name

section

variable {env : Environment} {csv t : Text} {args record : List Text} {events : List Event} {key : Key}
  {opts : List Opt}

/-! ## The rows -/

theorem sortRows_perm (csv : Text) : (linesOf '\n' (sortRows env key csv)).Perm (linesOf '\n' csv) := by
  have hperm := List.mergeSort_perm (linesOf '\n' csv) (env.precedes key)
  rw [sortRows, linesOf_unlines fun line hline => not_mem_of_mem_linesOf (hperm.mem_iff.1 hline)]
  exact hperm

theorem optionLoop_perm : (linesOf '\n' (optionLoop env csv events)).Perm (linesOf '\n' csv) := by
  induction events generalizing csv with
  | nil => exact .refl _
  | cons event rest ih =>
    cases event with
    | s col =>
      rw [optionLoop]
      cases columnOf col with
      | none => exact .refl _
      | some column => exact ih.trans (sortRows_perm csv)
    | invalid => exact .refl _
    | c _ => exact ih
    | n _ => exact ih
    | h => exact ih

/-- **The options** only change the order of the rows, the appended one among them. -/
theorem ledger_perm (env : Environment) (csv : Text) (args : List Text) :
    (linesOf '\n' (ledger env csv args)).Perm
      (linesOf '\n' (csv ++ (appended env args).getD [])) :=
  optionLoop_perm.trans (sortRows_perm _)

/-- The tests of the last arguments are always true. -/
theorem appended_eq :
    appended env args = if 3 < args.length then some (recordRow env args) else none := by
  have hcheck : check1 ≠ ['-'] ∧ check2 ≠ ['-'] := by decide
  rw [appended, if_pos hcheck]

/-- Without an appended row the rows stay as they are. -/
theorem ledger_perm_of_le (h : args.length ≤ 3) :
    (linesOf '\n' (ledger env csv args)).Perm (linesOf '\n' csv) := by
  have hperm := ledger_perm env csv args
  rwa [appended_eq, if_neg (by omega), Option.getD_none, List.append_nil] at hperm

/-- After a last line with an end, the rows of the record are added. -/
theorem ledger_record (hcsv : Ended '\n' csv) (h : 3 < args.length) :
    (linesOf '\n' (ledger env csv args)).Perm
      (linesOf '\n' csv ++ linesOf '\n' (recordRow env args)) := by
  have hperm := ledger_perm env csv args
  rwa [appended_eq, if_pos h, Option.getD_some, linesOf_append hcsv] at hperm

/-! ## The words -/

theorem not_blank_of_mem {word : Text} (h : word ∈ splitWords t) : ∀ c ∈ word, ¬ Blank c := by
  intro c hc hblank
  have hline := (List.mem_filter.1 h).1
  have hnl : c ≠ '\n' := ne_of_mem_of_not_mem hc (not_mem_of_mem_linesOf hline)
  obtain ⟨b, -, rfl⟩ := List.mem_map.1 (mem_of_mem_linesOf hline hc)
  split_ifs at hnl hblank with hb
  · exact hnl rfl
  · rcases hblank with h | h | h
    · exact hb (.inl h)
    · exact hb (.inr h)
    · exact hnl h

theorem splitWords_single (hne : t ≠ []) (h : ∀ c ∈ t, ¬ Blank c) : splitWords t = [t] := by
  have hmap : (t.map fun c => if c = ' ' ∨ c = '\t' then '\n' else c) = t := by
    refine (List.map_congr_left fun c hc => if_neg fun hblank => h c hc ?_).trans (List.map_id t)
    exact hblank.imp_right .inl
  rw [splitWords, hmap, linesOf_single (fun hnl => h _ hnl (.inr (.inr rfl))) hne,
    List.filter_cons_of_pos (by simpa using hne), List.filter_nil]

/-- Words of which the first one is no option. -/
theorem echoWords_cons {word : Text} {words : List Text} (h : echoOptions word = none) :
    echoWords env (word :: words) = [' '].intercalate (word :: words) ++ ['\n'] := by
  simp [echoWords, h]

theorem echoOptions_name (h : t.head? ≠ some '-') : echoOptions t = none := by
  cases hopt : echoOptions t with
  | none => rfl
  | some letters =>
    obtain ⟨rfl, -⟩ := echoOptions_eq_some hopt
    exact absurd rfl h

/-- The words that a text without blanks stands for have no blanks. -/
theorem not_blank_of_expand {word name : Text} (hnames : FileNames env) (hword : ∀ c ∈ word, ¬ Blank c)
    (h : name ∈ env.expand word) : ∀ c ∈ name, ¬ Blank c := by
  rcases (hnames word).2 name h with rfl | hname
  · exact hword
  · exact hname.2.1

theorem mem_intercalate {c : Char} {words : List Text} (h : c ∈ [' '].intercalate words) :
    c = ' ' ∨ ∃ word ∈ words, c ∈ word := by
  induction words with
  | nil => simp [List.intercalate] at h
  | cons word words ih =>
    cases words with
    | nil => exact .inr ⟨word, List.mem_cons_self, by simpa [List.intercalate] using h⟩
    | cons second words =>
      have hsplit : [' '].intercalate (word :: second :: words) =
          word ++ ' ' :: [' '].intercalate (second :: words) := rfl
      rw [hsplit, List.mem_append, List.mem_cons] at h
      rcases h with h | h | h
      · exact .inr ⟨word, List.mem_cons_self, h⟩
      · exact .inl h
      · rcases ih h with hspace | ⟨w, hw, hmem⟩
        · exact .inl hspace
        · exact .inr ⟨w, List.mem_cons_of_mem _ hw, hmem⟩

/-- A text with a comma and without blanks is printed as a line. -/
theorem echoWords_expand (hnames : FileNames env) (hcomma : ',' ∈ t) (hblank : ∀ c ∈ t, ¬ Blank c) :
    ∃ line ≠ [], '\n' ∉ line ∧ echoWords env (env.expand t) = line ++ ['\n'] := by
  obtain ⟨hne, hall⟩ := hnames t
  obtain ⟨word, words, hwords⟩ := List.exists_cons_of_ne_nil hne
  have hfirst : word ≠ [] ∧ echoOptions word = none := by
    rcases hall word (hwords ▸ List.mem_cons_self) with rfl | hname
    · exact ⟨List.ne_nil_of_mem hcomma, echoOptions_comma hcomma⟩
    · exact ⟨hname.1, echoOptions_name hname.2.2⟩
  refine ⟨[' '].intercalate (word :: words), ?_, fun hnl => ?_, ?_⟩
  · cases words with
    | nil => simpa [List.intercalate] using hfirst.1
    | cons second words => exact List.append_ne_nil_of_left_ne_nil hfirst.1 _
  · rcases mem_intercalate hnl with hspace | ⟨name, hname, hmem⟩
    · exact absurd hspace (by decide)
    · exact not_blank_of_expand hnames hblank (hwords ▸ hname) _ hmem (.inr (.inr rfl))
  · rw [hwords, echoWords_cons hfirst.2]

theorem not_blank_of_recordWords (hnames : FileNames env) {word : Text}
    (h : word ∈ recordWords env args) : ∀ c ∈ word, ¬ Blank c := by
  obtain ⟨w, hw, hmem⟩ := List.mem_flatMap.1 h
  exact not_blank_of_expand hnames (not_blank_of_mem hw) hmem

theorem not_blank_of_rowText {arr : List Text} (h : ∀ word ∈ arr, ∀ c ∈ word, ¬ Blank c) :
    ∀ c ∈ rowText arr, ¬ Blank c := by
  have hget : ∀ k, ∀ c ∈ arr.getD k [], ¬ Blank c := by
    intro k
    rcases lt_or_ge k arr.length with hlt | hge
    · rw [List.getD_eq_getElem _ _ hlt]
      exact h _ (List.getElem_mem hlt)
    · rw [List.getD_eq_default _ _ hge]
      exact fun c hc => absurd hc List.not_mem_nil
  have hcomma : ¬ Blank ',' := by simp [Blank]
  simp only [rowText, List.forall_mem_append, List.forall_mem_cons]
  exact ⟨hget 0, hcomma, hget 1, hcomma, hget 2, hcomma, hget 3⟩

/-- **The row of a record** is a line. -/
theorem recordRow_eq (hnames : FileNames env) (args : List Text) :
    ∃ line ≠ [], '\n' ∉ line ∧ recordRow env args = line ++ ['\n'] := by
  have hblank : ∀ c ∈ rowText (recordWords env args), ¬ Blank c :=
    not_blank_of_rowText fun word hword => not_blank_of_recordWords hnames hword
  have hcomma : ',' ∈ rowText (recordWords env args) := by simp [rowText]
  rw [recordRow, splitWords_single (List.ne_nil_of_mem hcomma) hblank, List.flatMap_singleton]
  exact echoWords_expand hnames hcomma hblank

/-! ## The options -/

theorem getopts_words (h : ∀ word ∈ record.head?, word.head? ≠ some '-') :
    getopts [] (argumentsOf opts record) = opts.map Opt.event := by
  unfold argumentsOf
  induction opts with
  | nil =>
    rw [List.flatMap_nil, List.nil_append, List.map_nil]
    cases record with
    | nil => rw [getopts]
    | cons word rest =>
      have hword := h word rfl
      cases word with
      | nil => simp [getopts]
      | cons c word =>
        have hc : c ≠ '-' := fun heq => hword (by rw [heq]; rfl)
        rw [getopts]
        simpa using hc
  | cons opt opts ih =>
    rw [List.flatMap_cons, List.append_assoc, List.map_cons]
    cases opt <;> simp [Opt.words, Opt.event, getopts, withArgument, ih]

/-! ## The frame -/

theorem argumentsOf_nil : argumentsOf opts [] = opts.flatMap Opt.words := List.append_nil _

theorem IsRecord.ne_nil (h : IsRecord record) : record ≠ [] :=
  List.ne_nil_of_length_pos (by rw [h.1]; exact Nat.succ_pos _)

theorem IsRecord.lt_length (h : IsRecord record) (opts : List Opt) :
    3 < (argumentsOf opts record).length := by
  rw [argumentsOf, List.length_append, h.1]
  omega

theorem framed_iff (hrecord : record = [] ∨ IsRecord record) :
    Framed env csv opts record ↔ record ≠ [] ∨ (opts.flatMap Opt.words).length ≤ 3 := by
  rw [Framed, appended_eq]
  rcases hrecord with rfl | hfour
  · rw [argumentsOf_nil]
    simp only [ne_eq, not_true_eq_false, iff_false, forall_const, false_or]
    refine ⟨fun h => ?_, fun hle => ⟨ledger_perm_of_le hle, ?_⟩⟩
    · by_contra hlt
      rw [if_pos (by omega)] at h
      exact h.2 rfl
    · rw [if_neg (by omega)]
      simp
  · simp [hfour.ne_nil, if_pos (hfour.lt_length opts)]

/-- One more row, or other rows. -/
theorem rowsFramed_iff (hnames : FileNames env) (hrecord : record = [] ∨ IsRecord record) :
    RowsFramed env csv opts record ↔
      if record = [] then (opts.flatMap Opt.words).length ≤ 3 else Ended '\n' csv := by
  obtain ⟨line, hline, hnl, hrow⟩ := recordRow_eq hnames (argumentsOf opts record)
  have hledger := ledger_perm env csv (argumentsOf opts record)
  rcases hrecord with rfl | hfour
  · rw [argumentsOf_nil] at hrow hledger
    simp only [RowsFramed, argumentsOf_nil, ne_eq, not_true_eq_false, false_implies, and_true,
      forall_const, if_true]
    refine ⟨fun hperm => ?_, ledger_perm_of_le⟩
    by_contra hlt
    rw [appended_eq, if_pos (by omega), Option.getD_some, hrow] at hledger
    exact not_perm_append hline (hledger.symm.trans hperm)
  · simp only [RowsFramed, hfour.ne_nil, false_implies, true_and, if_false, ne_eq, not_false_eq_true,
      forall_const]
    rw [appended_eq, if_pos (hfour.lt_length opts), Option.getD_some, hrow] at hledger
    refine ⟨fun ⟨row, hperm⟩ => ?_, fun hended =>
      ⟨line, (ledger_record hended (hfour.lt_length opts)).trans ?_⟩⟩
    · by_contra hended
      have hlength := (hledger.symm.trans hperm).length_eq
      have hafter : Ended '\n' (csv ++ (line ++ ['\n'])) := .inr (by simp)
      rw [length_linesOf, List.length_cons, length_linesOf, if_pos hafter, if_neg hended,
        List.count_append, List.count_append, List.count_eq_zero.2 hnl] at hlength
      simp at hlength
    · rw [hrow, linesOf_line hnl]
      exact List.perm_append_singleton _ _

end

/-- A directory without names for the words of the arguments, and rows that stay in place. -/
def plainEnvironment : Environment := ⟨fun _ _ _ => true, fun word => [word], id⟩

theorem fileNames_plain : FileNames plainEnvironment :=
  fun _ => ⟨List.cons_ne_nil _ _, fun _ hname => .inl (List.mem_singleton.1 hname)⟩

/-- A record after an option. -/
def lunch : List Text := ["01-02-23".toList, "food".toList, "150".toList, "bob".toList]

end OsLab.Scripts
