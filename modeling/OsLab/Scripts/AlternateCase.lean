import Mathlib
import OsLab.Scripts.Arith

/-!
# Alternating case (the script of Q4)

One `sed` command with four substitutions of the same kind. Their addresses find the lines that have
the word `$2` between blanks, at the end, at the start and alone; the substitution sets the case of the
letters of the line by turns. A later address looks at the line as the earlier substitutions left it.

* `substitute_eq`: the substitution gives the letters upper and lower case by turns.
* `alternateCase_getElem`: the script, one character at a time.
-/

namespace OsLab.Scripts

/-! ## The substitution -/

/-- `[A-Za-z]`. -/
def isLetter (c : Char) : Bool := c.isAlpha

/-- The groups of a match of `([^A-Za-z]*)([A-Za-z])([^A-Za-z]*)([A-Za-z]?)`. -/
structure Groups where
  group1 : Text
  group2 : Char
  group3 : Text
  group4 : Option Char

/-- What is matched. -/
def Groups.text (g : Groups) : Text := g.group1 ++ g.group2 :: (g.group3 ++ g.group4.toList)

/-- The groups are what the expression says. -/
structure Groups.Valid (g : Groups) : Prop where
  group1 : ∀ c ∈ g.group1, isLetter c = false
  group2 : isLetter g.group2 = true
  group3 : ∀ c ∈ g.group3, isLetter c = false
  group4 : ∀ c ∈ g.group4, isLetter c = true

/-- The first match in a text, and what comes after it. -/
def firstMatch (text : Text) : Option (Groups × Text) :=
  match text.span fun c => !isLetter c with
  | (_, []) => none
  | (group1, group2 :: text) =>
    match text.span fun c => !isLetter c with
    | (group3, []) => some (⟨group1, group2, group3, none⟩, [])
    | (group3, c :: text) => some (⟨group1, group2, group3, some c⟩, text)

/-- `\1\u\2\3\l\4`. -/
def Groups.replacement (g : Groups) : Text :=
  g.group1 ++ g.group2.toUpper :: (g.group3 ++ (g.group4.map Char.toLower).toList)

/-- `s/.../.../g`, with at most `fuel` matches. -/
def substituteLoop : ℕ → Text → Text
  | 0, text => text
  | fuel + 1, text =>
    match firstMatch text with
    | none => text
    | some (g, rest) => g.replacement ++ substituteLoop fuel rest

/-- `s/.../.../g`: every match has a letter. -/
def substitute (text : Text) : Text := substituteLoop text.length text

/-! ## The script -/

/-- The four addresses. -/
inductive Address where
  /-- `/ w /` -/
  | between
  /-- `/ w$/` -/
  | atEnd
  /-- `/^w /` -/
  | atStart
  /-- `/^w$/` -/
  | alone

/-- The address finds the line. -/
def Address.Finds (w line : Text) : Address → Prop
  | .between => ' ' :: (w ++ [' ']) <:+: line
  | .atEnd => ' ' :: w <:+ line
  | .atStart => w ++ [' '] <+: line
  | .alone => line = w

instance (w line : Text) : (a : Address) → Decidable (a.Finds w line)
  | .between => inferInstanceAs (Decidable (_ <:+: _))
  | .atEnd => inferInstanceAs (Decidable (_ <:+ _))
  | .atStart => inferInstanceAs (Decidable (_ <+: _))
  | .alone => inferInstanceAs (Decidable (_ = _))

/-- One `-e`. -/
def sedCommand (w line : Text) (a : Address) : Text := if a.Finds w line then substitute line else line

/-- The addresses, in the order of the script. -/
def addresses : List Address := [.between, .atEnd, .atStart, .alone]

/-- What the script makes of a line. -/
def alternateLine (w line : Text) : Text := addresses.foldl (sedCommand w) line

/-- The script, line by line. -/
def alternateCase (w : Text) (lines : List Text) : List Text := lines.map (alternateLine w)

/-! ## What the expression matches -/

variable {text line rest w pre a : Text} {g : Groups} {up : Bool}

/-- A run of other characters ends at the first letter. -/
theorem span_spec (h : text.span (fun c => !isLetter c) = (a, rest)) :
    text = a ++ rest ∧ (∀ c ∈ a, isLetter c = false) ∧ ∀ c ∈ rest.head?, isLetter c = true := by
  rw [List.span_eq_takeWhile_dropWhile] at h
  obtain ⟨rfl, rfl⟩ := Prod.mk.inj h
  refine ⟨List.takeWhile_append_dropWhile.symm, fun c hc => ?_, fun c hc => ?_⟩
  · simpa using List.mem_takeWhile_imp hc
  · have := List.head?_dropWhile_not (fun c => !isLetter c) text
    rw [Option.mem_def.1 hc] at this
    simpa using this

theorem firstMatch_none (h : firstMatch text = none) : ∀ c ∈ text, isLetter c = false := by
  unfold firstMatch at h
  rcases hs : text.span (fun c => !isLetter c) with ⟨a, _ | ⟨c, t⟩⟩
  · obtain ⟨rfl, ha, -⟩ := span_spec hs
    rwa [List.append_nil]
  · rw [hs] at h
    dsimp only at h
    split at h <;> cases h

theorem firstMatch_some (h : firstMatch text = some (g, rest)) :
    g.Valid ∧ text = g.text ++ rest ∧ (g.group4 = none → rest = []) := by
  unfold firstMatch at h
  rcases hs : text.span (fun c => !isLetter c) with ⟨a, _ | ⟨b, t⟩⟩
  · rw [hs] at h
    cases h
  · rw [hs] at h
    obtain ⟨rfl, ha, hb⟩ := span_spec hs
    dsimp only at h
    rcases hs' : t.span (fun c => !isLetter c) with ⟨a', _ | ⟨d, t'⟩⟩
    · rw [hs'] at h
      cases h
      obtain ⟨rfl, ha', -⟩ := span_spec hs'
      exact ⟨⟨ha, hb b rfl, ha', nofun⟩, by simp [Groups.text], fun _ => rfl⟩
    · rw [hs'] at h
      cases h
      obtain ⟨rfl, ha', hd⟩ := span_spec hs'
      exact ⟨⟨ha, hb b rfl, ha', by rintro _ ⟨⟩; exact hd d rfl⟩, by simp [Groups.text], nofun⟩

theorem Groups.Valid.countP_text (hg : g.Valid) :
    g.text.countP isLetter = 1 + g.group4.toList.length := by
  have h1 : g.group1.countP isLetter = 0 := List.countP_eq_zero.2 fun c hc => by simp [hg.group1 c hc]
  have h3 : g.group3.countP isLetter = 0 := List.countP_eq_zero.2 fun c hc => by simp [hg.group3 c hc]
  have h4 : g.group4.toList.countP isLetter = g.group4.toList.length :=
    List.countP_eq_length.2 fun c hc => hg.group4 c (Option.mem_toList.1 hc)
  rw [Groups.text, List.countP_append, List.countP_cons_of_pos hg.group2, List.countP_append, h1, h3, h4]
  omega

/-- **Leftmost and longest**: where the expression matches anywhere in a text, the first match starts
at its beginning, and no match that does is longer. -/
theorem firstMatch_longest (hg : g.Valid) (h : text = pre ++ (g.text ++ rest)) :
    ∃ g' rest', firstMatch text = some (g', rest') ∧ (pre = [] → g.text.length ≤ g'.text.length) := by
  rcases hm : firstMatch text with _ | ⟨g', rest'⟩
  · have hno := firstMatch_none hm g.group2 (by simp [h, Groups.text])
    rw [hg.group2] at hno
    cases hno
  refine ⟨g', rest', rfl, ?_⟩
  rintro rfl
  rw [List.nil_append] at h
  obtain ⟨hg', htext, hend⟩ := firstMatch_some hm
  by_contra hlt
  obtain ⟨x, hx⟩ : g'.text <+: g.text := List.prefix_of_prefix_length_le
    (htext ▸ List.prefix_append g'.text rest') (h ▸ List.prefix_append g.text rest) (by omega)
  have hne : x ≠ [] := by
    rintro rfl
    rw [List.append_nil] at hx
    exact hlt (congrArg List.length hx).ge
  -- the shorter match has two letters, so there is none behind it
  have hcount := hg.countP_text
  rw [← hx, List.countP_append, hg'.countP_text] at hcount
  rcases h4' : g'.group4 with _ | d'
  · have hlen := congrArg List.length (htext.symm.trans h)
    rw [hend h4', List.append_nil, List.length_append] at hlen
    omega
  · rcases h4 : g.group4 with _ | d
    · rw [h4, h4'] at hcount
      simp at hcount
      omega
    · rw [h4, h4'] at hcount
      have hzero : x.countP isLetter = 0 := by
        simp only [Option.toList_some, List.length_singleton] at hcount
        omega
      have htext : g.text = (g.group1 ++ g.group2 :: g.group3) ++ [d] := by simp [Groups.text, h4]
      have hlast : (g'.text ++ x).getLast? = some d := by rw [hx, htext, List.getLast?_concat]
      rw [List.getLast?_append_of_ne_nil _ hne] at hlast
      exact List.countP_eq_zero.1 hzero d (List.mem_of_getLast? hlast) (hg.group4 d h4)

/-! ## The letters by turns -/

/-- The letters of a text, upper and lower case by turns. -/
def alternate : Bool → Text → Text
  | _, [] => []
  | up, c :: text =>
    if isLetter c then (if up then c.toUpper else c.toLower) :: alternate (!up) text
    else c :: alternate up text

theorem alternate_append (ha : ∀ c ∈ a, isLetter c = false) (up : Bool) (text : Text) :
    alternate up (a ++ text) = a ++ alternate up text := by
  induction a with
  | nil => rfl
  | cons c a ih =>
    rw [List.cons_append, alternate, ha c List.mem_cons_self, if_neg Bool.false_ne_true,
      ih fun x hx => ha x (List.mem_cons_of_mem c hx), List.cons_append]

/-- A match takes two letters, the last one perhaps a single one. -/
theorem alternate_match (hg : g.Valid) (hend : g.group4 = none → rest = []) :
    alternate true (g.text ++ rest) = g.replacement ++ alternate true rest := by
  rw [Groups.text, List.append_assoc, alternate_append hg.group1, List.cons_append, alternate,
    hg.group2, if_pos rfl, if_pos rfl, List.append_assoc, alternate_append hg.group3, Groups.replacement]
  rcases h4 : g.group4 with _ | d
  · simp [hend h4, alternate]
  · have hd := hg.group4 d h4
    simp [alternate, hd]

theorem substituteLoop_eq {fuel : ℕ} (hf : text.length ≤ fuel) :
    substituteLoop fuel text = alternate true text := by
  induction fuel generalizing text with
  | zero =>
    obtain rfl : text = [] := List.length_eq_zero_iff.1 (Nat.le_zero.1 hf)
    rfl
  | succ fuel ih =>
    unfold substituteLoop
    rcases hm : firstMatch text with _ | ⟨g, rest⟩
    · have := alternate_append (firstMatch_none hm) true []
      rw [List.append_nil] at this
      rw [this]
      simp [alternate]
    · obtain ⟨hg, rfl, hend⟩ := firstMatch_some hm
      rw [alternate_match hg hend]
      dsimp only
      rw [ih]
      rw [List.length_append, Groups.text, List.length_append, List.length_cons] at hf
      omega

/-- **The substitution** sets the case of the letters by turns. -/
theorem substitute_eq (text : Text) : substitute text = alternate true text :=
  substituteLoop_eq le_rfl

theorem alternate_alternate (up : Bool) (text : Text) :
    alternate up (alternate up text) = alternate up text := by
  induction text generalizing up with
  | nil => rfl
  | cons c text ih =>
    rw [alternate]
    by_cases hc : isLetter c = true
    · rw [if_pos hc]
      cases up
      · have hc' : isLetter c.toLower = true := by simpa [isLetter] using hc
        simp [alternate, hc', ih]
      · have hc' : isLetter c.toUpper = true := by simpa [isLetter] using hc
        simp [alternate, hc', ih]
    · rw [if_neg hc, alternate, if_neg hc, ih]

/-- One character, by the number of letters before it. -/
theorem alternate_char (up : Bool) (text : Text) (i : ℕ) : (alternate up text)[i]? = text[i]?.map fun c =>
    if isLetter c then
      if decide ((text.take i).countP isLetter % 2 = 0) = up then c.toUpper else c.toLower
    else c := by
  induction text generalizing up i with
  | nil => simp [alternate]
  | cons c text ih =>
    rw [alternate]
    cases i with
    | zero => by_cases hc : isLetter c <;> cases up <;> simp [hc]
    | succ i =>
      by_cases hc : isLetter c = true
      · rw [if_pos hc, List.getElem?_cons_succ, ih, List.getElem?_cons_succ, List.take_succ_cons,
          List.countP_cons_of_pos hc]
        congr 1
        funext x
        have hparity : (decide ((List.countP isLetter (text.take i) + 1) % 2 = 0)) =
            !decide (List.countP isLetter (text.take i) % 2 = 0) := by
          rw [← decide_not, decide_eq_decide]
          omega
        rw [hparity]
        cases up <;> simp
      · rw [if_neg hc, List.getElem?_cons_succ, ih, List.getElem?_cons_succ, List.take_succ_cons,
          List.countP_cons_of_neg hc]

/-! ## The addresses -/

theorem intercalate_append {sep : Text} {xs ys : List Text} (hx : xs ≠ []) (hy : ys ≠ []) :
    sep.intercalate (xs ++ ys) = sep.intercalate xs ++ (sep ++ sep.intercalate ys) := by
  induction xs with
  | nil => exact absurd rfl hx
  | cons x xs ih =>
    rw [List.cons_append, List.intercalate_cons_of_ne_nil (by simp [hy])]
    rcases eq_or_ne xs [] with rfl | hne
    · simp
    · rw [ih hne, List.intercalate_cons_of_ne_nil hne]
      simp

/-- **The addresses** find the lines that have the word between blanks or the ends of the line. -/
theorem exists_finds (hw : ' ' ∉ w) : (∃ a : Address, a.Finds w line) ↔ w ∈ line.splitOn ' ' := by
  have hsplit : w.splitOn ' ' = [w] := List.splitOn_eq_singleton hw
  constructor
  · rintro ⟨a, ha⟩
    cases a with
    | between =>
      obtain ⟨pre, post, rfl⟩ := ha
      have hline : pre ++ ' ' :: (w ++ [' ']) ++ post = pre ++ ' ' :: (w ++ ' ' :: post) := by simp
      rw [hline, List.splitOn_append_cons_self, List.splitOn_append_cons_self, hsplit]
      simp
    | atEnd =>
      obtain ⟨pre, rfl⟩ := ha
      rw [List.splitOn_append_cons_self, hsplit]
      simp
    | atStart =>
      obtain ⟨post, rfl⟩ := ha
      rw [List.append_assoc, List.singleton_append, List.splitOn_append_cons_self, hsplit]
      simp
    | alone =>
      obtain rfl : line = w := ha
      rw [hsplit]
      exact List.mem_singleton_self line
  · intro hmem
    obtain ⟨before, after, hwords⟩ := List.append_of_mem hmem
    have hline : [' '].intercalate (before ++ w :: after) = line := by
      rw [← hwords, List.intercalate_splitOn]
    rcases eq_or_ne before [] with rfl | hb
    · rcases eq_or_ne after [] with rfl | ha
      · exact ⟨.alone, hline.symm.trans List.intercalate_singleton⟩
      · refine ⟨.atStart, [' '].intercalate after, ?_⟩
        rw [← hline, List.nil_append, List.intercalate_cons_of_ne_nil ha]
    · rw [intercalate_append hb (List.cons_ne_nil w after)] at hline
      rcases eq_or_ne after [] with rfl | ha
      · refine ⟨.atEnd, [' '].intercalate before, ?_⟩
        rw [← hline, List.intercalate_singleton]
        rfl
      · refine ⟨.between, [' '].intercalate before, [' '].intercalate after, ?_⟩
        rw [← hline, List.intercalate_cons_of_ne_nil ha]
        simp

theorem foldl_sedCommand (w line : Text) (as : List Address) :
    as.foldl (sedCommand w) line = if ∃ a ∈ as, a.Finds w line then substitute line else line := by
  induction as generalizing line with
  | nil => simp
  | cons a as ih =>
    rw [List.foldl_cons, ih, sedCommand]
    by_cases ha : a.Finds w line
    · -- a second substitution changes nothing
      have htwice : substitute (substitute line) = substitute line := by
        simp only [substitute_eq, alternate_alternate]
      simp [ha, htwice]
    · simp [ha]

/-- **The script**: a line with the word has its letters in upper and lower case by turns, and any other
line stays as it is. -/
theorem alternateLine_char (hw : ∀ c ∈ w, c.isAlphanum = true) (text : Text) (i : ℕ) :
    (alternateLine w text)[i]? = text[i]?.map fun c =>
      if w ∈ text.splitOn ' ' ∧ isLetter c = true then
        if (text.take i).countP isLetter % 2 = 0 then c.toUpper else c.toLower
      else c := by
  have hblank : ' ' ∉ w := fun h => absurd (hw _ h) (by decide)
  have hall : (∃ a ∈ addresses, a.Finds w text) ↔ w ∈ text.splitOn ' ' := by
    rw [← exists_finds hblank]
    refine ⟨fun ⟨a, _, ha⟩ => ⟨a, ha⟩, fun ⟨a, ha⟩ => ⟨a, ?_, ha⟩⟩
    cases a <;> simp [addresses]
  rw [alternateLine, foldl_sedCommand]
  by_cases hmem : w ∈ text.splitOn ' '
  · rw [if_pos (hall.2 hmem), substitute_eq, alternate_char]
    simp only [hmem, true_and, decide_eq_true_eq]
  · rw [if_neg (mt hall.1 hmem)]
    simp only [hmem, false_and, if_false, Option.map_id']

/-- The first letter of the word `to` in `go to` is the third one. -/
theorem alternateLine_char_to : (alternateLine ['t', 'o'] ['g', 'o', ' ', 't', 'o'])[3]? = some 'T' := by
  rw [alternateLine_char (by simp)]
  decide

end OsLab.Scripts
