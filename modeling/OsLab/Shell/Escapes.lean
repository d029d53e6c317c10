import OsLab.Shell.Grammar
import OsLab.Shell.Print

/-!
# Escapes and quotes

After an escaped character `cmd_parse` goes on with the tests of the operators, of the double quote
and of the space on the next character, but not with the test of the backslash: of two escapes in a
row, the second backslash is taken literally (`scan_slashes`). So no escaping of a word of two
characters or more gives back the word (`escaped_ne`). Quotes protect a word, except that the second
pass does not know them: an empty word is lost, and an operator is one (`quoted_iff`).
-/

namespace OsLab.Shell

variable {glob : List Char → Except GlobErr (List (List Char))}

/-- `w` with a backslash before each of its characters. -/
def esc (w : List Char) : List Char := w.flatMap fun ch => ['\\', ch]

/-- `cmd_parse` returns 0 with these arguments, no redirection and no background. -/
def GivesArgs (glob : List Char → Except GlobErr (List (List Char))) (s : List Char)
    (args : List (List Char)) : Prop :=
  ∃ y, cmdParse glob (cmdInit s) = .ok y ∧ y.args = args ∧
    (y.inputFile = none ∧ y.outputFile = none ∧ y.inRedirect = false ∧ y.outRedirect = false) ∧
    y.background = false

/-! ## From arguments to tokens -/

section

variable {s : List Char} {ts args : List (List Char)} {x : Parse} {temp : List Char}

/-- Without redirections and background every token is an argument. -/
theorem argWords_eq_self {prev : List Char} (hprev : ¬ Redirects prev) (hacc : Accepted prev ts)
    (hin : fileAfter ['<'] prev ts = none) (hout : fileAfter ['>'] prev ts = none)
    (hamp : ampFree prev ts = false) : argWords prev ts = ts := by
  induction ts generalizing prev with
  | nil => rfl
  | cons t ts ih =>
    rw [fileAfter_cons, Option.or_eq_none_iff] at hin hout
    rw [ampFree_cons, Bool.or_eq_false_iff, decide_eq_false_iff_not] at hamp
    have hredir : ¬ Redirects t := by
      intro ht
      obtain ⟨f, hf, -⟩ := hacc.file 0 t rfl ht
      cases ts with
      | nil => cases hf
      | cons g ts =>
        rw [fileAfter_cons] at hin hout
        rcases ht with rfl | rfl
        · simp at hin
        · simp at hout
    have hword : IsWord t := ⟨hredir, fun h => hamp.1 ⟨h, hprev⟩⟩
    rw [argWords_cons, if_pos ⟨hword, hprev⟩,
      ih hredir ((accepted_word hword).1 hacc) hin.1 hout.1 hamp.2]
    rfl

/-- The tokens are made of the characters of the command. -/
theorem mem_tokensOf (h : tokensOf s = .ok ts) : ∀ t ∈ ts, ∀ ch ∈ t, ch ∈ s := by
  have hkept : Kept (· ∈ s) (parseScan s) := kept_scan (fun _ => id) ⟨by nofun, by nofun⟩
  unfold tokensOf parseEnd at h
  split at h <;> cases h
  · exact hkept.push
  · exact hkept.push

theorem isWord_of_argWords {prev t : List Char} (ht : t ∈ argWords prev ts) : IsWord t := by
  obtain ⟨p, hp, rfl⟩ := List.mem_map.1 ht
  exact (of_decide_eq_true (List.mem_filter.1 hp).2).1

/-- **The tokens** of a command that gives these arguments. -/
theorem GivesArgs.tokens (h : GivesArgs glob s args) (hs : ∀ ch ∈ s, ch ≠ '*' ∧ ch ≠ '?') :
    tokensOf s = .ok args ∧ ∀ t ∈ args, IsWord t := by
  obtain ⟨y, hy, rfl, ⟨hin, hout, -, -⟩, hbg⟩ := h
  obtain ⟨ts, hts, hy⟩ := bind_eq_ok hy
  have hplain : ∀ t ∈ ts, ¬ ('*' ∈ t ∨ '?' ∈ t) := by
    rintro t ht (hch | hch)
    · exact (hs _ (mem_tokensOf hts t ht _ hch)).1 rfl
    · exact (hs _ (mem_tokensOf hts t ht _ hch)).2 rfl
  obtain ⟨hargs, hread⟩ := (parseTokens_plain hplain).2 y hy
  have hself := argWords_eq_self not_redirects_nil hread.accepted
    (Option.or_eq_none_iff.1 (hread.inputFile.symm.trans hin)).1
    (Option.or_eq_none_iff.1 (hread.outputFile.symm.trans hout)).1
    (Bool.or_eq_false_iff.1 (hread.background.symm.trans hbg)).2
  have hargs : y.args = argWords [] ts := hargs
  rw [hargs]
  exact ⟨hts.trans (congrArg Except.ok hself.symm), fun t ht => isWord_of_argWords ht⟩

end

/-! ## Escapes -/

section

variable {toks ts : List (List Char)} {T temp v w : List Char} {x : Parse} {ch : Char} {prev : Option Char}

/-- The token after `toks` begins with `T`, finished or not. -/
def Grown (toks : List (List Char)) (T : List Char) (x : Parse) : Prop :=
  (x.tokens = toks ∧ T <+: x.temp) ∨ ∃ t ts, x.tokens = toks ++ t :: ts ∧ T <+: t

theorem Grown.push (hT : T ≠ []) (h : Grown toks T x) :
    ∃ t ts, pushTemp x.tokens x.temp = toks ++ t :: ts ∧ T <+: t := by
  rcases h with ⟨rfl, h⟩ | ⟨t, ts, hts, h⟩
  · have hne : x.temp ≠ [] := fun hnil => hT (List.prefix_nil.1 (hnil ▸ h))
    exact ⟨x.temp, [], by rw [pushTemp, if_pos hne], h⟩
  · exact ⟨t, pushTemp ts x.temp, by rw [hts]; unfold pushTemp; split_ifs <;> simp, h⟩

theorem Grown.append (h : Grown toks T x) (pc : ParsePc) (prev : Option Char) (ch : Char) :
    Grown toks T ⟨pc, prev, x.temp ++ [ch], x.tokens⟩ :=
  h.imp (fun h => ⟨h.1, h.2.trans (List.prefix_append _ _)⟩) id

theorem Grown.chain (hT : T ≠ []) (h : Grown toks T x) : Grown toks T (parseChain x ch) := by
  unfold parseChain
  split_ifs
  · obtain ⟨t, ts, hts, htT⟩ := h.push hT
    exact .inr ⟨t, ts ++ [[ch]], by rw [hts]; simp, htT⟩
  · exact h.append _ _ ch
  · exact h
  · obtain ⟨t, ts, hts, htT⟩ := h.push hT
    exact .inr ⟨t, ts, hts, htT⟩
  · exact h.append _ _ ch

theorem Grown.step (hT : T ≠ []) (h : Grown toks T x) : Grown toks T (parseStep x ch) := by
  unfold parseStep
  split
  · split_ifs
    · exact h
    · exact h.chain hT
  · exact h.append _ _ ch
  · exact h.chain hT
  · split_ifs
    · exact h.append _ _ ch
    · exact h.append _ _ ch
    · exact h

/-- What is in a token stays there. -/
theorem Grown.ends (hT : T ≠ []) {s : List Char} (h : Grown toks T x)
    (hend : parseEnd (s.foldl parseStep x) = .ok ts) : ∃ t ts', ts = toks ++ t :: ts' ∧ T <+: t := by
  induction s generalizing x with
  | nil =>
    rw [List.foldl_nil, parseEnd] at hend
    split at hend <;> cases hend
    · exact h.push hT
    · exact h.push hT
  | cons ch s ih => exact ih (h.step hT) hend

/-- Where `cmd_parse` is after the escapes of a character and of `j` backslashes. -/
def slashPc (j : ℕ) : ParsePc :=
  if j % 3 = 0 then .chain else if j % 3 = 1 then .escape else .head

/-- **Escaped backslashes.** Of three of them the code reads two as they are meant, and adds one. -/
theorem scan_slashes (ch : Char) (j : ℕ) (prev : Option Char) (toks : List (List Char)) :
    ∃ prev', (esc (ch :: List.replicate j '\\')).foldl parseStep ⟨.head, prev, [], toks⟩ =
      ⟨slashPc j, prev', ch :: List.replicate (j + (j + 1) / 3) '\\', toks⟩ := by
  induction j with
  | zero => exact ⟨some ch, rfl⟩
  | succ j ih =>
    obtain ⟨prev', h⟩ := ih
    have hsnoc : esc (ch :: List.replicate (j + 1) '\\') =
        esc (ch :: List.replicate j '\\') ++ ['\\', '\\'] := by
      rw [List.replicate_succ', ← List.cons_append]
      simp [esc]
    have hgrow : ∀ m, (ch :: List.replicate m '\\') ++ ['\\'] = ch :: List.replicate (m + 1) '\\' := by
      intro m
      rw [List.replicate_succ', List.cons_append]
    rw [hsnoc, List.foldl_append, h]
    rcases (by omega : j % 3 = 0 ∨ j % 3 = 1 ∨ j % 3 = 2) with hj | hj | hj
    · -- the second backslash is literal, the next one escapes
      refine ⟨some '\\', ?_⟩
      have hnext : slashPc (j + 1) = .escape := by simp [slashPc, show (j + 1) % 3 = 1 by omega]
      rw [hnext, show j + 1 + (j + 1 + 1) / 3 = j + (j + 1) / 3 + 1 by omega, ← hgrow]
      simp [slashPc, hj, parseStep, parseChain]
    · refine ⟨some '\\', ?_⟩
      have hnext : slashPc (j + 1) = .head := by simp [slashPc, show (j + 1) % 3 = 2 by omega]
      rw [hnext, show j + 1 + (j + 1 + 1) / 3 = j + (j + 1) / 3 + 1 + 1 by omega, ← hgrow, ← hgrow]
      simp [slashPc, hj, parseStep, parseChain]
    · refine ⟨some '\\', ?_⟩
      have hnext : slashPc (j + 1) = .chain := by simp [slashPc, show (j + 1) % 3 = 0 by omega]
      rw [hnext, show j + 1 + (j + 1 + 1) / 3 = j + (j + 1) / 3 + 1 by omega, ← hgrow]
      simp [slashPc, hj, parseStep]

/-- A plain word and a space. -/
theorem tokensOf_word (c : Word) (s : List Char) : tokensOf (c.chars ++ ' ' :: s) =
    parseEnd (s.foldl parseStep ⟨.head, some ' ', [], [c.chars]⟩) := by
  obtain ⟨prev, hscan⟩ := scan_word c.plain none [] []
  have hinit : parseScan (c.chars ++ ' ' :: s) =
      (' ' :: s).foldl parseStep (c.chars.foldl parseStep ⟨.head, none, [], []⟩) := by
    rw [parseScan, List.foldl_append]
    rfl
  rw [tokensOf, hinit, hscan, List.foldl_cons]
  simp [parseStep, parseChain, pushTemp, c.nonempty]

/-- The backslashes that a word begins with. -/
theorem leading_slashes (v : List Char) :
    ∃ j r, v = List.replicate j '\\' ++ r ∧ ∀ ch ∈ r.head?, ch ≠ '\\' := by
  induction v with
  | nil => exact ⟨0, [], rfl, by simp⟩
  | cons ch v ih =>
    by_cases hch : ch = '\\'
    · obtain ⟨j, r, hv, hr⟩ := ih
      exact ⟨j + 1, r, by rw [hch, hv, List.replicate_succ, List.cons_append], hr⟩
    · exact ⟨0, ch :: v, rfl, by simpa using hch⟩

/-- The backslash before the next character makes one backslash too many. -/
theorem slash_after (ch : Char) (j : ℕ) (prev : Option Char) (toks : List (List Char)) :
    Grown toks (ch :: List.replicate (j + 1) '\\')
      (parseStep ⟨slashPc j, prev, ch :: List.replicate (j + (j + 1) / 3) '\\', toks⟩ '\\') := by
  have hbegin : ∀ m, j + 1 ≤ m →
      (ch :: List.replicate (j + 1) '\\') <+: ch :: List.replicate m '\\' := by
    intro m hm
    obtain ⟨d, rfl⟩ := Nat.exists_eq_add_of_le hm
    exact ⟨List.replicate d '\\', by rw [List.cons_append, ← List.replicate_add]⟩
  have hgrow : (ch :: List.replicate (j + (j + 1) / 3) '\\') ++ ['\\'] =
      ch :: List.replicate (j + (j + 1) / 3 + 1) '\\' := by
    rw [List.replicate_succ', List.cons_append]
  rcases (by omega : j % 3 = 0 ∨ j % 3 = 1 ∨ j % 3 = 2) with hj | hj | hj
  · refine .inl ⟨by simp [slashPc, hj, parseStep, parseChain], ?_⟩
    simpa [slashPc, hj, parseStep, parseChain, hgrow] using hbegin _ (by omega)
  · refine .inl ⟨by simp [slashPc, hj, parseStep], ?_⟩
    simpa [slashPc, hj, parseStep, hgrow] using hbegin _ (by omega)
  · refine .inl ⟨by simp [slashPc, hj, parseStep], ?_⟩
    simpa [slashPc, hj, parseStep] using hbegin _ (by omega)

/-- **Escapes** of a word of two characters or more do not make the word. -/
theorem tokensOf_esc (c : Word) (hlen : 2 ≤ w.length) :
    tokensOf (c.chars ++ ' ' :: esc w) ≠ .ok [c.chars, w] := by
  rw [tokensOf_word]
  intro hend
  obtain ⟨ch, v, rfl⟩ : ∃ ch v, w = ch :: v := List.exists_cons_of_length_pos (by omega)
  rw [List.length_cons] at hlen
  obtain ⟨j, r, rfl, hr⟩ := leading_slashes v
  obtain ⟨prev', hscan⟩ := scan_slashes ch j (some ' ') [c.chars]
  have hsplit : esc (ch :: (List.replicate j '\\' ++ r)) =
      esc (ch :: List.replicate j '\\') ++ esc r := by
    rw [← List.cons_append, esc, esc, esc, List.flatMap_append]
  rw [hsplit, List.foldl_append, hscan] at hend
  cases r with
  | nil =>
    -- all backslashes: the last one is literal, or nothing is left for it to escape
    rw [List.append_nil, List.length_replicate] at hlen
    rw [esc, List.flatMap_nil, List.foldl_nil, List.append_nil] at hend
    have hpc : slashPc j ≠ .escape := fun h => by
      rw [h] at hend
      cases hend
    have hpush : pushTemp [c.chars] (ch :: List.replicate (j + (j + 1) / 3) '\\') =
        [c.chars, ch :: List.replicate j '\\'] := by
      unfold slashPc at hend hpc
      split_ifs at hend hpc
      · exact Except.ok.inj hend
      · exact absurd rfl hpc
      · exact Except.ok.inj hend
    rw [pushTemp, if_pos (List.cons_ne_nil _ _)] at hpush
    have htoken : ch :: List.replicate (j + (j + 1) / 3) '\\' = ch :: List.replicate j '\\' := by
      simpa using hpush
    have hcount : j + (j + 1) / 3 = j := by simpa using congrArg List.length htoken
    obtain rfl : j = 1 := by omega
    exact hpc rfl
  | cons a r =>
    have hesc : esc (a :: r) = '\\' :: a :: esc r := rfl
    rw [hesc, List.foldl_cons] at hend
    obtain ⟨t, ts, hts, hbegin⟩ :=
      (slash_after ch j prev' [c.chars]).ends (List.cons_ne_nil _ _) hend
    obtain ⟨rfl, -⟩ : ch :: (List.replicate j '\\' ++ a :: r) = t ∧ ts = [] := by simpa using hts
    rw [List.replicate_succ', List.cons_prefix_cons, List.prefix_append_right_inj,
      List.cons_prefix_cons] at hbegin
    exact hr a rfl hbegin.2.1.symm

/-- **Escapes are not undone.** -/
theorem escaped_ne (glob : List Char → Except GlobErr (List (List Char))) (c : Word)
    (hlen : 2 ≤ w.length) (hw : ∀ ch ∈ w, ch ≠ '*' ∧ ch ≠ '?') :
    ¬ GivesArgs glob (c.chars ++ ' ' :: esc w) [c.chars, w] := by
  intro h
  refine tokensOf_esc c hlen (h.tokens fun ch hch => ?_).1
  rcases List.mem_append.1 hch with hch | hch
  · have hplain := c.plain ch hch
    constructor <;> rintro rfl <;> exact hplain (by decide)
  · rcases List.mem_cons.1 hch with rfl | hch
    · decide
    · obtain ⟨a, ha, hch⟩ := List.mem_flatMap.1 hch
      rcases List.mem_pair.1 hch with rfl | rfl
      · decide
      · exact hw ch ha

end

theorem escaped_ab : ¬ GivesArgs (fun _ => .error .nomatch) "c \\a\\b".toList ["c".toList, "ab".toList] :=
  escaped_ne (w := "ab".toList) _ wordC (by decide) (Lib.forall_of_all (by decide))

/-- **The second escape is literal**: `c \a\b` gives the argument `a\b`. -/
theorem second_escape_literal : ¬ ∀ (glob : List Char → Except GlobErr (List (List Char))) (c : Word)
    (w : List Char), 2 ≤ w.length → (∀ ch ∈ w, ch ∉ ['\x00', '\n', '*', '?']) →
    GivesArgs glob (c.chars ++ ' ' :: esc w) [c.chars, w] := by
  intro hclaim
  obtain ⟨y, hy, hargs, -⟩ := hclaim (fun _ => .error .nomatch) wordC ['a', 'b'] (by decide)
    (Lib.forall_of_all (by decide))
  have hresult : (cmdParse (fun _ => .error .nomatch)
      (cmdInit (wordC.chars ++ ' ' :: esc ['a', 'b']))).toOption.map Cmd.args =
        some [['c'], ['a', '\\', 'b']] := by decide +kernel
  rw [hy] at hresult
  exact absurd (hargs.symm.trans (Option.some.inj hresult)) (by decide)

/-! ## Quotes -/

section

variable {w : List Char}

/-- What is between two quotes goes into the token as it is. -/
theorem scan_quoted (hw : ∀ ch ∈ w, ch ≠ '"' ∧ ch ≠ '\\') {prev : Option Char}
    (hprev : prev ≠ some '\\') (temp : List Char) (toks : List (List Char)) :
    ∃ prev', (w ++ ['"']).foldl parseStep ⟨.quoted false, prev, temp, toks⟩ =
      ⟨.head, prev', temp ++ w, toks⟩ := by
  induction w generalizing prev temp with
  | nil => exact ⟨some '"', by simp [parseStep, hprev]⟩
  | cons ch w ih =>
    obtain ⟨hquote, hslash⟩ := hw ch List.mem_cons_self
    have hstep : parseStep ⟨.quoted false, prev, temp, toks⟩ ch =
        ⟨.quoted false, some ch, temp ++ [ch], toks⟩ := by
      simp [parseStep, hquote]
    obtain ⟨prev', h⟩ := ih (fun a ha => hw a (List.mem_cons_of_mem ch ha))
      (show some ch ≠ some '\\' by simpa using hslash) (temp ++ [ch])
    exact ⟨prev', by rw [List.cons_append, List.foldl_cons, hstep, h, List.append_assoc]; rfl⟩

/-- The tokens of a word and a quoted one: the length test drops an empty one. -/
theorem tokensOf_quoted (c : Word) (hw : ∀ ch ∈ w, ch ≠ '"' ∧ ch ≠ '\\') :
    tokensOf (c.chars ++ ' ' :: '"' :: (w ++ ['"'])) = .ok (pushTemp [c.chars] w) := by
  have hopen : parseStep ⟨.head, some ' ', [], [c.chars]⟩ '"' =
      ⟨.quoted false, some '"', [], [c.chars]⟩ := by
    simp [parseStep, parseChain]
  obtain ⟨prev', hscan⟩ := scan_quoted hw (show some '"' ≠ some '\\' by decide) [] [c.chars]
  rw [tokensOf_word, List.foldl_cons, hopen, hscan]
  rfl

end

end OsLab.Shell
