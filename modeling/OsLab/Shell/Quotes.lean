import OsLab.Shell.Model

/-!
# The two lexers

`tokenise_on_pipe` and `cmd_parse` look for double quotes separately, and only `cmd_parse` knows
backslashes outside of them. The scans of both are compared at each character of a line.

* `sync_step`: both are inside of quotes or both are outside, if nothing that matters is escaped.
* `agree_iff`: when they agree on the pipes and on the quotes of a line.
* `escaped_quote_opens`: a quote that only `tokenise_on_pipe` opens.
-/

namespace OsLab.Shell

variable {line : Line} {x : Parse} {y z : Pipe} {ch : Char} {n i : ℕ}

/-- The characters of the line, the last one included. -/
def Line.text (line : Line) : List Char := line.body ++ [line.last]

/-- `cmd_parse` on the whole line, where it reads character `i`. -/
def parseAt (line : Line) (i : ℕ) : Parse := parseScan (line.text.take i)

/-- `tokenise_on_pipe`, where it reads character `i`. -/
def pipeAt (line : Line) (i : ℕ) : Except Err Pipe :=
  pipeScan line.body.length (line.body.take i)

/-- Neither inside a quoted region nor after a backslash. -/
def ParsePc.active : ParsePc → Bool
  | .head | .chain => true
  | .escape | .quoted _ => false

/-- Not inside a quoted region. -/
def PipePc.active : PipePc → Bool
  | .head | .skip => true
  | .quoted _ => false

/-- Character `i` is `ch`, and `tokenise_on_pipe` reads it outside of quotes. -/
def PipeSees (line : Line) (ch : Char) (i : ℕ) : Prop :=
  line.body[i]? = some ch ∧ ∃ y, pipeAt line i = .ok y ∧ y.pc.active

/-- Character `i` is `ch`, and `cmd_parse` finds it neither quoted nor escaped. -/
def ParseSees (line : Line) (ch : Char) (i : ℕ) : Prop :=
  line.text[i]? = some ch ∧ (parseAt line i).pc.active

/-- `tokenise_on_pipe` takes character `i` as a pipe, and ends a command there. -/
def TakesPipe (line : Line) (i : ℕ) : Prop :=
  PipeSees line '|' i ∧ ∃ z, pipeAt line (i + 1) = .ok z

/-- A `|` that is neither inside quotes nor escaped. -/
def FreeBar (line : Line) (i : ℕ) : Prop := ParseSees line '|' i

/-- `tokenise_on_pipe` opens a quoted region at character `i`. -/
def PipeOpens (line : Line) (i : ℕ) : Prop := PipeSees line '"' i

/-- `cmd_parse` opens a quoted region at character `i`. -/
def ParseOpens (line : Line) (i : ℕ) : Prop := ParseSees line '"' i

/-- Both find the same pipes and the same quotes. -/
structure Agree (line : Line) : Prop where
  pipes : ∀ i, TakesPipe line i ↔ FreeBar line i
  quotes : ∀ i, PipeOpens line i ↔ ParseOpens line i

/-- The line and its commands are accepted, or an unclosed quote is found. -/
def Judged (glob : List Char → Except GlobErr (List (List Char))) (line : Line) : Prop :=
  (∃ cmds, tokeniseOnPipe line = .ok cmds ∧ ∀ c ∈ cmds, ∃ c', cmdParse glob c = .ok c') ∨
    tokeniseOnPipe line = .error .pipeQuotes ∨
      ∃ cmds, tokeniseOnPipe line = .ok cmds ∧ ∃ c ∈ cmds, cmdParse glob c = .error .quotes

/-- No `"` or `|` is escaped, and none that matters is cut off at the end. -/
structure Unescaped (line : Line) : Prop where
  escape : ∀ i < line.body.length, (parseAt line i).pc = .escape →
    line.text[i]? ≠ some '"' ∧ line.text[i]? ≠ some '|'
  last : (parseAt line line.body.length).pc.active → line.last ≠ '"' ∧ line.last ≠ '|'

/-! ## Both scans -/

/-- Both scans are outside of quotes, or both are inside, after the same character. -/
inductive Sync : Parse → Pipe → Prop
  | outside {x : Parse} {y : Pipe} (hx : ∀ keep, x.pc ≠ .quoted keep) (hy : y.pc.active) : Sync x y
  | inside {x : Parse} {y : Pipe} (keep : Bool) (prev : Char) (hx : x.pc = .quoted keep)
      (hprev : x.prev = some prev) (hy : y.pc = .quoted prev) : Sync x y

theorem Sync.active_iff (h : Sync x y) (hx : x.pc ≠ .escape) : y.pc.active ↔ x.pc.active := by
  cases h with
  | outside hq hy =>
    cases hpc : x.pc with
    | head | chain => simp [ParsePc.active, hy]
    | escape => exact absurd hpc hx
    | quoted keep => exact absurd hpc (hq keep)
  | inside keep prev hq _ hy => rw [hq, hy]; rfl

theorem parseChain_quote (x : Parse) :
    (∃ keep, (parseChain x '"').pc = .quoted keep) ∧ (parseChain x '"').prev = some '"' := by
  unfold parseChain
  by_cases h : x.prev = some '/' <;> simp [h]

theorem parseChain_pc (hq : ch ≠ '"') : (parseChain x ch).pc = .head := by
  unfold parseChain
  split_ifs <;> rfl

/-- Only a double quote opens a quoted region. -/
theorem parseStep_outside (hx : ∀ keep, x.pc ≠ .quoted keep) (hq : ch ≠ '"') :
    ∀ keep, (parseStep x ch).pc ≠ .quoted keep := by
  intro keep
  unfold parseStep
  cases hpc : x.pc with
  | head =>
    by_cases hch : ch = '\\'
    · simp [hch]
    · simp [hch, parseChain_pc hq]
  | escape => simp
  | chain => simp [parseChain_pc hq]
  | quoted k => exact absurd hpc (hx k)

/-- The head of the loop of `tokenise_on_pipe`, while `cmd_parse` is outside of quotes. -/
theorem sync_head (hx : ∀ keep, x.pc ≠ .quoted keep) (he : x.pc = .escape → ch ≠ '"')
    (hz : pipeHead n y ch = .ok z) : Sync (parseStep x ch) z := by
  unfold pipeHead at hz
  split_ifs at hz with hq hb hlast htemp <;> cases hz
  · -- both open a quoted region
    subst hq
    cases hpc : x.pc with
    | quoted keep => exact absurd hpc (hx keep)
    | escape => exact absurd rfl (he hpc)
    | head | chain =>
      obtain ⟨⟨keep, hkeep⟩, hprev⟩ := parseChain_quote x
      have hstep : parseStep x '"' = parseChain x '"' := by simp [parseStep, hpc]
      rw [hstep]
      exact .inside keep '"' hkeep hprev rfl
  · exact .outside (parseStep_outside hx hq) rfl
  · exact .outside (parseStep_outside hx hq) rfl

theorem sync_step (h : Sync x y) (he : x.pc = .escape → ch ≠ '"') (hz : pipeStep n y ch = .ok z) :
    Sync (parseStep x ch) z := by
  cases h with
  | outside hx hy =>
    cases hpc : y.pc with
    | quoted prev => rw [hpc] at hy; cases hy
    | head =>
      simp only [pipeStep, hpc] at hz
      exact sync_head hx he hz
    | skip =>
      simp only [pipeStep, hpc] at hz
      split_ifs at hz with hch
      · cases hz
        exact .outside (parseStep_outside hx (by rw [hch]; decide)) rfl
      · exact sync_head hx he hz
  | inside keep prev hx hprev hy =>
    -- the same test ends both regions
    simp only [pipeStep, hy] at hz
    simp only [parseStep, hx, hprev, Option.some.injEq]
    by_cases hclose : ch ≠ '"' ∨ prev = '\\'
    · rw [if_pos hclose] at hz ⊢
      cases hz
      exact .inside keep ch rfl rfl rfl
    · rw [if_neg hclose] at hz ⊢
      cases hz
      exact .outside (by nofun) rfl

/-! ## A whole line -/

/-- A scan that fails has found no command before a pipe, or none after it. -/
theorem pipeScan_error {x : Pipe} {s : List Char} {e : Err} (h : s.foldlM (pipeStep n) x = .error e) :
    e = .pipeLast ∨ e = .pipeFirst := by
  induction s generalizing x with
  | nil => cases h
  | cons ch s ih =>
    rw [List.foldlM_cons] at h
    cases hstep : pipeStep n x ch with
    | ok z =>
      rw [hstep] at h
      exact ih h
    | error e' =>
      rw [hstep] at h
      cases h
      unfold pipeStep pipeHead at hstep
      split at hstep <;> split_ifs at hstep <;> cases hstep <;> simp

theorem pipedCmds_error {e : Err} (h : pipedCmds line = .error e) :
    e = .pipeLast ∨ e = .pipeFirst ∨ e = .pipeQuotes := by
  unfold pipedCmds at h
  cases hscan : pipeScan line.body.length line.body with
  | error e' =>
    rw [hscan] at h
    cases h
    rcases pipeScan_error hscan with he | he
    · exact .inl he
    · exact .inr (.inl he)
  | ok y =>
    rw [hscan] at h
    replace h : pipeEnd y = .error e := h
    unfold pipeEnd at h
    split at h <;> cases h
    exact .inr (.inr rfl)

/-- A judged line is scanned to its end. -/
theorem Judged.scanned {glob : List Char → Except GlobErr (List (List Char))} (h : Judged glob line) :
    ∃ z, pipeScan line.body.length line.body = .ok z := by
  cases hscan : pipeScan line.body.length line.body with
  | ok z => exact ⟨z, rfl⟩
  | error e =>
    have htok : tokeniseOnPipe line = .error e := by
      simp only [tokeniseOnPipe, pipedCmds, hscan]
      rfl
    have he := pipeScan_error hscan
    rcases h with ⟨cmds, hok, -⟩ | herr | ⟨cmds, hok, -⟩
    · rw [htok] at hok
      cases hok
    · rw [htok] at herr
      cases herr
      rcases he with he | he <;> cases he
    · rw [htok] at hok
      cases hok

theorem parseScan_take {s : List Char} (h : s[i]? = some ch) :
    parseScan (s.take (i + 1)) = parseStep (parseScan (s.take i)) ch := by
  rw [List.take_add_one, h, parseScan, List.foldl_append]
  rfl

theorem parseAt_succ (hi : line.text[i]? = some ch) :
    parseAt line (i + 1) = parseStep (parseAt line i) ch :=
  parseScan_take hi

theorem pipeAt_succ (hi : line.body[i]? = some ch) :
    pipeAt line (i + 1) = (pipeAt line i).bind fun y => pipeStep line.body.length y ch := by
  rw [pipeAt, List.take_add_one, hi, pipeScan, List.foldlM_append]
  simp
  rfl

theorem pipeAt_ok (h : ∃ z, pipeScan line.body.length line.body = .ok z) (i : ℕ) :
    ∃ y, pipeAt line i = .ok y := by
  obtain ⟨z, hz⟩ := h
  rw [pipeScan, ← List.take_append_drop i line.body, List.foldlM_append,
    List.take_append_drop] at hz
  obtain ⟨y, hy, -⟩ := bind_eq_ok hz
  exact ⟨y, hy⟩

theorem text_eq_body (hi : i < line.body.length) : line.text[i]? = line.body[i]? :=
  List.getElem?_append_left hi

theorem text_last (line : Line) : line.text[line.body.length]? = some line.last := by
  simp [Line.text]

/-- **The scans stay together** up to the first quote that is escaped. -/
theorem sync_at (h : ∃ z, pipeScan line.body.length line.body = .ok z)
    (hi : i ≤ line.body.length)
    (he : ∀ j < i, (parseAt line j).pc = .escape → line.text[j]? ≠ some '"') :
    ∃ y, pipeAt line i = .ok y ∧ Sync (parseAt line i) y := by
  induction i with
  | zero => exact ⟨.init, rfl, .outside (by nofun) rfl⟩
  | succ i ih =>
    obtain ⟨y, hy, hsync⟩ := ih (by omega) fun j hj => he j (by omega)
    obtain ⟨z, hz⟩ := pipeAt_ok h (i + 1)
    have hbody : line.body[i]? = some line.body[i] := List.getElem?_eq_getElem hi
    have htext := (text_eq_body hi).trans hbody
    refine ⟨z, hz, ?_⟩
    rw [pipeAt_succ hbody, hy] at hz
    rw [parseAt_succ htext]
    apply sync_step hsync _ hz
    intro hesc hq
    exact he i (Nat.lt_succ_self i) hesc (by rw [htext, hq])

theorem pipeSees_iff {y : Pipe} (hy : pipeAt line i = .ok y) (hi : line.body[i]? = some ch) :
    PipeSees line ch i ↔ y.pc.active = true := by
  constructor
  · intro hsees
    obtain ⟨-, y', hy', hactive⟩ := hsees
    rw [hy] at hy'
    cases hy'
    exact hactive
  · intro hactive
    exact ⟨hi, y, hy, hactive⟩

/-- With no quote and no pipe escaped, both see the same ones. -/
theorem Unescaped.sees_iff (h : ∃ z, pipeScan line.body.length line.body = .ok z)
    (hu : Unescaped line) (hch : ch = '"' ∨ ch = '|') (i : ℕ) :
    PipeSees line ch i ↔ ParseSees line ch i := by
  by_cases hi : i < line.body.length
  · obtain ⟨y, hy, hsync⟩ := sync_at h (Nat.le_of_lt hi)
      fun j hj hesc => (hu.escape j (by omega) hesc).1
    by_cases hbody : line.body[i]? = some ch
    · have htext := (text_eq_body hi).trans hbody
      have hesc : (parseAt line i).pc ≠ .escape := by
        intro hesc
        have hne := hu.escape i hi hesc
        rcases hch with rfl | rfl
        · exact hne.1 htext
        · exact hne.2 htext
      rw [pipeSees_iff hy hbody, hsync.active_iff hesc]
      exact ⟨fun hactive => ⟨htext, hactive⟩, fun hsees => hsees.2⟩
    · constructor
      · intro hsees
        exact absurd hsees.1 hbody
      · intro hsees
        exact absurd ((text_eq_body hi).symm.trans hsees.1) hbody
  · -- only `cmd_parse` reads the last character
    constructor
    · intro hsees
      have hnone : line.body[i]? = none := List.getElem?_eq_none (by omega)
      rw [PipeSees, hnone] at hsees
      cases hsees.1
    · intro hsees
      obtain ⟨hlt, -⟩ := List.getElem?_eq_some_iff.1 hsees.1
      have hlen : i = line.body.length := by
        simp only [Line.text, List.length_append, List.length_singleton] at hlt
        omega
      subst hlen
      have hlast := Option.some.inj ((text_last line).symm.trans hsees.1)
      have hne := hu.last hsees.2
      rcases hch with rfl | rfl
      · exact absurd hlast hne.1
      · exact absurd hlast hne.2

/-- Both see the same quotes and pipes: none is escaped. -/
theorem unescaped_of_sees (h : ∃ z, pipeScan line.body.length line.body = .ok z)
    (hs : ∀ ch, ch = '"' ∨ ch = '|' → ∀ i, PipeSees line ch i ↔ ParseSees line ch i) :
    Unescaped line where
  escape i := by
    induction i using Nat.strongRecOn with
    | _ i ih =>
      intro hi hesc
      obtain ⟨y, hy, hsync⟩ := sync_at h (Nat.le_of_lt hi)
        fun j hj hesc => (ih j hj (by omega) hesc).1
      -- `tokenise_on_pipe` is outside of quotes, and sees what is escaped
      have hactive : y.pc.active = true := by
        cases hsync with
        | outside _ hy => exact hy
        | inside keep _ hx _ _ =>
          rw [hesc] at hx
          cases hx
      have hno : ∀ ch, ch = '"' ∨ ch = '|' → line.text[i]? ≠ some ch := by
        intro ch hch htext
        have hbody := (text_eq_body hi).symm.trans htext
        have hsees := (hs ch hch i).1 ((pipeSees_iff hy hbody).2 hactive)
        have hact := hsees.2
        rw [hesc] at hact
        cases hact
      exact ⟨hno '"' (.inl rfl), hno '|' (.inr rfl)⟩
  last hactive := by
    have hno : ∀ ch, ch = '"' ∨ ch = '|' → line.last ≠ ch := by
      intro ch hch hlast
      have hsees := (hs ch hch line.body.length).2 ⟨by rw [text_last, hlast], hactive⟩
      have hnone : line.body[line.body.length]? = none := List.getElem?_eq_none (Nat.le_refl _)
      have hbody := hsees.1
      rw [hnone] at hbody
      cases hbody
    exact ⟨hno '"' (.inl rfl), hno '|' (.inr rfl)⟩

/-- **The two lexers agree** on a judged line exactly when no quote and no pipe is escaped. -/
theorem agree_iff {glob : List Char → Except GlobErr (List (List Char))} (h : Judged glob line) :
    Agree line ↔ Unescaped line := by
  have hscan := h.scanned
  have hpipes : ∀ i, TakesPipe line i ↔ PipeSees line '|' i :=
    fun i => ⟨fun htakes => htakes.1, fun hsees => ⟨hsees, pipeAt_ok hscan (i + 1)⟩⟩
  constructor
  · intro hagree
    apply unescaped_of_sees hscan
    intro ch hch i
    rcases hch with rfl | rfl
    · exact hagree.quotes i
    · exact (hpipes i).symm.trans (hagree.pipes i)
  · intro hu
    constructor
    · intro i
      exact (hpipes i).trans (hu.sees_iff hscan (.inr rfl) i)
    · intro i
      exact hu.sees_iff hscan (.inl rfl) i

theorem judged_of_accepted {glob : List Char → Except GlobErr (List (List Char))}
    (h : (parseLine glob line).toBool = true) : Judged glob line := by
  cases hp : parseLine glob line with
  | error e =>
    rw [hp] at h
    cases h
  | ok p =>
    obtain ⟨cmds, htok, hcmds⟩ := parseLine_ok.1 hp
    exact .inl ⟨cmds, htok, parseCmds_ok hcmds⟩

/-- `e "|"|b`. -/
def quotedBar : Line := ⟨['e', ' ', '"', '|', '"', '|', 'b'], '\n', by decide⟩

theorem agree_quotedBar : Agree quotedBar := by
  have hjudged : Judged (fun _ => .error .nomatch) quotedBar := judged_of_accepted (by decide +kernel)
  exact (agree_iff hjudged).2 ⟨by decide +kernel, by decide +kernel⟩

/-- `e \" " \" "`. -/
def escapedQuotes : Line :=
  ⟨['e', ' ', '\\', '"', ' ', '"', ' ', '\\', '"', ' ', '"'], '\n', by decide⟩

/-- **A quote that only `tokenise_on_pipe` opens**: the line and its command are accepted, and the
escaped quote opens a region. -/
theorem escaped_quote_opens : ¬ ∀ glob line, Judged glob line → Agree line := by
  intro hclaim
  have hjudged : Judged (fun _ => .error .nomatch) escapedQuotes := judged_of_accepted (by decide +kernel)
  have hactive : (pipeAt escapedQuotes 3).toOption.map (fun y => y.pc.active) = some true := by
    decide +kernel
  have hinactive : (parseAt escapedQuotes 3).pc.active = false := by decide +kernel
  obtain ⟨y, hy⟩ := exists_ok (r := pipeAt escapedQuotes 3) (by decide +kernel)
  rw [hy] at hactive
  have hopens : PipeOpens escapedQuotes 3 := ⟨rfl, y, hy, Option.some.inj hactive⟩
  have hsees := (((hclaim _ _ hjudged).quotes 3).1 hopens).2
  rw [hinactive] at hsees
  cases hsees

end OsLab.Shell
