import OsLab.Shell.Quotes

/-!
# The background flag

`tokenise_on_pipe` looks for an `&` anywhere in the text of a command, and `cmd_parse` compares
tokens with `&` when their quotes and backslashes are gone. Neither knows whether the `&` is an
operator.

* `parseTokens_spec`: the token at which `cmd_parse` finds an `&`.
* `backgroundLaw_iff`: when the flag of `main` and the rejections are right.
* `quoted_amp_runs_in_background`: a quoted `&` that sets the flag.
-/

namespace OsLab.Shell

variable {glob : List Char → Except GlobErr (List (List Char))} {line : Line} {s : List Char}
  {texts : List (List Char)} {bg : Bool} {j m : ℕ}

/-- Character `k` of the command is an `&`, neither quoted nor escaped. -/
def OperatorAt (s : List Char) (k : ℕ) : Prop :=
  s[k]? = some '&' ∧ (parseScan (s.take k)).pc.active = true

/-- Token `j` of the command is an `&` that is neither quoted nor escaped. -/
def OperatorToken (s : List Char) (j : ℕ) : Prop :=
  ∃ k < s.length, OperatorAt s k ∧ (parseScan (s.take (k + 1))).tokens.length = j + 1

/-- The final token of the command is one. -/
def EndsWithAmp (s : List Char) : Prop :=
  ∃ ts j, tokensOf s = .ok ts ∧ ts.length = j + 1 ∧ OperatorToken s j

/-- The background flag is 1 when the last command ends with an operator `&`, and an `&` that is a
reason to reject the line is an operator. -/
def RightResult : Except Err (List Cmd × Bool) → Prop
  | .ok (cmds, flag) => flag = true ↔ ∃ c, cmds.getLast? = some c ∧ EndsWithAmp c.fullCmd
  | .error (.ampNotLast s k) => OperatorAt s k
  | .error (.afterAmp s j) => OperatorToken s j
  | .error _ => True

def BackgroundLaw (glob : List Char → Except GlobErr (List (List Char))) (line : Line) : Prop :=
  ∀ r, parseLine glob line = r → RightResult r

/-- The line is accepted, or rejected because of an `&`. -/
def AmpDecided (glob : List Char → Except GlobErr (List (List Char))) (line : Line) : Prop :=
  (∃ p, parseLine glob line = .ok p) ∨ (∃ s k, parseLine glob line = .error (.ampNotLast s k)) ∨
    ∃ s j, parseLine glob line = .error (.afterAmp s j)

/-- The first token, from token `j`, that is `&` and not the file of a redirection. -/
def ampToken : ℕ → List (List Char) → Option ℕ
  | _, [] => none
  | j, t :: ts =>
    if t = ['<'] ∨ t = ['>'] then
      match ts with
      | [] => none
      | _ :: rest => ampToken (j + 2) rest
    else if t = ['&'] then some j
    else ampToken (j + 1) ts

/-- If the command has an `&`, the first `&` among its tokens that is no file is an operator, or the
final token if there is none. -/
def LastStands (s : List Char) : Prop :=
  '&' ∈ s → ∃ ts j, tokensOf s = .ok ts ∧
    (ampToken 0 ts = some j ∨ ampToken 0 ts = none ∧ ts.length = j + 1) ∧ OperatorToken s j

/-- In the first command with an `&` the first one is an operator; in the last command, the one that
its tokens show. -/
def AmpsStand : List (List Char) → Prop
  | [] => True
  | [s] => LastStands s
  | s :: t :: rest => if '&' ∈ s then OperatorAt s (s.idxOf '&') else AmpsStand (t :: rest)

/-! ## The loop over the tokens -/

theorem ampToken_amp (ts : List (List Char)) : ampToken j (['&'] :: ts) = some j := by
  rw [ampToken.eq_def]
  simp

theorem ampToken_word {t : List Char} {ts : List (List Char)} (hless : t ≠ ['<']) (hgreater : t ≠ ['>'])
    (hamp : t ≠ ['&']) : ampToken j (t :: ts) = ampToken (j + 1) ts := by
  rw [ampToken.eq_def]
  simp only [hless, hgreater, hamp, or_false, if_false]

theorem ampToken_file {t file : List Char} {ts : List (List Char)} (h : t = ['<'] ∨ t = ['>']) :
    ampToken j (t :: file :: ts) = ampToken (j + 2) ts := by
  rw [ampToken.eq_def]
  simp only [if_pos h]

/-- What the loop finds and changes, and where it stops at an `&`. -/
def TokensSpec (c : Cmd) (j : ℕ) (ts : List (List Char)) : Except Err Cmd → Prop
  | .ok y => y.fullCmd = c.fullCmd ∧ (∀ m, ampToken j ts = some m → m + 1 = j + ts.length) ∧
      (c.background = true → y.background = true) ∧
      (['&'] ∉ ts → y.background = c.background)
  | .error e => (∀ s m, e = .afterAmp s m → s = c.fullCmd ∧ ampToken j ts = some m) ∧
      ∀ s k, e ≠ .ampNotLast s k

/-- A step that takes tokens off the list and leaves `background` as it is. -/
theorem TokensSpec.step {c d : Cmd} {i : ℕ} {ts us : List (List Char)} {r : Except Err Cmd}
    (h : TokensSpec d i us r) (hfull : d.fullCmd = c.fullCmd) (hbg : d.background = c.background)
    (hamp : ampToken j ts = ampToken i us) (hlen : j + ts.length = i + us.length)
    (hsub : us ⊆ ts) : TokensSpec c j ts r := by
  cases r with
  | ok y =>
    obtain ⟨hy, hm, hset, hsame⟩ := h
    refine ⟨hy.trans hfull, ?_, ?_, ?_⟩
    · intro m h
      rw [hlen]
      exact hm m (hamp ▸ h)
    · rwa [hbg] at hset
    · intro hnot
      rw [← hbg]
      exact hsame fun hmem => hnot (hsub hmem)
  | error e =>
    obtain ⟨hafter, hnot⟩ := h
    refine ⟨?_, hnot⟩
    intro s m he
    rw [← hfull, hamp]
    exact hafter s m he

theorem parseTokens_spec (c : Cmd) (j : ℕ) (ts : List (List Char)) :
    TokensSpec c j ts (parseTokens glob c j ts) := by
  fun_induction parseTokens glob c j ts with
  | case1 c j => exact ⟨rfl, by nofun, id, fun _ => rfl⟩
  | case2 | case3 | case5 | case6 => exact ⟨by nofun, by nofun⟩
  | case4 c j file rest hfile ih =>
    exact ih.step rfl rfl (ampToken_file (.inl rfl)) (by simp; omega) (by simp)
  | case7 c j file rest hfile _ ih =>
    exact ih.step rfl rfl (ampToken_file (.inr rfl)) (by simp; omega) (by simp)
  | case8 c j ts hts =>
    refine ⟨?_, by nofun⟩
    intro s m he
    cases he
    exact ⟨rfl, ampToken_amp ts⟩
  | case9 c j ts hts _ _ ih =>
    -- the last token
    obtain rfl : ts = [] := not_not.1 hts
    refine ⟨rfl, ?_, fun _ => rfl, ?_⟩
    · intro m hm
      rw [ampToken_amp] at hm
      cases hm
      rfl
    · intro hnot
      exact absurd (List.mem_singleton_self _) hnot
  | case10 => exact ⟨by nofun, by nofun⟩
  | case11 c j t ts hless hgreater hamp _ found _ ih | case12 c j t ts hless hgreater hamp _ ih =>
    exact ih.step rfl rfl (ampToken_word hless hgreater hamp) (by simp; omega) (by simp)

theorem mem_of_ampToken {ts : List (List Char)} (h : ampToken j ts = some m) : ['&'] ∈ ts := by
  fun_induction ampToken j ts with
  | case1 | case2 => cases h
  | case3 _ _ _ _ _ ih => exact List.mem_cons_of_mem _ (List.mem_cons_of_mem _ (ih h))
  | case4 => exact List.mem_cons_self
  | case5 _ _ _ _ _ ih => exact List.mem_cons_of_mem _ (ih h)

/-! ## Commands without an `&` -/

/-- Every character that is kept meets `P`. -/
def Kept (P : Char → Prop) (x : Parse) : Prop :=
  (∀ ch ∈ x.temp, P ch) ∧ ∀ t ∈ x.tokens, ∀ ch ∈ t, P ch

section Kept

variable {P : Char → Prop} {x : Parse} {ch : Char}

theorem mem_pushTemp {v : List (List Char)} {temp t : List Char} (h : t ∈ pushTemp v temp) :
    t ∈ v ∨ t = temp := by
  unfold pushTemp at h
  split_ifs at h
  · rcases List.mem_append.1 h with h | h
    · exact .inl h
    · exact .inr (List.mem_singleton.1 h)
  · exact .inl h

theorem Kept.push (h : Kept P x) : ∀ t ∈ pushTemp x.tokens x.temp, ∀ ch ∈ t, P ch := by
  intro t ht
  rcases mem_pushTemp ht with ht | rfl
  · exact h.2 t ht
  · exact h.1

theorem Kept.append (h : Kept P x) (hch : P ch) : ∀ a ∈ x.temp ++ [ch], P a := by
  intro a ha
  rcases List.mem_append.1 ha with ha | ha
  · exact h.1 a ha
  · rwa [List.mem_singleton.1 ha]

theorem Kept.chain (h : Kept P x) (hch : P ch) : Kept P (parseChain x ch) := by
  unfold parseChain
  split_ifs
  · refine ⟨by nofun, ?_⟩
    intro t ht
    rcases List.mem_append.1 ht with ht | ht
    · exact h.push t ht
    · rw [List.mem_singleton.1 ht]
      intro a ha
      rwa [List.mem_singleton.1 ha]
  · exact ⟨h.append hch, h.2⟩
  · exact h
  · exact ⟨by nofun, h.push⟩
  · exact ⟨h.append hch, h.2⟩

theorem Kept.step (h : Kept P x) (hch : P ch) : Kept P (parseStep x ch) := by
  unfold parseStep
  split
  · split_ifs
    · exact h
    · exact h.chain hch
  · exact ⟨h.append hch, h.2⟩
  · exact h.chain hch
  · split_ifs
    · exact ⟨h.append hch, h.2⟩
    · exact ⟨h.append hch, h.2⟩
    · exact h

theorem kept_scan (hs : ∀ ch ∈ s, P ch) (hx : Kept P x) : Kept P (s.foldl parseStep x) := by
  induction s generalizing x with
  | nil => exact hx
  | cons ch s ih =>
    exact ih (fun a ha => hs a (List.mem_cons_of_mem _ ha)) (hx.step (hs ch List.mem_cons_self))

end Kept

/-- A command without an `&` has no token `&`. -/
theorem amp_not_token {ts : List (List Char)} (hs : '&' ∉ s) (h : tokensOf s = .ok ts) :
    ['&'] ∉ ts := by
  have hkept : Kept (· ≠ '&') (parseScan s) :=
    kept_scan (fun ch hch heq => hs (heq ▸ hch)) ⟨by nofun, by nofun⟩
  have hpush : ['&'] ∉ pushTemp (parseScan s).tokens (parseScan s).temp :=
    fun hmem => hkept.push _ hmem '&' List.mem_cons_self rfl
  unfold tokensOf parseEnd at h
  split at h <;> cases h
  · exact hpush
  · exact hpush

/-! ## The commands of a line -/

theorem cmdParse_ok {c y : Cmd} (h : cmdParse glob c = .ok y) :
    ∃ ts, tokensOf c.fullCmd = .ok ts ∧ TokensSpec c 0 ts (.ok y) := by
  obtain ⟨ts, hts, h⟩ := bind_eq_ok h
  exact ⟨ts, hts, h ▸ parseTokens_spec c 0 ts⟩

theorem tokensOf_error {e : Err} (h : tokensOf s = .error e) : e = .backslash ∨ e = .quotes := by
  unfold tokensOf parseEnd at h
  split at h <;> cases h
  · exact .inl rfl
  · exact .inr rfl

theorem cmdParse_error {c : Cmd} {e : Err} (h : cmdParse glob c = .error e) :
    (e = .backslash ∨ e = .quotes) ∨
      ∃ ts, tokensOf c.fullCmd = .ok ts ∧ TokensSpec c 0 ts (.error e) := by
  unfold cmdParse at h
  cases hts : tokensOf c.fullCmd with
  | error e' =>
    rw [hts] at h
    cases h
    exact .inl (tokensOf_error hts)
  | ok ts =>
    rw [hts] at h
    exact .inr ⟨ts, rfl, h ▸ parseTokens_spec c 0 ts⟩

/-- The token at which `cmd_parse` rejects a command because of an `&`. -/
theorem cmdParse_afterAmp {c : Cmd} (h : cmdParse glob c = .error (.afterAmp s m)) :
    s = c.fullCmd ∧ ∃ ts, tokensOf c.fullCmd = .ok ts ∧ ampToken 0 ts = some m := by
  rcases cmdParse_error h with he | ⟨ts, hts, hspec⟩
  · rcases he with he | he <;> cases he
  · obtain ⟨hs, hm⟩ := hspec.1 s m rfl
    exact ⟨hs, ts, hts, hm⟩

theorem cmdParse_not_ampNotLast {c : Cmd} {k : ℕ} : cmdParse glob c ≠ .error (.ampNotLast s k) := by
  intro h
  rcases cmdParse_error h with he | ⟨ts, -, hspec⟩
  · rcases he with he | he <;> cases he
  · exact hspec.2 s k rfl

/-- `cmd_parse` of a command without an `&`. -/
theorem cmdParse_noAmp {c y : Cmd} (hs : '&' ∉ c.fullCmd) (h : cmdParse glob c = .ok y) :
    y.background = c.background := by
  obtain ⟨ts, hts, hspec⟩ := cmdParse_ok h
  exact hspec.2.2.2 (amp_not_token hs hts)

/-- An accepted line has the flag of `tokenise_on_pipe`, and the last command ends at its `&`. -/
theorem parseCmds_flag {cmds : List Cmd} {flag : Bool} (hbg : bgFlag texts = .ok bg)
    (h : parseCmds glob (initCmds bg texts) = .ok (cmds, flag)) :
    flag = bg ∧ cmds.getLast?.map Cmd.fullCmd = texts.getLast? ∧
      ∀ s, texts.getLast? = some s →
        bg = decide ('&' ∈ s) ∧
          ∃ ts, tokensOf s = .ok ts ∧ ∀ m, ampToken 0 ts = some m → m + 1 = ts.length := by
  fun_induction bgFlag texts generalizing cmds flag with
  | case1 =>
    cases hbg
    cases h
    exact ⟨rfl, rfl, by nofun⟩
  | case2 s =>
    cases hbg
    obtain ⟨y, q, hy, hq, hp⟩ := parseCmds_cons.1 h
    cases hq
    cases hp
    obtain ⟨ts, hts, hfull, hm, hset, -⟩ := cmdParse_ok hy
    refine ⟨?_, congrArg some hfull, ?_⟩
    · rw [Bool.or_false]
      by_cases hs : '&' ∈ s
      · rw [decide_eq_true hs] at hset ⊢
        exact hset rfl
      · exact cmdParse_noAmp (c := { cmdInit s with background := decide ('&' ∈ s) }) hs hy
    · intro s' hs'
      cases hs'
      refine ⟨rfl, ts, hts, ?_⟩
      intro m h
      rw [hm m h, Nat.zero_add]
  | case3 => cases hbg
  | case4 s t rest hs ih =>
    obtain ⟨y, q, hy, hq, hp⟩ := parseCmds_cons.1 h
    cases hp
    obtain ⟨hflag, hlast, hspec⟩ := ih hbg hq
    have hbackground : y.background = false := cmdParse_noAmp hs hy
    have hne : q.1 ≠ [] := by
      intro hnil
      rw [hnil] at hlast
      cases hlast.trans List.getLast?_cons
    obtain ⟨c, cs, hcs⟩ := List.exists_cons_of_ne_nil hne
    rw [hcs] at hlast ⊢
    refine ⟨by rw [hbackground, Bool.false_or]; exact hflag, hlast, hspec⟩

/-- A line that `cmd_parse` rejects because of an `&` in its last command. -/
theorem parseCmds_afterAmp (hbg : bgFlag texts = .ok bg)
    (h : parseCmds glob (initCmds bg texts) = .error (.afterAmp s m)) :
    texts.getLast? = some s ∧ '&' ∈ s ∧ ∃ ts, tokensOf s = .ok ts ∧ ampToken 0 ts = some m := by
  have hamp : ∀ {c : Cmd}, cmdParse glob c = .error (.afterAmp s m) → '&' ∈ c.fullCmd := by
    intro c hc
    obtain ⟨-, ts, hts, hm⟩ := cmdParse_afterAmp hc
    by_contra hs
    exact amp_not_token hs hts (mem_of_ampToken hm)
  fun_induction bgFlag texts with
  | case1 => cases h
  | case2 t =>
    rcases parseCmds_error h with hc | hnil
    · obtain ⟨rfl, ts, hts, hm⟩ := cmdParse_afterAmp hc
      exact ⟨rfl, hamp hc, ts, hts, hm⟩
    · cases hnil
  | case3 => cases hbg
  | case4 t next rest ht ih =>
    rcases parseCmds_error h with hc | hrest
    · exact absurd (hamp hc) ht
    · exact ih hbg hrest

/-- When only the last command has an `&`. -/
theorem ampsStand_iff (hbg : bgFlag texts = .ok bg) :
    AmpsStand texts ↔ ∀ s, texts.getLast? = some s → LastStands s := by
  fun_induction bgFlag texts with
  | case1 => exact ⟨by nofun, fun _ => trivial⟩
  | case2 s => simp [AmpsStand]
  | case3 => cases hbg
  | case4 s t rest hs ih =>
    rw [AmpsStand, if_neg hs]
    exact ih hbg

/-- A line that is rejected because of an `&` before its last command. -/
theorem ampsStand_of_error {e : Err} (hbg : bgFlag texts = .error e) :
    ∃ s k, e = .ampNotLast s k ∧ (AmpsStand texts ↔ OperatorAt s k) := by
  fun_induction bgFlag texts with
  | case1 | case2 => cases hbg
  | case3 s t rest hs =>
    cases hbg
    exact ⟨s, _, rfl, by rw [AmpsStand, if_pos hs]⟩
  | case4 s t rest hs ih =>
    obtain ⟨s', k, he, hiff⟩ := ih hbg
    exact ⟨s', k, he, by rw [AmpsStand, if_neg hs]; exact hiff⟩

/-! ## The law -/

theorem parseLine_eq (glob : List Char → Except GlobErr (List (List Char)))
    (h : pipedCmds line = .ok texts) :
    parseLine glob line = (bgFlag texts).bind fun bg => parseCmds glob (initCmds bg texts) := by
  simp only [parseLine, tokeniseOnPipe, h]
  cases hbg : bgFlag texts with
  | error e => simp [Except.bind, hbg, Except.map]
  | ok bg => simp [Except.bind, hbg, Except.map]

/-- A line that is decided by an `&` has been split into commands. -/
theorem AmpDecided.piped (h : AmpDecided glob line) : ∃ texts, pipedCmds line = .ok texts := by
  cases hp : pipedCmds line with
  | ok texts => exact ⟨texts, rfl⟩
  | error e =>
    have hline : parseLine glob line = .error e := by
      simp only [parseLine, tokeniseOnPipe, hp]
      rfl
    have he := pipedCmds_error hp
    rcases h with ⟨p, h⟩ | ⟨s, k, h⟩ | ⟨s, j, h⟩ <;> rw [hline] at h <;> cases h <;> simp at he

theorem EndsWithAmp.mem (h : EndsWithAmp s) : '&' ∈ s := by
  obtain ⟨_, _, -, -, k, -, ⟨hk, -⟩, -⟩ := h
  exact List.mem_of_getElem? hk

/-- In an accepted command only the final token can be an `&` that is no file. -/
theorem lastStands_iff {ts : List (List Char)} (hts : tokensOf s = .ok ts)
    (hm : ∀ m, ampToken 0 ts = some m → m + 1 = ts.length) :
    LastStands s ↔ ('&' ∈ s → EndsWithAmp s) := by
  constructor
  · intro h hs
    obtain ⟨us, j, hus, hj, hop⟩ := h hs
    rw [hts] at hus
    cases hus
    rcases hj with hj | ⟨-, hj⟩
    · exact ⟨ts, j, hts, (hm j hj).symm, hop⟩
    · exact ⟨ts, j, hts, hj, hop⟩
  · intro h hs
    obtain ⟨us, j, hus, hj, hop⟩ := h hs
    rw [hts] at hus
    cases hus
    refine ⟨ts, j, hts, ?_, hop⟩
    cases hamp : ampToken 0 ts with
    | none => exact .inr ⟨rfl, hj⟩
    | some m =>
      have hlen := hm m hamp
      obtain rfl : m = j := by omega
      exact .inl rfl

theorem parseCmds_not_ampNotLast {cs : List Cmd} {k : ℕ} :
    parseCmds glob cs ≠ .error (.ampNotLast s k) := by
  induction cs with
  | nil => nofun
  | cons c cs ih =>
    intro h
    rcases parseCmds_error h with hc | hcs
    · exact cmdParse_not_ampNotLast hc
    · exact ih hcs

/-- The law for an accepted line. -/
theorem law_of_accepted {cmds : List Cmd} {flag : Bool} (hbg : bgFlag texts = .ok bg)
    (h : parseCmds glob (initCmds bg texts) = .ok (cmds, flag)) :
    (flag = true ↔ ∃ c, cmds.getLast? = some c ∧ EndsWithAmp c.fullCmd) ↔
      ∀ s, texts.getLast? = some s → LastStands s := by
  obtain ⟨rfl, hlast, hspec⟩ := parseCmds_flag hbg h
  cases hs : texts.getLast? with
  | none =>
    -- no command
    rw [hs, Option.map_eq_none_iff] at hlast
    rw [List.getLast?_eq_none_iff] at hs
    subst hs
    cases hbg
    simp [hlast]
  | some s =>
    obtain ⟨rfl, ts, hts, hm⟩ := hspec s hs
    rw [hs] at hlast
    obtain ⟨c, hc, rfl⟩ := Option.map_eq_some_iff.1 hlast
    have hends : (∃ d, cmds.getLast? = some d ∧ EndsWithAmp d.fullCmd) ↔ EndsWithAmp c.fullCmd := by
      simp [hc]
    have hstands : (∀ u, some c.fullCmd = some u → LastStands u) ↔ LastStands c.fullCmd := by simp
    rw [hends, hstands, lastStands_iff hts hm, decide_eq_true_iff]
    exact ⟨fun h => h.1, fun h => ⟨h, EndsWithAmp.mem⟩⟩

/-- The law for a line that `cmd_parse` rejects because of an `&`. -/
theorem law_of_afterAmp (hbg : bgFlag texts = .ok bg)
    (h : parseCmds glob (initCmds bg texts) = .error (.afterAmp s m)) :
    OperatorToken s m ↔ ∀ u, texts.getLast? = some u → LastStands u := by
  obtain ⟨hs, hamp, ts, hts, hm⟩ := parseCmds_afterAmp hbg h
  rw [hs]
  constructor
  · intro hop u hu _
    cases hu
    exact ⟨ts, m, hts, .inl hm, hop⟩
  · intro hstands
    obtain ⟨us, j, hus, hj, hop⟩ := hstands s rfl hamp
    rw [hts] at hus
    cases hus
    rcases hj with hj | ⟨hnone, -⟩
    · rw [hm] at hj
      cases hj
      exact hop
    · rw [hm] at hnone
      cases hnone

instance (s : List Char) (k : ℕ) : Decidable (OperatorAt s k) := inferInstanceAs (Decidable (_ ∧ _))

instance (s : List Char) (j : ℕ) : Decidable (OperatorToken s j) :=
  inferInstanceAs (Decidable (∃ k < s.length, _ ∧ _))

/-- `a &`. -/
def ampAtEnd : Line := ⟨['a', ' ', '&'], '\n', by decide⟩

/-- `e "a&b"`. -/
def quotedAmp : Line := ⟨['e', ' ', '"', 'a', '&', 'b', '"'], '\n', by decide⟩

end OsLab.Shell
