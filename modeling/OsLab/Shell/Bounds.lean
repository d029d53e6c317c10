import OsLab.Lib.Traced
import OsLab.Shell.Quotes
import Mathlib.Data.Int.Notation
import Mathlib.Order.Basic

/-!
# The indices of the scanners

`cmd_parse` and `tokenise_on_pipe` as their loops over an index `i`, where each read of a character is
logged. A pass of `scanStep` and of `pipeLoopStep` is the body of one of the loops, up to the next test
of a loop. The escape branch can leave `i` at the terminator, and the loop over spaces reads `i + 1`:
no read goes further, and both scanners end with the result of the scans over the characters
(`scanners_in_bounds`). `i` is at most one past the terminator, so `int` has it: `fgets` leaves less
than 1024 characters.
-/

namespace OsLab.Shell

open Lib

/-- A C string. -/
structure CString where
  chars : List Char
  noNul : '\x00' ∉ chars

/-- `s[i]`. -/
def charAt (s : List Char) (i : ℤ) : Char :=
  if 0 ≤ i then s.getD i.toNat '\x00' else '\x00'

/-- Reading `s[i]`. -/
def readChar (s : List Char) (i : ℤ) : Traced ℤ Char := Traced.read (charAt s) i

/-- `str_concat_char`. -/
def strConcatChar (s : List Char) (c : Char) : List Char := if c = '\x00' then s else s ++ [c]

/-! ## `cmd_parse` -/

/-- Where `cmd_parse` is. -/
inductive ScanPc where
  /-- at the test of the `for` loop -/
  | test
  /-- at the test of the `while` loop of a quoted region, which keeps the quotes or not -/
  | region (keep : Bool)

structure Scan where
  pc : ScanPc
  i : ℕ
  temp : List Char
  tokens : List (List Char)

def Scan.init : Scan := ⟨.test, 0, [], []⟩

/-- What `cmd_parse` has found, or why it returns -1. -/
abbrev Found := Except Err (List (List Char))

/-- `i != 0 && c->full_cmd[i-1] == '/'`. -/
def afterSlash (s : List Char) (i : ℕ) : Traced ℤ Bool :=
  if i ≠ 0 then do
    let prev ← readChar s (i - 1)
    pure (decide (prev = '/'))
  else pure false

/-- The tests of the operators, of the double quote and of the space. The code reads `full_cmd[i]` in
each of them. -/
def scanChain (s : List Char) (x : Scan) : Traced ℤ (Scan ⊕ Found) := do
  let ch ← readChar s x.i
  if ch = '<' ∨ ch = '>' ∨ ch = '&' then
    pure (.inl ⟨.test, x.i + 1, [], pushTemp x.tokens x.temp ++ [strConcatChar [] ch]⟩)
  else if ch = '"' then
    let keep ← afterSlash s x.i
    if keep then pure (.inl ⟨.region true, x.i + 1, strConcatChar x.temp ch, x.tokens⟩)
    else pure (.inl ⟨.region false, x.i + 1, x.temp, x.tokens⟩)
  else if ch = ' ' then pure (.inl ⟨.test, x.i + 1, [], pushTemp x.tokens x.temp⟩)
  else pure (.inl ⟨.test, x.i + 1, strConcatChar x.temp ch, x.tokens⟩)

/-- The `for` loop: the backslash, and the tests after it. -/
def scanTest (s : List Char) (x : Scan) : Traced ℤ (Scan ⊕ Found) :=
  if x.i < s.length then do
    let ch ← readChar s x.i
    if ch = '\\' then
      if x.i + 1 < s.length then do
        let escaped ← readChar s (x.i + 1)
        scanChain s { x with i := x.i + 2, temp := strConcatChar x.temp escaped }
      else pure (.inr (.error .backslash))
    else scanChain s x
  else pure (.inr (.ok (pushTemp x.tokens x.temp)))

/-- The condition of a `while` loop over a quoted region, which ends before `n`. -/
def inRegion (s : List Char) (n i : ℕ) : Traced ℤ Bool :=
  if i < n then do
    let ch ← readChar s i
    if ch ≠ '"' then pure true
    else do
      let prev ← readChar s (i - 1)
      pure (decide (prev = '\\'))
  else pure false

/-- The `while` loop of a quoted region, and what is after it. -/
def scanRegion (s : List Char) (keep : Bool) (x : Scan) : Traced ℤ (Scan ⊕ Found) := do
  let stay ← inRegion s s.length x.i
  if stay then
    let ch ← readChar s x.i
    pure (.inl { x with i := x.i + 1, temp := strConcatChar x.temp ch })
  else if x.i = s.length then pure (.inr (.error .quotes))
  else if keep then
    let ch ← readChar s x.i
    pure (.inl ⟨.test, x.i + 1, if ch = '"' then strConcatChar x.temp ch else x.temp, x.tokens⟩)
  else pure (.inl ⟨.test, x.i + 1, x.temp, x.tokens⟩)

/-- A pass of one of the loops. -/
def scanStep (s : List Char) (x : Scan) : Traced ℤ (Scan ⊕ Found) :=
  match x.pc with
  | .test => scanTest s x
  | .region keep => scanRegion s keep x

/-! ## `tokenise_on_pipe` -/

/-- Where `tokenise_on_pipe` is. -/
inductive PipeLoopPc where
  /-- at the test of the `for` loop -/
  | test
  /-- at the test of the `while` loop of a quoted region -/
  | region
  /-- at the test of the `while` loop over spaces -/
  | spaces
  deriving DecidableEq

structure PipeLoop where
  pc : PipeLoopPc
  i : ℕ
  temp : List Char
  cmds : List (List Char)

def PipeLoop.init : PipeLoop := ⟨.test, 0, [], []⟩

/-- The `for` loop, where `s` is `user_input`. -/
def pipeTest (s : List Char) (x : PipeLoop) : Traced ℤ (PipeLoop ⊕ Found) :=
  if x.i < s.length - 1 then do
    let ch ← readChar s x.i
    if ch = '"' then pure (.inl ⟨.region, x.i + 1, strConcatChar x.temp ch, x.cmds⟩)
    else if ch = '|' then
      if x.i = s.length - 2 then pure (.inr (.error .pipeLast))
      else if x.temp ≠ [] then pure (.inl ⟨.spaces, x.i, [], x.cmds ++ [x.temp]⟩)
      else pure (.inr (.error .pipeFirst))
    else pure (.inl ⟨.test, x.i + 1, strConcatChar x.temp ch, x.cmds⟩)
  else pure (.inr (.ok (pushTemp x.cmds x.temp)))

/-- The `while` loop of a quoted region, and what is after it. -/
def pipeRegion (s : List Char) (x : PipeLoop) : Traced ℤ (PipeLoop ⊕ Found) := do
  let stay ← inRegion s (s.length - 1) x.i
  if stay then
    let ch ← readChar s x.i
    pure (.inl { x with i := x.i + 1, temp := strConcatChar x.temp ch })
  else if x.i = s.length - 1 then pure (.inr (.error .pipeQuotes))
  else
    let ch ← readChar s x.i
    pure (.inl ⟨.test, x.i + 1, if ch = '"' then strConcatChar x.temp ch else x.temp, x.cmds⟩)

/-- The `while` loop over spaces, and what is after it. The code reads `user_input[i + 1]` first. -/
def pipeSpaces (s : List Char) (x : PipeLoop) : Traced ℤ (PipeLoop ⊕ Found) := do
  let next ← readChar s (x.i + 1)
  if next = ' ' ∧ x.i < s.length - 1 then pure (.inl { x with i := x.i + 1 })
  else if x.i = s.length then pure (.inr (.error .pipeLast))
  else pure (.inl { x with pc := .test, i := x.i + 1 })

/-- A pass of one of the loops. -/
def pipeLoopStep (s : List Char) (x : PipeLoop) : Traced ℤ (PipeLoop ⊕ Found) :=
  match x.pc with
  | .test => pipeTest s x
  | .region => pipeRegion s x
  | .spaces => pipeSpaces s x

/-! ## In bounds -/

/-- The loop ends with `r`. It reads nothing before the string and nothing after its terminator, and
`i` does not pass the character after that. -/
structure EndsInBounds {σ : Type} (step : σ → Traced ℤ (σ ⊕ Found)) (init : σ) (index : σ → ℕ)
    (length : ℕ) (r : Found) : Prop where
  ends : ∃ k, (Traced.loop step k init).val = .inr r
  reads : ∀ k, ∀ i ∈ (Traced.loop step k init).reads, 0 ≤ i ∧ i ≤ length
  index : ∀ k x, (Traced.loop step k init).val = .inl x → index x ≤ length + 1

section

variable {s : List Char} {i : ℕ} {ch : Char}

theorem charAt_of_getElem? (h : s[i]? = some ch) : charAt s i = ch := by
  rw [charAt, if_pos (Int.natCast_nonneg i), Int.toNat_natCast, List.getD_eq_getElem?_getD, h]
  rfl

theorem charAt_length (s : List Char) : charAt s s.length = '\x00' := by
  rw [charAt, if_pos (Int.natCast_nonneg _), Int.toNat_natCast, List.getD_eq_getElem?_getD,
    List.getElem?_eq_none (Nat.le_refl _)]
  rfl

theorem strConcatChar_of_ne (h : ch ≠ '\x00') (t : List Char) : strConcatChar t ch = t ++ [ch] :=
  if_neg h

/-- From a loop with an invariant and a measure. -/
theorem endsInBounds_of {σ : Type} {step : σ → Traced ℤ (σ ⊕ Found)} {init : σ} {index : σ → ℕ}
    {length : ℕ} {r : Found} {I : σ → Prop} {m : σ → ℕ}
    (hstep : ∀ x, I x → Traced.Ensures (fun i : ℤ => 0 ≤ i ∧ i ≤ length) (step x)
      (Traced.Goes I (· = r) m (m x)))
    (hinit : I init) (hindex : ∀ x, I x → index x ≤ length + 1) :
    EndsInBounds step init index length r where
  ends := by
    obtain ⟨r', hr', rfl⟩ := Traced.loop_ends hstep hinit (Nat.lt_succ_self _)
    exact ⟨_, hr'⟩
  reads k := (Traced.loop_ensures hstep k hinit).1
  index k x hx := by
    have hI := (Traced.loop_ensures hstep k hinit).2
    rw [hx] at hI
    exact hindex x hI

/-! ### `cmd_parse` -/

/-- The character before `i`. -/
def prevAt (s : List Char) (i : ℕ) : Option Char := if i = 0 then none else s[i - 1]?

/-- Where the scan of the characters is. -/
def ScanPc.parsePc : ScanPc → ParsePc
  | .test => .head
  | .region keep => .quoted keep

/-- The scan has read the characters before `i`, or also the terminator. -/
def ScanInv (s : List Char) (x : Scan) : Prop :=
  (x.i ≤ s.length ∧ parseScan (s.take x.i) = ⟨x.pc.parsePc, prevAt s x.i, x.temp, x.tokens⟩) ∨
    (x.pc = .test ∧ x.i = s.length + 1 ∧ tokensOf s = .ok (pushTemp x.tokens x.temp))

theorem prevAt_succ (h : s[i]? = some ch) : prevAt s (i + 1) = some ch := h

theorem charAt_prev (hi : i ≠ 0) (hlt : i ≤ s.length) : prevAt s i = some (charAt s (i - 1)) := by
  obtain ⟨j, rfl⟩ := Nat.exists_eq_succ_of_ne_zero hi
  have hj : s[j]? = some s[j] := List.getElem?_eq_getElem hlt
  have hindex : ((j + 1 : ℕ) : ℤ) - 1 = j := by omega
  rw [prevAt_succ hj, hindex, charAt_of_getElem? hj]

/-- Indices from the beginning of the string to its terminator. -/
def Within (s : List Char) (i : ℤ) : Prop := 0 ≤ i ∧ i ≤ s.length

/-- A read of a character of the string, or of its terminator. -/
theorem ensures_readChar {α : Type} {f : Char → Traced ℤ α} {P : α → Prop} (hi : i ≤ s.length)
    (h : Traced.Ensures (Within s) (f (charAt s i)) P) :
    Traced.Ensures (Within s) (readChar s i >>= f) P := by
  rw [readChar, Traced.ensures_bind, Traced.ensures_read]
  exact ⟨⟨Int.natCast_nonneg i, Int.ofNat_le.2 hi⟩, h⟩

/-- A read of the character `ch`. -/
theorem ensures_getElem? {α : Type} {f : Char → Traced ℤ α} {P : α → Prop} (hch : s[i]? = some ch)
    (h : Traced.Ensures (Within s) (f ch) P) :
    Traced.Ensures (Within s) (readChar s i >>= f) P := by
  refine ensures_readChar (Nat.le_of_lt (List.getElem?_eq_some_iff.1 hch).1) ?_
  rwa [charAt_of_getElem? hch]

theorem afterSlash_spec (hi : i ≤ s.length) : Traced.Ensures (Within s) (afterSlash s i)
    fun keep => keep = decide (prevAt s i = some '/') := by
  unfold afterSlash
  split_ifs with hzero
  · rw [readChar, Traced.ensures_bind, Traced.ensures_read, Traced.ensures_pure, charAt_prev hzero hi]
    exact ⟨⟨by omega, by omega⟩, by simp⟩
  · rw [Traced.ensures_pure, prevAt, if_pos (not_not.1 hzero)]
    simp

theorem inRegion_spec {n : ℕ} (hn : n ≤ s.length) (hi : i ≠ 0) : Traced.Ensures (Within s)
    (inRegion s n i) fun stay => stay = true ↔ i < n ∧ ∀ ch, s[i]? = some ch →
      ch ≠ '"' ∨ prevAt s i = some '\\' := by
  unfold inRegion
  split_ifs with hlt
  · have hch : s[i]? = some s[i] := List.getElem?_eq_getElem (by omega)
    have hprev := charAt_prev hi (by omega : i ≤ s.length)
    refine ensures_getElem? hch ?_
    split_ifs with hquote
    · rw [Traced.ensures_pure, hch]
      simp [hlt, hquote]
    · rw [readChar, Traced.ensures_bind, Traced.ensures_read, Traced.ensures_pure, hch, hprev]
      refine ⟨⟨by omega, by omega⟩, ?_⟩
      simp [hlt, not_not.1 hquote]
  · rw [Traced.ensures_pure]
    simp [hlt]

/-- The tests after the backslash are those of the scan of the characters. -/
theorem scanChain_spec {x : Scan} {pc : ParsePc} (hs : '\x00' ∉ s) (hi : x.i ≤ s.length)
    (hx : parseScan (s.take x.i) = ⟨pc, prevAt s x.i, x.temp, x.tokens⟩)
    (hpc : pc = .chain ∨ pc = .head ∧ x.i < s.length ∧ s[x.i]? ≠ some '\\') :
    Traced.Ensures (Within s) (scanChain s x)
      fun r => ∃ y, r = .inl y ∧ ScanInv s y ∧ y.i = x.i + 1 := by
  unfold scanChain
  refine ensures_readChar hi ?_
  rcases Nat.lt_or_eq_of_le hi with hlt | heq
  · have hch : s[x.i]? = some s[x.i] := List.getElem?_eq_getElem hlt
    have hne : s[x.i] ≠ '\x00' := fun h => hs (h ▸ List.getElem_mem hlt)
    have hnext : parseScan (s.take (x.i + 1)) = parseChain ⟨pc, prevAt s x.i, x.temp, x.tokens⟩ s[x.i] := by
      rw [parseScan_take hch, hx]
      rcases hpc with rfl | ⟨rfl, -, hslash⟩
      · rfl
      · rw [parseStep, if_neg fun h : s[x.i] = '\\' => hslash (by rw [hch, h])]
    rw [charAt_of_getElem? hch]
    generalize s[x.i] = ch at hch hne hnext
    rw [parseChain] at hnext
    simp only at hnext
    split_ifs with hop hquote hspace
    · rw [if_pos hop] at hnext
      exact Traced.ensures_pure.2 ⟨_, rfl, .inl ⟨hlt, by
        rw [hnext, prevAt_succ hch, strConcatChar_of_ne hne]; rfl⟩, rfl⟩
    · rw [if_neg hop, if_pos hquote] at hnext
      refine Traced.ensures_bind.2 ((afterSlash_spec hi).mono ?_)
      rintro keep rfl
      by_cases hslash : prevAt s x.i = some '/'
      · rw [if_pos hslash] at hnext
        rw [if_pos (decide_eq_true hslash)]
        exact Traced.ensures_pure.2 ⟨_, rfl, .inl ⟨hlt, by
          rw [hnext, prevAt_succ hch, strConcatChar_of_ne hne]; rfl⟩, rfl⟩
      · rw [if_neg hslash] at hnext
        rw [if_neg (by simpa using hslash)]
        exact Traced.ensures_pure.2 ⟨_, rfl, .inl ⟨hlt, by rw [hnext, prevAt_succ hch]; rfl⟩, rfl⟩
    · rw [if_neg hop, if_neg hquote, if_pos hspace] at hnext
      exact Traced.ensures_pure.2 ⟨_, rfl, .inl ⟨hlt, by rw [hnext, prevAt_succ hch]; rfl⟩, rfl⟩
    · rw [if_neg hop, if_neg hquote, if_neg hspace] at hnext
      exact Traced.ensures_pure.2 ⟨_, rfl, .inl ⟨hlt, by
        rw [hnext, prevAt_succ hch, strConcatChar_of_ne hne]; rfl⟩, rfl⟩
  · -- the terminator, after an escaped character
    obtain rfl : pc = .chain := hpc.resolve_right fun h => absurd h.2.1 (by omega)
    have htokens : tokensOf s = .ok (pushTemp x.tokens x.temp) := by
      rw [tokensOf, ← List.take_length (l := s), ← heq, hx]
      rfl
    rw [heq, charAt_length]
    exact Traced.ensures_pure.2 ⟨_, rfl, .inr ⟨rfl, rfl, htokens⟩, rfl⟩

/-- Going on after character `k` has been read. -/
theorem goes_next {r : Scan ⊕ Found} {k : ℕ} (hk : k ≤ s.length)
    (h : ∃ y, r = .inl y ∧ ScanInv s y ∧ k < y.i) :
    Traced.Goes (ScanInv s) (· = tokensOf s) (fun y => s.length + 1 - y.i) (s.length + 1 - k) r := by
  obtain ⟨y, rfl, hy, hi⟩ := h
  refine ⟨hy, ?_⟩
  have : y.i ≤ s.length + 1 := by
    rcases hy with ⟨hle, -⟩ | ⟨-, heq, -⟩ <;> omega
  show s.length + 1 - y.i < s.length + 1 - k
  omega

theorem scanTest_spec {x : Scan} (hs : '\x00' ∉ s) (hpc : x.pc = .test) (hx : ScanInv s x) :
    Traced.Ensures (Within s) (scanTest s x)
      (Traced.Goes (ScanInv s) (· = tokensOf s) (fun y => s.length + 1 - y.i) (s.length + 1 - x.i)) := by
  unfold scanTest
  by_cases hlt : x.i < s.length
  · obtain ⟨hi, hscan⟩ := hx.resolve_right fun h => by omega
    rw [hpc] at hscan
    have hch : s[x.i]? = some s[x.i] := List.getElem?_eq_getElem hlt
    rw [if_pos hlt]
    refine ensures_getElem? hch ?_
    by_cases hslash : s[x.i] = '\\'
    · rw [if_pos hslash]
      by_cases hnext : x.i + 1 < s.length
      · have hesc : s[x.i + 1]? = some s[x.i + 1] := List.getElem?_eq_getElem hnext
        have hne : s[x.i + 1] ≠ '\x00' := fun h => hs (h ▸ List.getElem_mem hnext)
        rw [if_pos hnext]
        refine ensures_getElem? hesc ?_
        have hescaped : parseScan (s.take (x.i + 2)) = ⟨.chain, prevAt s (x.i + 2),
            strConcatChar x.temp s[x.i + 1], x.tokens⟩ := by
          rw [parseScan_take hesc, parseScan_take hch, hscan, prevAt_succ hesc, hslash,
            strConcatChar_of_ne hne]
          rfl
        refine (scanChain_spec
          (x := { x with i := x.i + 2, temp := strConcatChar x.temp s[x.i + 1] }) hs hnext hescaped
          (.inl rfl)).mono fun r hr => ?_
        obtain ⟨y, rfl, hy, hyi⟩ := hr
        exact goes_next hi ⟨y, rfl, hy, by rw [hyi]; show x.i < x.i + 2 + 1; omega⟩
      · -- a backslash at the end
        rw [if_neg hnext, Traced.ensures_pure]
        have hlen : x.i + 1 = s.length := by omega
        show Except.error Err.backslash = tokensOf s
        rw [tokensOf, ← List.take_length (l := s), ← hlen, parseScan_take hch, hscan, hslash]
        rfl
    · rw [if_neg hslash]
      refine (scanChain_spec hs hi hscan (.inr ⟨rfl, hlt, ?_⟩)).mono fun r hr => ?_
      · rw [hch]
        exact fun h => hslash (Option.some.inj h)
      · obtain ⟨y, rfl, hy, hyi⟩ := hr
        exact goes_next hi ⟨y, rfl, hy, by omega⟩
  · rw [if_neg hlt, Traced.ensures_pure]
    show Except.ok (pushTemp x.tokens x.temp) = tokensOf s
    rcases hx with ⟨hi, hscan⟩ | ⟨-, -, htokens⟩
    · rw [hpc] at hscan
      rw [tokensOf, ← List.take_length (l := s), show s.length = x.i by omega, hscan]
      rfl
    · exact htokens.symm

theorem scanRegion_spec {x : Scan} {keep : Bool} (hs : '\x00' ∉ s) (hpc : x.pc = .region keep)
    (hx : ScanInv s x) : Traced.Ensures (Within s) (scanRegion s keep x)
      (Traced.Goes (ScanInv s) (· = tokensOf s) (fun y => s.length + 1 - y.i) (s.length + 1 - x.i)) := by
  obtain ⟨hi, hscan⟩ := hx.resolve_right fun h => by rw [hpc] at h; cases h.1
  rw [hpc] at hscan
  have hzero : x.i ≠ 0 := by
    intro h
    rw [h] at hscan
    cases hscan
  unfold scanRegion
  refine Traced.ensures_bind.2 ((inRegion_spec (Nat.le_refl _) hzero).mono fun stay hstay => ?_)
  by_cases hlt : x.i < s.length
  · have hch : s[x.i]? = some s[x.i] := List.getElem?_eq_getElem hlt
    have hne : s[x.i] ≠ '\x00' := fun h => hs (h ▸ List.getElem_mem hlt)
    have hnext := parseScan_take hch
    rw [hscan] at hnext
    by_cases hin : s[x.i] ≠ '"' ∨ prevAt s x.i = some '\\'
    · rw [if_pos (hstay.2 ⟨hlt, fun ch h => Option.some.inj (hch.symm.trans h) ▸ hin⟩)]
      refine ensures_getElem? hch (Traced.ensures_pure.2 ?_)
      refine goes_next hi ⟨_, rfl, .inl ⟨hlt, ?_⟩, Nat.lt_succ_self _⟩
      rw [hnext, prevAt_succ hch, strConcatChar_of_ne hne, hpc]
      exact if_pos hin
    · have hclose : parseStep ⟨.quoted keep, prevAt s x.i, x.temp, x.tokens⟩ s[x.i] = ⟨.head,
          some s[x.i], if keep then x.temp ++ [s[x.i]] else x.temp, x.tokens⟩ := if_neg hin
      rw [if_neg fun h => hin ((hstay.1 h).2 _ hch), if_neg (Nat.ne_of_lt hlt)]
      cases keep with
      | true =>
        have hquote : s[x.i] = '"' := not_not.1 fun h => hin (.inl h)
        rw [if_pos rfl]
        refine ensures_getElem? hch ?_
        rw [Traced.ensures_pure, if_pos hquote]
        refine goes_next hi ⟨_, rfl, .inl ⟨hlt, ?_⟩, Nat.lt_succ_self _⟩
        rw [hnext, prevAt_succ hch, strConcatChar_of_ne hne]
        exact hclose
      | false =>
        rw [if_neg (by decide), Traced.ensures_pure]
        refine goes_next hi ⟨_, rfl, .inl ⟨hlt, ?_⟩, Nat.lt_succ_self _⟩
        rw [hnext, prevAt_succ hch]
        exact hclose
  · -- the quotes are not closed
    have hlen : x.i = s.length := by omega
    rw [if_neg fun h => hlt (hstay.1 h).1, if_pos hlen, Traced.ensures_pure]
    show Except.error Err.quotes = tokensOf s
    rw [tokensOf, ← List.take_length (l := s), ← hlen, hscan]
    rfl

/-- **A pass** of `cmd_parse`. -/
theorem scanStep_spec {x : Scan} (hs : '\x00' ∉ s) (hx : ScanInv s x) :
    Traced.Ensures (Within s) (scanStep s x)
      (Traced.Goes (ScanInv s) (· = tokensOf s) (fun y => s.length + 1 - y.i) (s.length + 1 - x.i)) := by
  unfold scanStep
  cases hpc : x.pc with
  | test => exact scanTest_spec hs hpc hx
  | region keep => exact scanRegion_spec hs hpc hx

/-- **`cmd_parse` stays in the string**, and ends with the tokens. -/
theorem scan_in_bounds (s : CString) :
    EndsInBounds (scanStep s.chars) Scan.init Scan.i s.chars.length (tokensOf s.chars) := by
  refine endsInBounds_of (fun x hx => scanStep_spec s.noNul hx) (.inl ⟨Nat.zero_le _, rfl⟩) ?_
  rintro x (⟨hi, -⟩ | ⟨-, hi, -⟩)
  · omega
  · exact Nat.le_of_eq hi

/-! ### `tokenise_on_pipe` -/

variable {line : Line}

/-- The scan has read the characters before `i`, or the one at `i` in the loop over spaces. -/
def PipeInv (line : Line) (x : PipeLoop) : Prop :=
  x.i ≤ line.body.length + 1 ∧
    match x.pc with
    | .test => ∃ pc, pipeAt line x.i = .ok ⟨min x.i line.body.length, pc, x.temp, x.cmds⟩ ∧
        (pc = .head ∨ pc = .skip ∧ line.body[x.i]? ≠ some ' ')
    | .region => x.i ≤ line.body.length ∧ ∃ prev, prevAt line.text x.i = some prev ∧
        pipeAt line x.i = .ok ⟨x.i, .quoted prev, x.temp, x.cmds⟩
    | .spaces => x.i ≤ line.body.length ∧ x.temp = [] ∧
        pipeAt line (x.i + 1) = .ok ⟨min (x.i + 1) line.body.length, .skip, [], x.cmds⟩

/-- It goes down when `i` goes up, and when the loop over spaces begins. -/
def pipeMeasure (line : Line) (x : PipeLoop) : ℕ :=
  2 * (line.body.length + 2 - x.i) + if x.pc = .spaces then 0 else 1

theorem length_text (line : Line) : line.text.length = line.body.length + 1 := by
  simp [Line.text]

theorem text_ne_nul (h : line.text[i]? = some ch) : ch ≠ '\x00' :=
  fun hnul => line.noNul (hnul ▸ List.mem_of_getElem? h)

theorem pipeAt_end (hi : line.body.length ≤ i) : pipeAt line i = pipeScan line.body.length line.body := by
  rw [pipeAt, List.take_of_length_le hi]

/-- An error is not undone. -/
theorem pipedCmds_of_error {e : Err} (h : pipeAt line i = .error e) : pipedCmds line = .error e := by
  have hsplit : pipeScan line.body.length line.body = .error e := by
    rw [← List.take_append_drop i line.body, pipeScan, List.foldlM_append, List.take_append_drop]
    exact (congrArg (fun r => r >>= _) h : _)
  rw [pipedCmds, hsplit]
  rfl

theorem pipe_goes {x y : PipeLoop} (hx : x.i ≤ line.body.length + 1) (hy : PipeInv line y)
    (h : x.i < y.i ∨ x.i = y.i ∧ x.pc ≠ .spaces ∧ y.pc = .spaces) :
    Traced.Goes (PipeInv line) (· = pipedCmds line) (pipeMeasure line) (pipeMeasure line x) (.inl y) := by
  refine ⟨hy, ?_⟩
  have hyi := hy.1
  unfold pipeMeasure
  rcases h with hlt | ⟨heq, hxpc, hypc⟩
  · split_ifs <;> omega
  · rw [if_neg hxpc, if_pos hypc]
    omega

/-- Going on with the next character. -/
theorem pipe_next {x : PipeLoop} {pc : PipeLoopPc} {temp : List Char} {cmds : List (List Char)}
    (hx : x.i ≤ line.body.length + 1) (hy : PipeInv line ⟨pc, x.i + 1, temp, cmds⟩) :
    Traced.Goes (PipeInv line) (· = pipedCmds line) (pipeMeasure line) (pipeMeasure line x)
      (.inl ⟨pc, x.i + 1, temp, cmds⟩) :=
  pipe_goes hx hy (.inl (Nat.lt_succ_self x.i))

/-- At the test of the `for` loop, when no space is to be left out. -/
theorem pipeInv_head {temp : List Char} {cmds : List (List Char)} (hi : i ≤ line.body.length)
    (h : pipeAt line i = .ok ⟨i, .head, temp, cmds⟩) : PipeInv line ⟨.test, i, temp, cmds⟩ := by
  refine ⟨Nat.le_succ_of_le hi, .head, ?_, .inl rfl⟩
  rw [h]
  exact congrArg (fun i => Except.ok (Pipe.mk i _ _ _)) (Nat.min_eq_left hi).symm

theorem pipeTest_spec {x : PipeLoop} (hpc : x.pc = .test) (hx : PipeInv line x) :
    Traced.Ensures (Within line.text) (pipeTest line.text x) (Traced.Goes (PipeInv line)
      (· = pipedCmds line) (pipeMeasure line) (pipeMeasure line x)) := by
  have hlen := length_text line
  obtain ⟨hi, hinv⟩ := hx
  rw [hpc] at hinv
  obtain ⟨pc, hscan, hpc'⟩ := hinv
  unfold pipeTest
  by_cases hlt : x.i < line.text.length - 1
  · have hbody : x.i < line.body.length := by omega
    have hch : line.body[x.i]? = some line.body[x.i] := List.getElem?_eq_getElem hbody
    have htext : line.text[x.i]? = some line.body[x.i] := (text_eq_body hbody).trans hch
    have hne := text_ne_nul htext
    -- what the scan of the characters does
    have hnext : pipeAt line (x.i + 1) =
        pipeHead line.body.length ⟨x.i, pc, x.temp, x.cmds⟩ line.body[x.i] := by
      rw [pipeAt_succ hch, hscan, Nat.min_eq_left (Nat.le_of_lt hbody)]
      rcases hpc' with rfl | ⟨rfl, hspace⟩
      · rfl
      · exact if_neg fun h => hspace (by rw [hch, h])
    rw [if_pos hlt]
    refine ensures_getElem? htext ?_
    rw [pipeHead] at hnext
    by_cases hquote : line.body[x.i] = '"'
    · rw [if_pos hquote] at hnext
      rw [if_pos hquote, Traced.ensures_pure]
      refine pipe_next hi ⟨Nat.le_succ_of_le hbody, hbody, _, prevAt_succ htext, ?_⟩
      rw [hnext, strConcatChar_of_ne hne]
    · rw [if_neg hquote] at hnext ⊢
      by_cases hbar : line.body[x.i] = '|'
      · rw [if_pos hbar] at hnext ⊢
        by_cases hlast : x.i = line.text.length - 2
        · rw [if_pos (by show x.i + 1 = _; omega)] at hnext
          rw [if_pos hlast, Traced.ensures_pure]
          exact (pipedCmds_of_error hnext).symm
        · rw [if_neg (by show ¬ x.i + 1 = _; omega)] at hnext
          rw [if_neg hlast]
          by_cases htemp : x.temp ≠ []
          · rw [if_pos htemp] at hnext
            rw [if_pos htemp, Traced.ensures_pure]
            refine pipe_goes hi ⟨hi, Nat.le_of_lt hbody, rfl, ?_⟩ (.inr ⟨rfl, by rw [hpc]; decide, rfl⟩)
            rw [hnext]
            exact congrArg (fun i => Except.ok (Pipe.mk i _ _ _)) (Nat.min_eq_left hbody).symm
          · rw [if_neg htemp] at hnext
            rw [if_neg htemp, Traced.ensures_pure]
            exact (pipedCmds_of_error hnext).symm
      · rw [if_neg hbar] at hnext
        rw [if_neg hbar, Traced.ensures_pure]
        refine pipe_next hi (pipeInv_head hbody ?_)
        rw [hnext, strConcatChar_of_ne hne]
  · rw [if_neg hlt, Traced.ensures_pure]
    show Except.ok (pushTemp x.cmds x.temp) = pipedCmds line
    rw [pipeAt_end (by omega)] at hscan
    rw [pipedCmds, hscan]
    rcases hpc' with rfl | ⟨rfl, -⟩ <;> rfl

theorem pipeRegion_spec {x : PipeLoop} (hpc : x.pc = .region) (hx : PipeInv line x) :
    Traced.Ensures (Within line.text) (pipeRegion line.text x) (Traced.Goes (PipeInv line)
      (· = pipedCmds line) (pipeMeasure line) (pipeMeasure line x)) := by
  have hlen := length_text line
  obtain ⟨hi, hinv⟩ := hx
  rw [hpc] at hinv
  obtain ⟨hle, prev, hprev, hscan⟩ := hinv
  have hzero : x.i ≠ 0 := by
    intro h
    rw [h] at hprev
    cases hprev
  unfold pipeRegion
  refine Traced.ensures_bind.2 ((inRegion_spec (by omega) hzero).mono fun stay hstay => ?_)
  by_cases hbody : x.i < line.body.length
  · have hch : line.body[x.i]? = some line.body[x.i] := List.getElem?_eq_getElem hbody
    have htext : line.text[x.i]? = some line.body[x.i] := (text_eq_body hbody).trans hch
    have hne := text_ne_nul htext
    have hnext := pipeAt_succ hch
    rw [hscan] at hnext
    by_cases hin : line.body[x.i] ≠ '"' ∨ prev = '\\'
    · have hgo : pipeAt line (x.i + 1) = .ok ⟨x.i + 1, .quoted line.body[x.i],
          x.temp ++ [line.body[x.i]], x.cmds⟩ := hnext.trans (if_pos hin)
      rw [if_pos (hstay.2 ⟨by omega, fun ch h => ?_⟩)]
      · refine ensures_getElem? htext (Traced.ensures_pure.2 ?_)
        refine pipe_next hi ⟨Nat.le_succ_of_le hbody, ?_⟩
        rw [hpc, strConcatChar_of_ne hne]
        exact ⟨hbody, _, prevAt_succ htext, hgo⟩
      · obtain rfl := Option.some.inj (htext.symm.trans h)
        rw [hprev]
        exact hin.imp id (congrArg some)
    · have hclose : pipeAt line (x.i + 1) = .ok ⟨x.i + 1, .head, x.temp ++ [line.body[x.i]], x.cmds⟩ :=
        hnext.trans (if_neg hin)
      have hquote : line.body[x.i] = '"' := not_not.1 fun h => hin (.inl h)
      rw [if_neg fun h => hin (((hstay.1 h).2 _ htext).imp id fun h =>
          Option.some.inj (hprev.symm.trans h)), if_neg (by omega)]
      refine ensures_getElem? htext ?_
      rw [Traced.ensures_pure, if_pos hquote]
      refine pipe_next hi (pipeInv_head hbody ?_)
      rw [hclose, strConcatChar_of_ne hne]
  · -- the quotes are not closed
    rw [if_neg fun h => hbody (by have := (hstay.1 h).1; omega), if_pos (by omega),
      Traced.ensures_pure]
    show Except.error Err.pipeQuotes = pipedCmds line
    rw [pipeAt_end (by omega)] at hscan
    rw [pipedCmds, hscan]
    rfl

theorem pipeSpaces_spec {x : PipeLoop} (hpc : x.pc = .spaces) (hx : PipeInv line x) :
    Traced.Ensures (Within line.text) (pipeSpaces line.text x) (Traced.Goes (PipeInv line)
      (· = pipedCmds line) (pipeMeasure line) (pipeMeasure line x)) := by
  have hlen := length_text line
  obtain ⟨hi, hinv⟩ := hx
  rw [hpc] at hinv
  obtain ⟨hle, htemp, hscan⟩ := hinv
  unfold pipeSpaces
  refine ensures_readChar (by omega : x.i + 1 ≤ line.text.length) ?_
  have hbody : ∀ hlt : x.i + 1 < line.body.length,
      line.body[x.i + 1]? = some (charAt line.text (x.i + 1 : ℕ)) := by
    intro hlt
    have hch : line.body[x.i + 1]? = some line.body[x.i + 1] := List.getElem?_eq_getElem hlt
    rw [charAt_of_getElem? ((text_eq_body hlt).trans hch), hch]
  by_cases hspace : charAt line.text (x.i + 1 : ℕ) = ' ' ∧ x.i < line.text.length - 1
  · rw [if_pos hspace, Traced.ensures_pure]
    have hsucc : x.i + 1 ≤ line.body.length := by omega
    refine pipe_next hi ⟨Nat.le_succ_of_le hsucc, ?_⟩
    rw [hpc]
    refine ⟨hsucc, htemp, ?_⟩
    show pipeAt line (x.i + 1 + 1) = .ok ⟨min (x.i + 1 + 1) line.body.length, .skip, [], x.cmds⟩
    by_cases hlt : x.i + 1 < line.body.length
    · rw [pipeAt_succ (hbody hlt), hscan, Nat.min_eq_left (Nat.le_of_lt hlt), Nat.min_eq_left hlt]
      exact if_pos hspace.1
    · -- the space is the last character
      rw [pipeAt_end (by omega), ← pipeAt_end (i := x.i + 1) (by omega), hscan,
        Nat.min_eq_right (by omega), Nat.min_eq_right (by omega)]
  · rw [if_neg hspace, if_neg (by omega), Traced.ensures_pure]
    refine pipe_next hi ⟨Nat.succ_le_succ hle, .skip, ?_, .inr ⟨rfl, ?_⟩⟩
    · rw [htemp]
      exact hscan
    · show line.body[x.i + 1]? ≠ some ' '
      by_cases hlt : x.i + 1 < line.body.length
      · rw [hbody hlt]
        exact fun h => hspace ⟨Option.some.inj h, by omega⟩
      · rw [List.getElem?_eq_none (by omega)]
        simp

/-- **A pass** of `tokenise_on_pipe`. -/
theorem pipeLoopStep_spec {x : PipeLoop} (hx : PipeInv line x) :
    Traced.Ensures (Within line.text) (pipeLoopStep line.text x) (Traced.Goes (PipeInv line)
      (· = pipedCmds line) (pipeMeasure line) (pipeMeasure line x)) := by
  unfold pipeLoopStep
  cases hpc : x.pc with
  | test => exact pipeTest_spec hpc hx
  | region => exact pipeRegion_spec hpc hx
  | spaces => exact pipeSpaces_spec hpc hx

/-- **`tokenise_on_pipe` stays in the string**, and ends with the commands. -/
theorem pipe_in_bounds (line : Line) :
    EndsInBounds (pipeLoopStep line.text) PipeLoop.init PipeLoop.i line.text.length (pipedCmds line) := by
  refine endsInBounds_of (fun x hx => pipeLoopStep_spec hx) (pipeInv_head (Nat.zero_le _) rfl)
    fun x hx => ?_
  have := hx.1
  rw [length_text]
  omega

end

/-- **The scanners never leave the string.** -/
theorem scanners_in_bounds :
    (∀ s : CString, EndsInBounds (scanStep s.chars) Scan.init Scan.i s.chars.length (tokensOf s.chars)) ∧
      ∀ line : Line, EndsInBounds (pipeLoopStep line.text) PipeLoop.init PipeLoop.i line.text.length
        (pipedCmds line) :=
  ⟨scan_in_bounds, pipe_in_bounds⟩

end OsLab.Shell
