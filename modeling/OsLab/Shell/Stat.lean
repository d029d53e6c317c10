import OsLab.Lib.Vec
import Mathlib.Tactic.Linarith
import Mathlib.Tactic.Ring

/-!
# The readers of `/proc/<pid>/stat` (`getGroup` and `getParent` of `sb.cpp`)

Both count the spaces from the left, and so take the name of a process for more fields when it has a
space. `getParent` copies the name without its parentheses up to the first space or closing one.
`fgetc` gives a byte, and `c` is a `char`, so the byte 255 is `EOF`. The numbers are read without a
sign.
-/

namespace OsLab.Shell

open Lib

/-! ## The model -/

/-- `EOF`. -/
def eof : ℤ := -1

/-- `(char) fgetc(fp)` when a byte is read. -/
def cChar (b : UInt8) : ℤ := b.toInt8.toInt

/-- A character constant. -/
def code (ch : Char) : ℤ := ch.toNat

/-- The files `/proc/<n>/stat`: their bytes, or nothing if `fopen` fails. -/
abbrev ProcFs := ℕ → Option (List UInt8)

/-- A `pid` printed with `%u`. -/
def unsignedPid (pid : ℤ) : ℕ := (pid % 2 ^ 32).toNat

def procname (pid : ℤ) : String := "/proc/" ++ toString (unsignedPid pid) ++ "/stat"

/-- The line printed when the file cannot be opened. -/
def notOpened (pid : ℤ) : String := "could not open the stat file " ++ procname pid

/-- The loop that reads a number: `n = n * 10 + (int)(c - '0')` up to a space. -/
def readNumber : ℤ → List UInt8 → Option ℤ
  | n, [] => some n
  | n, b :: bs =>
    if cChar b = eof ∨ cChar b = code ' ' then some n
    else do
      let shifted ← mulInt n 10
      let next ← addInt shifted (cChar b - code '0')
      readNumber next bs

/-- The loop of `getGroup`. -/
def groupLoop : ℕ → List UInt8 → Option ℤ
  | _, [] => some 0
  | groupF, b :: bs =>
    if cChar b = eof then some 0
    else
      let groupF := if cChar b = code ' ' then groupF + 1 else groupF
      if groupF = 4 then readNumber 0 bs else groupLoop groupF bs

/-- What `getGroup` returns, and the lines it prints. -/
structure GroupRead where
  gpid : ℤ
  printed : List String

/-- `getGroup`. -/
def getGroup (proc : ProcFs) (pid : ℤ) : Option GroupRead :=
  match proc (unsignedPid pid) with
  | none => some ⟨0, [notOpened pid]⟩
  | some bytes => (groupLoop 0 bytes).map fun gpid => ⟨gpid, []⟩

/-- The loop of `getParent`, where `process` has been written into the buffer. -/
def parentLoop : ℕ → ℕ → List UInt8 → List UInt8 → Option (ℤ × List UInt8)
  | _, _, process, [] => some (0, process)
  | parentPidF, processF, process, b :: bs =>
    if cChar b = eof then some (0, process)
    else
      let parentPidF := if cChar b = code ' ' then parentPidF + 1 else parentPidF
      let processF := if cChar b = code ' ' then processF + 1 else processF
      if processF = 1 ∧ (cChar b = code '(' ∨ cChar b = code ' ') then
        parentLoop parentPidF processF process bs
      else if processF = 1 ∧ cChar b = code ')' then
        parentLoop parentPidF (processF + 1) process bs
      else
        let process := if processF = 1 then process ++ [b] else process
        if parentPidF = 3 then (readNumber 0 bs).map fun ppid => (ppid, process)
        else parentLoop parentPidF processF process bs

/-- What `getParent` returns, what it writes into the buffer, and the lines it prints. -/
structure ParentRead where
  ppid : ℤ
  process : List UInt8
  printed : List String

/-- `getParent`. -/
def getParent (proc : ProcFs) (pid : ℤ) : Option ParentRead :=
  match proc (unsignedPid pid) with
  | none => some ⟨0, [], [procname pid, notOpened pid]⟩
  | some bytes => (parentLoop 0 0 [] bytes).map fun r => ⟨r.1, r.2, [procname pid]⟩

/-! ## The lines -/

/-- The byte of an ASCII character. -/
def byte (ch : Char) : UInt8 := ch.toNat.toUInt8

/-- A number in decimal. -/
def decimal (z : ℤ) : List UInt8 :=
  ((if z < 0 then ['-'] else []) ++ Nat.toDigits 10 z.natAbs).map byte

/-- A line of a stat file. -/
structure StatLine where
  pid : ℤ
  comm : List UInt8
  state : UInt8
  ppid : ℤ
  pgrp : ℤ
  rest : List UInt8
  named : comm ≠ []
  short : comm.length ≤ 15
  noNul : 0 ∉ comm
  letter : ∃ ch : Char, ch.isAlpha ∧ state = byte ch
  fits : ∀ z ∈ [pid, ppid, pgrp], intMin ≤ z ∧ z ≤ intMax

/-- `pid (comm) S ppid pgrp ...` -/
def StatLine.text (line : StatLine) : List UInt8 :=
  decimal line.pid ++ byte ' ' :: byte '(' :: (line.comm ++ byte ')' :: byte ' ' :: line.state ::
    byte ' ' :: (decimal line.ppid ++ byte ' ' :: (decimal line.pgrp ++ byte ' ' :: line.rest)))

/-- No space and no parenthesis, and no byte that is `EOF` as a `char`. -/
def Clean (comm : List UInt8) : Prop :=
  ∀ b ∈ comm, cChar b ≠ eof ∧ cChar b ≠ code ' ' ∧ cChar b ≠ code '(' ∧ cChar b ≠ code ')'

instance (comm : List UInt8) : Decidable (Clean comm) :=
  inferInstanceAs (Decidable (∀ b ∈ comm, _))

/-- Both readers find what is in the line. -/
def ReadsStat (proc : ProcFs) (pid : ℤ) (line : StatLine) : Prop :=
  (∃ printed, getParent proc pid = some ⟨line.ppid, line.comm, printed⟩) ∧
    ∃ printed, getGroup proc pid = some ⟨line.pgrp, printed⟩

section

variable {b : UInt8} {bs l comm process : List UInt8} {n v z : ℤ} {cs : List Char} {ch : Char}
  {groupF parentPidF processF : ℕ}

/-! ## Bytes and numbers -/

theorem cChar_byte (h : ch.toNat < 128) : cChar (byte ch) = code ch := by
  have hnat : (byte ch).toBitVec.toNat = ch.toNat := by
    rw [byte, Nat.toUInt8, UInt8.toBitVec_ofNat', BitVec.toNat_ofNat]
    omega
  have hint : cChar (byte ch) = (byte ch).toBitVec.toInt := rfl
  rw [hint, BitVec.toInt_eq_toNat_of_lt (by omega), hnat]
  rfl

/-- Neither a space nor `EOF`. -/
def Plain (b : UInt8) : Prop := cChar b ≠ eof ∧ cChar b ≠ code ' '

theorem plain_byte (h : 32 < ch.toNat ∧ ch.toNat < 128) : Plain (byte ch) := by
  have hspace : code ' ' = 32 := rfl
  have hcode : code ch = ch.toNat := rfl
  rw [Plain, cChar_byte h.2, hspace, hcode, eof]
  omega

theorem isDigit_range (h : ch.isDigit) : 48 ≤ ch.toNat ∧ ch.toNat ≤ 57 := Char.isDigit_iff_toNat.1 h

theorem decimal_plain : ∀ b ∈ decimal z, Plain b := by
  intro b hb
  obtain ⟨ch, hch, rfl⟩ := List.mem_map.1 hb
  rcases List.mem_append.1 hch with hch | hch
  · split_ifs at hch with hneg
    · rw [List.mem_singleton.1 hch]
      exact plain_byte (by decide)
    · exact absurd hch List.not_mem_nil
  · have := isDigit_range (Nat.isDigit_of_mem_toDigits (by decide) (by decide) hch)
    exact plain_byte (by omega)

theorem letter_plain (h : ch.isAlpha) : Plain (byte ch) := by
  have hval : (decide ('A'.val ≤ ch.val ∧ ch.val ≤ 'Z'.val) ||
      (decide ('a'.val ≤ ch.val) && decide (ch.val ≤ 'z'.val))) = true := h
  simp only [Bool.or_eq_true, Bool.and_eq_true, decide_eq_true_eq, UInt32.le_iff_toNat_le] at hval
  have hrange : (65 ≤ ch.toNat ∧ ch.toNat ≤ 90) ∨ (97 ≤ ch.toNat ∧ ch.toNat ≤ 122) := hval
  exact plain_byte (by omega)

theorem ofDigitChars_cons (ch : Char) (cs : List Char) (m : ℕ) : Nat.ofDigitChars 10 (ch :: cs) m =
    10 ^ cs.length * (10 * m + (ch.toNat - 48)) + Nat.ofDigitChars 10 cs 0 := by
  rw [Nat.ofDigitChars_cons, Nat.ofDigitChars_eq_ofDigitChars_zero]
  rfl

theorem ofDigitChars_cons_le (ch : Char) (cs : List Char) (m : ℕ) :
    10 * m + (ch.toNat - 48) ≤ Nat.ofDigitChars 10 (ch :: cs) m := by
  rw [ofDigitChars_cons]
  exact Nat.le_add_right_of_le (Nat.le_mul_of_pos_left _ (Nat.pow_pos (by decide)))

/-- A step of the loop at a digit. -/
theorem readNumber_digit (hch : ch.isDigit) : readNumber n (byte ch :: bs) =
    (mulInt n 10).bind fun m => (addInt m (ch.toNat - 48)).bind fun next => readNumber next bs := by
  have hrange := isDigit_range hch
  have hplain := plain_byte (by omega : 32 < ch.toNat ∧ ch.toNat < 128)
  rw [readNumber, if_neg (not_or.2 hplain), cChar_byte (by omega)]
  rfl

theorem readNumber_space : readNumber n (byte ' ' :: bs) = some n := by
  rw [readNumber, if_pos (.inr rfl)]

/-- The number read, if no step leaves the range of `int`. -/
theorem readNumber_digits (hcs : ∀ ch ∈ cs, ch.isDigit)
    (h : readNumber n (cs.map byte ++ byte ' ' :: bs) = some v) :
    v = 10 ^ cs.length * n + Nat.ofDigitChars 10 cs 0 := by
  induction cs generalizing n with
  | nil =>
    rw [List.map_nil, List.nil_append, readNumber_space] at h
    cases h
    simp
  | cons ch cs ih =>
    have hrange := isDigit_range (hcs ch List.mem_cons_self)
    rw [List.map_cons, List.cons_append, readNumber_digit (hcs ch List.mem_cons_self)] at h
    obtain ⟨m, hm, h⟩ := Option.bind_eq_some_iff.1 h
    obtain ⟨next, hnext, h⟩ := Option.bind_eq_some_iff.1 h
    obtain ⟨-, rfl⟩ := mulInt_eq_some.1 hm
    obtain ⟨-, rfl⟩ := addInt_eq_some.1 hnext
    rw [ih (fun a ha => hcs a (List.mem_cons_of_mem ch ha)) h, ofDigitChars_cons, List.length_cons]
    push_cast [hrange.1]
    ring

/-- A number without a sign is read if it is in the range of `int`. -/
theorem readNumber_ofDigitChars {m : ℕ} (hcs : ∀ ch ∈ cs, ch.isDigit)
    (hfits : (Nat.ofDigitChars 10 cs m : ℤ) ≤ intMax) :
    readNumber m (cs.map byte ++ byte ' ' :: bs) = some (Nat.ofDigitChars 10 cs m : ℤ) := by
  induction cs generalizing m with
  | nil => exact readNumber_space
  | cons ch cs ih =>
    have hrange := isDigit_range (hcs ch List.mem_cons_self)
    have hle := ofDigitChars_cons_le ch cs m
    have hmin : intMin ≤ 0 := by decide
    have hmul : mulInt m 10 = some ((m : ℤ) * 10) := mulInt_eq_some.2 ⟨by omega, rfl⟩
    have hadd : addInt ((m : ℤ) * 10) (ch.toNat - 48) = some ((10 * m + (ch.toNat - 48) : ℕ) : ℤ) :=
      addInt_eq_some.2 ⟨by omega, by omega⟩
    rw [List.map_cons, List.cons_append, readNumber_digit (hcs ch List.mem_cons_self), hmul,
      Option.bind_some, hadd, Option.bind_some]
    exact ih (fun a ha => hcs a (List.mem_cons_of_mem ch ha)) hfits

/-- **The numbers** are read right if they have no sign. -/
theorem readNumber_decimal (hfits : intMin ≤ z ∧ z ≤ intMax) :
    readNumber 0 (decimal z ++ byte ' ' :: bs) = some z ↔ 0 ≤ z := by
  have hdigits : ∀ ch ∈ Nat.toDigits 10 z.natAbs, ch.isDigit :=
    fun ch => Nat.isDigit_of_mem_toDigits (by decide) (by decide)
  have hvalue := Nat.ofDigitChars_ten_toDigits (n := z.natAbs)
  by_cases hz : z < 0
  · -- the sign is read as a digit
    refine ⟨fun h => ?_, fun h => absurd h (by omega)⟩
    rw [decimal, if_pos hz, List.map_append, List.map_singleton, List.append_assoc,
      List.singleton_append] at h
    have hminus : readNumber 0 (byte '-' :: ((Nat.toDigits 10 z.natAbs).map byte ++ byte ' ' :: bs)) =
        readNumber (-3) ((Nat.toDigits 10 z.natAbs).map byte ++ byte ' ' :: bs) := by
      rw [readNumber, if_neg (by decide)]
      rfl
    have hread := readNumber_digits hdigits (hminus ▸ h)
    have hlt : z.natAbs < 10 ^ (Nat.toDigits 10 z.natAbs).length :=
      (Nat.length_toDigits_le_iff (by decide) Nat.length_toDigits_pos).1 le_rfl
    rw [hvalue] at hread
    have : (10 : ℤ) ^ (Nat.toDigits 10 z.natAbs).length = (10 ^ (Nat.toDigits 10 z.natAbs).length : ℕ) := by
      push_cast
      rfl
    omega
  · refine ⟨fun _ => by omega, fun _ => ?_⟩
    rw [decimal, if_neg hz, List.nil_append]
    have hz : (z.natAbs : ℤ) = z := by omega
    have hread : readNumber (0 : ℕ) ((Nat.toDigits 10 z.natAbs).map byte ++ byte ' ' :: bs) =
        some ((Nat.ofDigitChars 10 (Nat.toDigits 10 z.natAbs) 0 : ℕ) : ℤ) :=
      readNumber_ofDigitChars hdigits (by rw [hvalue]; omega)
    rwa [hvalue, hz] at hread

/-! ## The loops -/

theorem groupLoop_plain (hl : ∀ b ∈ l, Plain b) (hf : groupF ≠ 4) :
    groupLoop groupF (l ++ bs) = groupLoop groupF bs := by
  induction l with
  | nil => rfl
  | cons b l ih =>
    obtain ⟨heof, hspace⟩ := hl b List.mem_cons_self
    rw [List.cons_append, groupLoop, if_neg heof]
    simp only [if_neg hspace, if_neg hf]
    exact ih fun a ha => hl a (List.mem_cons_of_mem b ha)

theorem groupLoop_space : groupLoop groupF (byte ' ' :: bs) =
    if groupF + 1 = 4 then readNumber 0 bs else groupLoop (groupF + 1) bs := by
  rw [groupLoop, if_neg (by decide)]
  rfl

theorem parentLoop_plain (hl : ∀ b ∈ l, Plain b) (hp : parentPidF ≠ 3) (hq : processF ≠ 1) :
    parentLoop parentPidF processF process (l ++ bs) = parentLoop parentPidF processF process bs := by
  induction l with
  | nil => rfl
  | cons b l ih =>
    obtain ⟨heof, hspace⟩ := hl b List.mem_cons_self
    rw [List.cons_append, parentLoop, if_neg heof]
    simp only [if_neg hspace, hq, false_and, if_false, if_neg hp]
    exact ih fun a ha => hl a (List.mem_cons_of_mem b ha)

/-- A space after the name. -/
theorem parentLoop_space (hq : processF ≠ 0) : parentLoop parentPidF processF process (byte ' ' :: bs) =
    if parentPidF + 1 = 3 then (readNumber 0 bs).map fun ppid => (ppid, process)
    else parentLoop (parentPidF + 1) (processF + 1) process bs := by
  have hspace : cChar (byte ' ') = code ' ' := by decide
  have hnext : ¬ processF + 1 = 1 := by omega
  rw [parentLoop, if_neg (by decide)]
  simp only [hspace, if_true, hnext, false_and, if_false]

/-- A character of the name. -/
theorem parentLoop_name (heof : cChar b ≠ eof) : parentLoop 1 1 process (b :: bs) =
    if cChar b = code ' ' then parentLoop 2 2 process bs
    else if cChar b = code '(' then parentLoop 1 1 process bs
    else if cChar b = code ')' then parentLoop 1 2 process bs
    else parentLoop 1 1 (process ++ [b]) bs := by
  rw [parentLoop, if_neg heof]
  by_cases hspace : cChar b = code ' '
  · simp [eq_true hspace]
  · by_cases hopen : cChar b = code '('
    · simp [eq_false hspace, eq_true hopen]
    · simp [eq_false hspace, eq_false hopen]

/-- The name is copied. -/
theorem parentLoop_clean (hl : Clean l) :
    parentLoop 1 1 process (l ++ bs) = parentLoop 1 1 (process ++ l) bs := by
  induction l generalizing process with
  | nil => rw [List.nil_append, List.append_nil]
  | cons b l ih =>
    obtain ⟨heof, hspace, hopen, hclose⟩ := hl b List.mem_cons_self
    rw [List.cons_append, parentLoop_name heof, if_neg hspace, if_neg hopen, if_neg hclose,
      ih fun a ha => hl a (List.mem_cons_of_mem b ha), List.append_assoc]
    rfl

/-- Nothing is written after the name. -/
theorem parentLoop_written {r : ℤ × List UInt8} (hq : 2 ≤ processF)
    (h : parentLoop parentPidF processF process bs = some r) : r.2 = process := by
  induction bs generalizing parentPidF processF with
  | nil =>
    cases h
    rfl
  | cons b bs ih =>
    have hnext : ∀ q, processF ≤ q → ¬ q = 1 := fun q hle => by omega
    rw [parentLoop] at h
    by_cases heof : cChar b = eof
    · rw [if_pos heof] at h
      cases h
      rfl
    · have hle : processF ≤ if cChar b = code ' ' then processF + 1 else processF := by
        split_ifs <;> omega
      rw [if_neg heof] at h
      simp only [hnext _ hle, false_and, if_false] at h
      generalize (if cChar b = code ' ' then parentPidF + 1 else parentPidF) = parentPidF' at h
      generalize (if cChar b = code ' ' then processF + 1 else processF) = processF' at h hle
      by_cases hthree : parentPidF' = 3
      · rw [if_pos hthree] at h
        obtain ⟨ppid, -, rfl⟩ := Option.map_eq_some_iff.1 h
        rfl
      · rw [if_neg hthree] at h
        exact ih (hq.trans hle) h

/-- The closing parenthesis, with nothing written after it. -/
theorem parentLoop_close {r : ℤ × List UInt8}
    (h : parentLoop 1 1 process (byte ')' :: bs) = some r) : r.2 = process := by
  rw [parentLoop_name (by decide), if_neg (by decide), if_neg (by decide), if_pos (by decide)] at h
  exact parentLoop_written le_rfl h

/-- **The name** is copied as a whole, or not all of it. -/
theorem parentLoop_copied {r : ℤ × List UInt8}
    (h : parentLoop 1 1 process (l ++ byte ')' :: bs) = some r) :
    (Clean l ∧ r.2 = process ++ l) ∨ r.2.length < process.length + l.length := by
  induction l generalizing process with
  | nil =>
    exact .inl ⟨fun b hb => absurd hb List.not_mem_nil, by rw [parentLoop_close h, List.append_nil]⟩
  | cons b l ih =>
    rw [List.length_cons]
    by_cases heof : cChar b = eof
    · rw [List.cons_append, parentLoop, if_pos heof] at h
      cases h
      exact .inr (by show process.length < _; omega)
    rw [List.cons_append, parentLoop_name heof] at h
    by_cases hspace : cChar b = code ' '
    · rw [if_pos hspace] at h
      exact .inr (by rw [parentLoop_written le_rfl h]; omega)
    rw [if_neg hspace] at h
    by_cases hopen : cChar b = code '('
    · rw [if_pos hopen] at h
      right
      rcases ih h with ⟨-, heq⟩ | hlt
      · rw [heq, List.length_append]
        omega
      · omega
    rw [if_neg hopen] at h
    by_cases hclose : cChar b = code ')'
    · rw [if_pos hclose] at h
      exact .inr (by rw [parentLoop_written le_rfl h]; omega)
    rw [if_neg hclose] at h
    rcases ih h with ⟨hclean, heq⟩ | hlt
    · refine .inl ⟨fun a ha => ?_, by rw [heq, List.append_assoc]; rfl⟩
      rcases List.mem_cons.1 ha with rfl | ha
      · exact ⟨heof, hspace, hopen, hclose⟩
      · exact hclean a ha
    · rw [List.length_append, List.length_singleton] at hlt
      exact .inr (by omega)

theorem Clean.plain (h : Clean comm) : ∀ b ∈ comm, Plain b :=
  fun b hb => ⟨(h b hb).1, (h b hb).2.1⟩

/-! ## The readers -/

/-- `getGroup` on a line whose name does not count as more fields. -/
theorem groupLoop_text (line : StatLine) (h : ∀ b ∈ line.comm, Plain b) :
    groupLoop 0 line.text = readNumber 0 (decimal line.pgrp ++ byte ' ' :: line.rest) := by
  obtain ⟨ch, hch, hstate⟩ := line.letter
  have hname : ∀ b ∈ byte '(' :: (line.comm ++ [byte ')']), Plain b := by
    intro b hb
    simp only [List.mem_cons, List.mem_append, List.not_mem_nil, or_false] at hb
    rcases hb with rfl | hb | rfl
    · exact plain_byte (by decide)
    · exact h b hb
    · exact plain_byte (by decide)
  have hletter : ∀ b ∈ [line.state], Plain b := by
    rw [List.forall_mem_singleton, hstate]
    exact letter_plain hch
  have htext : line.text = decimal line.pid ++ byte ' ' :: ((byte '(' :: (line.comm ++ [byte ')'])) ++
      byte ' ' :: ([line.state] ++ byte ' ' :: (decimal line.ppid ++ byte ' ' ::
        (decimal line.pgrp ++ byte ' ' :: line.rest)))) := by
    simp [StatLine.text]
  rw [htext, groupLoop_plain decimal_plain (by decide), groupLoop_space, if_neg (by decide),
    groupLoop_plain hname (by decide), groupLoop_space, if_neg (by decide),
    groupLoop_plain hletter (by decide), groupLoop_space, if_neg (by decide),
    groupLoop_plain decimal_plain (by decide), groupLoop_space, if_pos rfl]

/-- `getParent` comes to the name, -/
theorem parentLoop_text (line : StatLine) : parentLoop 0 0 [] line.text =
    parentLoop 1 1 [] (line.comm ++ byte ')' :: byte ' ' :: line.state :: byte ' ' ::
      (decimal line.ppid ++ byte ' ' :: (decimal line.pgrp ++ byte ' ' :: line.rest))) := by
  have hspace : cChar (byte ' ') = code ' ' := by decide
  have hfirst : ∀ bs, parentLoop 0 0 [] (byte ' ' :: bs) = parentLoop 1 1 [] bs := by
    intro bs
    rw [parentLoop, if_neg (by decide)]
    simp [hspace]
  rw [StatLine.text, parentLoop_plain decimal_plain (by decide) (by decide), hfirst,
    parentLoop_name (by decide), if_neg (by decide), if_pos (by decide)]

/-- and after a clean one to the parent. -/
theorem parentLoop_comm (line : StatLine) (h : Clean line.comm) : parentLoop 0 0 [] line.text =
    (readNumber 0 (decimal line.ppid ++ byte ' ' :: (decimal line.pgrp ++ byte ' ' :: line.rest))).map
      fun ppid => (ppid, line.comm) := by
  obtain ⟨ch, hch, hstate⟩ := line.letter
  have hletter : ∀ b ∈ [line.state], Plain b := by
    rw [List.forall_mem_singleton, hstate]
    exact letter_plain hch
  rw [parentLoop_text, parentLoop_clean h, parentLoop_name (by decide), if_neg (by decide),
    if_neg (by decide), if_pos (by decide), parentLoop_space (by decide), if_neg (by decide),
    ← List.singleton_append, parentLoop_plain hletter (by decide) (by decide),
    parentLoop_space (by decide), if_pos rfl]
  rfl

/-- **The readers** find the parent, the name and the group of a process whose name is clean, and whose
parent and group are not negative. -/
theorem readsStat_iff {proc : ProcFs} {pid : ℤ} {line : StatLine}
    (h : proc (unsignedPid pid) = some line.text) :
    ReadsStat proc pid line ↔ Clean line.comm ∧ 0 ≤ line.ppid ∧ 0 ≤ line.pgrp := by
  have hparent : getParent proc pid =
      (parentLoop 0 0 [] line.text).map fun r => ⟨r.1, r.2, [procname pid]⟩ := by
    rw [getParent, h]
  have hgroup : getGroup proc pid = (groupLoop 0 line.text).map fun gpid => ⟨gpid, []⟩ := by
    rw [getGroup, h]
  constructor
  · rintro ⟨⟨printed, hp⟩, printed', hg⟩
    rw [hparent] at hp
    rw [hgroup] at hg
    obtain ⟨r, hr, hread⟩ := Option.map_eq_some_iff.1 hp
    obtain ⟨hppid, hcomm⟩ : r.1 = line.ppid ∧ r.2 = line.comm := by
      injection hread with hppid hcomm
      exact ⟨hppid, hcomm⟩
    have hclean : Clean line.comm := by
      rw [parentLoop_text] at hr
      rcases parentLoop_copied hr with ⟨hclean, -⟩ | hlt
      · exact hclean
      · rw [hcomm, List.length_nil] at hlt
        omega
    rw [parentLoop_comm line hclean] at hr
    obtain ⟨ppid, hnumber, rfl⟩ := Option.map_eq_some_iff.1 hr
    obtain rfl : ppid = line.ppid := hppid
    obtain ⟨gpid, hnumber', hread'⟩ := Option.map_eq_some_iff.1 hg
    rw [groupLoop_text line hclean.plain] at hnumber'
    obtain rfl : gpid = line.pgrp := by
      injection hread'
    exact ⟨hclean, (readNumber_decimal (line.fits _ (by simp))).1 hnumber,
      (readNumber_decimal (line.fits _ (by simp))).1 hnumber'⟩
  · rintro ⟨hclean, hppid, hpgrp⟩
    refine ⟨⟨[procname pid], ?_⟩, [], ?_⟩
    · rw [hparent, parentLoop_comm line hclean, (readNumber_decimal (line.fits _ (by simp))).2 hppid]
      rfl
    · rw [hgroup, groupLoop_text line hclean.plain,
        (readNumber_decimal (line.fits _ (by simp))).2 hpgrp]
      rfl

end

/-- `42 (bash) S 1 42 0 -1`. -/
def bashLine : StatLine where
  pid := 42
  comm := "bash".toList.map byte
  state := byte 'S'
  ppid := 1
  pgrp := 42
  rest := "0 -1".toList.map byte
  named := by decide
  short := by decide
  noNul := by decide
  letter := ⟨'S', by decide, rfl⟩
  fits := by decide

theorem readsStat_bash : ReadsStat (fun n => if n = 42 then some bashLine.text else none) 42 bashLine :=
  (readsStat_iff rfl).2 ⟨by decide +kernel, by decide, by decide⟩

/-- `42 (tmux: server) S 1 42 0 -1`. -/
def tmuxLine : StatLine :=
  { bashLine with comm := "tmux: server".toList.map byte, named := by decide, short := by decide,
                  noNul := by decide }

/-- **A space in the name** shifts the fields: the state letter is read as the parent. -/
theorem space_shifts_fields : ¬ ∀ (proc : ProcFs) (pid : ℤ) (line : StatLine),
    proc (unsignedPid pid) = some line.text → ReadsStat proc pid line := by
  intro hclaim
  obtain ⟨⟨printed, hparent⟩, -⟩ :=
    hclaim (fun n => if n = 42 then some tmuxLine.text else none) 42 tmuxLine rfl
  have hread : (getParent (fun n => if n = 42 then some tmuxLine.text else none) 42).map
      ParentRead.ppid = some 35 := by decide +kernel
  rw [hparent] at hread
  have hppid : (1 : ℤ) = 35 := Option.some.inj hread
  exact absurd hppid (by decide)

end OsLab.Shell
