import OsLab.Scripts.Arith

/-!
# The check of a sorted file (`checkIfSorted.sh`)

The script reads the lines of a file and compares each with the one before it. Both sides of `-lt` are
arithmetic: the text of a number means the number, an empty one 0, and where the shell reports an error
the test is false.

* `checkIfSorted_iff`: the verdict on a file of numbers.
-/

namespace OsLab.Scripts

/-- `=~ ^[0-9]+$`. -/
def isNumber (line : Text) : Bool := line ≠ [] && line.all Char.isDigit

/-- The number that a side of `-lt` means. -/
def operand (t : Text) : Option ℤ := if t = [] then some 0 else shellInt t

/-- `[[ $line -lt $prev ]]`. -/
def lessThan (line prev : Text) : Bool :=
  match operand line, operand prev with
  | some x, some y => x < y
  | _, _ => false

/-- The loop over the lines as `read` gives them, and what is printed after it. -/
def checkLines (prev : Text) : List Text → String
  | [] => "Sorted"
  | line :: lines =>
    if isNumber line then
      if lessThan line prev then "Not sorted" else checkLines line lines
    else "Not an integer"

/-- The script: `prev` is not set at first. -/
def checkIfSorted (lines : List Text) : String := checkLines [] lines

variable {m z : ℤ} {zs : List ℤ} {prev : Text}

theorem isNumber_decimalText (h : 0 ≤ z) : isNumber (decimalText z) = true := by
  unfold isNumber decimalText
  rw [if_neg (not_lt.2 h), Bool.and_eq_true, decide_eq_true_eq, List.all_eq_true]
  exact ⟨digits_toDigits.1, fun c hc => (digits_toDigits.2 c hc).1⟩

theorem operand_decimalText (h0 : 0 ≤ z) (h1 : z < 2 ^ 63) : operand (decimalText z) = some z := by
  have hne : decimalText z ≠ [] := by
    rw [decimalText, if_neg (not_lt.2 h0)]
    exact digits_toDigits.1
  rw [operand, if_neg hne, shellInt_decimalText (by omega) h1]

theorem lessThan_decimalText (h0 : 0 ≤ z) (h1 : z < 2 ^ 63) (hprev : operand prev = some m) :
    lessThan (decimalText z) prev = decide (z < m) := by
  unfold lessThan
  rw [operand_decimalText h0 h1, hprev]

/-- **The verdict on numbers**, after a line that means `m`. -/
theorem checkLines_iff (hzs : ∀ z ∈ zs, 0 ≤ z ∧ z < 2 ^ 63) (hprev : operand prev = some m) :
    checkLines prev (zs.map decimalText) = "Sorted" ↔ (m :: zs).IsChain (· ≤ ·) := by
  induction zs generalizing m prev with
  | nil => simp [checkLines]
  | cons z zs ih =>
    obtain ⟨h0, h1⟩ := hzs z List.mem_cons_self
    rw [List.map_cons, checkLines, if_pos (isNumber_decimalText h0), lessThan_decimalText h0 h1 hprev,
      List.isChain_cons_cons]
    by_cases hlt : z < m
    · rw [if_pos (decide_eq_true hlt)]
      exact iff_of_false (by decide) fun hchain => absurd hchain.1 (not_le.2 hlt)
    · rw [if_neg (by simpa using hlt), ih (fun y hy => hzs y (List.mem_cons_of_mem _ hy))
        (operand_decimalText h0 h1)]
      exact (and_iff_right (not_lt.1 hlt)).symm

/-- A file of numbers below `2 ^ 63` is found sorted exactly if they are in order. -/
theorem checkIfSorted_iff (hzs : ∀ z ∈ zs, 0 ≤ z ∧ z < 2 ^ 63) :
    checkIfSorted (zs.map decimalText) = "Sorted" ↔ zs.Pairwise (· ≤ ·) := by
  rw [checkIfSorted, checkLines_iff (m := 0) hzs rfl, ← List.isChain_iff_pairwise]
  cases zs with
  | nil => simp
  | cons z zs => rw [List.isChain_cons_cons, and_iff_right (hzs z List.mem_cons_self).1]

end OsLab.Scripts
