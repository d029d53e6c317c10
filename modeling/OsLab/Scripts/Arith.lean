import Mathlib.Data.List.Basic
import Mathlib.Data.List.Induction
import Mathlib.Tactic.IntervalCases

/-!
# Shell arithmetic

The numbers of shell arithmetic have 64 bits (`wrap`). A script holds them as texts: `shellInt` is the
number that a text means, and `decimalText` the text that a number becomes. A text that starts with a
zero is octal, so that it can mean another number than its digits say, or no number at all.

* `shellInt_decimalText`: the text of a number means the number.
* `shellInt_nonzero`, `shellInt_octal`: what the digits of a number mean.
-/

namespace OsLab.Scripts

/-- A number of shell arithmetic, which has 64 bits. -/
def wrap (z : ℤ) : ℤ := (z + 2 ^ 63) % 2 ^ 64 - 2 ^ 63

/-- The characters of a word or a line. -/
abbrev Text := List Char

/-- The base of a number with these digits. -/
def base (digits : Text) : ℕ := if digits.head? = some '0' then 8 else 10

/-- The digits of a number: there is one, and each is below the base. -/
def Digits (b : ℕ) (digits : Text) : Prop :=
  digits ≠ [] ∧ ∀ c ∈ digits, c.isDigit = true ∧ c.toNat - '0'.toNat < b

instance (b : ℕ) (digits : Text) : Decidable (Digits b digits) :=
  @instDecidableAnd _ _ inferInstance (List.decidableBAll _ _)

/-- The number without a sign, or nothing where the shell reports an error. -/
def shellNat (digits : Text) : Option ℕ :=
  if Digits (base digits) digits then some (Nat.ofDigitChars (base digits) digits 0) else none

/-- The number that a text means in `$((…))`. -/
def shellInt : Text → Option ℤ
  | '-' :: digits => (shellNat digits).map fun n : ℕ => wrap (-n)
  | digits => (shellNat digits).map fun n : ℕ => wrap n

/-- The text that `$((…))` becomes. -/
def decimalText (z : ℤ) : Text :=
  if z < 0 then '-' :: Nat.toDigits 10 z.natAbs else Nat.toDigits 10 z.natAbs

variable {z : ℤ} {n d : ℕ} {c : Char} {t : Text}

theorem wrap_eq (h0 : -2 ^ 63 ≤ z) (h1 : z < 2 ^ 63) : wrap z = z := by
  unfold wrap
  omega

theorem wrap_range (z : ℤ) : -2 ^ 63 ≤ wrap z ∧ wrap z < 2 ^ 63 := by
  unfold wrap
  omega

/-! ## Digits -/

theorem isDigit_value (h : c.isDigit = true) : c.toNat - '0'.toNat < 10 := by
  rw [Char.isDigit_iff_toNat] at h
  simp only [Char.reduceToNat] at h ⊢
  omega

theorem isDigit_eq_zero (h : c.isDigit = true) : c.toNat - '0'.toNat = 0 ↔ c = '0' := by
  rw [Char.isDigit_iff_toNat] at h
  refine ⟨fun hzero => Char.toNat_inj.1 ?_, fun hc => by rw [hc]; rfl⟩
  simp only [Char.reduceToNat] at h hzero ⊢
  omega

/-- The digits of a positive number do not start with a zero. -/
theorem head_toDigits (h : 0 < n) : (Nat.toDigits 10 n).head? ≠ some '0' := by
  induction n using Nat.strong_induction_on with
  | _ n ih =>
    by_cases hlt : n < 10
    · rw [Nat.toDigits_of_lt_base hlt]
      interval_cases n <;> decide
    · rw [Nat.toDigits_of_base_le (by decide) (not_lt.1 hlt),
        List.head?_append_of_ne_nil _ Nat.toDigits_ne_nil]
      exact ih (n / 10) (by omega) (by omega)

theorem digits_toDigits : Digits 10 (Nat.toDigits 10 n) :=
  ⟨Nat.toDigits_ne_nil, fun c hc =>
    have hdigit := Nat.isDigit_of_mem_toDigits (by decide) le_rfl hc
    ⟨hdigit, isDigit_value hdigit⟩⟩

theorem shellNat_toDigits : shellNat (Nat.toDigits 10 n) = some n := by
  rcases n.eq_zero_or_pos with rfl | hpos
  · decide
  · rw [shellNat, base, if_neg (head_toDigits hpos), if_pos digits_toDigits,
      Nat.ofDigitChars_ten_toDigits]

theorem shellInt_of_digit (h : c.isDigit = true) :
    shellInt (c :: t) = (shellNat (c :: t)).map fun n : ℕ => wrap n := by
  unfold shellInt
  split
  · next heq =>
    cases heq
    exact absurd h (by decide)
  · rfl

/-- **The text of a number** means the number. -/
theorem shellInt_decimalText (h0 : -2 ^ 63 ≤ z) (h1 : z < 2 ^ 63) :
    shellInt (decimalText z) = some z := by
  unfold decimalText
  split_ifs with hneg
  · rw [shellInt, shellNat_toDigits, Option.map_some]
    rw [wrap_eq (by omega) (by omega)]
    congr 1
    omega
  · obtain ⟨c, t, ht⟩ := List.exists_cons_of_ne_nil (Nat.toDigits_ne_nil (b := 10) (n := z.natAbs))
    have hdigit : c.isDigit = true :=
      Nat.isDigit_of_mem_toDigits (by decide) le_rfl (ht ▸ List.mem_cons_self)
    rw [ht, shellInt_of_digit hdigit, ← ht, shellNat_toDigits, Option.map_some,
      wrap_eq (by omega) (by omega)]
    congr 1
    omega

/-! ## Octal -/

/-- The number is smaller in a smaller base. -/
theorem ofDigitChars_mono {b b' i i' : ℕ} (hb : b ≤ b') (hi : i ≤ i') :
    Nat.ofDigitChars b t i ≤ Nat.ofDigitChars b' t i' := by
  induction t generalizing i i' with
  | nil => simpa using hi
  | cons c t ih =>
    rw [Nat.ofDigitChars_cons, Nat.ofDigitChars_cons]
    exact ih (Nat.add_le_add_right (Nat.mul_le_mul hb hi) _)

theorem ofDigitChars_snoc {b i : ℕ} :
    Nat.ofDigitChars b (t ++ [c]) i = b * Nat.ofDigitChars b t i + (c.toNat - '0'.toNat) := by
  rw [Nat.ofDigitChars_append, Nat.ofDigitChars_cons, Nat.ofDigitChars_nil]

theorem ofDigitChars_eq_zero (ht : ∀ c ∈ t, c.isDigit = true) :
    Nat.ofDigitChars 10 t 0 = 0 ↔ ∀ c ∈ t, c = '0' := by
  induction t using List.reverseRecOn with
  | nil => simp
  | append_singleton t c ih =>
    have hc := isDigit_eq_zero (ht c (by simp))
    rw [ofDigitChars_snoc, Nat.add_eq_zero_iff, Nat.mul_eq_zero, hc, List.forall_mem_append,
      List.forall_mem_singleton, ← ih fun c hc => ht c (List.mem_append_left _ hc)]
    simp

/-- A number is the same in octal only if the digits before its last one are zeros. -/
theorem ofDigitChars_eight_eq (ht : ∀ c ∈ t, c.isDigit = true) :
    Nat.ofDigitChars 8 (t ++ [c]) 0 = Nat.ofDigitChars 10 (t ++ [c]) 0 ↔ ∀ c ∈ t, c = '0' := by
  have hle : Nat.ofDigitChars 8 t 0 ≤ Nat.ofDigitChars 10 t 0 := ofDigitChars_mono (by decide) le_rfl
  rw [ofDigitChars_snoc, ofDigitChars_snoc, ← ofDigitChars_eq_zero ht]
  omega

/-- The digits of a number without a leading zero mean what they say. -/
theorem shellInt_nonzero (ht : Digits 10 t) (hhead : t.head? ≠ some '0')
    (hfit : Nat.ofDigitChars 10 t 0 < 2 ^ 63) :
    shellInt t = some ((Nat.ofDigitChars 10 t 0 : ℕ) : ℤ) := by
  have hnat : shellNat t = some (Nat.ofDigitChars 10 t 0) := by
    rw [shellNat, base, if_neg hhead, if_pos ht]
  obtain ⟨c, t, rfl⟩ := List.exists_cons_of_ne_nil ht.1
  rw [shellInt_of_digit (ht.2 c List.mem_cons_self).1, hnat, Option.map_some,
    wrap_eq (by omega) (by omega)]

/-- The digits of a number with a leading zero mean an octal number, if they are octal digits. -/
theorem shellInt_octal (hhead : t.head? = some '0') (hfit : Nat.ofDigitChars 10 t 0 < 2 ^ 63) :
    shellInt t =
      if Digits 8 t then some ((Nat.ofDigitChars 8 t 0 : ℕ) : ℤ) else none := by
  have hle : Nat.ofDigitChars 8 t 0 ≤ Nat.ofDigitChars 10 t 0 := ofDigitChars_mono (by decide) le_rfl
  obtain ⟨t, rfl⟩ : ∃ t', t = '0' :: t' := by
    cases t with
    | nil => cases hhead
    | cons c t =>
      cases hhead
      exact ⟨t, rfl⟩
  rw [shellInt_of_digit (by decide), shellNat, base, if_pos hhead]
  split_ifs with hdigits
  · rw [Option.map_some, wrap_eq (by omega) (by omega)]
  · rfl

end OsLab.Scripts
