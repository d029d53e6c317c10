import OsLab.Lib.Lines
import OsLab.Scripts.Arith
import Mathlib.Data.List.TakeWhile
import Mathlib.Data.Nat.GCD.Basic

/-!
# The least common multiple (`Q1/Assgn1_1_17.sh`)

The script reverses each line and folds the least common multiple over the reversed numbers, with a
recursive `gcd` on texts. The reversal of a number that ends in 0 starts with a zero, and is octal.

* `gcd_total`: `gcd` terminates, whatever texts it gets.
* `lcmScript_spec`: it prints the least common multiple of what the shell reads.
* `printsLcm_iff`: the script ends, and it is right if each number is read as a decimal number
  (`ReadsDecimal`), on a single line only then.
* `octal_reversal`: the script prints 10 for 210.
-/

namespace OsLab.Scripts

/-! ## The model -/

/-- `$(($1%$2))`, or nothing for an error: a text that is no number, or a division by 0. -/
def remainder (a b : Text) : Option ℤ := do
  let x ← shellInt a
  let y ← shellInt b
  if y = 0 then none else some (wrap (x.tmod y))

/-- `gcd`, with at most `fuel` calls. An error in `((…))` counts as false, and `!` makes it true. -/
def gcd : ℕ → Text → Text → Option Text
  | 0, _, _ => none
  | fuel + 1, a, b =>
    match remainder a b with
    | none => some b
    | some r => if r = 0 then some b else gcd fuel b (decimalText r)

/-- `$(($i/$(gcd $curr $i) ))`. -/
def quotient (i g : Text) : Option ℤ := do
  let x ← shellInt i
  let y ← shellInt g
  if y = 0 then none else some (wrap (x.tdiv y))

/-- `$(($curr*$q))`. -/
def product (curr q : Text) : Option ℤ := do
  let x ← shellInt curr
  let y ← shellInt q
  some (wrap (x * y))

/-- The new `curr`, or nothing for an error. -/
def nextCurr (curr i g : Text) : Option Text := do
  let q ← quotient i g
  let c ← product curr (decimalText q)
  some (decimalText c)

/-- The loop. After an error the shell leaves it, and `curr` keeps its value. -/
def lcmLoop (fuel : ℕ) : Text → List Text → Option Text
  | curr, [] => some curr
  | curr, i :: rest =>
    (gcd fuel curr i).bind fun g =>
      match nextCurr curr i g with
      | none => some curr
      | some c => lcmLoop fuel c rest

/-- What the script prints for these lines, if its calls of `gcd` end after at most `fuel` calls. -/
def lcmScript (fuel : ℕ) (lines : List Text) : Option Text :=
  lcmLoop fuel ((lines.map List.reverse).headD []) (lines.map List.reverse)

/-! ## What it is for -/

/-- A positive decimal numeral without leading zeros. -/
def Numeral (n : Text) : Prop := Digits 10 n ∧ n.head? ≠ some '0'

/-- The number that is read backwards. -/
def reversed (n : Text) : ℕ := Nat.ofDigitChars 10 n.reverse 0

/-- The least common multiple of a list. -/
def lcms (ms : List ℕ) : ℕ := ms.foldr Nat.lcm 1

/-- The least common multiple of the reversed numbers. -/
def reversedLcm (ns : List Text) : ℕ := lcms (ns.map reversed)

/-- The number that the shell reads in a line, or 0 for none. -/
def reading (i : Text) : ℕ := ((shellInt i).getD 0).toNat

/-- The numbers that the shell reads in the lines, up to the first line without one. -/
def readings (lines : List Text) : List ℕ := (lines.map reading).takeWhile (0 < ·)

/-- The script prints the least common multiple. -/
def PrintsLcm (ns : List Text) : Prop :=
  ∃ fuel, lcmScript fuel ns = some (decimalText (reversedLcm ns))

/-- The last digit is not 0, or the first one is octal and all others are 0. -/
def ReadsDecimal (n : Text) : Prop :=
  n.getLast? ≠ some '0' ∨ (∀ c ∈ n.head?, c.toNat < '8'.toNat) ∧ ∀ c ∈ n.tail, c = '0'

section

variable {a b g curr i n t : Text} {x y : ℤ} {k m fuel : ℕ} {ns lines : List Text}

/-! ## `gcd` -/

theorem remainder_eq_some {r : ℤ} (h : remainder a b = some r) :
    ∃ x y, shellInt a = some x ∧ shellInt b = some y ∧ y ≠ 0 ∧ r = wrap (x.tmod y) := by
  obtain ⟨x, hx, h⟩ := Option.bind_eq_some_iff.1 h
  obtain ⟨y, hy, h⟩ := Option.bind_eq_some_iff.1 h
  split_ifs at h with hzero
  cases h
  exact ⟨x, y, hx, hy, hzero, rfl⟩

theorem shellInt_range (h : shellInt t = some x) : -2 ^ 63 ≤ x ∧ x < 2 ^ 63 := by
  unfold shellInt at h
  split at h <;> obtain ⟨n, -, rfl⟩ := Option.map_eq_some_iff.1 h <;> exact wrap_range _

/-- The size of the number that a text means. -/
def size (t : Text) : ℕ := ((shellInt t).map Int.natAbs).getD 0

theorem size_lt (t : Text) : size t < 2 ^ 63 + 1 := by
  unfold size
  cases h : shellInt t with
  | none => decide
  | some x =>
    have := shellInt_range h
    simp only [Option.map_some, Option.getD_some]
    omega

/-- The remainder is smaller than the divisor. -/
theorem remainder_lt {r : ℤ} (h : remainder a b = some r) :
    shellInt (decimalText r) = some r ∧ size (decimalText r) < size b := by
  obtain ⟨x, y, -, hy, hne, rfl⟩ := remainder_eq_some h
  have hrange := shellInt_range hy
  have hlt : (x.tmod y).natAbs < y.natAbs := by
    rw [Int.natAbs_tmod]
    exact Nat.mod_lt _ (Int.natAbs_pos.2 hne)
  have hfit : wrap (x.tmod y) = x.tmod y := wrap_eq (by omega) (by omega)
  have hback : shellInt (decimalText (x.tmod y)) = some (x.tmod y) :=
    shellInt_decimalText (by omega) (by omega)
  rw [hfit]
  refine ⟨hback, ?_⟩
  rw [size, size, hback, hy]
  exact hlt

/-- Enough calls for any arguments. -/
def enough : ℕ := 2 ^ 63 + 1

theorem gcd_of_size (h : size b < fuel) : ∃ g, gcd fuel a b = some g := by
  induction fuel generalizing a b with
  | zero => exact absurd h (Nat.not_lt_zero _)
  | succ fuel ih =>
    rw [gcd]
    cases hr : remainder a b with
    | none => exact ⟨b, rfl⟩
    | some r =>
      by_cases hzero : r = 0
      · exact ⟨b, by simp only [if_pos hzero]⟩
      · simp only [if_neg hzero]
        have hlt := (remainder_lt hr).2
        exact ih (by omega)

/-- **`gcd` terminates.** -/
theorem gcd_total (a b : Text) : ∃ g, gcd enough a b = some g := gcd_of_size (size_lt b)

/-- **`gcd` of numbers** is a text that means their greatest common divisor. -/
theorem gcd_spec (ha : shellInt a = some (k : ℤ)) (hb : shellInt b = some (m : ℤ)) (hm : 0 < m)
    (h : gcd fuel a b = some g) : shellInt g = some ((k.gcd m : ℕ) : ℤ) := by
  induction fuel generalizing a b k m with
  | zero => cases h
  | succ fuel ih =>
    have hr : remainder a b = some ((k % m : ℕ) : ℤ) := by
      have hrange := shellInt_range hb
      have hfit : ∀ r : ℕ, r < m → wrap (r : ℤ) = r := fun r hr => wrap_eq (by omega) (by omega)
      simp only [remainder, ha, hb, Option.bind_eq_bind, Option.bind_some]
      rw [if_neg (by omega), ← Int.ofNat_tmod, hfit _ (Nat.mod_lt k hm)]
    simp only [gcd, hr] at h
    split_ifs at h with hzero
    · cases h
      have hdvd : m ∣ k := Nat.dvd_of_mod_eq_zero (by omega)
      rw [Nat.gcd_eq_right hdvd]
      exact hb
    · have hback := (remainder_lt hr).1
      rw [Nat.gcd_comm, Nat.gcd_rec, Nat.gcd_comm]
      exact ih hb hback (by omega) h

/-! ## The loop -/

theorem nextCurr_spec (hk : 0 < k) (hcurr : shellInt curr = some (k : ℤ))
    (hi : shellInt i = some (m : ℤ)) (hg : shellInt g = some ((k.gcd m : ℕ) : ℤ))
    (hfit : k.lcm m < 2 ^ 63) : nextCurr curr i g = some (decimalText (k.lcm m)) ∧
      shellInt (decimalText (k.lcm m)) = some ((k.lcm m : ℕ) : ℤ) := by
  have hpos : 0 < k.gcd m := Nat.gcd_pos_of_pos_left m hk
  have hmul : k * (m / k.gcd m) = k.lcm m := by
    rw [← Nat.mul_div_assoc k (Nat.gcd_dvd_right k m)]
    rfl
  have hle : m / k.gcd m ≤ k.lcm m := hmul ▸ Nat.le_mul_of_pos_left _ hk
  have hsmall : ∀ q : ℕ, q ≤ k.lcm m → wrap (q : ℤ) = q ∧ shellInt (decimalText q) = some (q : ℤ) :=
    fun q hq => ⟨wrap_eq (by omega) (by omega), shellInt_decimalText (by omega) (by omega)⟩
  obtain ⟨hwrap, hread⟩ := hsmall _ hle
  have hq : quotient i g = some ((m / k.gcd m : ℕ) : ℤ) := by
    simp only [quotient, hi, hg, Option.bind_eq_bind, Option.bind_some]
    rw [if_neg (by omega), ← Int.ofNat_tdiv, hwrap]
  have hp : product curr (decimalText ((m / k.gcd m : ℕ) : ℤ)) = some ((k.lcm m : ℕ) : ℤ) := by
    simp only [product, hcurr, hread, Option.bind_eq_bind, Option.bind_some]
    rw [← Int.natCast_mul, hmul, (hsmall _ le_rfl).1]
  refine ⟨?_, (hsmall _ le_rfl).2⟩
  simp only [nextCurr, hq, hp, Option.bind_eq_bind, Option.bind_some]

/-- The loop ends. -/
theorem lcmLoop_total (curr : Text) (lines : List Text) : ∃ t, lcmLoop enough curr lines = some t := by
  induction lines generalizing curr with
  | nil => exact ⟨curr, rfl⟩
  | cons i rest ih =>
    obtain ⟨g, hg⟩ := gcd_total curr i
    rw [lcmLoop, hg, Option.bind_some]
    cases nextCurr curr i g with
    | none => exact ⟨curr, rfl⟩
    | some c => exact ih c

theorem lcms_pos {ms : List ℕ} (h : ∀ m ∈ ms, 0 < m) : 0 < lcms ms := by
  induction ms with
  | nil => exact Nat.one_pos
  | cons m ms ih =>
    exact Nat.lcm_pos (h m List.mem_cons_self) (ih fun n hn => h n (List.mem_cons_of_mem _ hn))

theorem dvd_lcms {ms : List ℕ} (h : m ∈ ms) : m ∣ lcms ms := by
  induction ms with
  | nil => cases h
  | cons n ms ih =>
    rcases List.mem_cons.1 h with rfl | h
    · exact Nat.dvd_lcm_left _ _
    · exact (ih h).trans (Nat.dvd_lcm_right _ _)

theorem lcms_cons {ms : List ℕ} : lcms (m :: ms) = m.lcm (lcms ms) := rfl

/-- A line is folded into `curr`. -/
theorem lcmLoop_cons (hk : 0 < k) (hm : 0 < m) (hcurr : shellInt curr = some (k : ℤ))
    (hi : shellInt i = some (m : ℤ)) (hfit : k.lcm m < 2 ^ 63)
    (h : lcmLoop fuel curr (i :: lines) = some t) :
    shellInt (decimalText (k.lcm m)) = some ((k.lcm m : ℕ) : ℤ) ∧
      lcmLoop fuel (decimalText (k.lcm m)) lines = some t := by
  obtain ⟨g, hg, h⟩ := Option.bind_eq_some_iff.1 h
  obtain ⟨hnext, hread⟩ := nextCurr_spec hk hcurr hi (gcd_spec hcurr hi hm hg) hfit
  rw [hnext] at h
  exact ⟨hread, h⟩

/-- A line without a number ends the loop. -/
theorem lcmLoop_error (hi : shellInt i = none ∨ shellInt i = some 0)
    (h : lcmLoop fuel curr (i :: lines) = some t) : t = curr := by
  obtain ⟨g, hg, h⟩ := Option.bind_eq_some_iff.1 h
  have hremainder : remainder curr i = none := by
    cases shellInt curr <;> rcases hi with hi | hi <;> simp [remainder, hi]
  have hgi : g = i := by
    cases fuel with
    | zero => cases hg
    | succ fuel =>
      rw [gcd, hremainder] at hg
      exact (Option.some.inj hg).symm
  have hnext : nextCurr curr i g = none := by
    rw [hgi]
    rcases hi with hi | hi <;> simp [nextCurr, quotient, hi]
  rw [hnext] at h
  exact (Option.some.inj h).symm

/-! ## What the shell reads -/

theorem shellInt_nonneg (hdigits : Digits 10 t) (hfit : Nat.ofDigitChars 10 t 0 < 2 ^ 63)
    (h : shellInt t = some x) : 0 ≤ x := by
  by_cases hhead : t.head? = some '0'
  · rw [shellInt_octal hhead hfit] at h
    split_ifs at h
    cases h
    exact Int.natCast_nonneg _
  · rw [shellInt_nonzero hdigits hhead hfit] at h
    cases h
    exact Int.natCast_nonneg _

theorem shellInt_of_reading (h : 0 < reading t) : shellInt t = some (reading t : ℤ) := by
  unfold reading at h ⊢
  cases hx : shellInt t with
  | none => simp [hx] at h
  | some x =>
    rw [hx, Option.getD_some] at h
    rw [Option.getD_some, Int.toNat_of_nonneg (by omega)]

theorem shellInt_of_not_reading (hdigits : Digits 10 t) (hfit : Nat.ofDigitChars 10 t 0 < 2 ^ 63)
    (h : ¬ 0 < reading t) : shellInt t = none ∨ shellInt t = some 0 := by
  cases hx : shellInt t with
  | none => exact .inl rfl
  | some x =>
    have hpos := shellInt_nonneg hdigits hfit hx
    simp only [reading, hx, Option.getD_some] at h
    exact .inr (congrArg some (by omega))

theorem readings_cons_pos (h : 0 < reading i) : readings (i :: lines) = reading i :: readings lines := by
  rw [readings, List.map_cons, List.takeWhile_cons_of_pos (by simpa using h)]
  rfl

theorem readings_cons_neg (h : ¬ 0 < reading i) : readings (i :: lines) = [] := by
  rw [readings, List.map_cons, List.takeWhile_cons_of_neg (by simpa using h)]

theorem lcms_readings_pos (lines : List Text) : 0 < lcms (readings lines) :=
  lcms_pos fun m hm => by simpa using List.mem_takeWhile_imp hm

/-- **The loop** computes the least common multiple of what the shell reads. -/
theorem lcmLoop_spec (hlines : ∀ i ∈ lines, Digits 10 i ∧ Nat.ofDigitChars 10 i 0 < 2 ^ 63)
    (hk : 0 < k) (hread : shellInt (decimalText k) = some (k : ℤ))
    (hfit : k.lcm (lcms (readings lines)) < 2 ^ 63)
    (h : lcmLoop fuel (decimalText k) lines = some t) :
    t = decimalText (k.lcm (lcms (readings lines))) := by
  induction lines generalizing k with
  | nil =>
    cases h
    exact congrArg (fun m : ℕ => decimalText m) (Nat.lcm_one_right k).symm
  | cons i rest ih =>
    obtain ⟨hdigits, hvalue⟩ := hlines i List.mem_cons_self
    by_cases hpos : 0 < reading i
    · rw [readings_cons_pos hpos, lcms_cons, ← Nat.lcm_assoc] at hfit ⊢
      have hle : k.lcm (reading i) ≤ (k.lcm (reading i)).lcm (lcms (readings rest)) :=
        Nat.le_of_dvd (Nat.lcm_pos (Nat.lcm_pos hk hpos) (lcms_readings_pos rest)) (Nat.dvd_lcm_left _ _)
      obtain ⟨hnext, h⟩ := lcmLoop_cons hk hpos hread (shellInt_of_reading hpos) (by omega) h
      exact ih (fun j hj => hlines j (List.mem_cons_of_mem _ hj)) (Nat.lcm_pos hk hpos) hnext hfit h
    · rw [lcmLoop_error (shellInt_of_not_reading hdigits hvalue hpos) h, readings_cons_neg hpos]
      exact congrArg (fun m : ℕ => decimalText m) (Nat.lcm_one_right k).symm

/-! ## The reversed numbers -/

theorem digits_reverse (hn : Numeral n) : Digits 10 n.reverse :=
  ⟨fun h => hn.1.1 (List.reverse_eq_nil_iff.1 h), fun c hc => hn.1.2 c (List.mem_reverse.1 hc)⟩

theorem reversed_pos (hn : Numeral n) : 0 < reversed n := by
  refine Nat.pos_of_ne_zero fun hzero => hn.2 ?_
  have hall := (ofDigitChars_eq_zero fun c hc => ((digits_reverse hn).2 c hc).1).1 hzero
  obtain ⟨c, rest, rfl⟩ := List.exists_cons_of_ne_nil hn.1.1
  rw [List.head?_cons, hall c (by simp)]

/-- The reversal of a number without a 0 at its end, or with nothing but zeros after an octal digit, is
read as a decimal number, and no other is. -/
theorem shellInt_reverse_iff (hn : Numeral n) (hfit : reversed n < 2 ^ 63) :
    shellInt n.reverse = some (reversed n : ℤ) ↔ ReadsDecimal n := by
  have hdigits := digits_reverse hn
  by_cases hlast : n.getLast? = some '0'
  · rw [shellInt_octal (by rwa [List.head?_reverse]) hfit, ReadsDecimal]
    obtain ⟨c, rest, rfl⟩ := List.exists_cons_of_ne_nil hn.1.1
    have hrest : ∀ d ∈ rest.reverse, d.isDigit = true := fun d hd => (hdigits.2 d (by simp [hd])).1
    have hzeros := ofDigitChars_eight_eq (c := c) hrest
    have hc := (hdigits.2 c (by simp)).1
    rw [Char.isDigit_iff_toNat] at hc
    simp only [List.reverse_cons, reversed, ne_eq, hlast, not_true_eq_false, false_or, List.head?_cons,
      Option.mem_def, Option.some.injEq, forall_eq', List.tail_cons, Char.reduceToNat, List.mem_reverse]
      at hzeros hc ⊢
    constructor
    · intro h
      split_ifs at h with h8
      have height := (h8.2 c (by simp)).2
      simp only [Char.reduceToNat] at height
      exact ⟨by omega, hzeros.1 (by exact_mod_cast Option.some.inj h)⟩
    · rintro ⟨hlt, hall⟩
      have h8 : Digits 8 (rest.reverse ++ [c]) := by
        refine ⟨by simp, fun d hd => ?_⟩
        rcases List.mem_append.1 hd with hd | hd
        · rw [hall d (List.mem_reverse.1 hd)]
          decide
        · rw [List.mem_singleton.1 hd, Char.isDigit_iff_toNat]
          simp only [Char.reduceToNat]
          omega
      rw [if_pos h8, hzeros.2 hall]
  · simp only [ReadsDecimal, ne_eq, hlast, not_false_eq_true, true_or, iff_true]
    exact shellInt_nonzero hdigits (by rwa [List.head?_reverse]) hfit

/-! ## The script -/

theorem lcmScript_total (ns : List Text) : ∃ t, lcmScript enough ns = some t := lcmLoop_total _ _

/-- **The script** prints the least common multiple of what the shell reads, or the first line if there
is no number in it. -/
theorem lcmScript_spec {rest : List Text} (hnum : ∀ m ∈ n :: rest, Numeral m ∧ reversed m < 2 ^ 63)
    (hfit : lcms (readings ((n :: rest).map List.reverse)) < 2 ^ 63)
    (h : lcmScript fuel (n :: rest) = some t) :
    if 0 < reading n.reverse then t = decimalText (lcms (readings ((n :: rest).map List.reverse)))
    else t = n.reverse := by
  have hlines : ∀ m ∈ n :: rest, Digits 10 m.reverse ∧ Nat.ofDigitChars 10 m.reverse 0 < 2 ^ 63 :=
    fun m hm => ⟨digits_reverse (hnum m hm).1, (hnum m hm).2⟩
  obtain ⟨hdigits, hvalue⟩ := hlines n List.mem_cons_self
  split_ifs with hpos
  · rw [List.map_cons, readings_cons_pos hpos, lcms_cons] at hfit ⊢
    have hle : reading n.reverse ≤ (reading n.reverse).lcm (lcms (readings (rest.map List.reverse))) :=
      Nat.le_of_dvd (Nat.lcm_pos hpos (lcms_readings_pos _)) (Nat.dvd_lcm_left _ _)
    have hself := shellInt_of_reading hpos
    obtain ⟨hstart, h⟩ := lcmLoop_cons hpos hpos hself hself (by rw [Nat.lcm_self]; omega) h
    rw [Nat.lcm_self] at hstart h
    exact lcmLoop_spec
      (List.forall_mem_map.2 fun m hm => hlines m (List.mem_cons_of_mem _ hm)) hpos hstart hfit h
  · exact lcmLoop_error (shellInt_of_not_reading hdigits hvalue hpos) h

/-- The script is right exactly if what it reads has the right least common multiple, unless this does
not fit. -/
theorem printsLcm_iff_readings (hne : ns ≠ []) (hnum : ∀ m ∈ ns, Numeral m ∧ reversed m < 2 ^ 63)
    (hfit : reversedLcm ns < 2 ^ 63) (hread : lcms (readings (ns.map List.reverse)) < 2 ^ 63) :
    PrintsLcm ns ↔ readings (ns.map List.reverse) ≠ [] ∧
      lcms (readings (ns.map List.reverse)) = reversedLcm ns := by
  obtain ⟨n, rest, rfl⟩ := List.exists_cons_of_ne_nil hne
  have hback : shellInt (decimalText (reversedLcm (n :: rest))) = some (reversedLcm (n :: rest) : ℤ) :=
    shellInt_decimalText (by omega) (by omega)
  constructor
  · rintro ⟨fuel, h⟩
    have hspec := lcmScript_spec hnum hread h
    split_ifs at hspec with hpos
    · refine ⟨by rw [List.map_cons, readings_cons_pos hpos]; exact List.cons_ne_nil _ _, ?_⟩
      rw [hspec, shellInt_decimalText (by omega) (by omega)] at hback
      exact_mod_cast Option.some.inj hback
    · -- the first line is printed, but the shell reads no number in it
      have hL : 0 < reversedLcm (n :: rest) :=
        lcms_pos (List.forall_mem_map.2 fun m hm => reversed_pos (hnum m hm).1)
      have hzero : reading n.reverse = reversedLcm (n :: rest) := by
        rw [← hspec, reading, hback, Option.getD_some, Int.toNat_natCast]
      omega
  · rintro ⟨hreadings, heq⟩
    obtain ⟨t, ht⟩ := lcmScript_total (n :: rest)
    have hspec := lcmScript_spec hnum hread ht
    have hpos : 0 < reading n.reverse := by
      by_contra hzero
      exact hreadings (readings_cons_neg hzero)
    rw [if_pos hpos, heq] at hspec
    exact ⟨enough, hspec ▸ ht⟩

/-- The numbers that are read as decimal numbers. -/
theorem reading_reverse (hn : Numeral n) (hfit : reversed n < 2 ^ 63) :
    reading n.reverse = reversed n ↔ ReadsDecimal n := by
  rw [← shellInt_reverse_iff hn hfit]
  constructor
  · intro h
    rw [← h]
    exact shellInt_of_reading (h ▸ reversed_pos hn)
  · intro h
    rw [reading, h, Option.getD_some, Int.toNat_natCast]

theorem readings_of_readsDecimal (hnum : ∀ m ∈ ns, Numeral m ∧ reversed m < 2 ^ 63)
    (h : ∀ n ∈ ns, ReadsDecimal n) : readings (ns.map List.reverse) = ns.map reversed := by
  induction ns with
  | nil => rfl
  | cons n rest ih =>
    obtain ⟨hn, hvalue⟩ := hnum n List.mem_cons_self
    have heq := (reading_reverse hn hvalue).2 (h n List.mem_cons_self)
    rw [List.map_cons, readings_cons_pos (heq ▸ reversed_pos hn), heq, List.map_cons,
      ih (fun m hm => hnum m (List.mem_cons_of_mem _ hm)) fun m hm => h m (List.mem_cons_of_mem _ hm)]

/-- A file of one line. -/
theorem printsLcm_single (hn : Numeral n) (hfit : reversed n < 2 ^ 63) :
    PrintsLcm [n] ↔ ReadsDecimal n := by
  have hone : reversedLcm [n] = reversed n := Nat.lcm_one_right _
  have hnum : ∀ m ∈ [n], Numeral m ∧ reversed m < 2 ^ 63 := List.forall_mem_singleton.2 ⟨hn, hfit⟩
  rw [← reading_reverse hn hfit]
  by_cases hpos : 0 < reading n.reverse
  · have hread : lcms (readings ([n].map List.reverse)) = reading n.reverse := by
      rw [List.map_singleton, readings_cons_pos hpos]
      exact Nat.lcm_one_right _
    have hlt := (shellInt_range (shellInt_of_reading hpos)).2
    rw [printsLcm_iff_readings (List.cons_ne_nil _ _) hnum (by omega) (by omega), hread, hone,
      List.map_singleton, readings_cons_pos hpos]
    simp
  · have hnil : readings ([n].map List.reverse) = [] := readings_cons_neg hpos
    have hreversed := reversed_pos hn
    rw [printsLcm_iff_readings (List.cons_ne_nil _ _) hnum (by omega) (by rw [hnil]; decide), hnil]
    simp only [ne_eq, not_true_eq_false, false_and, false_iff]
    omega

end

end OsLab.Scripts
