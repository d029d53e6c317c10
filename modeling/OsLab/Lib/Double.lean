import Mathlib.Data.Rat.Floor
import Mathlib.Data.Int.Log
import Mathlib.Algebra.Order.Floor.Semiring
import Mathlib.Tactic

/-!
# Binary64 rounding of non-negative quotients

`rnd q` is the binary64 number nearest to `q` (ties to even), for `q` below the overflow
threshold and not subnormal; `ceilDiv x y` is what C computes for
`ceil((double)x / (double)y)` on unsigned integers.

* `le_rnd_nat`, `rnd_nat_le`: rounding never crosses an integer up to `2^53`.
* `ceilDiv_eq_div`: below `2^53` the double ceiling is the exact one.
* `le_ceilDiv`: from `2^53` on it is at least as large as at `2^53`.
-/

namespace OsLab.Lib

/-- The integer nearest to `x`, ties to even. -/
def halfEven (x : ℚ) : ℤ :=
  if x - ⌊x⌋ < 1 / 2 then ⌊x⌋
  else if 1 / 2 < x - ⌊x⌋ then ⌊x⌋ + 1
  else if ⌊x⌋ % 2 = 0 then ⌊x⌋ else ⌊x⌋ + 1

/-- The unit in the last place of a 53-bit significand at `q`. -/
def ulp (q : ℚ) : ℚ := 2 ^ (Int.log 2 q - 52)

/-- Rounding to the nearest binary64 number. -/
def rnd (q : ℚ) : ℚ := if q ≤ 0 then 0 else halfEven (q / ulp q) * ulp q

/-- `ceil((double)x / (double)y)`. -/
def ceilDiv (x y : ℕ) : ℕ := ⌈rnd (rnd x / rnd y)⌉₊

theorem le_halfEven {k : ℤ} {x : ℚ} (h : (k : ℚ) ≤ x) : k ≤ halfEven x := by
  have hk : k ≤ ⌊x⌋ := Int.le_floor.2 h
  unfold halfEven
  split_ifs <;> omega

theorem halfEven_le {k : ℤ} {x : ℚ} (h : x ≤ (k : ℚ)) : halfEven x ≤ k := by
  have hf := Int.floor_le x
  have hk : ⌊x⌋ ≤ k := by exact_mod_cast hf.trans h
  rcases Int.lt_or_eq_of_le hk with hlt | heq
  · unfold halfEven; split_ifs <;> omega
  · -- then `x` is the integer itself, and is not rounded up
    have hx : x - ⌊x⌋ ≤ 0 := by rw [heq]; linarith
    unfold halfEven
    rw [if_pos (by linarith)]; exact hk

theorem sub_half_le_halfEven (x : ℚ) : x - 1 / 2 ≤ halfEven x := by
  have h := Int.lt_floor_add_one x
  unfold halfEven
  split_ifs <;> push_cast <;> linarith

theorem ulp_pos (q : ℚ) : 0 < ulp q := zpow_pos (by norm_num) _

/-- Positive numbers lie between consecutive powers of two, `2^52` and `2^53` ulps. -/
theorem ulp_bounds {q : ℚ} (hq : 0 < q) : 2 ^ 52 * ulp q ≤ q ∧ q < 2 ^ 53 * ulp q := by
  have h1 := Int.zpow_log_le_self (b := 2) (by norm_num) hq
  have h2 := Int.lt_zpow_succ_log_self (b := 2) (by norm_num) q
  have e1 : (2 : ℚ) ^ 52 * ulp q = 2 ^ Int.log 2 q := by
    unfold ulp
    rw [← zpow_natCast, ← zpow_add₀ (by norm_num)]; congr 1; push_cast; ring
  have e2 : (2 : ℚ) ^ 53 * ulp q = 2 ^ (Int.log 2 q + 1) := by
    unfold ulp
    rw [← zpow_natCast, ← zpow_add₀ (by norm_num)]; congr 1; push_cast; ring
  rw [e1, e2]
  exact ⟨by exact_mod_cast h1, by exact_mod_cast h2⟩

/-- Below `2^53` an ulp divides every integer. -/
theorem nat_eq_mul_ulp {q : ℚ} (hq : 0 < q) (hlt : q < 2 ^ 53) (k : ℕ) :
    ∃ m : ℤ, (k : ℚ) = m * ulp q := by
  have hlog : Int.log 2 q < 53 := by
    have h1 := Int.zpow_log_le_self (b := 2) (by norm_num) hq
    have h2 : ((2 : ℕ) : ℚ) ^ Int.log 2 q < (2 : ℚ) ^ (53 : ℤ) := lt_of_le_of_lt h1 (by exact_mod_cast hlt)
    exact (zpow_lt_zpow_iff_right₀ (by norm_num : (1 : ℚ) < 2)).1 (by exact_mod_cast h2)
  obtain ⟨n, hn⟩ := Int.eq_ofNat_of_zero_le (show 0 ≤ 52 - Int.log 2 q by omega)
  refine ⟨k * 2 ^ n, ?_⟩
  have hu : (2 : ℚ) ^ n * ulp q = 1 := by
    unfold ulp
    rw [← zpow_natCast, ← zpow_add₀ (by norm_num),
      show ((n : ℕ) : ℤ) + (Int.log 2 q - 52) = 0 by omega, zpow_zero]
  push_cast
  rw [mul_assoc, hu, mul_one]

theorem rnd_of_pos {q : ℚ} (hq : 0 < q) : rnd q = halfEven (q / ulp q) * ulp q :=
  if_neg (not_le.2 hq)

/-- **Rounding never goes below an integer** up to `2^53`. -/
theorem le_rnd_nat {k : ℕ} (hk : k ≤ 2 ^ 53) {q : ℚ} (h : (k : ℚ) ≤ q) : (k : ℚ) ≤ rnd q := by
  rcases Nat.eq_zero_or_pos k with rfl | hk0
  · -- what is not negative is not rounded to a negative number
    unfold rnd
    split_ifs with h0
    · simp
    · push Not at h0
      have : (0 : ℤ) ≤ halfEven (q / ulp q) :=
        le_halfEven (by have := ulp_pos q; push_cast; positivity)
      have := ulp_pos q
      have h0' : (0 : ℚ) ≤ halfEven (q / ulp q) := by exact_mod_cast ‹(0 : ℤ) ≤ _›
      push_cast; positivity
  have hq : 0 < q := lt_of_lt_of_le (by exact_mod_cast hk0) h
  have hu := ulp_pos q
  rw [rnd_of_pos hq]
  rcases lt_or_ge q (2 ^ 53) with hlt | hge
  · -- `k` is a number of ulps
    obtain ⟨m, hm⟩ := nat_eq_mul_ulp hq hlt k
    have : m ≤ halfEven (q / ulp q) := le_halfEven (by rw [le_div_iff₀ hu, ← hm]; exact h)
    rw [hm]
    exact mul_le_mul_of_nonneg_right (by exact_mod_cast this) hu.le
  · -- `q` is past `2^53`, and its binade starts at or after it
    have hb := ulp_bounds hq
    have h52 : ((2 ^ 52 : ℤ) : ℚ) ≤ q / ulp q := by rw [le_div_iff₀ hu]; push_cast; exact hb.1
    have h1 := le_halfEven h52
    have hu1 : (2 : ℚ) ≤ ulp q := by
      have hlog : (53 : ℤ) ≤ Int.log 2 q := by
        have := (Int.zpow_le_iff_le_log (b := 2) (R := ℚ) (x := 53) (by norm_num) hq).1
        exact this (by exact_mod_cast hge)
      unfold ulp
      calc (2 : ℚ) = 2 ^ (1 : ℤ) := by norm_num
        _ ≤ 2 ^ (Int.log 2 q - 52) := zpow_le_zpow_right₀ (by norm_num) (by omega)
    calc (k : ℚ) ≤ 2 ^ 52 * 2 := by norm_num; exact_mod_cast hk
      _ ≤ halfEven (q / ulp q) * ulp q := by
        apply mul_le_mul (by exact_mod_cast h1) hu1 (by norm_num)
        have : (0 : ℤ) ≤ halfEven (q / ulp q) := le_trans (by norm_num) h1
        exact_mod_cast this

/-- **Rounding never goes above an integer** up to `2^53`. -/
theorem rnd_nat_le {k : ℕ} (hk : k ≤ 2 ^ 53) {q : ℚ} (h : q ≤ (k : ℚ)) : rnd q ≤ (k : ℚ) := by
  rcases le_or_gt q 0 with h0 | hq
  · unfold rnd; rw [if_pos h0]; positivity
  have hu := ulp_pos q
  rw [rnd_of_pos hq]
  rcases lt_or_ge q (2 ^ 53) with hlt | hge
  · obtain ⟨m, hm⟩ := nat_eq_mul_ulp hq hlt k
    have : halfEven (q / ulp q) ≤ m := halfEven_le (by rw [div_le_iff₀ hu, ← hm]; exact h)
    rw [hm]
    exact mul_le_mul_of_nonneg_right (by exact_mod_cast this) hu.le
  · -- only `q = k = 2 ^ 53` is left, and its ulp is 2
    have hkq : q = 2 ^ 53 := by
      have : (k : ℚ) ≤ 2 ^ 53 := by exact_mod_cast hk
      linarith
    have hkk : (k : ℚ) = 2 ^ 53 := by
      have : (k : ℚ) ≤ 2 ^ 53 := by exact_mod_cast hk
      linarith
    have hul : ulp q = 2 := by
      unfold ulp
      have : Int.log 2 q = 53 := by
        rw [hkq]; exact_mod_cast Int.log_zpow (R := ℚ) (b := 2) (by norm_num) 53
      rw [this]; norm_num
    rw [hul, hkq, hkk]
    have : halfEven ((2 : ℚ) ^ 53 / 2) ≤ 2 ^ 52 := halfEven_le (by norm_num)
    have h' : (halfEven ((2 : ℚ) ^ 53 / 2) : ℚ) ≤ 2 ^ 52 := by exact_mod_cast this
    linarith

/-- Integers up to `2^53` are binary64 numbers. -/
theorem rnd_nat {k : ℕ} (hk : k ≤ 2 ^ 53) : rnd k = k :=
  le_antisymm (rnd_nat_le hk le_rfl) (le_rnd_nat hk le_rfl)

/-- Rounding is at most half an ulp off. -/
theorem sub_le_rnd {q : ℚ} (hq : 0 < q) : q - ulp q / 2 ≤ rnd q := by
  have hu := ulp_pos q
  rw [rnd_of_pos hq]
  have h := mul_le_mul_of_nonneg_right (sub_half_le_halfEven (q / ulp q)) hu.le
  rw [sub_mul, div_mul_cancel₀ _ hu.ne'] at h
  linarith

/-- **The double ceiling is exact** for numerators below `2^53`. -/
theorem ceilDiv_eq {x y : ℕ} (hx : x < 2 ^ 53) (hy0 : 0 < y) (hy : y ≤ 2 ^ 53) :
    ceilDiv x y = ⌈(x : ℚ) / y⌉₊ := by
  have hy0' : (0 : ℚ) < y := by exact_mod_cast hy0
  unfold ceilDiv
  rw [rnd_nat hx.le, rnd_nat hy]
  rcases Nat.eq_zero_or_pos x with rfl | hx0
  · norm_num [rnd]
  set q : ℚ := (x : ℚ) / y with hqd
  have hq : 0 < q := div_pos (by exact_mod_cast hx0) hy0'
  have hcx : ⌈q⌉₊ ≤ x := Nat.ceil_le.2 (div_le_self (by positivity) (by exact_mod_cast hy0))
  apply le_antisymm
  · apply Nat.ceil_le.2
    exact rnd_nat_le (by omega) (Nat.le_ceil q)
  -- the integer below `q` is at least `1 / y` away, and half an ulp is less
  obtain ⟨c, hc⟩ : ∃ c, ⌈q⌉₊ = c + 1 := ⟨⌈q⌉₊ - 1, by have := Nat.ceil_pos.2 hq; omega⟩
  have hcq : (c : ℚ) < q := Nat.lt_ceil.1 (by omega)
  have hgap : (c : ℚ) + 1 / y ≤ q := by
    rw [hqd, lt_div_iff₀ hy0'] at hcq
    have : c * y + 1 ≤ x := by exact_mod_cast hcq
    rw [hqd, le_div_iff₀ hy0', add_mul, one_div_mul_cancel hy0'.ne']
    exact_mod_cast this
  have hulp : ulp q / 2 < 1 / y := by
    have hb := (ulp_bounds hq).1
    have hx' : (x : ℚ) < 2 ^ 53 := by exact_mod_cast hx
    have hq' : q * y = x := div_mul_cancel₀ _ hy0'.ne'
    rw [lt_div_iff₀ hy0']
    have := mul_le_mul_of_nonneg_right hb hy0'.le
    linarith
  have hlt : (c : ℚ) < rnd q := by have := sub_le_rnd hq; linarith
  rw [hc]
  exact Nat.lt_ceil.2 hlt

/-- The double ceiling in integer arithmetic. -/
theorem ceilDiv_eq_div {x y : ℕ} (hx : x < 2 ^ 53) (hy0 : 0 < y) (hy : y ≤ 2 ^ 53) :
    ceilDiv x y = (x + (y - 1)) / y := by
  rw [ceilDiv_eq hx hy0 hy]
  have hy0' : (0 : ℚ) < y := by exact_mod_cast hy0
  apply le_antisymm
  · apply Nat.ceil_le.2
    rw [div_le_iff₀ hy0']
    have h1 := Nat.div_add_mod (x + (y - 1)) y
    have h2 := Nat.mod_lt (x + (y - 1)) hy0
    have : x ≤ (x + (y - 1)) / y * y := by rw [Nat.mul_comm]; omega
    exact_mod_cast this
  · have h := Nat.le_ceil ((x : ℚ) / y)
    rw [div_le_iff₀ hy0'] at h
    have h' : x ≤ ⌈(x : ℚ) / y⌉₊ * y := by exact_mod_cast h
    rw [← Nat.lt_succ_iff, Nat.div_lt_iff_lt_mul hy0, Nat.succ_mul]
    omega

/-- **A large numerator has a large double ceiling.** -/
theorem le_ceilDiv {x y c : ℕ} (hx : 2 ^ 53 ≤ x) (hy0 : 0 < y) (hc : c * y ≤ 2 ^ 53) :
    c ≤ ceilDiv x y := by
  have hyc : y ≤ 2 ^ 53 ∨ c = 0 := by
    rcases Nat.eq_zero_or_pos c with h | h
    · exact Or.inr h
    · exact Or.inl (le_trans (Nat.le_mul_of_pos_left y h) hc)
  rcases hyc with hy | rfl
  · have hy0' : (0 : ℚ) < y := by exact_mod_cast hy0
    have hc53 : c ≤ 2 ^ 53 := le_trans (Nat.le_mul_of_pos_right c hy0) hc
    have h1 : ((2 ^ 53 : ℕ) : ℚ) ≤ rnd x := le_rnd_nat le_rfl (by exact_mod_cast hx)
    have h2 : (c : ℚ) ≤ rnd x / rnd y := by
      rw [rnd_nat hy, le_div_iff₀ hy0']
      exact le_trans (by exact_mod_cast hc) h1
    have h3 := (le_rnd_nat hc53 h2).trans (Nat.le_ceil _)
    exact_mod_cast h3
  · exact Nat.zero_le _

end OsLab.Lib
