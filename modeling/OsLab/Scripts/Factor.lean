import OsLab.Lib.Vec
import OsLab.Lib.While
import OsLab.Scripts.Arith
import Mathlib.Data.Nat.Factors
import Mathlib.Tactic.IntervalCases
import Mathlib.Tactic.NormNum.Prime

/-!
# The factoriser (`Q6/Assgn1_6_17.sh`)

A sieve puts the smallest prime factor of `i` into the cell `i - 2`, and each number is divided by the
cell of its smallest prime factor until 1 is left. Shell arithmetic has 64 bits, and a negative
subscript counts from the end of the array: for `i * i` from `2 ^ 63` on the inner loop starts at a
negative number, and does not come to the multiples of `i`.

* `factorises_of_lt`: the numbers are factorised up to limits below the first prime of this kind.
* `overflow_marks_prime`: a limit for which a prime gets another factor.
-/

namespace OsLab.Scripts

open Lib

/-! ## The model -/

/-- The element that a subscript means: a negative one counts from the end. -/
def subscript (a : Vec ℤ) (k : ℤ) : Option ℕ :=
  if 0 ≤ k then (if k < a.size then some k.toNat else none)
  else if 0 ≤ k + a.size then some (k + a.size).toNat else none

/-- `${a[k]}`, or nothing for a bad subscript. -/
def element (a : Vec ℤ) (k : ℤ) : Option ℤ := (subscript a k).map a.val

/-- `a[k]=x`. The script does not write past the end. -/
def assign (a : Vec ℤ) (k x : ℤ) : Option (Vec ℤ) := (subscript a k).bind fun n => a.set n x

/-- A loop variable and the array `spf`. -/
structure Sieve where
  i : ℤ
  spf : Vec ℤ

/-- The body of the first loop. -/
def clear (s : Sieve) : Option Sieve := do
  let spf ← assign s.spf (wrap (s.i - 2)) 0
  some ⟨wrap (s.i + 1), spf⟩

/-- The loop that fills `spf` with 0. -/
def clearLoop (fuel : ℕ) (limit : ℤ) (spf : Vec ℤ) : Option (Vec ℤ) :=
  (whileLoop (fun s : Sieve => s.i ≤ limit) clear fuel ⟨2, spf⟩).map Sieve.spf

/-- The body of the inner loop: `[ -eq 0 ]` without a number is an error, and not true. -/
def mark (i : ℤ) (s : Sieve) : Option Sieve :=
  (if element s.spf (wrap (s.i - 2)) = some 0 then assign s.spf (wrap (s.i - 2)) i
    else some s.spf).map fun spf => ⟨wrap (s.i + i), spf⟩

/-- The inner loop. -/
def markLoop (fuel : ℕ) (limit i : ℤ) (spf : Vec ℤ) : Option (Vec ℤ) :=
  (whileLoop (fun s : Sieve => s.i ≤ limit) (mark i) fuel ⟨wrap (i * i), spf⟩).map Sieve.spf

/-- The round of `i` in the outer loop. -/
def sieveNumber (fuel : ℕ) (limit i : ℤ) (spf : Vec ℤ) : Option (Vec ℤ) :=
  if element spf (wrap (i - 2)) = some 0 then
    (assign spf (wrap (i - 2)) i).bind (markLoop fuel limit i)
  else some spf

/-- The body of the outer loop. -/
def sieveStep (fuel : ℕ) (limit : ℤ) (s : Sieve) : Option Sieve :=
  (sieveNumber fuel limit s.i s.spf).map fun spf => ⟨wrap (s.i + 1), spf⟩

/-- The array `spf` after the loops, each with at most `fuel` rounds. -/
def sieve (fuel : ℕ) (limit : ℤ) : Option (Vec ℤ) := do
  let spf ← clearLoop fuel limit ⟨(limit - 1).toNat, fun k => k + 2⟩
  (whileLoop (fun s : Sieve => s.i ≤ limit) (sieveStep fuel limit) fuel ⟨2, spf⟩).map Sieve.spf

/-- A number that is being factorised, and what has been printed of its line. -/
structure Factoring where
  line : ℤ
  printed : List ℤ

/-- The body of the loop of a line. The division rounds towards 0. -/
def divide (spf : Vec ℤ) (s : Factoring) : Option Factoring := do
  let factor ← element spf (wrap (s.line - 2))
  if factor = 0 then none else some ⟨wrap (s.line.tdiv factor), s.printed ++ [factor]⟩

/-- The line of factors printed for a number. -/
def factorLine (spf : Vec ℤ) (fuel : ℕ) (n : ℤ) : Option (List ℤ) :=
  (whileLoop (fun s : Factoring => s.line ≠ 1) (divide spf) fuel ⟨n, []⟩).map Factoring.printed

/-- A line of the output: primes in non-decreasing order, whose product is `n`. -/
structure FactorsOf (n : ℤ) (printed : List ℤ) : Prop where
  primes : ∀ p ∈ printed, Nat.Prime p.toNat
  sorted : printed.Pairwise (· ≤ ·)
  product : printed.prod = n

/-- The cell of each number up to the limit is its smallest prime factor, and each number up to the
limit is factorised. -/
def Factorises (limit : ℤ) : Prop :=
  ∃ fuel spf, sieve fuel limit = some spf ∧
    (∀ n : ℕ, 2 ≤ n → n ≤ limit → element spf (n - 2) = some (n.minFac : ℤ)) ∧
    ∀ n, 1 ≤ n → n ≤ limit → ∃ printed, factorLine spf fuel n = some printed ∧ FactorsOf n printed

/-! ## Cells -/

/-- The cell of the number `n`. -/
def cell (a : Vec ℤ) (n : ℕ) : ℤ := a.val (n - 2)

/-- The array after a write to the cell of `n`. -/
def setNumber (a : Vec ℤ) (n : ℕ) (x : ℤ) : Vec ℤ :=
  { a with val := Function.update a.val (n - 2) x }

section

variable {a b : Vec ℤ} {L c i n fuel : ℕ} {x z : ℤ} {s t : Sieve}

/-- The array has a cell for each number from 2 up to `L`. -/
theorem subscript_number (ha : a.size = L - 1) (hn : 2 ≤ n) (hnL : n ≤ L) :
    subscript a ((n : ℤ) - 2) = some (n - 2) := by
  have htoNat : ((n : ℤ) - 2).toNat = n - 2 := by omega
  rw [subscript, if_pos (by omega), if_pos (by omega), htoNat]

theorem element_number (ha : a.size = L - 1) (hn : 2 ≤ n) (hnL : n ≤ L) :
    element a ((n : ℤ) - 2) = some (cell a n) := by
  rw [element, subscript_number ha hn hnL]
  rfl

theorem assign_number (ha : a.size = L - 1) (hn : 2 ≤ n) (hnL : n ≤ L) (x : ℤ) :
    assign a ((n : ℤ) - 2) x = some (setNumber a n x) := by
  rw [assign, subscript_number ha hn hnL, Option.bind_some, Vec.set_eq (by omega)]
  rfl

theorem cell_setNumber_self : cell (setNumber a n x) n = x := Function.update_self _ _ _

theorem cell_setNumber_other (hc : 2 ≤ c) (hn : 2 ≤ n) (hne : c ≠ n) :
    cell (setNumber a n x) c = cell a c := Function.update_of_ne (by omega) _ _

/-! ## The first loop -/

/-- The cells before the loop variable are 0. -/
def Cleared (L : ℕ) (s : Sieve) : Prop :=
  ∃ n : ℕ, s.i = n ∧ 2 ≤ n ∧ n ≤ L + 1 ∧ s.spf.size = L - 1 ∧ ∀ c, 2 ≤ c → c < n → cell s.spf c = 0

theorem clear_cleared (hL : L < 2 ^ 62) (hs : Cleared L s) (hle : s.i ≤ L) : ∃ t, clear s = some t ∧
    Cleared L t ∧ ((L : ℤ) + 1 - t.i).toNat < ((L : ℤ) + 1 - s.i).toNat := by
  obtain ⟨i, a⟩ := s
  obtain ⟨n, rfl, h2, -, hsize, hcells⟩ := hs
  simp only at hle hsize hcells
  have hn : n ≤ L := by omega
  have hback : wrap ((n : ℤ) - 2) = n - 2 := wrap_eq (by omega) (by omega)
  have hnext : wrap ((n : ℤ) + 1) = (n + 1 : ℕ) := wrap_eq (by omega) (by omega)
  refine ⟨⟨(n + 1 : ℕ), setNumber a n 0⟩, ?_, ⟨n + 1, rfl, by omega, by omega, hsize, fun c hc hlt => ?_⟩,
    by simp only; omega⟩
  · unfold clear
    simp only [hback, hnext, assign_number hsize h2 hn]
    rfl
  · by_cases heq : c = n
    · rw [heq]
      exact cell_setNumber_self
    · rw [cell_setNumber_other hc h2 heq]
      exact hcells c hc (by omega)

theorem cleared_start (ha : a.size = L - 1) (h2 : 2 ≤ L) : Cleared L ⟨2, a⟩ :=
  ⟨2, rfl, le_rfl, by omega, ha, fun _ h h' => absurd h' (by omega)⟩

theorem clearLoop_total (hL : L < 2 ^ 62) (ha : a.size = L - 1) (h2 : 2 ≤ L) (hfuel : L ≤ fuel) :
    ∃ b, clearLoop fuel L a = some b := by
  have hrounds : ((L : ℤ) + 1 - 2).toNat < fuel := by omega
  obtain ⟨t, ht, -⟩ :=
    whileLoop_total _ (fun s hs hle => clear_cleared hL hs hle) (cleared_start ha h2) hrounds
  exact ⟨t.spf, by rw [clearLoop, ht, Option.map_some]⟩

theorem clearLoop_spec (hL : L < 2 ^ 62) (ha : a.size = L - 1) (h2 : 2 ≤ L)
    (h : clearLoop fuel L a = some b) :
    b.size = L - 1 ∧ ∀ c, 2 ≤ c → c ≤ L → cell b c = 0 := by
  obtain ⟨t, ht, rfl⟩ := Option.map_eq_some_iff.1 h
  obtain ⟨⟨n, hi, -, -, hsize, hcells⟩, hend⟩ :=
    whileLoop_end _ (fun s hs hle => clear_cleared hL hs hle) (cleared_start ha h2) ht
  rw [hi] at hend
  exact ⟨hsize, fun c h2 hc => hcells c h2 (by omega)⟩

/-! ## The inner loop -/

theorem mark_number (hL : L < 2 ^ 62) (ha : a.size = L - 1) (hn : 2 ≤ n) (hnL : n ≤ L) (hx : 0 ≤ x)
    (hxL : x ≤ L) : mark x ⟨n, a⟩ =
      some ⟨n + x, if cell a n = 0 then setNumber a n x else a⟩ := by
  have hback : wrap ((n : ℤ) - 2) = n - 2 := wrap_eq (by omega) (by omega)
  have hnext : wrap ((n : ℤ) + x) = n + x := wrap_eq (by omega) (by omega)
  unfold mark
  simp only [hback, hnext, element_number ha hn hnL, assign_number ha hn hnL, Option.some.injEq]
  split_ifs <;> rfl

/-- Before `i * k`, the multiples of `i` from its square on are marked, if they were not. -/
def Marked (L i : ℕ) (a : Vec ℤ) (s : Sieve) : Prop :=
  ∃ k, s.i = (i * k : ℕ) ∧ i ≤ k ∧ s.spf.size = L - 1 ∧ ∀ c, 2 ≤ c → c ≤ L →
    cell s.spf c = if cell a c = 0 ∧ i ∣ c ∧ i * i ≤ c ∧ c < i * k then (i : ℤ) else cell a c

theorem cell_mark_other (hc : 2 ≤ c) (hn : 2 ≤ n) (hne : c ≠ n) :
    cell (if cell a n = 0 then setNumber a n x else a) c = cell a c := by
  split_ifs
  · exact cell_setNumber_other hc hn hne
  · rfl

/-- No multiple of `i` lies between two that follow each other. -/
theorem multiple_lt_succ_iff {k : ℕ} (hi : 2 ≤ i) (hdvd : i ∣ c) (hne : c ≠ i * k) :
    c < i * (k + 1) ↔ c < i * k := by
  obtain ⟨m, rfl⟩ := hdvd
  have hmk : m ≠ k := fun h => hne (by rw [h])
  rw [Nat.mul_lt_mul_left (by omega), Nat.mul_lt_mul_left (by omega)]
  omega

/-- A cell after one more multiple of `i`. -/
theorem marked_cell {k : ℕ} (hi : 2 ≤ i) (hk : i ≤ k) (hc : 2 ≤ c)
    (hnow : cell b c = if cell a c = 0 ∧ i ∣ c ∧ i * i ≤ c ∧ c < i * k then (i : ℤ) else cell a c) :
    cell (if cell b (i * k) = 0 then setNumber b (i * k) i else b) c =
      if cell a c = 0 ∧ i ∣ c ∧ i * i ≤ c ∧ c < i * (k + 1) then (i : ℤ) else cell a c := by
  have hsquare : i * i ≤ i * k := Nat.mul_le_mul_left i hk
  have hfour : 2 * 2 ≤ i * i := Nat.mul_le_mul hi hi
  by_cases heq : c = i * k
  · -- the cell that is looked at
    subst heq
    rw [if_neg fun h => absurd h.2.2.2 (lt_irrefl _)] at hnow
    have hlt : i * k < i * (k + 1) := Nat.mul_lt_mul_of_pos_left (Nat.lt_succ_self k) (by omega)
    simp only [hnow]
    by_cases hzero : cell a (i * k) = 0
    · rw [if_pos hzero, if_pos ⟨hzero, dvd_mul_right i k, hsquare, hlt⟩]
      exact cell_setNumber_self
    · rw [if_neg hzero, if_neg fun h => hzero h.1]
      exact hnow
  · have hiff : (cell a c = 0 ∧ i ∣ c ∧ i * i ≤ c ∧ c < i * (k + 1)) ↔
        (cell a c = 0 ∧ i ∣ c ∧ i * i ≤ c ∧ c < i * k) :=
      and_congr_right fun _ => and_congr_right fun hdvd => and_congr_right fun _ =>
        multiple_lt_succ_iff hi hdvd heq
    rw [cell_mark_other hc (by omega) heq, hnow]
    simp only [hiff]

theorem mark_marked (hL : L < 2 ^ 62) (hi : 2 ≤ i) (hiL : i ≤ L) (hs : Marked L i a s)
    (hle : s.i ≤ L) : ∃ t, mark i s = some t ∧ Marked L i a t ∧
      ((L : ℤ) + 1 - t.i).toNat < ((L : ℤ) + 1 - s.i).toNat := by
  obtain ⟨j, b⟩ := s
  obtain ⟨k, rfl, hk, hsize, hcells⟩ := hs
  simp only at hle hsize hcells
  have hkL : i * k ≤ L := by omega
  have hsquare : i * i ≤ i * k := Nat.mul_le_mul_left i hk
  have hfour : 2 * 2 ≤ i * i := Nat.mul_le_mul hi hi
  have hnext : ((i * k : ℕ) : ℤ) + i = (i * (k + 1) : ℕ) := by
    rw [Nat.mul_succ]
    omega
  refine ⟨_, mark_number hL hsize (by omega) hkL (by omega) (by omega),
    ⟨k + 1, hnext, by omega, ?_, fun c h2 hc => ?_⟩, by simp only; omega⟩
  · simp only
    split_ifs <;> exact hsize
  · exact marked_cell hi hk h2 (hcells c h2 hc)

/-- Before the first round. -/
theorem marked_start (hsquare : i * i < 2 ^ 63) (ha : a.size = L - 1) :
    Marked L i a ⟨wrap ((i : ℤ) * i), a⟩ := by
  have hwrap : wrap ((i : ℤ) * i) = (i * i : ℕ) := by
    rw [← Int.natCast_mul]
    exact wrap_eq (by omega) (by omega)
  refine ⟨i, hwrap, le_rfl, ha, fun c _ _ => ?_⟩
  rw [if_neg fun h => absurd h.2.2.2 (not_lt.2 h.2.2.1)]

/-- The inner loop ends. -/
theorem markLoop_total (hL : L < 2 ^ 62) (hi : 2 ≤ i) (hiL : i ≤ L) (hsquare : i * i < 2 ^ 63)
    (ha : a.size = L - 1) (hfuel : L ≤ fuel) : ∃ b, markLoop fuel L i a = some b := by
  have hstart := marked_start hsquare ha
  obtain ⟨k, hk, hik, -⟩ := id hstart
  have hfour : 2 * 2 ≤ i * k := Nat.mul_le_mul hi (hi.trans hik)
  have hrounds : ((L : ℤ) + 1 - wrap ((i : ℤ) * i)).toNat < fuel := by
    simp only at hk
    rw [hk]
    omega
  obtain ⟨t, ht, -⟩ := whileLoop_total _ (fun s hs hle => mark_marked hL hi hiL hs hle) hstart hrounds
  exact ⟨t.spf, by rw [markLoop, ht, Option.map_some]⟩

/-- **The inner loop** marks the multiples of `i` from its square on. -/
theorem markLoop_spec (hL : L < 2 ^ 62) (hi : 2 ≤ i) (hiL : i ≤ L) (hsquare : i * i < 2 ^ 63)
    (ha : a.size = L - 1) (h : markLoop fuel L i a = some b) : b.size = L - 1 ∧ ∀ c, 2 ≤ c → c ≤ L →
      cell b c = if cell a c = 0 ∧ i ∣ c ∧ i * i ≤ c then (i : ℤ) else cell a c := by
  obtain ⟨t, ht, rfl⟩ := Option.map_eq_some_iff.1 h
  obtain ⟨⟨k, hk, -, hsize, hcells⟩, hend⟩ :=
    whileLoop_end _ (fun s hs hle => mark_marked hL hi hiL hs hle) (marked_start hsquare ha) ht
  refine ⟨hsize, fun c h2 hc => ?_⟩
  have hlt : c < i * k := by
    rw [hk] at hend
    omega
  rw [hcells c h2 hc]
  simp only [hlt, and_true]

/-! ## The sieve -/

/-- The cells of the numbers with a prime factor before the loop variable are right, and the others
are 0. -/
def Sieved (L : ℕ) (s : Sieve) : Prop :=
  ∃ n : ℕ, s.i = n ∧ 2 ≤ n ∧ n ≤ L + 1 ∧ s.spf.size = L - 1 ∧
    ∀ c, 2 ≤ c → c ≤ L → cell s.spf c = if c.minFac < n then (c.minFac : ℤ) else 0

theorem prime_of_not_lt (hn : 2 ≤ n) (hlt : ¬ n.minFac < n) : n.Prime := by
  rw [Nat.prime_def_minFac]
  exact ⟨hn, le_antisymm (Nat.minFac_le (by omega)) (not_lt.1 hlt)⟩

/-- The round of a number that is not prime. -/
theorem minFac_lt_succ_of_not (hn : 2 ≤ n) (hlt : n.minFac < n) : c.minFac < n + 1 ↔ c.minFac < n := by
  have hne : c.minFac ≠ n := by
    intro heq
    rcases eq_or_ne c 1 with rfl | hc
    · rw [Nat.minFac_one] at heq
      omega
    · have hprime := heq ▸ Nat.minFac_prime hc
      exact absurd hprime.minFac_eq hlt.ne
  omega

/-- The multiples of a prime from its square on, and the prime, are the numbers it is the smallest
prime factor of, if they have no smaller one. -/
theorem minFac_eq_iff (hn : n.Prime) (hc : 2 ≤ c) (hge : n ≤ c.minFac) :
    c.minFac = n ↔ c = n ∨ (n ∣ c ∧ n * n ≤ c) := by
  constructor
  · intro heq
    by_cases hprime : c.Prime
    · exact .inl (hprime.minFac_eq.symm.trans heq)
    · right
      have hsquare := Nat.minFac_sq_le_self (by omega) hprime
      rw [heq, sq] at hsquare
      exact ⟨heq ▸ Nat.minFac_dvd c, hsquare⟩
  · rintro (rfl | ⟨hdvd, -⟩)
    · exact hn.minFac_eq
    · exact le_antisymm (Nat.minFac_le_of_dvd hn.two_le hdvd) hge

theorem sieveNumber_eq (hL : L < 2 ^ 62) (ha : a.size = L - 1) (h2 : 2 ≤ n) (hn : n ≤ L) :
    sieveNumber fuel L n a =
      if cell a n = 0 then markLoop fuel L n (setNumber a n n) else some a := by
  have hback : wrap ((n : ℤ) - 2) = n - 2 := wrap_eq (by omega) (by omega)
  unfold sieveNumber
  simp only [hback, element_number ha h2 hn, assign_number ha h2 hn, Option.some.injEq,
    Option.bind_some]

/-- A cell after the round of a prime. -/
theorem sieved_cell (hprime : n.Prime) (hc : 2 ≤ c)
    (hold : cell a c = if c.minFac < n then (c.minFac : ℤ) else 0) :
    (if cell (setNumber a n n) c = 0 ∧ n ∣ c ∧ n * n ≤ c then (n : ℤ) else cell (setNumber a n n) c) =
      if c.minFac < n + 1 then (c.minFac : ℤ) else 0 := by
  by_cases heq : c = n
  · subst heq
    rw [cell_setNumber_self, hprime.minFac_eq, if_pos (Nat.lt_succ_self c)]
    split_ifs <;> rfl
  · rw [cell_setNumber_other hc hprime.two_le heq, hold]
    by_cases hsmall : c.minFac < n
    · have hne : ((c.minFac : ℕ) : ℤ) ≠ 0 := by
        have := Nat.minFac_pos c
        omega
      rw [if_pos hsmall, if_neg fun h => hne h.1, if_pos (by omega)]
    · rw [if_neg hsmall]
      have hiff := minFac_eq_iff hprime hc (not_lt.1 hsmall)
      by_cases hmultiple : n ∣ c ∧ n * n ≤ c
      · have hmin := hiff.2 (.inr hmultiple)
        rw [if_pos ⟨rfl, hmultiple⟩, if_pos (by omega), hmin]
      · have hmin : c.minFac ≠ n := fun h => by
          rcases hiff.1 h with h | h
          · exact heq h
          · exact hmultiple h
        rw [if_neg fun h => hmultiple h.2, if_neg (by omega)]

/-- A round that ends keeps the sieve right. -/
theorem sieveNumber_sieved (hL : L < 2 ^ 62) (ha : a.size = L - 1) (h2 : 2 ≤ n) (hn : n ≤ L)
    (hcells : ∀ c, 2 ≤ c → c ≤ L → cell a c = if c.minFac < n then (c.minFac : ℤ) else 0)
    (hsquare : n.Prime → n * n < 2 ^ 63) (h : sieveNumber fuel L n a = some b) :
    b.size = L - 1 ∧
      ∀ c, 2 ≤ c → c ≤ L → cell b c = if c.minFac < n + 1 then (c.minFac : ℤ) else 0 := by
  have hself := hcells n h2 hn
  rw [sieveNumber_eq hL ha h2 hn] at h
  by_cases hlt : n.minFac < n
  · -- the number is not prime
    rw [if_pos hlt] at hself
    have hne : cell a n ≠ 0 := by
      have := Nat.minFac_pos n
      omega
    rw [if_neg hne] at h
    cases h
    refine ⟨ha, fun c hc hcL => ?_⟩
    simp only [hcells c hc hcL, minFac_lt_succ_of_not h2 hlt]
  · -- the number is prime
    rw [if_neg hlt] at hself
    have hprime := prime_of_not_lt h2 hlt
    have hset : (setNumber a n n).size = L - 1 := ha
    rw [if_pos hself] at h
    obtain ⟨hbsize, hbcells⟩ := markLoop_spec hL h2 hn (hsquare hprime) hset h
    refine ⟨hbsize, fun c hc hcL => ?_⟩
    rw [hbcells c hc hcL]
    exact sieved_cell hprime hc (hcells c hc hcL)

/-- A round of the outer loop that ends. -/
theorem sieveStep_sieved (hL : L < 2 ^ 62) (hs : Sieved L s) (hle : s.i ≤ L)
    (hsquare : ∀ n : ℕ, s.i = n → n.Prime → n * n < 2 ^ 63) (h : sieveStep fuel L s = some t) :
    Sieved L t ∧ t.i = s.i + 1 := by
  obtain ⟨i, a⟩ := s
  obtain ⟨n, rfl, h2, -, hsize, hcells⟩ := hs
  simp only at hle hsize hcells hsquare
  have hnext : wrap ((n : ℤ) + 1) = (n + 1 : ℕ) := wrap_eq (by omega) (by omega)
  obtain ⟨b, hb, rfl⟩ := Option.map_eq_some_iff.1 h
  obtain ⟨hbsize, hbcells⟩ := sieveNumber_sieved hL hsize h2 (by omega) hcells (hsquare n rfl) hb
  exact ⟨⟨n + 1, hnext, by omega, by omega, hbsize, hbcells⟩, hnext⟩

/-- A round of the outer loop ends. -/
theorem sieveStep_total (hL : L < 2 ^ 62) (hs : Sieved L s) (hle : s.i ≤ L)
    (hsquare : ∀ n : ℕ, s.i = n → n.Prime → n * n < 2 ^ 63) (hfuel : L ≤ fuel) :
    ∃ t, sieveStep fuel L s = some t := by
  obtain ⟨i, a⟩ := s
  obtain ⟨n, rfl, h2, -, hsize, hcells⟩ := hs
  simp only at hle hsize hcells hsquare
  have hn : n ≤ L := by omega
  obtain ⟨b, hb⟩ : ∃ b, sieveNumber fuel L n a = some b := by
    rw [sieveNumber_eq hL hsize h2 hn]
    by_cases hzero : cell a n = 0
    · have hprime : n.Prime := by
        have hself := hcells n h2 hn
        rw [hzero] at hself
        have hpos := Nat.minFac_pos n
        split_ifs at hself with hlt
        · omega
        · exact prime_of_not_lt h2 hlt
      rw [if_pos hzero]
      exact markLoop_total hL h2 hn (hsquare n rfl hprime) hsize hfuel
    · exact ⟨a, if_neg hzero⟩
  exact ⟨_, by rw [sieveStep, hb, Option.map_some]⟩

theorem sieved_start (h2 : 2 ≤ L) (ha : a.size = L - 1) (hcells : ∀ c, 2 ≤ c → c ≤ L → cell a c = 0) :
    Sieved L ⟨2, a⟩ := by
  refine ⟨2, rfl, le_rfl, by omega, ha, fun c hc hcL => ?_⟩
  have := (Nat.minFac_prime (by omega : c ≠ 1)).two_le
  rw [if_neg (by omega)]
  exact hcells c hc hcL

/-- **The sieve** finds the smallest prime factors. -/
theorem sieve_spec (hL : L < 2 ^ 62) (h2 : 2 ≤ L)
    (hsquare : ∀ n : ℕ, n ≤ L → n.Prime → n * n < 2 ^ 63) (hfuel : L ≤ fuel) :
    ∃ spf, sieve fuel L = some spf ∧ spf.size = L - 1 ∧
      ∀ n, 2 ≤ n → n ≤ L → cell spf n = n.minFac := by
  have hsize : ((L : ℤ) - 1).toNat = L - 1 := by omega
  obtain ⟨a, ha⟩ := clearLoop_total (a := ⟨((L : ℤ) - 1).toNat, fun k => k + 2⟩) hL hsize h2 hfuel
  obtain ⟨hasize, hzero⟩ := clearLoop_spec hL (by exact hsize) h2 ha
  have hrounds : ((L : ℤ) + 1 - 2).toNat < fuel := by omega
  have hstep : ∀ s, Sieved L s → s.i ≤ L → ∃ t, sieveStep fuel L s = some t ∧ Sieved L t ∧
      ((L : ℤ) + 1 - t.i).toNat < ((L : ℤ) + 1 - s.i).toNat := by
    intro s hs hle
    have hbound : ∀ n : ℕ, s.i = n → n.Prime → n * n < 2 ^ 63 := fun n hn => hsquare n (by omega)
    obtain ⟨t, ht⟩ := sieveStep_total hL hs hle hbound hfuel
    obtain ⟨hsieved, hnext⟩ := sieveStep_sieved hL hs hle hbound ht
    exact ⟨t, ht, hsieved, by omega⟩
  obtain ⟨t, ht, ⟨n, hi, -, -, htsize, hcells⟩, hend⟩ :=
    whileLoop_total _ hstep (sieved_start h2 hasize hzero) hrounds
  refine ⟨t.spf, by rw [sieve, ha, Option.bind_eq_bind, Option.bind_some, ht, Option.map_some], htsize,
    fun c hc hcL => ?_⟩
  have hle := Nat.minFac_le (by omega : 0 < c)
  have hlt : c.minFac < n := by
    rw [hi] at hend
    omega
  rw [hcells c hc hcL, if_pos hlt]

/-! ## The factors of a number -/

/-- The factors printed are in order, at most those that are left, and together with these they make
up `n`. -/
def Divided (L : ℕ) (n : ℤ) (s : Factoring) : Prop :=
  ∃ m : ℕ, s.line = m ∧ 1 ≤ m ∧ m ≤ L ∧ (∀ p ∈ s.printed, Nat.Prime p.toNat) ∧
    s.printed.Pairwise (· ≤ ·) ∧ s.printed.prod * m = n ∧
    ∀ p ∈ s.printed, ∀ q : ℕ, q.Prime → q ∣ m → p ≤ q

/-- A step of the loop divides by the smallest prime factor. -/
theorem divide_number {m : ℕ} {printed : List ℤ} (hL : L < 2 ^ 62) (ha : a.size = L - 1)
    (hcells : ∀ n, 2 ≤ n → n ≤ L → cell a n = n.minFac) (h2 : 2 ≤ m) (hmL : m ≤ L) :
    divide a ⟨m, printed⟩ = some ⟨(m / m.minFac : ℕ), printed ++ [(m.minFac : ℤ)]⟩ := by
  have hback : wrap ((m : ℤ) - 2) = m - 2 := wrap_eq (by omega) (by omega)
  have hquotient : wrap ((m : ℤ).tdiv (m.minFac : ℤ)) = (m / m.minFac : ℕ) := by
    have hfit : ∀ k : ℕ, k ≤ m → wrap (k : ℤ) = k := fun k hk => wrap_eq (by omega) (by omega)
    rw [← Int.ofNat_tdiv]
    exact hfit _ (Nat.div_le_self _ _)
  have hne : ((m.minFac : ℕ) : ℤ) ≠ 0 := by
    have := Nat.minFac_pos m
    omega
  unfold divide
  simp only [hback, element_number ha h2 hmL, hcells m h2 hmL]
  show (if ((m.minFac : ℕ) : ℤ) = 0 then none else _) = _
  rw [if_neg hne, hquotient]

theorem divide_divided {s : Factoring} {z : ℤ} (hL : L < 2 ^ 62) (ha : a.size = L - 1)
    (hcells : ∀ n, 2 ≤ n → n ≤ L → cell a n = n.minFac) (hs : Divided L z s) (hone : s.line ≠ 1) :
    ∃ t, divide a s = some t ∧ Divided L z t ∧ t.line.toNat < s.line.toNat := by
  obtain ⟨line, printed⟩ := s
  obtain ⟨m, rfl, h1, hmL, hprimes, hsorted, hprod, hle⟩ := hs
  simp only at hone hprimes hsorted hprod hle
  have h2 : 2 ≤ m := by omega
  have hprime := Nat.minFac_prime (by omega : m ≠ 1)
  have hdvd := Nat.minFac_dvd m
  have hlt : m / m.minFac < m := Nat.div_lt_self (by omega) hprime.one_lt
  refine ⟨_, divide_number hL ha hcells h2 hmL, ⟨m / m.minFac, rfl,
    Nat.div_pos (Nat.minFac_le (by omega)) hprime.pos, by omega, ?_, ?_, ?_, ?_⟩, by simp only; omega⟩
  · intro p hp
    rcases List.mem_append.1 hp with hp | hp
    · exact hprimes p hp
    · rw [List.mem_singleton.1 hp]
      exact hprime
  · refine List.pairwise_append.2 ⟨hsorted, List.pairwise_singleton _ _, fun p hp q hq => ?_⟩
    rw [List.mem_singleton.1 hq]
    exact hle p hp _ hprime hdvd
  · have hmul : (m.minFac : ℤ) * (m / m.minFac : ℕ) = m := by exact_mod_cast Nat.mul_div_cancel' hdvd
    rw [List.prod_append, List.prod_singleton, mul_assoc, hmul, hprod]
  · intro p hp q hq hqm
    have hqdvd := hqm.trans (Nat.div_dvd_of_dvd hdvd)
    rcases List.mem_append.1 hp with hp | hp
    · exact hle p hp q hq hqdvd
    · rw [List.mem_singleton.1 hp]
      exact_mod_cast Nat.minFac_le_of_dvd hq.two_le hqdvd

/-- **A number** is factorised. -/
theorem factorLine_spec (hL : L < 2 ^ 62) (ha : a.size = L - 1)
    (hcells : ∀ n, 2 ≤ n → n ≤ L → cell a n = n.minFac) (hn : 1 ≤ n) (hnL : n ≤ L)
    (hfuel : L < fuel) : ∃ printed, factorLine a fuel n = some printed ∧ FactorsOf n printed := by
  have hstart : Divided L n ⟨n, []⟩ := ⟨n, rfl, hn, hnL, fun p hp => absurd hp List.not_mem_nil,
    List.Pairwise.nil, by simp, fun p hp => absurd hp List.not_mem_nil⟩
  obtain ⟨t, ht, ⟨m, hline, -, -, hprimes, hsorted, hprod, -⟩, hend⟩ := whileLoop_total
    (fun s : Factoring => s.line.toNat) (fun s hs hone => divide_divided hL ha hcells hs hone) hstart
    (show (n : ℤ).toNat < fuel by omega)
  refine ⟨t.printed, by rw [factorLine, ht, Option.map_some], hprimes, hsorted, ?_⟩
  rw [not_not, hline] at hend
  rw [← hprod, hend, mul_one]

/-! ## The limits -/

/-- The squares of the primes below 3037000507 have 63 bits. -/
theorem square_lt (hprime : n.Prime) (hlt : n < 3037000507) : n * n < 2 ^ 63 := by
  rcases Nat.lt_or_ge n 3037000500 with h | h
  · have := Nat.mul_le_mul (Nat.le_of_lt_succ h) (Nat.le_of_lt_succ h)
    omega
  · -- the seven numbers in between are not prime
    exfalso
    interval_cases n <;> revert hprime <;> norm_num

/-- **The factoriser is right** for limits below 3037000507. -/
theorem factorises_of_lt (limit : ℤ) (h2 : 2 ≤ limit) (hlt : limit < 3037000507) :
    Factorises limit := by
  obtain ⟨L, rfl⟩ : ∃ L : ℕ, limit = L := ⟨limit.toNat, by omega⟩
  have hL : L < 2 ^ 62 := by omega
  obtain ⟨spf, hspf, hsize, hcells⟩ := sieve_spec hL (by omega)
    (fun n hn hprime => square_lt hprime (by omega)) (Nat.le_succ L)
  refine ⟨L + 1, spf, hspf, fun n hn hnL => ?_, fun n h1 hnL => ?_⟩
  · rw [element_number hsize hn (by omega), hcells n hn (by omega)]
  · obtain ⟨m, rfl⟩ : ∃ m : ℕ, n = m := ⟨n.toNat, by omega⟩
    exact factorLine_spec hL hsize hcells (by omega) (by omega) (by omega)

/-- The limit of the script. -/
theorem factorises_million : Factorises 1000000 := factorises_of_lt 1000000 (by decide) (by decide)

/-! ## A limit that is too large -/

/-- No odd number is a divisor among the `2 ^ d` from `k` on. -/
def noDivisor (n : ℕ) : ℕ → ℕ → Bool
  | 0, k => Nat.ble 1 (n % k)
  | d + 1, k => noDivisor n d k && noDivisor n d (k + 2 ^ (d + 1))

theorem noDivisor_spec {d k : ℕ} (h : noDivisor n d k = true) :
    ∀ m, m < 2 ^ d → ¬ k + 2 * m ∣ n := by
  induction d generalizing k with
  | zero =>
    intro m hm hdvd
    obtain rfl : m = 0 := by omega
    have hzero := Nat.mod_eq_zero_of_dvd hdvd
    rw [Nat.mul_zero, Nat.add_zero] at hzero
    simp [noDivisor, hzero] at h
  | succ d ih =>
    obtain ⟨hlow, hhigh⟩ := Bool.and_eq_true_iff.1 h
    intro m hm
    rw [pow_succ] at hm
    rcases Nat.lt_or_ge m (2 ^ d) with hlt | hge
    · exact ih hlow m hlt
    · have hsum : k + 2 * m = k + 2 ^ (d + 1) + 2 * (m - 2 ^ d) := by
        rw [pow_succ]
        omega
      rw [hsum]
      exact ih hhigh _ (by omega)

theorem prime_of_noDivisor {d : ℕ} (hn : n ≠ 1) (hodd : n % 2 = 1)
    (hlt : n < (3 + 2 ^ (d + 1)) * (3 + 2 ^ (d + 1))) (h : noDivisor n d 3 = true) : n.Prime := by
  by_contra hnot
  have hprime := Nat.minFac_prime hn
  have hdvd := Nat.minFac_dvd n
  have hsquare := Nat.minFac_sq_le_self (by omega) hnot
  rw [sq] at hsquare
  have hsmall : n.minFac < 3 + 2 ^ (d + 1) := by
    by_contra hge
    have := Nat.mul_le_mul (not_lt.1 hge) (not_lt.1 hge)
    omega
  have hne : n.minFac % 2 = 1 := by
    by_contra heven
    have h2 : 2 ∣ n := (Nat.dvd_of_mod_eq_zero (by omega)).trans hdvd
    omega
  have h2 := hprime.two_le
  rw [pow_succ] at hsmall
  refine noDivisor_spec h ((n.minFac - 3) / 2) (by omega) ?_
  have hback : 3 + 2 * ((n.minFac - 3) / 2) = n.minFac := by omega
  rwa [hback]

theorem noDivisor_succ {d k : ℕ} (hlow : noDivisor n d k = true)
    (hhigh : noDivisor n d (k + 2 ^ (d + 1)) = true) : noDivisor n (d + 1) k = true :=
  Bool.and_eq_true_iff.2 ⟨hlow, hhigh⟩

-- The divisors are tried in quarters, each one evaluation of its own.

theorem prime_first : Nat.Prime 3037000507 := by
  have hlow : noDivisor 3037000507 14 3 = true :=
    noDivisor_succ (by decide +kernel) (by decide +kernel)
  have hhigh : noDivisor 3037000507 14 (3 + 2 ^ 15) = true :=
    noDivisor_succ (by decide +kernel) (by decide +kernel)
  exact prime_of_noDivisor (by decide) (by decide) (by decide) (noDivisor_succ hlow hhigh)

theorem prime_second : Nat.Prime 3037000537 := by
  have hlow : noDivisor 3037000537 14 3 = true :=
    noDivisor_succ (by decide +kernel) (by decide +kernel)
  have hhigh : noDivisor 3037000537 14 (3 + 2 ^ 15) = true :=
    noDivisor_succ (by decide +kernel) (by decide +kernel)
  exact prime_of_noDivisor (by decide) (by decide) (by decide) (noDivisor_succ hlow hhigh)

/-- A write to a cell that is 0. -/
theorem assign_zero {k : ℤ} (hzero : element a k = some 0) (h : assign a k x = some b) :
    b.size = a.size ∧ (∀ j, b.val j = a.val j ∨ (a.val j = 0 ∧ b.val j = x)) ∧
      ∀ j, subscript a k = some j → b.val j = x := by
  obtain ⟨j, hj, hval⟩ := Option.map_eq_some_iff.1 hzero
  rw [assign, hj, Option.bind_some] at h
  obtain ⟨-, rfl⟩ := Vec.set_eq_some.1 h
  refine ⟨rfl, fun i => ?_, fun i hi => ?_⟩
  · by_cases hij : i = j
    · subst hij
      exact .inr ⟨hval, Function.update_self _ _ _⟩
    · exact .inl (Function.update_of_ne hij _ _)
  · rw [hj] at hi
    cases hi
    exact Function.update_self _ _ _

/-- Only cells that are 0 change, and they get this value. -/
def Keeps (a b : Vec ℤ) (x : ℤ) : Prop :=
  b.size = a.size ∧ ∀ j, b.val j = a.val j ∨ (a.val j = 0 ∧ b.val j = x)

theorem Keeps.refl (a : Vec ℤ) (x : ℤ) : Keeps a a x := ⟨rfl, fun _ => .inl rfl⟩

theorem Keeps.trans {d : Vec ℤ} (h : Keeps a b x) (h' : Keeps b d x) : Keeps a d x := by
  refine ⟨h'.1.trans h.1, fun j => ?_⟩
  rcases h.2 j with hsame | ⟨hzero, hx⟩
  · rw [← hsame]
    exact h'.2 j
  · rcases h'.2 j with hsame' | ⟨-, hx'⟩
    · exact .inr ⟨hzero, hsame'.trans hx⟩
    · exact .inr ⟨hzero, hx'⟩

theorem mark_keeps (h : mark x s = some t) : t.i = wrap (s.i + x) ∧ Keeps s.spf t.spf x ∧
    ∀ j, subscript s.spf (wrap (s.i - 2)) = some j → s.spf.val j = 0 → t.spf.val j = x := by
  obtain ⟨b, hb, rfl⟩ := Option.map_eq_some_iff.1 h
  refine ⟨rfl, ?_⟩
  split_ifs at hb with hzero
  · obtain ⟨hsize, hkeeps, hhit⟩ := assign_zero hzero hb
    exact ⟨⟨hsize, hkeeps⟩, fun j hj _ => hhit j hj⟩
  · cases hb
    refine ⟨Keeps.refl _ _, fun j hj hval => absurd ?_ hzero⟩
    rw [element, hj, Option.map_some, hval]

theorem markLoop_keeps (h : markLoop fuel z x a = some b) : Keeps a b x := by
  obtain ⟨t, ht, rfl⟩ := Option.map_eq_some_iff.1 h
  exact (whileLoop_inv (I := fun s : Sieve => Keeps a s.spf x)
    (fun s u hs _ hu => hs.trans (mark_keeps hu).2.1) (Keeps.refl a x) ht).1

theorem sieveNumber_keeps (h : sieveNumber fuel z x a = some b) : Keeps a b x := by
  unfold sieveNumber at h
  split_ifs at h with hzero
  · obtain ⟨d, hd, h⟩ := Option.bind_eq_some_iff.1 h
    obtain ⟨hsize, hkeeps, -⟩ := assign_zero hzero hd
    exact Keeps.trans ⟨hsize, hkeeps⟩ (markLoop_keeps h)
  · cases h
    exact Keeps.refl a x

/-- The limit, with which the inner loop of 3037000507 comes to the cell of 3037000537 through a
negative subscript. -/
def largeLimit : ℕ := 5783052759

/-- The cell of 3037000537 is marked, or the loop variable will come to -2746052221. -/
def Coming (s : Sieve) : Prop :=
  s.spf.size = largeLimit - 1 ∧ (cell s.spf 3037000537 = 3037000507 ∨
    (cell s.spf 3037000537 = 0 ∧ -2 ^ 63 ≤ s.i ∧ ∃ m : ℕ, s.i + m * 3037000507 = -2746052221))

theorem mark_coming (hs : Coming s) (h : mark 3037000507 s = some t) : Coming t := by
  obtain ⟨hsize, hs⟩ := hs
  obtain ⟨hnext, ⟨hkeepsize, hkeeps⟩, hhit⟩ := mark_keeps h
  refine ⟨hkeepsize.trans hsize, ?_⟩
  rcases hs with hmarked | ⟨hzero, hmin, m, hm⟩
  · rcases hkeeps (3037000537 - 2) with hsame | ⟨hval, -⟩
    · exact .inl (hsame.trans hmarked)
    · exact absurd (hmarked.symm.trans hval) (by decide)
  · cases m with
    | zero =>
      -- the subscript -2746052223 counts from the end
      have hi : s.i = -2746052221 := by simpa using hm
      have hsub : subscript s.spf (wrap (s.i - 2)) = some (3037000537 - 2) := by
        rw [hi, subscript, hsize]
        decide
      exact .inl (hhit _ hsub hzero)
    | succ m =>
      have hwrap : wrap (s.i + 3037000507) = s.i + 3037000507 := wrap_eq (by omega) (by omega)
      rcases hkeeps (3037000537 - 2) with hsame | ⟨-, hval⟩
      · exact .inr ⟨hsame.trans hzero, by omega, m, by rw [hnext, hwrap]; push_cast at hm; omega⟩
      · exact .inl hval

/-- The square of 3037000507 is negative, and the loop variable comes to -2746052221. -/
theorem markLoop_overflow (ha : a.size = largeLimit - 1) (hzero : cell a 3037000537 = 0)
    (h : markLoop fuel largeLimit 3037000507 a = some b) :
    b.size = largeLimit - 1 ∧ cell b 3037000537 = 3037000507 := by
  obtain ⟨t, ht, rfl⟩ := Option.map_eq_some_iff.1 h
  have hfirst : wrap (3037000507 * 3037000507) = -9223371994191294567 := by decide
  have hstart : Coming ⟨wrap (3037000507 * 3037000507), a⟩ := by
    rw [hfirst]
    exact ⟨ha, .inr ⟨hzero, by norm_num, 3037000478, by norm_num⟩⟩
  obtain ⟨⟨hsize, hcoming⟩, hend⟩ := whileLoop_inv (fun s u hs _ hu => mark_coming hs hu) hstart ht
  refine ⟨hsize, ?_⟩
  rcases hcoming with hmarked | ⟨-, -, m, hm⟩
  · exact hmarked
  · have hlimit : largeLimit = 5783052759 := rfl
    exact absurd (by omega) hend

/-- Up to 3037000507 the sieve is right, and after it the cell of 3037000537 is wrong. -/
def Spoiled (s : Sieve) : Prop :=
  (Sieved largeLimit s ∧ s.i ≤ 3037000507) ∨
    (s.spf.size = largeLimit - 1 ∧ cell s.spf 3037000537 = 3037000507)

theorem sieveStep_spoiled (hs : Spoiled s) (hle : s.i ≤ largeLimit)
    (h : sieveStep fuel largeLimit s = some t) : Spoiled t := by
  have hL : largeLimit < 2 ^ 62 := by decide
  rcases hs with ⟨hsieved, hbefore⟩ | ⟨hsize, hspoiled⟩
  · rcases hbefore.lt_or_eq with hlt | heq
    · obtain ⟨hnext, hi⟩ := sieveStep_sieved hL hsieved hle
        (fun n hn hprime => square_lt hprime (by omega)) h
      exact .inl ⟨hnext, by omega⟩
    · -- the square overflows
      obtain ⟨i, a⟩ := s
      obtain ⟨b, hb, rfl⟩ := Option.map_eq_some_iff.1 h
      obtain ⟨n, hn, h2, hnL, hsize, hcells⟩ := hsieved
      simp only at heq hn hsize hcells hb
      obtain rfl : n = 3037000507 := by omega
      have hself := hcells 3037000507 (by decide) (by decide)
      have hother := hcells 3037000537 (by decide) (by decide)
      rw [prime_first.minFac_eq, if_neg (by decide)] at hself
      rw [prime_second.minFac_eq, if_neg (by decide)] at hother
      rw [hn, sieveNumber_eq hL hsize (by decide) (by decide), if_pos hself] at hb
      refine .inr (markLoop_overflow (a := setNumber a 3037000507 3037000507) hsize ?_ hb)
      rw [cell_setNumber_other (by decide) (by decide) (by decide), hother]
  · obtain ⟨b, hb, rfl⟩ := Option.map_eq_some_iff.1 h
    obtain ⟨hbsize, hkeeps⟩ := sieveNumber_keeps hb
    refine .inr ⟨hbsize.trans hsize, ?_⟩
    rcases hkeeps (3037000537 - 2) with hsame | ⟨hzero, -⟩
    · exact hsame.trans hspoiled
    · exact absurd (hspoiled.symm.trans hzero) (by decide)

end

/-- **A prime gets another factor**: with this limit the cell of 3037000537 is 3037000507. -/
theorem overflow_marks_prime : ¬ ∀ limit : ℤ, 2 ≤ limit → Factorises limit := by
  intro hclaim
  obtain ⟨fuel, spf, hspf, hcells, -⟩ := hclaim largeLimit (by decide)
  have hL : largeLimit < 2 ^ 62 := by decide
  have h2 : 2 ≤ largeLimit := by decide
  obtain ⟨a, ha, h⟩ := Option.bind_eq_some_iff.1 hspf
  obtain ⟨hsize, hzero⟩ := clearLoop_spec hL (by rfl) h2 ha
  obtain ⟨t, ht, rfl⟩ := Option.map_eq_some_iff.1 h
  have hstart : Spoiled ⟨2, a⟩ := .inl ⟨sieved_start h2 hsize hzero, by norm_num⟩
  obtain ⟨hspoiled, hend⟩ :=
    whileLoop_inv (fun s u hs hle hu => sieveStep_spoiled hs hle hu) hstart ht
  rcases hspoiled with ⟨-, hbefore⟩ | ⟨hsize, hspoiled⟩
  · have hlimit : largeLimit = 5783052759 := rfl
    exact absurd (by omega) hend
  · have hcell := hcells 3037000537 (by decide) (by decide)
    rw [element_number hsize (by decide) (by decide), hspoiled, prime_second.minFac_eq] at hcell
    exact absurd hcell (by decide)

end OsLab.Scripts
