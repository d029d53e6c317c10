import Mathlib.Algebra.BigOperators.Group.Finset.Basic
import Mathlib.Algebra.Order.BigOperators.Group.Finset
import Mathlib.Tactic.Common

/-!
# Tallies over threads

The local states of the threads `0, …, n - 1` are a function `f`, and a quantity of which
every thread has its share is a sum over the threads. A step of one thread changes its own
share (`sum_update`); a broadcast that leaves every share alone changes nothing
(`sum_wake`). Shares of at most 1 count threads (`threads_le_sum_iff`).
-/

namespace OsLab.Lib

variable {σ : Type*} {n i : ℕ}

/-- **One thread moves**: the tally changes by what this thread's share changes by. -/
theorem sum_update (f : ℕ → σ) (w : σ → ℕ) (hi : i < n) (x : σ) :
    (∑ j ∈ Finset.range n, w (Function.update f i x j)) + w (f i) =
      (∑ j ∈ Finset.range n, w (f j)) + w x := by
  have hmem : i ∈ Finset.range n := Finset.mem_range.2 hi
  have hcongr : ∑ j ∈ (Finset.range n).erase i, w (Function.update f i x j) =
      ∑ j ∈ (Finset.range n).erase i, w (f j) :=
    Finset.sum_congr rfl fun j hj => by rw [Function.update_of_ne (Finset.ne_of_mem_erase hj)]
  rw [← Finset.add_sum_erase _ _ hmem, ← Finset.add_sum_erase _ (fun j => w (f j)) hmem, hcongr,
    Function.update_self]
  omega

/-- A thread's share is part of the tally. -/
theorem le_sum (f : ℕ → σ) (w : σ → ℕ) (hi : i < n) : w (f i) ≤ ∑ j ∈ Finset.range n, w (f j) :=
  Finset.single_le_sum (f := fun j => w (f j)) (fun _ _ => Nat.zero_le _) (Finset.mem_range.2 hi)

/-- A tally of 1 is the share of one thread. -/
theorem eq_one_of_sum (f : ℕ → σ) {w : σ → ℕ} (h : ∑ j ∈ Finset.range n, w (f j) = 1) :
    ∃ i < n, w (f i) = 1 ∧ ∀ j < n, j ≠ i → w (f j) = 0 := by
  have hne : ∑ j ∈ Finset.range n, w (f j) ≠ 0 := by omega
  obtain ⟨i, hi, hwi⟩ := Finset.exists_ne_zero_of_sum_ne_zero hne
  rw [← Finset.add_sum_erase _ (fun j => w (f j)) hi] at h
  have hrest : ∑ j ∈ (Finset.range n).erase i, w (f j) = 0 := by omega
  refine ⟨i, Finset.mem_range.1 hi, by omega, ?_⟩
  intro j hj hne
  exact Finset.sum_eq_zero_iff.1 hrest j (Finset.mem_erase.2 ⟨hne, Finset.mem_range.2 hj⟩)

/-- A tally of at most 1 has no two shares. -/
theorem eq_of_sum_le_one (f : ℕ → σ) {w : σ → ℕ} (h : ∑ k ∈ Finset.range n, w (f k) ≤ 1) {j : ℕ}
    (hi : i < n) (hj : j < n) (hwi : w (f i) ≠ 0) (hwj : w (f j) ≠ 0) : i = j := by
  by_contra hne
  have hsum := Finset.add_sum_erase _ (fun k => w (f k)) (Finset.mem_range.2 hi)
  have hle := Finset.single_le_sum (f := fun k => w (f k)) (fun _ _ => Nat.zero_le _)
    (Finset.mem_erase.2 ⟨Ne.symm hne, Finset.mem_range.2 hj⟩)
  omega

/-- A broadcast: every thread that waits is woken. -/
def wake [DecidableEq σ] (f : ℕ → σ) (waiting woken : σ) : ℕ → σ :=
  fun j => if f j = waiting then woken else f j

theorem wake_of_ne [DecidableEq σ] {f : ℕ → σ} {waiting woken : σ} (h : f i ≠ waiting) :
    wake f waiting woken i = f i := if_neg h

/-- What a broadcast does not wake was there before. -/
theorem of_wake_eq [DecidableEq σ] {f : ℕ → σ} {waiting woken x : σ}
    (h : wake f waiting woken i = x) (hx : x ≠ woken) : f i = x := by
  unfold wake at h
  split_ifs at h
  · exact absurd h.symm hx
  · exact h

theorem wake_wake [DecidableEq σ] (f : ℕ → σ) {waiting woken : σ} (h : woken ≠ waiting) :
    wake (wake f waiting woken) waiting woken = wake f waiting woken := by
  funext j
  by_cases hj : f j = waiting
  · exact wake_of_ne (by rw [wake, if_pos hj]; exact h)
  · exact wake_of_ne (by rwa [wake_of_ne hj])

/-- What does not tell the woken threads from the waiting ones does not see a broadcast. -/
theorem apply_wake [DecidableEq σ] {β : Type*} (f : ℕ → σ) (w : σ → β) {waiting woken : σ}
    (h : w woken = w waiting) (j : ℕ) : w (wake f waiting woken j) = w (f j) := by
  unfold wake
  split_ifs with hj
  · rw [h, hj]
  · rfl

theorem sum_wake [DecidableEq σ] (f : ℕ → σ) (w : σ → ℕ) {waiting woken : σ}
    (h : w woken = w waiting) :
    ∑ j ∈ Finset.range n, w (wake f waiting woken j) = ∑ j ∈ Finset.range n, w (f j) :=
  Finset.sum_congr rfl fun j _ => apply_wake f w h j

/-- A broadcast that adds at most 1 to a share adds at most the number of threads. -/
theorem sum_wake_le [DecidableEq σ] (f : ℕ → σ) {w : σ → ℕ} {waiting woken : σ}
    (h : w woken ≤ w waiting + 1) (n : ℕ) :
    ∑ j ∈ Finset.range n, w (wake f waiting woken j) ≤ (∑ j ∈ Finset.range n, w (f j)) + n := by
  induction n with
  | zero => simp
  | succ n ih =>
    have hlast : w (wake f waiting woken n) ≤ w (f n) + 1 := by
      unfold wake
      split_ifs with hn
      · rw [hn]; exact h
      · omega
    rw [Finset.sum_range_succ, Finset.sum_range_succ]
    omega

/-- A tally of shares of at most 1 is at most the number of threads. -/
theorem sum_le_threads (f : ℕ → σ) {w : σ → ℕ} (hw : ∀ x, w x ≤ 1) (n : ℕ) :
    ∑ j ∈ Finset.range n, w (f j) ≤ n := by
  induction n with
  | zero => simp
  | succ n ih =>
    rw [Finset.sum_range_succ]
    have := hw (f n)
    omega

/-- **Every thread has its share** when the tally says so. -/
theorem threads_le_sum_iff (f : ℕ → σ) {w : σ → ℕ} (hw : ∀ x, w x ≤ 1) (n : ℕ) :
    n ≤ ∑ j ∈ Finset.range n, w (f j) ↔ ∀ j < n, w (f j) = 1 := by
  induction n with
  | zero => simp
  | succ n ih =>
    have hle := sum_le_threads f hw n
    have hlast := hw (f n)
    rw [Finset.sum_range_succ]
    constructor
    · intro h j hj
      rcases Nat.lt_succ_iff_lt_or_eq.1 hj with hj | rfl
      · exact ih.1 (by omega) j hj
      · omega
    · intro h
      have := ih.2 fun j hj => h j (by omega)
      have := h n (by omega)
      omega

end OsLab.Lib
