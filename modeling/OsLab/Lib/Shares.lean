import Mathlib.Data.Nat.Basic
import Mathlib.Data.List.Range
import Mathlib.Order.Monotone.Basic

/-!
# Equal shares

`n` things in a row are dealt out to `p` parties, as equally as possible: each gets `n / p`, and the
first `n % p` get one more. Party `i` gets the things from `shareStart n p i` up to
`shareStart n p (i + 1)`.

* `exists_share`: every thing is in a share.
* `share_unique`: the shares are disjoint.
* `flatMap_share`: put together they are the whole, in order.
-/

namespace OsLab.Lib

/-- How many things party `i` gets. -/
def shareSize (n p i : ℕ) : ℕ := if i < n % p then n / p + 1 else n / p

/-- Where the things of party `i` begin. -/
def shareStart (n p i : ℕ) : ℕ := i * (n / p) + min i (n % p)

variable {n p i j v : ℕ}

@[simp] theorem shareStart_zero (n p : ℕ) : shareStart n p 0 = 0 := by simp [shareStart]

theorem shareStart_succ (n p i : ℕ) : shareStart n p (i + 1) = shareStart n p i + shareSize n p i := by
  rw [shareStart, shareStart, shareSize, Nat.succ_mul]
  split_ifs <;> omega

/-- The shares are all there is. -/
theorem shareStart_last (hp : 0 < p) : shareStart n p p = n := by
  rw [shareStart, min_eq_right (Nat.mod_lt n hp).le, Nat.div_add_mod]

theorem shareStart_mono (n p : ℕ) : Monotone (shareStart n p) :=
  monotone_nat_of_le_succ fun i => by rw [shareStart_succ]; exact Nat.le_add_right _ _

/-- **Every thing is in a share.** -/
theorem exists_share (h : v < shareStart n p j) :
    ∃ i < j, shareStart n p i ≤ v ∧ v < shareStart n p (i + 1) := by
  induction j with
  | zero => simp at h
  | succ j ih =>
    rcases Nat.lt_or_ge v (shareStart n p j) with hlt | hge
    · obtain ⟨i, hi, hv⟩ := ih hlt
      exact ⟨i, by omega, hv⟩
    · exact ⟨j, Nat.lt_succ_self j, hge, h⟩

/-- **No thing is in two shares.** -/
theorem share_unique (hi : shareStart n p i ≤ v ∧ v < shareStart n p (i + 1))
    (hj : shareStart n p j ≤ v ∧ v < shareStart n p (j + 1)) : i = j := by
  rcases Nat.lt_trichotomy i j with hlt | heq | hgt
  · have := shareStart_mono n p (Nat.succ_le_of_lt hlt); simp only [Nat.succ_eq_add_one] at this; omega
  · exact heq
  · have := shareStart_mono n p (Nat.succ_le_of_lt hgt); simp only [Nat.succ_eq_add_one] at this; omega

/-! ## The shares of a list -/

variable {α : Type*}

/-- What party `i` gets of the list. -/
def share (p : ℕ) (xs : List α) (i : ℕ) : List α :=
  (xs.drop (shareStart xs.length p i)).take (shareSize xs.length p i)

theorem shareEnd_le (hp : 0 < p) (hi : i < p) : shareStart n p i + shareSize n p i ≤ n :=
  calc shareStart n p i + shareSize n p i = shareStart n p (i + 1) := (shareStart_succ n p i).symm
    _ ≤ shareStart n p p := shareStart_mono n p hi
    _ = n := shareStart_last hp

theorem length_share (xs : List α) (hp : 0 < p) (hi : i < p) :
    (share p xs i).length = shareSize xs.length p i := by
  have := shareEnd_le (n := xs.length) hp hi
  rw [share, List.length_take, List.length_drop]
  omega

/-- No two parties get sizes more than one apart. -/
theorem shareSize_le (n p i j : ℕ) : shareSize n p i ≤ shareSize n p j + 1 := by
  rw [shareSize, shareSize]
  split_ifs <;> omega

theorem flatMap_share_take (p : ℕ) (xs : List α) (k : ℕ) :
    (List.range k).flatMap (share p xs) = xs.take (shareStart xs.length p k) := by
  induction k with
  | zero => simp
  | succ k ih =>
    rw [List.range_succ, List.flatMap_append, ih, List.flatMap_singleton, share, shareStart_succ,
      List.take_add]

/-- **The shares, put together, are the whole list.** -/
theorem flatMap_share (xs : List α) (hp : 0 < p) : (List.range p).flatMap (share p xs) = xs := by
  rw [flatMap_share_take, shareStart_last hp, List.take_length]

end OsLab.Lib
