import Mathlib.Algebra.Order.Field.Basic
import Mathlib.Algebra.BigOperators.Group.List.Basic
import Mathlib.Data.List.Sort

/-!
# Sorting and searching

`std::sort` leaves equal elements in any order, so a `StdSort` is any function that returns a
permutation of its argument in which no element comes before one it has to follow.
`lowerBound` is `std::lower_bound` on a non-decreasing range, and `cumulative` the running sums of
a list.

* `StdSort.insertion`: one such function.
* `lowerBound_lt`: a value up to the total has a place in the running sums.
* `lowerBound_eq_iff`: the places of the values are the intervals between the elements.
-/

namespace OsLab.Lib

/-- `std::sort` with the comparator `before`. -/
structure StdSort {α : Type*} (before : α → α → Prop) where
  sort : List α → List α
  perm : ∀ l, (sort l).Perm l
  sorted : ∀ l, (sort l).Pairwise fun a b => ¬ before b a

/-- A sort that leaves ties in their order. -/
def StdSort.insertion {α : Type*} (before : α → α → Prop) [DecidableRel before]
    (total : ∀ a b, ¬ before b a ∨ ¬ before a b)
    (trans : ∀ a b c, ¬ before b a → ¬ before c b → ¬ before c a) : StdSort before where
  sort := List.insertionSort fun a b => ¬ before b a
  perm := List.perm_insertionSort _
  sorted l := by
    have : Std.Total fun a b => ¬ before b a := ⟨total⟩
    have : IsTrans α fun a b => ¬ before b a := ⟨trans⟩
    exact List.pairwise_insertionSort _ l

/-- `std::lower_bound`: the first element that is not below `x`, or the end. -/
def lowerBound {K : Type*} [LinearOrder K] (l : List K) (x : K) : ℕ := l.findIdx fun y => ¬ y < x

/-- The running sums from `s` on. -/
def cumulative {K : Type*} [Add K] : K → List K → List K
  | _, [] => []
  | s, p :: l => (s + p) :: cumulative (s + p) l

section

variable {K : Type*}

theorem length_cumulative [Add K] (s : K) (l : List K) : (cumulative s l).length = l.length := by
  induction l generalizing s with
  | nil => rfl
  | cons p l ih => rw [cumulative, List.length_cons, List.length_cons, ih]

/-- The last running sum is the total. -/
theorem sum_mem_cumulative [AddCommMonoid K] (s : K) {l : List K} (hl : l ≠ []) :
    s + l.sum ∈ cumulative s l := by
  induction l generalizing s with
  | nil => exact absurd rfl hl
  | cons p l ih =>
    rw [cumulative, List.sum_cons, ← add_assoc]
    cases l with
    | nil => simp
    | cons q l => exact List.mem_cons_of_mem _ (ih (s + p) (List.cons_ne_nil q l))

/-- **Every value up to the total has a place** in the running sums. -/
theorem lowerBound_lt [AddCommMonoid K] [LinearOrder K] {l : List K} (hl : l ≠ []) {x : K}
    (hx : x ≤ l.sum) : lowerBound (cumulative 0 l) x < l.length := by
  rw [← length_cumulative 0 l]
  apply List.findIdx_lt_length_of_exists
  refine ⟨l.sum, ?_, by simpa using hx⟩
  have := sum_mem_cumulative 0 hl
  rwa [zero_add] at this

/-- A running sum is the sum of the elements up to it. -/
theorem getElem?_cumulative [AddMonoid K] (s : K) (l : List K) (i : ℕ) :
    (cumulative s l)[i]? = l[i]?.map fun _ => s + (l.take (i + 1)).sum := by
  induction l generalizing s i with
  | nil => rfl
  | cons p l ih =>
    cases i with
    | zero => simp [cumulative]
    | succ i =>
      rw [cumulative, List.getElem?_cons_succ, ih, List.getElem?_cons_succ, List.take_succ_cons,
        List.sum_cons, ← add_assoc]

theorem take_cumulative [Add K] (s : K) (l : List K) (i : ℕ) :
    (cumulative s l).take i = cumulative s (l.take i) := by
  induction l generalizing s i with
  | nil => simp [cumulative]
  | cons p l ih =>
    cases i with
    | zero => rfl
    | succ i => rw [cumulative, List.take_succ_cons, ih, List.take_succ_cons, cumulative]

theorem getLast?_cumulative [AddMonoid K] (s : K) (l : List K) :
    (cumulative s l).getLast? = l.getLast?.map fun _ => s + l.sum := by
  rw [List.getLast?_eq_getElem?, length_cumulative, getElem?_cumulative, List.getLast?_eq_getElem?]
  cases l with
  | nil => rfl
  | cons p l => simp

/-- The running sums of elements that are not negative do not decrease. -/
theorem cumulative_sorted [AddCommMonoid K] [Preorder K] [AddLeftMono K] (s : K) {l : List K}
    (hl : ∀ p ∈ l, 0 ≤ p) : (cumulative s l).Pairwise (· ≤ ·) ∧ ∀ y ∈ cumulative s l, s ≤ y := by
  induction l generalizing s with
  | nil => exact ⟨.nil, by simp [cumulative]⟩
  | cons p l ih =>
    obtain ⟨hsorted, hle⟩ := ih (s + p) fun q hq => hl q (List.mem_cons_of_mem p hq)
    have hp : s ≤ s + p := le_add_of_nonneg_right (hl p List.mem_cons_self)
    refine ⟨List.pairwise_cons.2 ⟨hle, hsorted⟩, fun y hy => ?_⟩
    rcases List.mem_cons.1 hy with rfl | hy
    · exact hp
    · exact hp.trans (hle y hy)

/-- **The place of a value**: after the elements below it, and not after any other. -/
theorem lowerBound_eq_iff [LinearOrder K] {l : List K} (hl : l.Pairwise (· ≤ ·)) {i : ℕ} {y : K}
    (hi : l[i]? = some y) (x : K) :
    lowerBound l x = i ↔ (∀ z ∈ (l.take i).getLast?, z < x) ∧ x ≤ y := by
  induction l generalizing i with
  | nil => simp at hi
  | cons a l ih =>
    obtain ⟨hal, hl⟩ := List.pairwise_cons.1 hl
    rw [lowerBound, List.findIdx_cons]
    cases i with
    | zero =>
      obtain rfl : a = y := by simpa using hi
      rcases lt_or_ge a x with h | h
      · simp [h]
      · simp [h]
    | succ i =>
      rw [List.getElem?_cons_succ] at hi
      rw [List.take_succ_cons, List.getLast?_cons]
      by_cases h : a < x
      · -- `a` is passed, and the last element before `y` is `a` or one of `l`
        have := ih hl hi
        rw [lowerBound] at this
        cases hlast : (l.take i).getLast? with
        | none => simp_all
        | some z => simp_all
      · have hz : ∀ z ∈ (l.take i).getLast?, a ≤ z := fun z hz =>
          hal z (List.mem_of_mem_take (List.mem_of_getLast? hz))
        cases hlast : (l.take i).getLast? with
        | none => simp_all
        | some z =>
          have := hz z hlast
          simp only [h, decide_not, decide_false, Bool.not_false, cond_true]
          constructor
          · intro h0; omega
          · rintro ⟨hz', -⟩
            exact absurd (this.trans_lt (hz' z rfl)) h

end

end OsLab.Lib
