import Mathlib.Data.List.Basic
import Mathlib.Tactic.Common

/-!
# Lists in blocks of one length

A list that is put together from blocks (`List.flatMap`) of at most `k` elements has `k`
elements for each block exactly when all blocks are full (`length_flatMap_eq_iff`), and then its
elements are found by block and place in the block (`getElem?_flatMap_block`).
-/

namespace OsLab.Lib

variable {α β : Type*} {l : List α} {f : α → List β} {k : ℕ}

theorem length_flatMap_le (h : ∀ x ∈ l, (f x).length ≤ k) : (l.flatMap f).length ≤ k * l.length := by
  induction l with
  | nil => exact Nat.zero_le _
  | cons a l ih =>
    have h1 := h a List.mem_cons_self
    have h2 := ih fun x hx => h x (List.mem_cons_of_mem _ hx)
    rw [List.flatMap_cons, List.length_append, List.length_cons, Nat.mul_succ]
    omega

theorem length_flatMap_eq_iff (h : ∀ x ∈ l, (f x).length ≤ k) :
    (l.flatMap f).length = k * l.length ↔ ∀ x ∈ l, (f x).length = k := by
  induction l with
  | nil => simp
  | cons a l ih =>
    have ha := h a List.mem_cons_self
    have hl : ∀ x ∈ l, (f x).length ≤ k := fun x hx => h x (List.mem_cons_of_mem _ hx)
    have hle := length_flatMap_le hl
    rw [List.flatMap_cons, List.length_append, List.length_cons, Nat.mul_succ, List.forall_mem_cons,
      ← ih hl]
    omega

/-- Place `i` of block `q`. -/
theorem getElem?_flatMap_block (h : ∀ x ∈ l, (f x).length = k) (q : ℕ) {i : ℕ} (hi : i < k) :
    (l.flatMap f)[k * q + i]? = l[q]?.bind fun x => (f x)[i]? := by
  induction l generalizing q with
  | nil => simp
  | cons a l ih =>
    have ha := h a List.mem_cons_self
    have hl : ∀ x ∈ l, (f x).length = k := fun x hx => h x (List.mem_cons_of_mem _ hx)
    rw [List.flatMap_cons]
    cases q with
    | zero =>
      rw [Nat.mul_zero, Nat.zero_add, List.getElem?_append_left (by omega)]
      rfl
    | succ q =>
      rw [List.getElem?_append_right (by rw [ha, Nat.mul_succ]; omega), ha,
        show k * (q + 1) + i - k = k * q + i by rw [Nat.mul_succ]; omega]
      exact ih hl q

end OsLab.Lib
