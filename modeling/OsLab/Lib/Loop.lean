import Mathlib.Algebra.BigOperators.Group.List.Basic
import Mathlib.Algebra.GroupWithZero.Nat
import Mathlib.Data.List.Range
import Mathlib.Tactic.Common

/-!
# Counting loops

`forRange n f s` runs the body `f` for `i = 0, …, n - 1`; it is undefined as soon as one
iteration is. `forRange_spec` is its invariant rule: the loop returns, and what holds of
every number of iterations holds at the end. `forRange_inv` is the rule for a loop that is known to
return, and `forRange_pass` gives the passes of one. `forRange_sum` adds up a list in a bounded
integer.
-/

namespace OsLab.Lib

variable {σ : Type*}

/-- `for (i = 0; i < n; i++)`. -/
def forRange : ℕ → (σ → ℕ → Option σ) → σ → Option σ
  | 0, _, s => some s
  | n + 1, f, s => (forRange n f s).bind fun t => f t n

theorem forRange_succ (n : ℕ) (f : σ → ℕ → Option σ) (s : σ) :
    forRange (n + 1) f s = (forRange n f s).bind fun t => f t n := rfl

/-- **The invariant rule.** -/
theorem forRange_spec {n : ℕ} {f : σ → ℕ → Option σ} {s : σ} {P : ℕ → σ → Prop} (h0 : P 0 s)
    (hstep : ∀ i t, i < n → P i t → ∃ u, f t i = some u ∧ P (i + 1) u) :
    ∃ t, forRange n f s = some t ∧ P n t := by
  induction n with
  | zero => exact ⟨s, rfl, h0⟩
  | succ n ih =>
    obtain ⟨t, ht, hP⟩ := ih fun i t hi => hstep i t (by omega)
    obtain ⟨u, hu, hPu⟩ := hstep n t (by omega) hP
    exact ⟨u, by rw [forRange_succ, ht]; exact hu, hPu⟩

/-- **The invariant rule of a loop that returns.** -/
theorem forRange_inv {n : ℕ} {f : σ → ℕ → Option σ} {s t : σ} {P : ℕ → σ → Prop} (h0 : P 0 s)
    (hstep : ∀ i t u, i < n → P i t → f t i = some u → P (i + 1) u) (h : forRange n f s = some t) :
    P n t := by
  induction n generalizing t with
  | zero => cases h; exact h0
  | succ n ih =>
    rw [forRange_succ] at h
    obtain ⟨t', ht', hf⟩ := Option.bind_eq_some_iff.1 h
    exact hstep n t' t (by omega) (ih (fun i t u hi => hstep i t u (by omega)) ht') hf

/-- **A checked sum over a list**: a loop that adds the weight of each element, and is undefined past
`M`. -/
theorem forRange_sum {α : Type*} {M : ℤ} (w : α → ℕ) {l : List α} {f : ℤ → ℕ → Option ℤ}
    (hf : ∀ i x, l[i]? = some x → ∀ c : ℤ, 0 ≤ c → c ≤ M →
      f c i = if c + w x ≤ M then some (c + w x) else none) {c : ℤ} (h0 : 0 ≤ c) (hc : c ≤ M) :
    forRange l.length f c =
      if c + (l.map w).sum ≤ M then some (c + (l.map w).sum) else none := by
  induction l using List.reverseRecOn with
  | nil => simp [forRange, hc]
  | append_singleton l x ih =>
    have hl : ∀ i y, l[i]? = some y → (l ++ [x])[i]? = some y := fun i y hy => by
      rw [List.getElem?_append_left (List.getElem?_eq_some_iff.1 hy).1, hy]
    have hx := hf l.length x (by simp)
    have hsum : ((l ++ [x]).map w).sum = (l.map w).sum + w x := by simp
    rw [List.length_append, List.length_singleton, forRange_succ, hsum, Int.natCast_add,
      ih fun i y hy => hf i y (hl i y hy)]
    by_cases hle : c + ((l.map w).sum : ℤ) ≤ M
    · rw [if_pos hle, Option.bind_some, hx _ (by omega) hle, add_assoc]
    · rw [if_neg hle, if_neg (by omega)]
      rfl

/-- A loop that returns has done every pass. -/
theorem forRange_pass {n i : ℕ} {f : σ → ℕ → Option σ} {s t : σ} (h : forRange n f s = some t)
    (hi : i < n) : ∃ u v, forRange i f s = some u ∧ f u i = some v := by
  induction n generalizing t with
  | zero => omega
  | succ n ih =>
    rw [forRange_succ] at h
    obtain ⟨t', ht', hf⟩ := Option.bind_eq_some_iff.1 h
    rcases Nat.lt_or_ge i n with hlt | hge
    · exact ih ht' hlt
    · obtain rfl : i = n := by omega
      exact ⟨t', t, ht', hf⟩

end OsLab.Lib
