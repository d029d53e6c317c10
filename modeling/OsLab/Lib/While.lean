import Mathlib.Data.Nat.Notation
import Mathlib.Tactic.Common

/-!
# Loops with a condition

`whileLoop cond body fuel` runs the body as long as the condition holds, and has no result after `fuel`
rounds, or when the body has none. `whileLoop_inv` is the invariant rule for a loop that ended.
`whileLoop_total` and `whileLoop_end` are the rules by a measure that goes down: the loop ends, and
what holds at its end.
-/

namespace OsLab.Lib

variable {σ : Type*} {cond : σ → Prop} [DecidablePred cond] {body : σ → Option σ} {I : σ → Prop}
  {s t : σ} {fuel : ℕ}

/-- `while (cond) body`. -/
def whileLoop (cond : σ → Prop) [DecidablePred cond] (body : σ → Option σ) : ℕ → σ → Option σ
  | 0, _ => none
  | fuel + 1, s => if cond s then (body s).bind (whileLoop cond body fuel) else some s

theorem whileLoop_of_not (h : ¬ cond s) : whileLoop cond body (fuel + 1) s = some s := if_neg h

theorem whileLoop_of_pos (h : cond s) (ht : body s = some t) :
    whileLoop cond body (fuel + 1) s = whileLoop cond body fuel t := by
  rw [whileLoop, if_pos h, ht, Option.bind_some]

/-- **The invariant rule.** -/
theorem whileLoop_inv (hstep : ∀ s t, I s → cond s → body s = some t → I t) (hs : I s)
    (h : whileLoop cond body fuel s = some t) : I t ∧ ¬ cond t := by
  induction fuel generalizing s with
  | zero => cases h
  | succ fuel ih =>
    by_cases hc : cond s
    · rw [whileLoop, if_pos hc] at h
      obtain ⟨u, hu, h⟩ := Option.bind_eq_some_iff.1 h
      exact ih (hstep s u hs hc hu) h
    · rw [whileLoop_of_not hc] at h
      cases h
      exact ⟨hs, hc⟩

/-- **The rule of a loop that ends**: each round is defined, and the measure goes down. -/
theorem whileLoop_total (m : σ → ℕ)
    (hstep : ∀ s, I s → cond s → ∃ t, body s = some t ∧ I t ∧ m t < m s) (hs : I s)
    (hfuel : m s < fuel) : ∃ t, whileLoop cond body fuel s = some t ∧ I t ∧ ¬ cond t := by
  induction fuel generalizing s with
  | zero => exact absurd hfuel (Nat.not_lt_zero _)
  | succ fuel ih =>
    by_cases hc : cond s
    · obtain ⟨u, hu, hIu, hlt⟩ := hstep s hs hc
      rw [whileLoop_of_pos hc hu]
      exact ih hIu (by omega)
    · exact ⟨s, whileLoop_of_not hc, hs, hc⟩

/-- The end of a loop whose rounds are known to be defined. -/
theorem whileLoop_end (m : σ → ℕ)
    (hstep : ∀ s, I s → cond s → ∃ t, body s = some t ∧ I t ∧ m t < m s) (hs : I s)
    (h : whileLoop cond body fuel s = some t) : I t ∧ ¬ cond t := by
  refine whileLoop_inv (fun s u hI hc hu => ?_) hs h
  obtain ⟨v, hv, hIv, -⟩ := hstep s hI hc
  rw [hu] at hv
  cases hv
  exact hIv

end OsLab.Lib
