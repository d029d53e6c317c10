import Mathlib.Data.List.Basic
import Mathlib.Tactic.Common

/-!
# Traced computations

A computation that logs the indices it reads. `Ensures B m P`: all of them meet `B`, and the value
meets `P`. `loop step k x` runs at most `k` passes of a loop, whose body goes on (`Sum.inl`) or leaves
(`Sum.inr`).

* `ensures_bind`: the rule of composition.
* `loop_ensures`: what a loop with an invariant has read after any number of passes meets the bound.
* `loop_ends`: it ends if it has a measure.
-/

namespace OsLab.Lib

universe v

/-- A value, and the indices read for it. -/
structure Traced (ι : Type*) (α : Type v) where
  reads : List ι
  val : α

namespace Traced

variable {ι : Type*}

instance : Monad (Traced ι) where
  pure a := ⟨[], a⟩
  bind m f := ⟨m.reads ++ (f m.val).reads, (f m.val).val⟩

/-- Reading at `i`. -/
def read {α : Type*} (f : ι → α) (i : ι) : Traced ι α := ⟨[i], f i⟩

/-- The reads of `m` meet `B`, and its value meets `P`. -/
def Ensures {α : Type*} (B : ι → Prop) (m : Traced ι α) (P : α → Prop) : Prop :=
  (∀ i ∈ m.reads, B i) ∧ P m.val

section

variable {α β : Type v} {B : ι → Prop} {P : α → Prop} {Q : β → Prop}

@[simp] theorem ensures_pure {a : α} : Ensures B (pure a) P ↔ P a :=
  ⟨And.right, fun h => ⟨fun _ hi => absurd hi List.not_mem_nil, h⟩⟩

@[simp] theorem ensures_read {f : ι → α} {i : ι} : Ensures B (read f i) P ↔ B i ∧ P (f i) := by
  unfold Ensures read
  rw [List.forall_mem_singleton]

@[simp] theorem ensures_bind {m : Traced ι α} {f : α → Traced ι β} :
    Ensures B (m >>= f) Q ↔ Ensures B m fun a => Ensures B (f a) Q := by
  have hreads : (m >>= f).reads = m.reads ++ (f m.val).reads := rfl
  have hval : (m >>= f).val = (f m.val).val := rfl
  rw [Ensures, Ensures, Ensures, hreads, hval, List.forall_mem_append, and_assoc]

theorem Ensures.mono {m : Traced ι α} {P' : α → Prop} (h : Ensures B m P) (hP : ∀ a, P a → P' a) :
    Ensures B m P' := ⟨h.1, hP _ h.2⟩

end

section Loops

variable {σ ρ : Type v} {step : σ → Traced ι (σ ⊕ ρ)} {B : ι → Prop} {I : σ → Prop} {Q : ρ → Prop}

/-- At most `k` passes of a loop. -/
def loop (step : σ → Traced ι (σ ⊕ ρ)) : ℕ → σ → Traced ι (σ ⊕ ρ)
  | 0, x => pure (.inl x)
  | k + 1, x => step x >>= fun r => r.elim (fun y => loop step k y) fun r => pure (.inr r)

/-- Going on with `I` and a smaller measure, or leaving with `Q`. -/
def Goes (I : σ → Prop) (Q : ρ → Prop) (m : σ → ℕ) (k : ℕ) (r : σ ⊕ ρ) : Prop :=
  r.elim (fun y => I y ∧ m y < k) Q

/-- **The loop rule**: the reads, and what holds after any number of passes. -/
theorem loop_ensures {m : σ → ℕ} (hstep : ∀ x, I x → Ensures B (step x) (Goes I Q m (m x))) (k : ℕ)
    {x : σ} (hx : I x) : Ensures B (loop step k x) fun r => r.elim I Q := by
  induction k generalizing x with
  | zero => exact ensures_pure.2 hx
  | succ k ih =>
    refine ensures_bind.2 ((hstep x hx).mono ?_)
    rintro (y | r) hr
    · exact ih hr.1
    · exact ensures_pure.2 hr

/-- **A loop ends** when its measure does not let it go on. -/
theorem loop_ends {m : σ → ℕ} (hstep : ∀ x, I x → Ensures B (step x) (Goes I Q m (m x))) {k : ℕ}
    {x : σ} (hx : I x) (hk : m x < k) : ∃ r, (loop step k x).val = .inr r ∧ Q r := by
  induction k generalizing x with
  | zero => exact absurd hk (Nat.not_lt_zero _)
  | succ k ih =>
    have hval : (loop step (k + 1) x).val =
        ((step x).val.elim (fun y => loop step k y) fun r => pure (.inr r)).val := rfl
    rw [hval]
    have hgoes := (hstep x hx).2
    cases hr : (step x).val with
    | inl y =>
      rw [hr] at hgoes
      exact ih hgoes.1 (Nat.lt_of_lt_of_le hgoes.2 (Nat.le_of_lt_succ hk))
    | inr r =>
      rw [hr] at hgoes
      exact ⟨r, rfl, hgoes⟩

end Loops

end Traced

end OsLab.Lib
