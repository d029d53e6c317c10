import OsLab.Lib.Machine

/-!
# Traces and forward simulation

`Trace Step s as t`: the steps from `s` to `t` show the labels `as`. A relation `R` between the states
of two systems with the same labels is a forward simulation (`Simulates`) if every step of the first
one, from related states, is a step of the second one with the same label.

* `Simulates.trace`: every trace of the first system is a trace of the second one.
* `trace_of_run`: a partial machine, with the replies it gives, as such a system.
-/

namespace OsLab.Lib

variable {σ τ α ρ : Type*}

/-- The steps from `s` to `t` show the labels `as`. -/
inductive Trace (Step : σ → α → σ → Prop) : σ → List α → σ → Prop where
  | nil (s : σ) : Trace Step s [] s
  | cons {s t u : σ} {a : α} {as : List α} : Step s a t → Trace Step t as u →
      Trace Step s (a :: as) u

variable {Step : σ → α → σ → Prop} {AStep : τ → α → τ → Prop}

/-- Every step with a label in `C`, from related states, is matched by a step with the same label. -/
def Simulates (C : α → Prop) (R : σ → τ → Prop) (Step : σ → α → σ → Prop)
    (AStep : τ → α → τ → Prop) : Prop :=
  ∀ s a t x, C a → R s x → Step s a t → ∃ y, AStep x a y ∧ R t y

/-- **A forward simulation carries traces over.** -/
theorem Simulates.trace {C : α → Prop} {R : σ → τ → Prop} (hsim : Simulates C R Step AStep) {s t : σ}
    {x : τ} {as : List α} (h : Trace Step s as t) (hC : ∀ a ∈ as, C a) (hR : R s x) :
    ∃ y, Trace AStep x as y ∧ R t y := by
  induction h generalizing x with
  | nil s => exact ⟨x, .nil x, hR⟩
  | cons hst _ ih =>
    rw [List.forall_mem_cons] at hC
    obtain ⟨z, hz, hRz⟩ := hsim _ _ _ _ hC.1 hR hst
    obtain ⟨y, hy, hRy⟩ := ih hC.2 hRz
    exact ⟨y, .cons hz hy, hRy⟩

/-- The calls of a partial machine that give the replies `x.2`. -/
def replying [DecidableEq ρ] (call : σ → α → Option (σ × ρ)) (s : σ) (x : α × ρ) : Option σ :=
  (call s x.1).bind fun r => if r.2 = x.2 then some r.1 else none

theorem replying_eq_some [DecidableEq ρ] {call : σ → α → Option (σ × ρ)} {s t : σ} {x : α × ρ} :
    replying call s x = some t ↔ call s x.1 = some (t, x.2) := by
  unfold replying
  rw [Option.bind_eq_some_iff]
  constructor
  · intro h
    obtain ⟨⟨u, r⟩, hu, h⟩ := h
    split_ifs at h with hr
    cases h; rw [hu, ← hr]
  · intro h
    exact ⟨_, h, if_pos rfl⟩

theorem trace_of_run {step : σ → α → Option σ} (hstep : ∀ s a t, step s a = some t → Step s a t)
    {as : List α} {s t : σ} (h : run step s as = some t) : Trace Step s as t := by
  induction as generalizing s with
  | nil => cases h; exact .nil _
  | cons a as ih =>
    obtain ⟨u, hu, h⟩ := run_cons_eq_some.1 h
    exact .cons (hstep _ _ _ hu) (ih h)

end OsLab.Lib
