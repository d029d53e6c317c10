import Mathlib.Data.List.Basic
import Mathlib.Logic.Relation
import Mathlib.Order.Bounds.Basic
import Mathlib.Order.MinMax
import Mathlib.Tactic.Common

/-!
# Runs of partial machines and of interleaved threads

A sequential program is a **partial machine** `step : σ → α → Option σ`: an operation
that the language leaves undefined has no successor. `run` applies a list of operations,
`Along C` says that each operation taken meets the condition `C` in the state it is taken
in, `Throughout P` that `P` holds in every state passed through, `Survives P` that moreover
every operation is defined. `Called V` is a promise of the caller.

* `run_inv`: an invariant of single steps is an invariant of runs.
* `throughout_of_along`, `along_of_throughout`: a law that holds in every state of a run,
  against a condition on the steps of the run.

An interleaving of threads is a relation `Step : σ → α → σ → Prop`; `Reaches Step s t` is
reachability, and `reaches_inv` its invariant rule. `Guarded C Step` and `Checked C Step` keep the
steps that meet `C`, and `Recorded Step h` runs along a variable that records the history;
`record_isGreatest`: a recorded maximum is the greatest value seen.
`acc_of_measure` shows that no run goes on for ever.
-/

namespace OsLab.Lib

section Machine

variable {σ α : Type*} {step : σ → α → Option σ}

/-- Running a list of operations; `none` as soon as one of them is undefined. -/
def run (step : σ → α → Option σ) : σ → List α → Option σ
  | s, [] => some s
  | s, a :: as => (step s a).bind fun t => run step t as

/-- Each operation taken on the run meets `C` in the state it is taken in. -/
def Along (step : σ → α → Option σ) (C : σ → α → Prop) : σ → List α → Prop
  | _, [] => True
  | s, a :: as => ∀ t, step s a = some t → C s a ∧ Along step C t as

/-- `P` holds in every state the run passes through, the first and the last included. -/
def Throughout (step : σ → α → Option σ) (P : σ → Prop) : σ → List α → Prop
  | s, [] => P s
  | s, a :: as => P s ∧ ∀ t, step s a = some t → Throughout step P t as

/-- Each operation is called in a state that meets `V` with it, defined or not. -/
def Called (step : σ → α → Option σ) (V : σ → α → Prop) : σ → List α → Prop
  | _, [] => True
  | s, a :: as => V s a ∧ ∀ t, step s a = some t → Called step V t as

/-- Every operation of the run is defined, and `P` holds in every state it passes through. -/
def Survives (step : σ → α → Option σ) (P : σ → Prop) : σ → List α → Prop
  | s, [] => P s
  | s, a :: as => P s ∧ ∃ t, step s a = some t ∧ Survives step P t as

@[simp] theorem run_nil (s : σ) : run step s [] = some s := rfl

theorem run_cons_eq_some {s u : σ} {a : α} {as : List α} :
    run step s (a :: as) = some u ↔ ∃ t, step s a = some t ∧ run step t as = some u := by
  simp [run, Option.bind_eq_some_iff]

theorem run_append {s t : σ} {as : List α} (bs : List α) (h : run step s as = some t) :
    run step s (as ++ bs) = run step t bs := by
  induction as generalizing s with
  | nil => simp only [run_nil, Option.some.injEq] at h; subst h; rfl
  | cons a as ih =>
    obtain ⟨m, hm, hr⟩ := run_cons_eq_some.1 h
    rw [List.cons_append, run, hm, Option.bind_some]
    exact ih hr

theorem run_append_eq_some {s u : σ} {as bs : List α} :
    run step s (as ++ bs) = some u ↔ ∃ t, run step s as = some t ∧ run step t bs = some u := by
  constructor
  · intro h
    cases ht : run step s as with
    | some t =>
      rw [run_append bs ht] at h
      exact ⟨t, rfl, h⟩
    | none =>
      -- a prefix that is undefined leaves the run undefined
      have hnone : run step s (as ++ bs) = none := by
        clear h
        induction as generalizing s with
        | nil => cases ht
        | cons a as ih =>
          rw [List.cons_append]
          unfold run at ht ⊢
          cases hs : step s a with
          | none => rfl
          | some t => rw [hs] at ht; exact ih ht
      rw [hnone] at h; cases h
  · intro h
    obtain ⟨t, ht, h⟩ := h
    rw [run_append bs ht]; exact h

theorem run_cons_of {s t : σ} {a : α} (as : List α) (h : step s a = some t) :
    run step s (a :: as) = run step t as := by rw [run, h]; rfl

theorem called_cons {V : σ → α → Prop} {s t : σ} {a : α} {as : List α} (h : step s a = some t) :
    Called step V s (a :: as) ↔ V s a ∧ Called step V t as := by
  constructor
  · exact fun hV => ⟨hV.1, hV.2 t h⟩
  · intro hV
    refine ⟨hV.1, ?_⟩
    intro u hu
    rw [h] at hu
    cases hu
    exact hV.2

instance Called.decidable {V : σ → α → Prop} [∀ s a, Decidable (V s a)] :
    ∀ (s : σ) (as : List α), Decidable (Called step V s as)
  | _, [] => isTrue trivial
  | s, a :: as =>
    match h : step s a with
    | none => decidable_of_iff (V s a)
        ⟨fun hV => ⟨hV, fun _ ht => absurd (h.symm.trans ht) nofun⟩, fun hV => hV.1⟩
    | some t =>
      have : Decidable (Called step V t as) := Called.decidable t as
      decidable_of_iff (V s a ∧ Called step V t as) (called_cons h).symm

theorem called_append {V : σ → α → Prop} {s : σ} {as bs : List α} :
    Called step V s (as ++ bs) ↔
      Called step V s as ∧ ∀ t, run step s as = some t → Called step V t bs := by
  induction as generalizing s with
  | nil => simp [Called]
  | cons a as ih =>
    rw [List.cons_append]
    constructor
    · intro h
      refine ⟨⟨h.1, fun t ht => (ih.1 (h.2 t ht)).1⟩, ?_⟩
      intro u hu
      obtain ⟨t, ht, hu⟩ := run_cons_eq_some.1 hu
      exact (ih.1 (h.2 t ht)).2 u hu
    · intro h
      obtain ⟨⟨hv, hs⟩, h⟩ := h
      refine ⟨hv, fun t ht => ih.2 ⟨hs t ht, ?_⟩⟩
      intro u hu
      exact h u (run_cons_eq_some.2 ⟨t, ht, hu⟩)

/-- Reading an observation of the final state off an evaluated run. -/
theorem run_eval {β : Type*} (f : σ → β) {as : List α} {s t : σ} {b : β}
    (h : run step s as = some t) (hb : (run step s as).map f = some b) : f t = b := by
  rw [h] at hb; simpa using hb

/-- **Invariants of runs.** What every step along the run preserves holds at its end. -/
theorem run_inv {I : σ → Prop} {C : σ → α → Prop} {as : List α} {s u : σ}
    (hstep : ∀ s a t, I s → C s a → step s a = some t → I t)
    (hC : Along step C s as) (hs : I s) (h : run step s as = some u) : I u := by
  induction as generalizing s with
  | nil => simp only [run_nil, Option.some.injEq] at h; subst h; exact hs
  | cons a as ih =>
    obtain ⟨t, ht, hr⟩ := run_cons_eq_some.1 h
    obtain ⟨hc, hC⟩ := hC t ht
    exact ih hC (hstep s a t hs hc ht) hr

theorem along_cons {C : σ → α → Prop} {s t : σ} {a : α} {as : List α} (h : step s a = some t) :
    Along step C s (a :: as) ↔ C s a ∧ Along step C t as := by
  constructor
  · exact fun hC => hC t h
  · intro hC u hu
    rw [h] at hu
    cases hu
    exact hC

instance Along.decidable {C : σ → α → Prop} [∀ s a, Decidable (C s a)] :
    ∀ (s : σ) (as : List α), Decidable (Along step C s as)
  | _, [] => isTrue trivial
  | s, a :: as =>
    match h : step s a with
    | none => isTrue fun _ ht => absurd (h.symm.trans ht) nofun
    | some t =>
      have : Decidable (Along step C t as) := Along.decidable t as
      decidable_of_iff (C s a ∧ Along step C t as) (along_cons h).symm

theorem Along.and {C D : σ → α → Prop} {as : List α} {s : σ} (h : Along step C s as)
    (h' : Along step D s as) : Along step (fun s a => C s a ∧ D s a) s as := by
  induction as generalizing s with
  | nil => trivial
  | cons a as ih =>
    intro t ht
    exact ⟨⟨(h t ht).1, (h' t ht).1⟩, ih (h t ht).2 (h' t ht).2⟩

theorem along_true (s : σ) (as : List α) : Along step (fun _ _ => True) s as := by
  induction as generalizing s with
  | nil => trivial
  | cons a as ih =>
    intro t _
    exact ⟨trivial, ih t⟩

/-- A condition on the operations alone. -/
theorem called_of_forall {B : α → Prop} {as : List α} (h : ∀ a ∈ as, B a) (s : σ) :
    Called step (fun _ a => B a) s as := by
  induction as generalizing s with
  | nil => trivial
  | cons a as ih =>
    obtain ⟨ha, has⟩ := List.forall_mem_cons.1 h
    exact ⟨ha, fun t _ => ih has t⟩

/-- The unconditional case of `run_inv`. -/
theorem run_inv' {I : σ → Prop} {as : List α} {s u : σ}
    (hstep : ∀ s a t, I s → step s a = some t → I t) (hs : I s)
    (h : run step s as = some u) : I u :=
  run_inv (fun s a t hI _ => hstep s a t hI) (along_true s as) hs h

/-- **From the steps to the states.** An invariant that the steps meeting `C` preserve
gives its consequences in every state of a run of such steps. -/
theorem throughout_of_along {I P : σ → Prop} {C : σ → α → Prop} (hIP : ∀ s, I s → P s)
    (hstep : ∀ s a t, I s → C s a → step s a = some t → I t) {as : List α} {s : σ}
    (hs : I s) (hC : Along step C s as) : Throughout step P s as := by
  induction as generalizing s with
  | nil => exact hIP s hs
  | cons a as ih =>
    refine ⟨hIP s hs, ?_⟩
    intro t ht
    exact ih (hstep s a t hs (hC t ht).1 ht) (hC t ht).2

theorem throughout_head {P : σ → Prop} {as : List α} {s : σ} (h : Throughout step P s as) :
    P s := by
  cases as with
  | nil => exact h
  | cons a as => exact h.1

theorem survives_head {P : σ → Prop} {as : List α} {s : σ} (h : Survives step P s as) : P s := by
  cases as with
  | nil => exact h
  | cons a as => exact h.1

/-- **A law of total runs.** When `V` and the bound `B` make every step defined and keep `I`,
and `P` after a step is then the condition `C` on it, a run is defined and keeps `P` exactly
when its operations meet `B` and its steps meet `C`. -/
theorem survives_iff {I P : σ → Prop} {C V : σ → α → Prop} {B : α → Prop}
    (hstep : ∀ s a, I s → P s → V s a → B a → ∃ t, step s a = some t ∧ I t ∧ (P t ↔ C s a))
    (hB : ∀ s a t, I s → V s a → step s a = some t → B a) {as : List α} {s : σ} (hI : I s)
    (hP : P s) (hV : Called step V s as) :
    Survives step P s as ↔ (∀ a ∈ as, B a) ∧ Along step C s as := by
  induction as generalizing s with
  | nil => exact ⟨fun _ => ⟨fun a ha => absurd ha List.not_mem_nil, trivial⟩, fun _ => hP⟩
  | cons a as ih =>
    obtain ⟨hv, hV⟩ := hV
    constructor
    · -- the step is defined, so it meets `B`, and `P` after it is `C` on it
      intro h
      obtain ⟨-, t, ht, hS⟩ := h
      have hb := hB s a t hI hv ht
      obtain ⟨u, hu, hIu, hPu⟩ := hstep s a hI hP hv hb
      rw [ht] at hu
      cases hu
      have hPt := survives_head hS
      obtain ⟨hbs, hC⟩ := (ih hIu hPt (hV t ht)).1 hS
      constructor
      · intro x hx
        rcases List.mem_cons.1 hx with rfl | hx
        · exact hb
        · exact hbs x hx
      · intro u hu
        rw [ht] at hu
        cases hu
        exact ⟨hPu.1 hPt, hC⟩
    · intro h
      obtain ⟨hbs, hC⟩ := h
      obtain ⟨t, ht, hIt, hPt⟩ := hstep s a hI hP hv (hbs a List.mem_cons_self)
      obtain ⟨hc, hC⟩ := hC t ht
      exact ⟨hP, t, ht, (ih hIt (hPt.2 hc) (hV t ht)).2
        ⟨fun x hx => hbs x (List.mem_cons_of_mem _ hx), hC⟩⟩

/-- **A law of partial runs.** When a step of an allowed action is defined exactly if it meets `C`,
and keeps `I`, a run is defined, and `P` holds along it, exactly when every call meets `C`. -/
theorem survives_iff_called {I P : σ → Prop} {C V : σ → α → Prop} (hIP : ∀ s, I s → P s)
    (hstep : ∀ s a, I s → V s a → C s a → ∃ t, step s a = some t ∧ I t)
    (hC : ∀ s a t, I s → V s a → step s a = some t → C s a) {as : List α} {s : σ} (hI : I s)
    (hV : Called step V s as) : Survives step P s as ↔ Called step C s as := by
  induction as generalizing s with
  | nil => exact ⟨fun _ => trivial, fun _ => hIP s hI⟩
  | cons a as ih =>
    obtain ⟨hv, hV⟩ := hV
    constructor
    · intro h
      obtain ⟨-, t, ht, hS⟩ := h
      have hc := hC s a t hI hv ht
      obtain ⟨u, hu, hIu⟩ := hstep s a hI hv hc
      obtain rfl : t = u := Option.some.inj (ht.symm.trans hu)
      exact (called_cons ht).2 ⟨hc, (ih hIu (hV t ht)).1 hS⟩
    · intro h
      obtain ⟨t, ht, hIt⟩ := hstep s a hI hv h.1
      exact ⟨hIP s hI, t, ht, (ih hIt (hV t ht)).2 (h.2 t ht)⟩

/-- **Two conditions on the calls.** When `I` makes them the same, and the steps that meet them keep
`I`, a run meets the one exactly when it meets the other. -/
theorem called_iff {I : σ → Prop} {C V : σ → α → Prop} (hVC : ∀ s a, I s → (V s a ↔ C s a))
    (hstep : ∀ s a t, I s → C s a → step s a = some t → I t) {as : List α} {s : σ} (hI : I s) :
    Called step V s as ↔ Called step C s as := by
  induction as generalizing s with
  | nil => exact Iff.rfl
  | cons a as ih =>
    constructor
    · intro h
      have hc := (hVC s a hI).1 h.1
      exact ⟨hc, fun t ht => (ih (hstep s a t hI hc ht)).1 (h.2 t ht)⟩
    · intro h
      exact ⟨(hVC s a hI).2 h.1, fun t ht => (ih (hstep s a t hI h.1 ht)).2 (h.2 t ht)⟩

theorem throughout_last {P : σ → Prop} {as : List α} {s u : σ} (h : Throughout step P s as)
    (hr : run step s as = some u) : P u := by
  induction as generalizing s with
  | nil => simp only [run_nil, Option.some.injEq] at hr; subst hr; exact h
  | cons a as ih =>
    obtain ⟨t, ht, hr⟩ := run_cons_eq_some.1 hr
    exact ih (h.2 t ht) hr

/-- The states passed through are the ends of the runs of the prefixes. -/
theorem throughout_iff_run {P : σ → Prop} {as : List α} {s : σ} :
    Throughout step P s as ↔ ∀ pre t, pre <+: as → run step s pre = some t → P t := by
  induction as generalizing s with
  | nil =>
    constructor
    · intro h pre t hpre hr
      rw [List.prefix_nil.1 hpre] at hr
      cases hr; exact h
    · intro h
      exact h [] s (List.prefix_refl _) rfl
  | cons a as ih =>
    constructor
    · intro h pre t hpre hr
      cases pre with
      | nil => cases hr; exact h.1
      | cons b pre =>
        obtain ⟨rfl, hpre'⟩ := List.cons_prefix_cons.1 hpre
        obtain ⟨u, hu, hr⟩ := run_cons_eq_some.1 hr
        exact ih.1 (h.2 u hu) pre t hpre' hr
    · intro h
      refine ⟨h [] s List.nil_prefix rfl, ?_⟩
      intro u hu
      refine ih.2 fun pre t hpre hr => ?_
      exact h (a :: pre) t (List.cons_prefix_cons.2 ⟨rfl, hpre⟩) (run_cons_eq_some.2 ⟨u, hu, hr⟩)

/-- **From the states to the steps.** When `P` before and after a step forces `C` on it,
a run that keeps `P` takes only steps that meet `C`. `I` is a fact about every run. -/
theorem along_of_throughout {I P : σ → Prop} {C : σ → α → Prop}
    (hI : ∀ s a t, I s → step s a = some t → I t)
    (hstep : ∀ s a t, I s → P s → P t → step s a = some t → C s a) {as : List α} {s : σ}
    (hs : I s) (hP : Throughout step P s as) : Along step C s as := by
  induction as generalizing s with
  | nil => trivial
  | cons a as ih =>
    intro t ht
    -- `P` holds on both sides of the step
    have hPt := throughout_head (hP.2 t ht)
    exact ⟨hstep s a t hs hP.1 hPt ht, ih (hI s a t hs ht) (hP.2 t ht)⟩

end Machine

section Interleaving

variable {σ α : Type*} {Step : σ → α → σ → Prop}

/-- `t` is reached from `s` by steps of the threads, in some order. -/
def Reaches (Step : σ → α → σ → Prop) : σ → σ → Prop :=
  Relation.ReflTransGen fun s t => ∃ a, Step s a t

/-- The steps that meet `C` in the state they are taken in. -/
def Guarded (C : σ → α → Prop) (Step : σ → α → σ → Prop) : σ → α → σ → Prop :=
  fun s a t => C s a ∧ Step s a t

theorem Reaches.refl (s : σ) : Reaches Step s s := Relation.ReflTransGen.refl

theorem Reaches.snoc {s t u : σ} {a : α} (h : Reaches Step s t) (hs : Step t a u) :
    Reaches Step s u := Relation.ReflTransGen.tail h ⟨a, hs⟩

theorem Reaches.trans {s t u : σ} (h : Reaches Step s t) (h' : Reaches Step t u) :
    Reaches Step s u := Relation.ReflTransGen.trans h h'

/-- **Invariants of interleavings.** -/
theorem reaches_inv {I : σ → Prop} (hstep : ∀ s a t, I s → Step s a t → I t) {s u : σ}
    (hs : I s) (h : Reaches Step s u) : I u := by
  induction h with
  | refl => exact hs
  | tail _ hst ih => obtain ⟨a, hst⟩ := hst; exact hstep _ a _ ih hst

/-- A schedule, run by a machine whose steps are steps of the threads. -/
theorem reaches_of_run {step : σ → α → Option σ} (hstep : ∀ s a t, step s a = some t → Step s a t)
    {as : List α} {s t : σ} (h : run step s as = some t) : Reaches Step s t := by
  induction as generalizing s with
  | nil => cases h; exact .refl _
  | cons a as ih =>
    obtain ⟨u, hu, hr⟩ := run_cons_eq_some.1 h
    exact ((Reaches.refl s).snoc (hstep s a u hu)).trans (ih hr)

/-- The steps that meet `C` with the states before and after them. -/
def Checked (C : σ → α → σ → Prop) (Step : σ → α → σ → Prop) : σ → α → σ → Prop :=
  fun s a t => C s a t ∧ Step s a t

/-- A machine that takes only the steps that meet `C`. -/
def check (C : σ → α → σ → Prop) [∀ s a t, Decidable (C s a t)] (step : σ → α → Option σ) :
    σ → α → Option σ := fun s a => (step s a).filter fun t => decide (C s a t)

theorem check_checked {C : σ → α → σ → Prop} [∀ s a t, Decidable (C s a t)] {step : σ → α → Option σ}
    (hstep : ∀ s a t, step s a = some t → Step s a t) {s t : σ} {a : α}
    (h : check C step s a = some t) : Checked C Step s a t := by
  obtain ⟨ht, hc⟩ := Option.filter_eq_some_iff.1 h
  exact ⟨of_decide_eq_true hc, hstep s a t ht⟩

theorem Reaches.of_guarded {C : σ → α → Prop} {s t : σ} (h : Reaches (Guarded C Step) s t) :
    Reaches Step s t := by
  refine Relation.ReflTransGen.mono ?_ _ _ h
  intro u v hst
  obtain ⟨a, hst⟩ := hst
  exact ⟨a, hst.2⟩

/-- A **history variable**: `h` updates it at each step, and no step looks at it. -/
def Recorded {β : Type*} (Step : σ → α → σ → Prop) (h : σ → α → σ → β → β) :
    σ × β → α → σ × β → Prop :=
  fun x a y => Step x.1 a y.1 ∧ y.2 = h x.1 a y.1 x.2

/-- A machine that records the history of its run. -/
def record {β : Type*} (step : σ → α → Option σ) (h : σ → α → σ → β → β) :
    σ × β → α → Option (σ × β) :=
  fun x a => (step x.1 a).map fun t => (t, h x.1 a t x.2)

theorem run_record {β : Type*} {step : σ → α → Option σ} {h : σ → α → σ → β → β} {as : List α}
    {s t : σ} (b : β) :
    run step s as = some t ↔ ∃ b', run (record step h) (s, b) as = some (t, b') := by
  induction as generalizing s b with
  | nil => simp
  | cons a as ih =>
    constructor
    · intro hr
      obtain ⟨u, hu, hr⟩ := run_cons_eq_some.1 hr
      obtain ⟨b', hb⟩ := (ih (h s a u b)).1 hr
      exact ⟨b', run_cons_eq_some.2 ⟨(u, h s a u b), by simp [record, hu], hb⟩⟩
    · intro hr
      obtain ⟨b', hr⟩ := hr
      obtain ⟨x, hx, hr⟩ := run_cons_eq_some.1 hr
      obtain ⟨u, hu, rfl⟩ := Option.map_eq_some_iff.1 hx
      exact run_cons_eq_some.2 ⟨u, hu, (ih _).2 ⟨b', hr⟩⟩

/-- A condition on the calls does not look at the history. -/
theorem called_record {β : Type*} {step : σ → α → Option σ} {h : σ → α → σ → β → β}
    {C : σ → α → Prop} {as : List α} {s : σ} (b : β) :
    Called (record step h) (fun x a => C x.1 a) (s, b) as ↔ Called step C s as := by
  induction as generalizing s b with
  | nil => exact Iff.rfl
  | cons a as ih =>
    constructor
    · intro hC
      refine ⟨hC.1, fun t ht => (ih (h s a t b)).1 (hC.2 _ ?_)⟩
      exact Option.map_eq_some_iff.2 ⟨t, ht, rfl⟩
    · intro hC
      refine ⟨hC.1, fun x hx => ?_⟩
      obtain ⟨t, ht, rfl⟩ := Option.map_eq_some_iff.1 hx
      exact (ih _).2 (hC.2 t ht)

/-- The values of `f` in the states that a run passes through. -/
def Seen {β : Type*} (step : σ → α → Option σ) (f : σ → β) (s : σ) (as : List α) : Set β :=
  {x | ∃ pre t, pre <+: as ∧ run step s pre = some t ∧ x = f t}

theorem seen_cons {β : Type*} {step : σ → α → Option σ} {f : σ → β} {s t : σ} {a : α} {as : List α}
    (h : step s a = some t) (x : β) : x ∈ Seen step f s (a :: as) ↔ x = f s ∨ x ∈ Seen step f t as := by
  constructor
  · intro hx
    obtain ⟨pre, u, hpre, hr, rfl⟩ := hx
    cases pre with
    | nil => cases hr; exact Or.inl rfl
    | cons b pre =>
      obtain ⟨rfl, hpre'⟩ := List.cons_prefix_cons.1 hpre
      obtain ⟨v, hv, hr⟩ := run_cons_eq_some.1 hr
      rw [h] at hv
      cases hv
      exact Or.inr ⟨pre, u, hpre', hr, rfl⟩
  · intro hx
    rcases hx with rfl | ⟨pre, u, hpre, hr, rfl⟩
    · exact ⟨[], s, List.nil_prefix, rfl, rfl⟩
    · exact ⟨a :: pre, u, List.cons_prefix_cons.2 ⟨rfl, hpre⟩, run_cons_eq_some.2 ⟨t, h, hr⟩, rfl⟩

theorem seen_start {β : Type*} (step : σ → α → Option σ) (f : σ → β) (s : σ) (as : List α) :
    f s ∈ Seen step f s as := ⟨[], s, List.nil_prefix, rfl, rfl⟩

/-- **A recorded maximum** is the greatest value seen, or the value it started with. -/
theorem record_max {β : Type*} [LinearOrder β] {step : σ → α → Option σ} {f : σ → β} {as : List α}
    {s t : σ} {m p : β} (hm : f s ≤ m)
    (h : run (record step fun _ _ u p => max p (f u)) (s, m) as = some (t, p)) :
    (p = m ∨ p ∈ Seen step f s as) ∧ m ≤ p ∧ ∀ x ∈ Seen step f s as, x ≤ p := by
  induction as generalizing s m with
  | nil =>
    cases h
    refine ⟨Or.inl rfl, le_rfl, ?_⟩
    intro x hx
    obtain ⟨pre, u, hpre, hr, rfl⟩ := hx
    rw [List.prefix_nil.1 hpre] at hr
    cases hr; exact hm
  | cons a as ih =>
    obtain ⟨x, hx, hr⟩ := run_cons_eq_some.1 h
    obtain ⟨u, hu, rfl⟩ := Option.map_eq_some_iff.1 hx
    obtain ⟨hp, hle, hub⟩ := ih (le_max_right m (f u)) hr
    refine ⟨?_, (le_max_left _ _).trans hle, ?_⟩
    · rcases hp with rfl | hp
      · -- the new maximum is the old one, or the value after the step
        rcases max_choice m (f u) with h | h
        · exact Or.inl h
        · exact Or.inr ((seen_cons hu _).2 (Or.inr (by rw [h]; exact seen_start step f u as)))
      · exact Or.inr ((seen_cons hu _).2 (Or.inr hp))
    · intro x hx
      rcases (seen_cons hu x).1 hx with rfl | hx
      · exact hm.trans ((le_max_left _ _).trans hle)
      · exact hub x hx

theorem record_isGreatest {β : Type*} [LinearOrder β] {step : σ → α → Option σ} {f : σ → β}
    {as : List α} {s t : σ} {p : β}
    (h : run (record step fun _ _ u p => max p (f u)) (s, f s) as = some (t, p)) :
    IsGreatest (Seen step f s as) p := by
  obtain ⟨hp, -, hub⟩ := record_max le_rfl h
  refine ⟨?_, hub⟩
  rcases hp with rfl | hp
  · exact seen_start step f s as
  · exact hp

theorem record_recorded {β : Type*} {step : σ → α → Option σ} {h : σ → α → σ → β → β}
    (hstep : ∀ s a t, step s a = some t → Step s a t) {x y : σ × β} {a : α}
    (hr : record step h x a = some y) : Recorded Step h x a y := by
  obtain ⟨t, ht, rfl⟩ := Option.map_eq_some_iff.1 hr
  exact ⟨hstep _ _ _ ht, rfl⟩

/-- **Runs that end.** A measure that goes down with every step leaves no infinite run. -/
theorem acc_of_measure {I : σ → Prop} (m : σ → ℕ)
    (hstep : ∀ s a t, I s → Step s a t → I t ∧ m t < m s) {s : σ} (hs : I s) :
    Acc (fun t s => ∃ a, Step s a t) s := by
  induction hm : m s using Nat.strongRecOn generalizing s with
  | _ k ih =>
    refine ⟨s, ?_⟩
    intro t ⟨a, ht⟩
    obtain ⟨hI, hlt⟩ := hstep s a t hs ht
    exact ih (m t) (hm ▸ hlt) hI rfl

end Interleaving

end OsLab.Lib
