import OsLab.Malloc.Invariant

/-!
# Scope hygiene

`endScope` is to delete all lists of the scope it ends, but its loop stops after the first
one. With two lists in a scope the second survives, deeper than the current scope, and is
there again when a scope is opened at the same depth.

* `hygiene_iff`: a run keeps every key at or above the current scope exactly when each of
  its `endScope` calls finds at most one list in the scope it ends.
-/

namespace OsLab.Malloc

open Lib

variable {c : Config} {s t : State}

/-- No list is deeper than the current scope. -/
def ScopeHygiene (s : State) : Prop := ∀ p ∈ s.listMap, p.1.1 ≤ s.currScope

/-- The lists of the current scope. -/
def inScope (s : State) : List (Key × ℕ) := s.listMap.filter fun p => p.1.1 = s.currScope

/-- An `endScope` finds at most one list in the scope it ends. -/
def AtMostOne (s : State) (op : Op) : Prop := op = .endScope → (inScope s).length ≤ 1

/-- The other lists of the scope survive its end. -/
theorem inScope_endScope (hk : (keys s.listMap).Nodup) (h : endScope s = some t) :
    t.currScope = s.currScope - 1 ∧
      ∃ p : Option (Key × ℕ), firstInScope s = p ∧ s.listMap.Perm (p.toList ++ t.listMap) := by
  rcases endScope_cases hk h with ⟨hn, rfl⟩ | ⟨k, e, hfi, hf, rfl⟩
  · exact ⟨rfl, none, hn, List.Perm.refl _⟩
  · exact ⟨rfl, some (k, e), hfi, erase_perm hk hf⟩

/-- **One `endScope`.** It restores hygiene exactly when the scope had at most one list. -/
theorem hygiene_endScope (hk : (keys s.listMap).Nodup) (hs : ScopeHygiene s)
    (h : endScope s = some t) : ScopeHygiene t ↔ (inScope s).length ≤ 1 := by
  obtain ⟨hcs, p, hfi, hperm⟩ := inScope_endScope hk h
  have hfilter := hperm.filter fun p => p.1.1 = s.currScope
  rw [List.filter_append] at hfilter
  have hlen := hfilter.length_eq
  rw [List.length_append] at hlen
  have hp : (p.toList.filter fun p => p.1.1 = s.currScope) = p.toList := by
    apply List.filter_eq_self.2
    intro q hq
    obtain rfl : p = some q := by cases p <;> simp_all
    simpa using (firstInScope_mem hfi).2
  rw [hp] at hlen
  have hlen : (inScope s).length =
      p.toList.length + (t.listMap.filter fun p => p.1.1 = s.currScope).length := hlen
  -- what is too deep after the step is what is left of the scope
  have hrest : ScopeHygiene t ↔ (t.listMap.filter fun p => p.1.1 = s.currScope) = [] := by
    rw [List.filter_eq_nil_iff]
    constructor
    · intro ht q hq
      have := ht q hq
      simp only [decide_eq_true_eq]; omega
    · intro ht q hq
      have h1 := hs q (hperm.mem_iff.2 (List.mem_append_right _ hq))
      have h2 := ht q hq
      simp only [decide_eq_true_eq] at h2
      omega
  rw [hrest, ← List.length_eq_zero_iff]
  cases p with
  | none =>
    -- no list was found: none is left, and none was there
    have hno := firstInScope_none hfi
    have h0 : (inScope s).length = 0 := by
      rw [List.length_eq_zero_iff]
      apply List.filter_eq_nil_iff.2
      intro q hq
      simpa using hno q hq
    omega
  | some q => simp only [Option.toList_some, List.length_singleton] at hlen; omega

theorem hygiene_other {op : Op} (hs : ScopeHygiene s) (hop : op ≠ .endScope)
    (h : step c s op = some t) : ScopeHygiene t := by
  cases op with
  | initScope =>
    obtain ⟨-, rfl⟩ := initScope_eq h
    intro p hp
    have := hs p hp
    simp only; omega
  | endScope => exact absurd rfl hop
  | createList size name =>
    obtain ⟨⟨u, r⟩, hu, rfl⟩ := Option.map_eq_some_iff.1 h
    rcases createList_cases hu with ⟨-, rfl, -⟩ | ⟨hc, -, -, -, rfl⟩
    · exact hs
    · intro p hp
      rcases List.mem_cons.1 ((insert_perm hc.fresh).mem_iff.1 hp) with h | h
      · subst h; exact le_rfl
      · exact hs p h
  | assignVal name off v =>
    rcases assignVal_cases h with ⟨-, rfl⟩ | ⟨e, a, -, -, rfl⟩
    · exact hs
    · exact hs
  | getVal name off => obtain ⟨_, -, rfl⟩ := Option.map_eq_some_iff.1 h; exact hs
  | freeList name =>
    rcases freeList_cases h with ⟨-, rfl⟩ | ⟨e, hf, rfl⟩
    · exact hs
    · intro p hp
      exact hs p (List.mem_of_mem_filter hp)

/-- A scope opened in a hygienic state starts empty, so that it can create any name. -/
theorem initScope_empty (hs : ScopeHygiene s) (h : initScope s = some t) :
    inScope t = [] ∧ ∀ name, find t.listMap (t.currScope, name) = none := by
  obtain ⟨-, rfl⟩ := initScope_eq h
  have hne : ∀ p ∈ s.listMap, p.1.1 ≠ s.currScope + 1 := by
    intro p hp; have := hs p hp; omega
  refine ⟨List.filter_eq_nil_iff.2 fun p hp => by simpa using hne p hp, ?_⟩
  intro name
  rw [find_eq_none_iff]
  intro hk
  obtain ⟨p, hp, hpk⟩ := List.mem_map.1 hk
  exact hne p hp (congrArg Prod.fst hpk)

theorem hygiene_of_atMostOne {size : ℕ} {ops : List Op}
    (h : Along (step c) AtMostOne (createMem c size) ops) :
    Throughout (step c) ScopeHygiene (createMem c size) ops := by
  refine throughout_of_along
    (I := fun s => (TableInv c s ∧ PageInv s) ∧ ScopeHygiene s) (fun s hs => hs.2) ?_
    ⟨⟨tableInv_init size, pageInv_init size⟩, fun p hp => absurd hp List.not_mem_nil⟩ h
  intro s op t hinv hC hstep
  obtain ⟨⟨hI, hP⟩, hs⟩ := hinv
  refine ⟨inv_step hI hP hstep, ?_⟩
  by_cases hop : op = .endScope
  · subst hop
    exact (hygiene_endScope hI.keys hs hstep).2 (hC rfl)
  · exact hygiene_other hs hop hstep

/-- **When scopes leave nothing behind.** In every run, no list is ever deeper than the
current scope if and only if every scope that ends has at most one list; and then a scope
opened at the end of the run has no list yet, whatever its depth was used for before. -/
theorem hygiene_iff (c : Config) (size : ℕ) (ops : List Op) :
    (Throughout (step c) ScopeHygiene (createMem c size) ops ↔
      Along (step c) AtMostOne (createMem c size) ops) ∧
    (Along (step c) AtMostOne (createMem c size) ops → ∀ s t,
      run (step c) (createMem c size) ops = some s → initScope s = some t →
      inScope t = [] ∧ ∀ name, find t.listMap (t.currScope, name) = none) := by
  refine ⟨⟨?_, hygiene_of_atMostOne⟩, ?_⟩
  · -- an `endScope` after which nothing is too deep has found at most one list
    refine along_of_throughout (I := fun s => TableInv c s ∧ PageInv s)
      (fun _ _ _ hs h => inv_step hs.1 hs.2 h) ?_ ⟨tableInv_init size, pageInv_init size⟩
    intro s op t hinv hs ht hstep hop
    subst hop
    exact (hygiene_endScope hinv.1.keys hs hstep).1 ht
  · intro h s t hrun ht
    exact initScope_empty (throughout_last (hygiene_of_atMostOne h) hrun) ht

/-- Two lists in a scope: the second one is still there after the scope has ended. -/
theorem endScope_leaves_list : ∃ s,
    run (step .shipped) (createMem .shipped 160)
      [.initScope, .createList 20 "list1", .createList 20 "list2", .endScope] = some s ∧
      ¬ ScopeHygiene s := by
  have hrun : (run (step .shipped) (createMem .shipped 160)
      [.initScope, .createList 20 "list1", .createList 20 "list2", .endScope]).map
        (fun s => (s.listMap, s.currScope)) = some ([((0, "list2"), 1)], -1) := by decide +kernel
  obtain ⟨s, hs, heq⟩ := Option.map_eq_some_iff.1 hrun
  simp only [Prod.mk.injEq] at heq
  obtain ⟨h1, h2⟩ := heq
  refine ⟨s, hs, ?_⟩
  intro h
  have := h ((0, "list2"), 1) (by rw [h1]; exact List.mem_cons_self)
  rw [h2] at this
  exact absurd this (by decide)

end OsLab.Malloc
