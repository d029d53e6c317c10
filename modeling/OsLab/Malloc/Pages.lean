import OsLab.Malloc.Invariant

/-!
# Page conservation

Every page is either free or held by one live list as long as no list with pages ends with
its scope: `Sym_Table::deleteEntry`, which `endScope` calls, clears the page vector
without pushing its pages back, while `freeList` pushes them.

* `conserved_iff`: a run conserves the pages in every state exactly when the memory has at
  most `2^31` pages (page numbers are stored in a heap of `int`) and no `endScope` of the run
  deletes a list that holds pages.
-/

namespace OsLab.Malloc

open Lib

variable {c : Config} {s t : State}

/-- Every page number is in exactly one place, `free_list` or the page vector of one live
list, and `num_free_pages` counts `free_list`. -/
def PagesConserved (s : State) : Prop :=
  (∀ p < numPages s, (freePages s).count p + (heldPages s).count p = 1) ∧
    s.mem.numFreePages = s.mem.freeList.length

/-- An `endScope` finds no list to delete, or one without pages. -/
def NoLeak (s : State) (op : Op) : Prop :=
  op = .endScope → ∀ k e, firstInScope s = some (k, e) → pagesOf s e = []

/-- A call only moves pages, unless it is an `endScope` that deletes a list. -/
theorem allPages_step {op : Op} (hI : TableInv c s) (hP : PageInv s) (h : step c s op = some t) :
    (allPages t).Perm (allPages s) ∨
      ∃ k e, op = .endScope ∧ firstInScope s = some (k, e) ∧
        (allPages s).Perm (pagesOf s e ++ allPages t) := by
  rcases step_cases hI.keys h with ⟨hs, -⟩ | ⟨size, name, -, hc, -, -, rfl⟩ |
    ⟨k, e, hop, hfi, hf, rfl⟩ | ⟨name, e, -, hf, rfl⟩
  · exact Or.inl (List.Perm.of_eq hs.allPages)
  · exact Or.inl (allPages_created hI hc)
  · exact Or.inr ⟨k, e, hop, hfi, allPages_dropped hI hf _⟩
  · exact Or.inl (allPages_freed hI hf fun p hp => hP.held p (mem_heldPages (mem_of_find hf) hp))

/-- Conservation says that the pages in use and the free ones are the pages of the memory. -/
theorem conserved_iff_perm (hP : PageInv s) :
    PagesConserved s ↔ (allPages s).Perm (List.range (numPages s)) := by
  constructor
  · intro h
    obtain ⟨hcount, -⟩ := h
    -- all page numbers occur, and there are no more places than pages
    have hsub : (List.range (numPages s)).Subperm (allPages s) := by
      apply List.subperm_of_subset List.nodup_range
      intro p hp
      apply List.count_pos_iff.1
      have := hcount p (List.mem_range.1 hp)
      unfold allPages; rw [List.count_append]; omega
    exact (hsub.perm_of_length_le (by rw [List.length_range]; exact hP.total)).symm
  · intro hp
    refine ⟨fun p hlt => ?_, hP.count⟩
    rw [← List.count_append]
    exact (hp.count_eq p).trans
      (List.count_eq_one_of_mem List.nodup_range (List.mem_range.2 hlt))

/-- The initial state conserves the pages exactly when every page number is an `int`. -/
theorem conserved_init_iff {size : ℕ} :
    PagesConserved (createMem c size) ↔ numPages (createMem c size) ≤ 2 ^ 31 := by
  rw [conserved_iff_perm (pageInv_init size), allPages_init]
  have hfree := freePages_init_perm (c := c) size
  constructor
  · intro h
    by_contra hlt
    push Not at hlt
    -- page `2 ^ 31` is not the image of an `int`
    obtain ⟨i, -, hi⟩ := List.mem_map.1
      ((h.symm.trans hfree).mem_iff.1 (List.mem_range.2 hlt))
    have := page_range (p := 2 ^ 31) (by rw [← hi, toInt_toULong_toInt])
    omega
  · intro h
    refine hfree.trans (List.Perm.of_eq ?_)
    calc (List.range (numPages (createMem c size))).map (fun i => toULong (toInt i))
        = (List.range (numPages (createMem c size))).map id :=
          List.map_congr_left fun i hi => toULong_toInt (by have := List.mem_range.1 hi; omega)
      _ = List.range (numPages (createMem c size)) := List.map_id _

/-- **When the allocator conserves its pages.** In every run, all states conserve the pages
if and only if the memory has at most `2^31` pages and no scope ends with a list that
still holds pages. -/
theorem conserved_iff (c : Config) (size : ℕ) (ops : List Op) :
    Throughout (step c) PagesConserved (createMem c size) ops ↔
      numPages (createMem c size) ≤ 2 ^ 31 ∧
        Along (step c) NoLeak (createMem c size) ops := by
  constructor
  · intro h
    refine ⟨conserved_init_iff.1 (throughout_head h), ?_⟩
    refine along_of_throughout (I := fun s => TableInv c s ∧ PageInv s)
      (fun _ _ _ hs ht => inv_step hs.1 hs.2 ht) ?_ ⟨tableInv_init size, pageInv_init size⟩ h
    -- a page of the deleted list would be counted once before the step and once after it
    intro s op t hinv hs ht hstep hop k e hfi
    obtain ⟨hI, hP⟩ := hinv
    subst hop
    have hPt := (inv_step hI hP hstep).2
    rw [conserved_iff_perm hP] at hs
    rw [conserved_iff_perm hPt, numPages_step hI hstep] at ht
    rcases endScope_cases hI.keys hstep with ⟨hn, -⟩ | ⟨k', e', hfi', hf, rfl⟩
    · rw [hn] at hfi; cases hfi
    · rw [hfi'] at hfi; cases hfi
      have hlen := ((allPages_dropped hI hf (s.currScope - 1)).symm.trans (hs.trans ht.symm)).length_eq
      rw [List.length_append] at hlen
      exact List.eq_nil_of_length_eq_zero (by omega)
  · intro h
    obtain ⟨hsz, hno⟩ := h
    refine throughout_of_along
      (I := fun s => (TableInv c s ∧ PageInv s) ∧ (allPages s).Perm (List.range (numPages s)))
      (fun s hs => (conserved_iff_perm hs.1.2).2 hs.2) ?_
      ⟨⟨tableInv_init size, pageInv_init size⟩,
        (conserved_iff_perm (pageInv_init size)).1 (conserved_init_iff.2 hsz)⟩ hno
    intro s op t hinv hC hstep
    obtain ⟨⟨hI, hP⟩, hs⟩ := hinv
    refine ⟨inv_step hI hP hstep, ?_⟩
    rw [numPages_step hI hstep]
    rcases allPages_step hI hP hstep with h | ⟨k, e, hop, hfi, h⟩
    · exact h.trans hs
    · rw [hC hop k e hfi, List.nil_append] at h
      exact h.symm.trans hs

/-- The page of a list that ends with its scope is nowhere afterwards. -/
theorem endScope_leaks : ∃ s,
    run (step .shipped) (createMem .shipped 80)
      [.initScope, .createList 20 "list1", .endScope] = some s ∧ ¬ PagesConserved s := by
  have hrun : (run (step .shipped) (createMem .shipped 80)
      [.initScope, .createList 20 "list1", .endScope]).map
        (fun s => (numPages s, freePages s, heldPages s)) = some (1, [], []) := by decide +kernel
  obtain ⟨s, hs, heq⟩ := Option.map_eq_some_iff.1 hrun
  simp only [Prod.mk.injEq] at heq
  obtain ⟨h1, h2, h3⟩ := heq
  refine ⟨s, hs, ?_⟩
  intro h
  have := h.1 0 (by omega)
  rw [h2, h3] at this
  simp at this

end OsLab.Malloc
