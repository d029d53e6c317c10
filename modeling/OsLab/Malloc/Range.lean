import OsLab.Malloc.Invariant

/-!
# Indices into the simulated memory

`mem->mem` is an array of `capacity / sizeof(int)` ints, but `compute_mem_address` returns
a byte offset and the accessors and `printMemPage` use it as an index. The cell that slot
`j` of page `p` stands for is `20 * p + j`; the index used is four times that.

* `access_iff`: the accessors stay in range exactly when the cells of all live lists lie in
  the first quarter of the array.
* `print_iff`: `printMemPage` stays in range exactly when the memory has no page at all.
* `outOfRange_touches`: an offset past the capacity is not ignored, but sent to index `-1`.
-/

namespace OsLab.Malloc

open Lib

variable {c : Config} {s t : State}

/-- Number of elements of the array `mem->mem`. -/
def numInts (s : State) : ℕ := s.mem.capacity / sizeofInt

/-- Every index that `assignVal` and `getVal` compute for an offset below the capacity of a
live list exists and is inside `mem->mem`. -/
def AccessInRange (s : State) : Prop :=
  ∀ e ∈ live s, ∀ off < (s.symTable.entries e).capacity,
    ∃ a, computeMemAddress s e off = some a ∧ a < numInts s

/-- Every index that `printMemPage` reads for a page of the memory is inside `mem->mem`. -/
def PrintInRange (s : State) : Prop :=
  ∀ page < numPages s, ∀ i < numElemPerPage, printMemIndex page i < numInts s

/-- The last cell that a list of capacity `cap` uses on its `q`-th page, page `p`. -/
def lastCell (cap q p : ℕ) : ℕ :=
  p * numElemPerPage + (min numElemPerPage (cap - q * numElemPerPage) - 1)

/-- The pages of entry `e` cover its capacity, with cells in the first quarter of
`mem->mem` only. -/
def FirstQuarter (s : State) (e : ℕ) : Prop :=
  (s.symTable.entries e).capacity ≤ numElemPerPage * (pagesOf s e).length ∧
    ∀ q p, (pagesOf s e)[q]? = some p → q * numElemPerPage < (s.symTable.entries e).capacity →
      sizeofInt * lastCell (s.symTable.entries e).capacity q p < numInts s

theorem listPages_eq (hI : TableInv c s) {e : ℕ} (he : e ∈ live s) :
    (s.symTable.entries e).listPages = some (pagesOf s e) := by
  obtain ⟨ps, hps⟩ := Option.isSome_iff_exists.1 (hI.vec e he)
  unfold pagesOf; rw [hps, Option.getD_some]

/-- The address of an offset that the pages of the list cover. -/
theorem address_eq {e off p : ℕ} (hl : (s.symTable.entries e).listPages = some (pagesOf s e))
    (hoff : off < (s.symTable.entries e).capacity) (hoff' : off < 2 ^ 62)
    (hp : (pagesOf s e)[off / numElemPerPage]? = some p) :
    computeMemAddress s e off =
      some (u64 (p * pageSize + off % numElemPerPage * sizeofInt)) := by
  have h1 : u64 (off * sizeofInt) = off * sizeofInt := Nat.mod_eq_of_lt (by unfold sizeofInt; omega)
  have h2 : off * sizeofInt / pageSize = off / numElemPerPage := by
    unfold pageSize sizeofInt numElemPerPage; omega
  have h3 : off * sizeofInt % pageSize = off % numElemPerPage * sizeofInt := by
    unfold pageSize sizeofInt numElemPerPage; omega
  unfold computeMemAddress
  rw [if_neg (not_le.2 hoff), hl, h1, h2, h3]
  simp only [Option.bind_eq_bind, Option.bind_some, hp]

theorem pagesOf_length (hP : PageInv s) {e : ℕ} (he : e ∈ live s) :
    (pagesOf s e).length ≤ numPages s := by
  obtain ⟨⟨k, e'⟩, hm, rfl⟩ := List.mem_map.1 he
  have hsub : (pagesOf s e').Sublist (allPages s) := by
    refine List.Sublist.trans ?_ (List.sublist_append_right (freePages s) _)
    obtain ⟨l₁, l₂, hl⟩ := List.append_of_mem hm
    unfold heldPages
    rw [hl, List.flatMap_append, List.flatMap_cons]
    exact (List.sublist_append_left _ _).trans (List.sublist_append_right _ _)
  exact hsub.length_le.trans hP.total

/-- **The accessors.** -/
theorem access_iff (hI : TableInv c s) (hP : PageInv s) (hcap : s.mem.capacity < 2 ^ 64) :
    AccessInRange s ↔ ∀ e ∈ live s, FirstQuarter s e := by
  have hP80 : 80 * numPages s ≤ s.mem.capacity := by
    unfold numPages pageSize numElemPerPage sizeofInt; omega
  have hints : numInts s < 2 ^ 62 := by unfold numInts sizeofInt; omega
  constructor
  · intro h e he
    have hl := listPages_eq hI he
    have hlen := pagesOf_length hP he
    have hcov : (s.symTable.entries e).capacity ≤ numElemPerPage * (pagesOf s e).length := by
      -- the first offset past the pages would read past the end of the page vector
      by_contra hlt
      push Not at hlt
      obtain ⟨a, ha, -⟩ := h e he _ hlt
      have h1 : u64 (numElemPerPage * (pagesOf s e).length * sizeofInt) / pageSize =
          (pagesOf s e).length := by
        unfold u64 pageSize sizeofInt numElemPerPage; omega
      unfold computeMemAddress at ha
      rw [if_neg (not_le.2 hlt), hl, h1] at ha
      simp at ha
    refine ⟨hcov, ?_⟩
    intro q p hq hqc
    have hqlen : q < (pagesOf s e).length := (List.getElem?_eq_some_iff.1 hq).1
    set cap := (s.symTable.entries e).capacity
    obtain ⟨j, hj⟩ : ∃ j, j = min numElemPerPage (cap - q * numElemPerPage) - 1 := ⟨_, rfl⟩
    have hj20 : j < 20 ∧ q * 20 + j < cap := by
      unfold numElemPerPage at hj hqc; omega
    -- the last offset on the page has the largest index
    obtain ⟨a, ha, hlt⟩ := h e he (q * 20 + j) hj20.2
    have hdiv : (q * 20 + j) / numElemPerPage = q := by unfold numElemPerPage; omega
    have hmod : (q * 20 + j) % numElemPerPage = j := by unfold numElemPerPage; omega
    rw [address_eq hl hj20.2 (by omega) (by rw [hdiv]; exact hq), hmod] at ha
    simp only [Option.some.injEq] at ha
    have hpr := page_range (hP.held p (by
      obtain ⟨⟨k, e'⟩, hm, rfl⟩ := List.mem_map.1 he
      exact mem_heldPages hm (List.mem_of_getElem? hq)))
    unfold lastCell
    rw [← hj]
    clear hj
    unfold u64 pageSize at ha
    unfold sizeofInt numElemPerPage at ha ⊢
    -- a negative page number would wrap to an index far past the end
    rcases hpr with hp | hp
    · rw [Nat.mod_eq_of_lt (by omega)] at ha; omega
    · rw [show p * (20 * 4) + j * 4 = (p * 80 + j * 4 - 79 * 2 ^ 64) + 2 ^ 64 * 79 by omega,
        Nat.add_mul_mod_self_left, Nat.mod_eq_of_lt (by omega)] at ha
      omega
  · intro h e he off hoff
    obtain ⟨hcov, hq⟩ := h e he
    have hl := listPages_eq hI he
    have hlen := pagesOf_length hP he
    have hqlen : off / numElemPerPage < (pagesOf s e).length := by
      unfold numElemPerPage at hcov ⊢; omega
    have hp := List.getElem?_eq_getElem hqlen
    have hlast := hq _ _ hp (by unfold numElemPerPage; omega)
    refine ⟨_, address_eq hl hoff (by unfold numElemPerPage at hcov; omega) hp, ?_⟩
    unfold lastCell at hlast
    unfold u64 pageSize
    unfold sizeofInt numElemPerPage at hlast ⊢
    omega

/-- **The page printer.** -/
theorem print_iff (hcap : s.mem.capacity < 2 ^ 64) : PrintInRange s ↔ numPages s = 0 := by
  constructor
  · intro h
    by_contra hne
    -- the last value of the last page
    have hlt := h (numPages s - 1) (by omega) 19 (by unfold numElemPerPage; omega)
    have hP80 : 80 * numPages s ≤ s.mem.capacity ∧ s.mem.capacity < 80 * numPages s + 80 := by
      unfold numPages pageSize numElemPerPage sizeofInt; omega
    unfold printMemIndex u64 numInts sizeofInt numElemPerPage at hlt
    rw [Nat.mod_eq_of_lt (a := (numPages s - 1) * 20 + 19) (by omega),
      Nat.mod_eq_of_lt (by omega)] at hlt
    omega
  · intro h page hpage
    omega

/-- **When the indices are in range.** For every memory size, in every state of every run:
the accessors stay inside `mem->mem` if and only if every live list has its cells in the
first quarter of it, and `printMemPage` does if and only if the memory has no page. -/
theorem inRange_iff (c : Config) (size : ℕ) (ops : List Op) :
    Throughout (step c) (fun s => (AccessInRange s ↔ ∀ e ∈ live s, FirstQuarter s e) ∧
      (PrintInRange s ↔ numPages s = 0)) (createMem c size) ops := by
  refine throughout_of_along (C := fun _ _ => True)
    (I := fun s => (TableInv c s ∧ PageInv s) ∧ s.mem.capacity < 2 ^ 64) ?_ ?_ ?_ ?_
  · intro s hs
    exact ⟨access_iff hs.1.1 hs.1.2 hs.2, print_iff hs.2⟩
  · intro s op t hs _ ht
    refine ⟨inv_step hs.1.1 hs.1.2 ht, ?_⟩
    rw [capacity_step hs.1.1 ht]
    exact hs.2
  · refine ⟨⟨tableInv_init size, pageInv_init size⟩, ?_⟩
    rw [createMem_capacity]; exact Nat.mod_lt _ (by norm_num)
  · exact along_true _ _

/-- A list that fills the only page of the memory: offset `5` is already out of range, and so
is the sixth value that `printMemPage` reads. -/
theorem index_past_end : ∃ s,
    run (step .shipped) (createMem .shipped 80) [.initScope, .createList 20 "list1"] = some s ∧
      ¬ AccessInRange s ∧ ¬ PrintInRange s := by
  have hrun : (run (step .shipped) (createMem .shipped 80)
      [.initScope, .createList 20 "list1"]).map (fun s => (live s,
        (s.symTable.entries 0).capacity, computeMemAddress s 0 5, numInts s, numPages s)) =
        some ([0], 20, some 20, 20, 1) := by decide +kernel
  obtain ⟨s, hs, heq⟩ := Option.map_eq_some_iff.1 hrun
  simp only [Prod.mk.injEq] at heq
  obtain ⟨h1, h2, h3, h4, h5⟩ := heq
  refine ⟨s, hs, ?_, ?_⟩
  · intro h
    obtain ⟨a, ha, hlt⟩ := h 0 (by rw [h1]; exact List.mem_singleton_self 0) 5 (by omega)
    rw [h3] at ha
    cases ha
    omega
  · intro h
    have hlt := h 0 (by omega) 5 (by decide)
    rw [h4] at hlt
    exact absurd hlt (by decide)

/-! ## Offsets past the capacity -/

theorem computeMemAddress_oob {e off : ℕ} (hoff : (s.symTable.entries e).capacity ≤ off) :
    computeMemAddress s e off = some negOne := by
  unfold computeMemAddress; rw [if_pos hoff]

/-- `assignVal` changes nothing. -/
def AssignKeeps (s : State) (name : String) (off : ℕ) (v : ℤ) : Prop :=
  assignVal s name off v = some s

/-- `getVal` leaves `*value` alone, whatever the memory holds: it reads nothing. -/
def GetKeeps (s : State) (name : String) (off : ℕ) : Prop :=
  ∀ (m : ℕ → ℤ) (v : ℤ), getVal { s with mem := { s.mem with mem := m } } name off v = some v

variable {name : String} {e off : ℕ}

theorem assignVal_oob (v : ℤ) (hr : resolve s name = some e)
    (hoff : (s.symTable.entries e).capacity ≤ off) :
    assignVal s name off v = some (written s e negOne v) := by
  unfold assignVal
  rw [hr]
  simp only [assignEntry_eq, computeMemAddress_oob hoff, Option.map_some]

theorem getVal_oob (v : ℤ) (hr : resolve s name = some e)
    (hoff : (s.symTable.entries e).capacity ≤ off) :
    getVal s name off v = some (s.mem.mem negOne) := by
  rw [getVal_eq v hr, computeMemAddress_oob hoff, Option.map_some]

/-- Every write counts. -/
theorem written_size (s : State) (e a : ℕ) (v : ℤ) :
    ((written s e a v).symTable.entries e).size = u64 ((s.symTable.entries e).size + 1) := by
  simp only [written, State.setEntry, Function.update_self]

theorem written_size_ne (s : State) (e a : ℕ) (v : ℤ) :
    ((written s e a v).symTable.entries e).size ≠ (s.symTable.entries e).size := by
  rw [written_size]
  unfold u64
  omega

theorem not_assignKeeps (v : ℤ) (hr : resolve s name = some e)
    (hoff : (s.symTable.entries e).capacity ≤ off) : ¬ AssignKeeps s name off v := by
  intro h
  unfold AssignKeeps at h
  rw [assignVal_oob v hr hoff, Option.some_inj] at h
  exact written_size_ne s e negOne v (by rw [h])

theorem not_getKeeps (hr : resolve s name = some e)
    (hoff : (s.symTable.entries e).capacity ≤ off) : ¬ GetKeeps s name off := by
  intro h
  -- what the place `-1` holds is what the caller gets
  have h1 := h (fun _ => 1) 0
  rw [getVal_oob (s := { s with mem := { s.mem with mem := fun _ => 1 } }) 0 hr hoff] at h1
  exact absurd (Option.some_inj.1 h1) one_ne_zero

/-- **Offsets past the capacity** are never ignored: `assignVal` writes the place `-1` and counts
the write, and `getVal` reads that place. -/
theorem outOfRange_touches (v : ℤ) (hr : resolve s name = some e)
    (hoff : (s.symTable.entries e).capacity ≤ off) :
    (assignVal s name off v = some (written s e negOne v) ∧
      ((written s e negOne v).symTable.entries e).size ≠ (s.symTable.entries e).size ∧
      ¬ AssignKeeps s name off v) ∧
    (∀ w, getVal s name off w = some (s.mem.mem negOne)) ∧ ¬ GetKeeps s name off :=
  ⟨⟨assignVal_oob v hr hoff, written_size_ne s e negOne v, not_assignKeeps v hr hoff⟩,
    fun w => getVal_oob w hr hoff, not_getKeeps hr hoff⟩

/-- A list of one element, created in the first scope. -/
theorem run_oneElement : ∃ s,
    run (step .shipped) (createMem .shipped 80) [.initScope, .createList 1 "list1"] = some s ∧
      resolve s "list1" = some 0 ∧ (s.symTable.entries 0).capacity = 1 := by
  have hrun : (run (step .shipped) (createMem .shipped 80)
      [.initScope, .createList 1 "list1"]).map (fun s => (resolve s "list1",
        (s.symTable.entries 0).capacity)) = some (some 0, 1) := by decide +kernel
  obtain ⟨s, hs, heq⟩ := Option.map_eq_some_iff.1 hrun
  simp only [Prod.mk.injEq] at heq
  exact ⟨s, hs, heq⟩

/-- Offset 1 of a list of one element. -/
theorem offset_past_end : ∃ s,
    run (step .shipped) (createMem .shipped 80) [.initScope, .createList 1 "list1"] = some s ∧
      resolve s "list1" = some 0 ∧ (s.symTable.entries 0).capacity = 1 ∧
      ¬ AssignKeeps s "list1" 1 7 ∧ ¬ GetKeeps s "list1" 1 := by
  obtain ⟨s, hs, hr, hcap⟩ := run_oneElement
  exact ⟨s, hs, hr, hcap, not_assignKeeps 7 hr hcap.le, not_getKeeps hr hcap.le⟩

/-- What happens to the list of one element. -/
theorem outOfRange_touches_list1 : ∃ s,
    run (step .shipped) (createMem .shipped 80) [.initScope, .createList 1 "list1"] = some s ∧
      assignVal s "list1" 1 7 = some (written s 0 negOne 7) ∧
      ∀ w, getVal s "list1" 1 w = some (s.mem.mem negOne) := by
  obtain ⟨s, hs, hr, hcap⟩ := run_oneElement
  have h := outOfRange_touches 7 hr hcap.le
  exact ⟨s, hs, h.1.1, h.2.1⟩

end OsLab.Malloc
