import OsLab.Malloc.Memory
import OsLab.Lib.Blocks

/-!
# `printList`

`printList` prints the pages of a list one after another. `printMemPage` computes the index of a
value from the number of the page and not through `compute_mem_address`, and it prints nothing
for a page number that is no page of the memory: the heap of `int` renames the pages from `2^31`
on to such numbers.

* `printMemPage_eq`: on a page of the memory both ways lead to the same index.
* `printList_agrees_iff`: what is printed is what `getVal` returns exactly when all pages of the
  list are pages of the memory and an `int` can count them.
-/

namespace OsLab.Malloc

open Lib

variable {c : Config} {s t : State} {name : String} {e off : ℕ}

/-- `printList`: the values printed. The `int` counter of its loop overflows on vectors of `2^31`
pages. -/
def printList (s : State) (listName : String) : Option (List ℤ) :=
  match resolve s listName with
  | none => some []
  | some entryNum => do
    let pages ← (s.symTable.entries entryNum).listPages
    if (pages.length : ℤ) ≤ intMax then some (pages.flatMap (printMemPage s.mem)) else none

/-- `printList` prints as many values as the pages hold, and at every offset of the list the value
that `getVal` returns. -/
def PrintAgrees (s : State) (name : String) (e : ℕ) : Prop :=
  ∃ out, printList s name = some out ∧ out.length = numElemPerPage * (pagesOf s e).length ∧
    ∀ off < (s.symTable.entries e).capacity,
      ∃ v, out[off]? = some v ∧ ∀ w, getVal s name off w = some v

theorem printMemPage_length (m : MemBlock) (p : ℕ) :
    (printMemPage m p).length = if m.capacity / pageSize ≤ p then 0 else numElemPerPage := by
  unfold printMemPage
  split_ifs
  · rfl
  · rw [List.length_map, List.length_range]

/-- A page is printed in full exactly when it is a page of the memory. -/
theorem printMemPage_full (p : ℕ) :
    (printMemPage s.mem p).length = numElemPerPage ↔ p < numPages s := by
  rw [printMemPage_length]
  unfold numPages numElemPerPage
  split_ifs with h
  · exact iff_of_false (by norm_num) (not_lt.2 h)
  · exact iff_of_true rfl (not_le.1 h)

/-- The `i`-th value printed for a page of the memory is at the address of that cell. -/
theorem printMemPage_eq {p i : ℕ} (hcap : s.mem.capacity < 2 ^ 64) (hp : p < numPages s)
    (hi : i < numElemPerPage) :
    (printMemPage s.mem p)[i]? = some (s.mem.mem (u64 (p * pageSize + i * sizeofInt))) := by
  have hsmall : 80 * p + 80 ≤ s.mem.capacity := by
    unfold numPages pageSize numElemPerPage sizeofInt at hp; omega
  unfold numElemPerPage at hi
  -- neither product wraps around
  have hindex : printMemIndex p i = u64 (p * pageSize + i * sizeofInt) := by
    unfold printMemIndex u64 pageSize numElemPerPage sizeofInt
    rw [Nat.mod_eq_of_lt (a := p * 20 + i) (by omega)]
    congr 1; omega
  unfold printMemPage
  rw [if_neg (show ¬ s.mem.capacity / pageSize ≤ p from not_le.2 hp), List.getElem?_map,
    List.getElem?_range (by unfold numElemPerPage; omega), Option.map_some, hindex]

/-- All that the lists of a run with sizes below `2^62` have in common. -/
def Sized (s : State) : Prop :=
  Entries (fun capacity pages => capacity < 2 ^ 62 ∧ pages.length = numPagesReq capacity) s

theorem sized_step {op : Op} (hsz : SmallSize op) (hI : TableInv c s) (hs : Sized s)
    (h : step c s op = some t) : Sized t := by
  refine entries_step hs hI ?_ h
  intro size name hop hlen
  refine ⟨hsz size name hop, ?_⟩
  rw [List.length_map, List.length_take_of_le hlen]

/-- **In one state.** -/
theorem printAgrees_iff (hI : TableInv c s) (hs : Sized s) (hcap : s.mem.capacity < 2 ^ 64)
    (hr : resolve s name = some e) :
    PrintAgrees s name e ↔
      ((pagesOf s e).length : ℤ) ≤ intMax ∧ ∀ p ∈ pagesOf s e, p < numPages s := by
  have he := resolve_live hr
  have hl := listPages_eq hI he
  have hle : ∀ p ∈ pagesOf s e, (printMemPage s.mem p).length ≤ numElemPerPage := by
    intro p _
    rw [printMemPage_length]
    split_ifs
    · exact Nat.zero_le _
    · exact le_rfl
  have hfull := length_flatMap_eq_iff hle
  simp only [printMemPage_full] at hfull
  unfold PrintAgrees printList
  rw [hr]
  simp only [hl, Option.bind_eq_bind, Option.bind_some]
  constructor
  · intro h
    obtain ⟨out, hout, hlen, -⟩ := h
    split_ifs at hout with hmax
    cases hout
    exact ⟨hmax, hfull.1 hlen⟩
  · intro h
    obtain ⟨hmax, hpages⟩ := h
    refine ⟨_, if_pos hmax, hfull.2 hpages, ?_⟩
    intro off hoff
    -- the offset is on a page of the list
    obtain ⟨hsize, hreq⟩ := hs e he
    have hcov := numPagesReq_cover hsize (by unfold intMax at hmax; omega)
    have hlt : off / numElemPerPage < (pagesOf s e).length := by
      unfold numElemPerPage at hcov ⊢; omega
    have hi : off % numElemPerPage < numElemPerPage := Nat.mod_lt _ (by decide)
    have hpage := List.getElem?_eq_getElem hlt
    refine ⟨s.mem.mem (u64 ((pagesOf s e)[off / numElemPerPage] * pageSize +
      off % numElemPerPage * sizeofInt)), ?_, fun w => ?_⟩
    · have hblock := getElem?_flatMap_block
        (fun p hp => (printMemPage_full (s := s) p).2 (hpages p hp)) (off / numElemPerPage) hi
      rw [Nat.div_add_mod] at hblock
      rw [hblock, hpage, Option.bind_some]
      exact printMemPage_eq hcap (hpages _ (List.getElem_mem hlt)) hi
    · rw [getVal_eq w hr, address_eq hl hoff (by omega) hpage, Option.map_some]

/-- **`printList` and `getVal` see the same list** if and only if an `int` can count the pages of
the list and each of them is below the number of pages of the memory. This holds in every state
that is reached with sizes below `2^62`, and for every name that stands for a list. -/
theorem printList_agrees_iff {memSize : ℕ} {ops : List Op} (hsz : ∀ op ∈ ops, SmallSize op)
    (hrun : run (step c) (createMem c memSize) ops = some s) (hr : resolve s name = some e) :
    PrintAgrees s name e ↔
      ((pagesOf s e).length : ℤ) ≤ intMax ∧ ∀ p ∈ pagesOf s e, p < numPages s := by
  obtain ⟨⟨hI, -⟩, hs, hcap⟩ := run_inv
    (I := fun s => (TableInv c s ∧ PageInv s) ∧ Sized s ∧ s.mem.capacity < 2 ^ 64)
    (fun s op t hs hop h => ⟨inv_step hs.1.1 hs.1.2 h, sized_step hop hs.1.1 hs.2.1 h,
      by rw [capacity_step hs.1.1 h]; exact hs.2.2⟩) (along_ops hsz (createMem c memSize))
    ⟨⟨tableInv_init memSize, pageInv_init memSize⟩, entries_init memSize,
      Nat.mod_lt _ (by norm_num)⟩ hrun
  exact printAgrees_iff hI hs hcap hr

/-- A list of 25 elements on two pages. -/
theorem printList_list1 : ∃ s,
    run (step .shipped) (createMem .shipped 400) [.initScope, .createList 25 "list1",
      .assignVal "list1" 22 7] = some s ∧ PrintAgrees s "list1" 0 := by
  obtain ⟨s, hs⟩ := Option.isSome_iff_exists.1 (show (run (step .shipped) (createMem .shipped 400)
    [.initScope, .createList 25 "list1", .assignVal "list1" 22 7]).isSome by decide +kernel)
  have hval := run_eval (fun s => (resolve s "list1", pagesOf s 0, numPages s))
    (b := (some 0, [0, 1], 5)) hs (by decide +kernel)
  simp only [Prod.mk.injEq] at hval
  obtain ⟨h1, h2, h3⟩ := hval
  refine ⟨s, hs, (printList_agrees_iff ?_ hs h1).2 ⟨by rw [h2]; decide, by rw [h2, h3]; decide⟩⟩
  rintro op hop size name rfl
  simp only [List.mem_cons, Op.createList.injEq, reduceCtorEq, false_or, or_false,
    List.not_mem_nil] at hop
  omega

/-- The page that the first list of a memory of `2^31 + 1` pages gets is never printed. -/
theorem printList_prints_nothing : ∃ s,
    run (step .shipped) (createMem .shipped (80 * bigPages)) [.initScope, .createList 1 "list1"] =
      some s ∧ resolve s "list1" = some 0 ∧ (s.symTable.entries 0).capacity = 1 ∧
      printList s "list1" = some [] ∧ (∃ v, getVal s "list1" 0 5 = some v) ∧
      ¬ PrintAgrees s "list1" 0 := by
  obtain ⟨q, hq⟩ := freeList_big (c := .shipped)
  obtain ⟨u, hu, h1, h2, h3, h4, h5, h6, h7⟩ : ∃ s, run (step .shipped)
      (createMem .shipped (80 * bigPages)) [.initScope] = some s ∧ s.symTable.numFreeEntries = 100000 ∧
      s.listMap = [] ∧ s.symTable.firstFreeEntry = 0 ∧ (s.symTable.entries 0).listPages = some [] ∧
      s.mem.numFreePages = bigPages ∧ s.mem.freeList = -2 ^ 31 :: q ∧ numPages s = bigPages :=
    ⟨{ createMem .shipped (80 * bigPages) with currScope := 0 }, rfl, rfl, rfl, rfl, rfl,
      createMem_big (c := .shipped), hq, createMem_big (c := .shipped)⟩
  have hreq : numPagesReq 1 = 1 := by
    rw [numPagesReq, show u64 (1 * sizeofInt) = 4 by decide,
      ceilDiv_eq_div (by decide) (by decide) (by decide)]
    decide
  have hc : CanTake u 1 "list1" := ⟨by omega, by rw [h2]; rfl, by rw [h5]; decide⟩
  have hcreate : createList .shipped u 1 "list1" = some (created u 1 1 "list1", 1) := by
    have h := createListWith_created (c := .shipped) 1 hc (by rw [h6]; simp)
      (by rw [h3]; decide) (by rw [h3, h4]; rfl)
    rw [h3, if_neg (by decide)] at h
    rw [createList_eq, hreq]
    exact h
  have hrun : run (step .shipped) (createMem .shipped (80 * bigPages))
      ([.initScope] ++ [.createList 1 "list1"]) = some (created u 1 1 "list1") := by
    rw [run_append _ hu, run_cons_of [] (t := created u 1 1 "list1")
      (by simp only [step, hcreate, Option.map_some])]
    rfl
  have hr : resolve (created u 1 1 "list1") "list1" = some 0 := by
    unfold resolve
    simp only [created, h3, find_insert_self]
  -- the number of its page is far past the pages of the memory
  have hentry : (created u 1 1 "list1").symTable.entries 0 =
      ⟨negOne, 0, 1, some [0xFFFFFFFF80000000]⟩ := by
    simp only [created, h3, h6, Function.update_self]
    rfl
  have hpages : (created u 1 1 "list1").mem.capacity / pageSize = bigPages := h7
  have hprint : printList (created u 1 1 "list1") "list1" = some [] := by
    unfold printList printMemPage
    rw [hr]
    simp only [hentry, hpages]
    rfl
  refine ⟨_, hrun, hr, by rw [hentry], hprint, ?_, ?_⟩
  · unfold getVal computeMemAddress
    rw [hr]
    simp only [hentry]
    exact ⟨_, rfl⟩
  · intro h
    obtain ⟨out, hout, hlen, -⟩ := h
    rw [hprint] at hout
    cases hout
    unfold pagesOf at hlen
    rw [hentry] at hlen
    exact absurd hlen (by decide)

end OsLab.Malloc
