import OsLab.Malloc.Memory
import Mathlib.Algebra.Order.Floor.Div

/-!
# When `createList` succeeds

`createList` and `addEntry` make the same two checks, and `num_free_pages` is the size of
`free_list` in every reachable state. So the call fails for one of three reasons, before
anything has changed (`createList_atomic`).

The number of pages is computed from `size * sizeof(int)` modulo `2^64`. The pages granted
cover the capacity granted exactly when the product does not wrap (`pages_cover_iff`).
-/

namespace OsLab.Malloc

open Lib

variable {c : Config} {s t : State} {name : String} {n size : ℕ}

/-! ## The reasons to fail -/

/-- The number of pages that hold `size` elements. -/
def pagesFor (size : ℕ) : ℕ := size * sizeofInt ⌈/⌉ pageSize

theorem pagesFor_eq (size : ℕ) : pagesFor size = (size * 4 + 79) / 80 := rfl

/-- All entries of the symbol table are in use, the name is taken in the current scope, or
there are too few free pages. -/
def MustFail (c : Config) (s : State) (size : ℕ) (name : String) : Prop :=
  (live s).length = c.numSymTableEntries ∨ (s.currScope, name) ∈ keys s.listMap ∨
    s.mem.freeList.length < pagesFor size

/-- `t` is `s` after a new list of `size` elements got the pages that it needs. -/
structure Granted (s t : State) (size : ℕ) (name : String) : Prop where
  pages : ∃ taken : List ℤ, s.mem.freeList = taken ++ t.mem.freeList ∧
    taken.length = pagesFor size ∧
    ∃ e, e ∉ live s ∧ find t.listMap (s.currScope, name) = some e ∧
      (t.symTable.entries e).capacity = size ∧
      (t.symTable.entries e).listPages = some (taken.map toULong)
  count : t.mem.numFreePages + pagesFor size = s.mem.numFreePages

/-- Every entry of the table has a page vector. -/
def AllVecs (s : State) : Prop := ∀ e, (s.symTable.entries e).listPages.isSome

theorem allVecs_init {memSize : ℕ} (h : c.uninitEntry.listPages.isSome) :
    AllVecs (createMem c memSize) := by
  intro e
  simp only [createMem, SymTable.init]
  split_ifs
  · rfl
  · exact h
  · exact h

theorem allVecs_step {op : Op} (hI : TableInv c s) (hv : AllVecs s) (h : step c s op = some t) :
    AllVecs t := fun e => (isSome_step hI h e).trans (hv e)

/-- Free and used entries are the entries of the table. -/
theorem TableInv.live_length (hI : TableInv c s) :
    s.symTable.numFreeEntries + (live s).length = c.numSymTableEntries := by
  obtain ⟨fc, -, h2, h3, -⟩ := hI.chain
  have h := h2.length_eq
  rw [List.length_append, List.length_range] at h
  omega

theorem numPagesReq_exact (h : size * sizeofInt < 2 ^ 53) : numPagesReq size = pagesFor size := by
  have hu : u64 (size * sizeofInt) = size * sizeofInt := Nat.mod_eq_of_lt (by omega)
  unfold numPagesReq
  rw [hu, ceilDiv_eq_div h (by decide) (by decide)]
  rfl

/-- The checks fail for the reasons to fail, and for no other. -/
theorem mustFail_iff (hI : TableInv c s) (hP : PageInv s) (h : size * sizeofInt < 2 ^ 53) :
    MustFail c s size name ↔ ¬ CanTake s (numPagesReq size) name := by
  have hlen := hI.live_length
  have hcount := hP.count
  rw [numPagesReq_exact h]
  unfold MustFail
  constructor
  · intro hm hc
    rcases hm with hm | hm | hm
    · exact hc.entry (by omega)
    · exact find_eq_none_iff.1 hc.fresh hm
    · have := hc.room; omega
  · intro hc
    by_contra hm
    push Not at hm
    obtain ⟨h1, h2, h3⟩ := hm
    exact hc ⟨by omega, find_eq_none_iff.2 h2, by omega⟩

theorem granted_created (hI : TableInv c s) (hc : CanTake s (pagesFor size) name)
    (hlen : pagesFor size ≤ s.mem.freeList.length) :
    Granted s (created s (pagesFor size) size name) size name where
  pages := by
    refine ⟨s.mem.freeList.take (pagesFor size), (List.take_append_drop _ _).symm,
      List.length_take_of_le hlen, s.symTable.firstFreeEntry, (hI.first hc.entry).2,
      find_insert_self _ _ _, ?_, ?_⟩
    · simp only [created, Function.update_self]
    · simp only [created, Function.update_self]
  count := Nat.sub_add_cancel hc.room

/-- **`createList` fails exactly when it must, and atomically.** In every reachable state, for
every size whose double ceiling is exact: the result is `-1` if and only if there is a reason to
fail, and then nothing has changed; otherwise the result is `1`, and the pages of the list have
moved from `free_list` to its entry. -/
theorem createList_atomic {memSize : ℕ} {ops : List Op} (size : ℕ) (name : String)
    (hN : c.numSymTableEntries < 2 ^ 32) (hlast : c.uninitEntry.listPages.isSome)
    (hrun : run (step c) (createMem c memSize) ops = some s) (hsize : size * sizeofInt < 2 ^ 53) :
    ((∃ t, createList c s size name = some (t, -1)) ↔ MustFail c s size name) ∧
    (MustFail c s size name → createList c s size name = some (s, -1)) ∧
    (¬ MustFail c s size name →
      ∃ t, createList c s size name = some (t, 1) ∧ Granted s t size name) := by
  obtain ⟨⟨hI, hP⟩, hv⟩ := run_inv' (I := fun s => (TableInv c s ∧ PageInv s) ∧ AllVecs s)
    (fun _ _ _ hs h => ⟨inv_step hs.1.1 hs.1.2 h, allVecs_step hs.1.1 hs.2 h⟩)
    ⟨⟨tableInv_init memSize, pageInv_init memSize⟩, allVecs_init hlast⟩ hrun
  have hiff : MustFail c s size name ↔ ¬ CanTake s (numPagesReq size) name := mustFail_iff hI hP hsize
  have hfail : MustFail c s size name → createList c s size name = some (s, -1) := by
    intro hm
    rw [createList_eq]
    exact createListWith_fails (hiff.1 hm)
  have hgrant : ¬ MustFail c s size name →
      ∃ t, createList c s size name = some (t, 1) ∧ Granted s t size name := by
    intro hm
    have hc := not_not.1 (fun h => hm (hiff.2 h))
    -- the counter and the heap agree, so the loop finds the pages it takes
    have hlen : numPagesReq size ≤ s.mem.freeList.length := by rw [← hP.count]; exact hc.room
    have hfirst := (hI.first hc.entry).1
    -- the number of the entry does not look like `-1`
    have hret : toULong (toInt s.symTable.firstFreeEntry) ≠ negOne := by
      unfold toInt toULong negOne
      split_ifs <;> omega
    have h := createListWith_created size hc hlen hfirst (hv _)
    rw [if_neg hret, ← createList_eq] at h
    refine ⟨_, h, ?_⟩
    rw [numPagesReq_exact hsize] at hc hlen ⊢
    exact granted_created hI hc hlen
  refine ⟨⟨?_, fun hm => ⟨s, hfail hm⟩⟩, hfail, hgrant⟩
  intro h
  obtain ⟨t, ht⟩ := h
  by_contra hm
  obtain ⟨u, hu, -⟩ := hgrant hm
  rw [ht] at hu
  cases hu

/-- The repository's table, with a page vector in its last entry. -/
def Config.initialised : Config :=
  { Config.shipped with uninitEntry := ⟨0, 0, 0, some []⟩ }

/-- Two pages are enough for 40 elements, but not for 41. -/
theorem createList_atomic_list1 : ∃ s,
    run (step .initialised) (createMem .initialised 160) [.initScope] = some s ∧
      createList .initialised s 41 "list1" = some (s, -1) ∧
      ∃ t, createList .initialised s 40 "list1" = some (t, 1) ∧ Granted s t 40 "list1" := by
  obtain ⟨s, hs⟩ := Option.isSome_iff_exists.1 (show (run (step .initialised)
    (createMem .initialised 160) [.initScope]).isSome by decide +kernel)
  have hval := run_eval (fun s => (live s, keys s.listMap, s.mem.freeList.length))
    (b := ([], [], 2)) hs (by decide +kernel)
  simp only [Prod.mk.injEq] at hval
  obtain ⟨h1, h2, h3⟩ := hval
  have hlast : Config.initialised.uninitEntry.listPages.isSome := rfl
  have h41 := createList_atomic 41 "list1" (show (100000 : ℕ) < 2 ^ 32 by norm_num) hlast hs
    (by decide)
  have h40 := createList_atomic 40 "list1" (show (100000 : ℕ) < 2 ^ 32 by norm_num) hlast hs
    (by decide)
  refine ⟨s, hs, h41.2.1 (Or.inr (Or.inr ?_)), h40.2.2 ?_⟩
  · rw [h3]; decide
  · unfold MustFail
    rw [h1, h2, h3]
    rintro (h | h | h)
    · exact absurd h (by decide)
    · cases h
    · exact absurd h (by decide)

/-! ## Capacity -/

/-- `num_pages_req`, with the double division and `ceil` taken as exact. -/
def numPagesReqExact (size : ℕ) : ℕ := u64 (size * sizeofInt) ⌈/⌉ pageSize

/-- `createList`, with the double division and `ceil` taken as exact. -/
def createListExact (c : Config) (s : State) (size : ℕ) (listName : String) :
    Option (State × ℤ) :=
  createListWith c (numPagesReqExact size) s size listName

/-- The entry has capacity `size`, and pages for all its elements: for every offset below the
capacity, the product in `compute_mem_address` does not wrap and the page exists. -/
structure Covers (s : State) (e size : ℕ) : Prop where
  cap : (s.symTable.entries e).capacity = size
  pages : pagesFor size ≤ (pagesOf s e).length
  access : ∀ off < (s.symTable.entries e).capacity, off * sizeofInt < 2 ^ 64 ∧
    ∃ page, (pagesOf s e)[off * sizeofInt / pageSize]? = some page

/-- The pages of a list that was just created. -/
theorem created_entry (size : ℕ) (name : String) (hlen : n ≤ s.mem.freeList.length) :
    ((created s n size name).symTable.entries s.symTable.firstFreeEntry).capacity = size ∧
      (pagesOf (created s n size name) s.symTable.firstFreeEntry).length = n := by
  refine ⟨by simp only [created, Function.update_self], ?_⟩
  rw [pagesOf_created, List.length_map, List.length_take_of_le hlen]

/-- As many pages as `size` elements need cover them. -/
theorem covers_of_pages {e : ℕ} (hcap : (s.symTable.entries e).capacity = size)
    (hpages : pagesFor size ≤ (pagesOf s e).length) (hsize : size < 2 ^ 62) : Covers s e size := by
  refine ⟨hcap, hpages, ?_⟩
  intro off hoff
  rw [hcap] at hoff
  rw [pagesFor_eq] at hpages
  have hlt : off * sizeofInt / pageSize < (pagesOf s e).length := by
    unfold pageSize sizeofInt numElemPerPage; omega
  exact ⟨by unfold sizeofInt; omega, _, List.getElem?_eq_getElem hlt⟩

/-- **The pages granted cover the capacity granted** if and only if the size in bytes does not
wrap. This holds in every state, reachable or not. -/
theorem pages_cover_iff (h : createListExact c s size name = some (t, 1)) :
    ∃ e, find t.listMap (s.currScope, name) = some e ∧ (Covers t e size ↔ size < 2 ^ 62) := by
  rcases createListWith_cases h with ⟨-, -, hr⟩ | ⟨-, hlen, -, -, rfl⟩
  · cases hr
  obtain ⟨hcap, hpages⟩ := created_entry size name hlen
  refine ⟨s.symTable.firstFreeEntry, find_insert_self _ _ _, ?_, ?_⟩
  · -- past `2 ^ 62` elements the pages are those of a smaller number of bytes
    intro hcov
    have hle := hcov.pages
    rw [hpages, pagesFor_eq] at hle
    by_contra hge
    have hreq : numPagesReqExact size = (u64 (size * 4) + 79) / 80 := rfl
    have hwrap : u64 (size * 4) + 2 ^ 64 ≤ size * 4 := by unfold u64; omega
    omega
  · intro hsize
    refine covers_of_pages hcap ?_ hsize
    have hu : u64 (size * sizeofInt) = size * sizeofInt :=
      Nat.mod_eq_of_lt (by unfold sizeofInt; omega)
    rw [hpages]
    unfold numPagesReqExact
    rw [hu]
    exact le_rfl

/-- A list of `2^62` elements gets no page at all, also with the rounding of doubles. -/
theorem createList_no_pages : ∃ s t,
    run (step .shipped) (createMem .shipped 80) [.initScope] = some s ∧
      createListExact .shipped s (2 ^ 62) "list1" = some (t, 1) ∧
      createList .shipped s (2 ^ 62) "list1" = some (t, 1) ∧
      find t.listMap (s.currScope, "list1") = some 0 ∧ ¬ Covers t 0 (2 ^ 62) := by
  obtain ⟨s, hs⟩ := Option.isSome_iff_exists.1 (show (run (step .shipped)
    (createMem .shipped 80) [.initScope]).isSome by decide +kernel)
  have hval := run_eval (fun s => (s.symTable.numFreeEntries, s.listMap, s.symTable.firstFreeEntry,
    (s.symTable.entries 0).listPages.isSome)) (b := (100000, [], 0, true)) hs (by decide +kernel)
  simp only [Prod.mk.injEq] at hval
  obtain ⟨h1, h2, h3, h4⟩ := hval
  have hc : CanTake s 0 "list1" := ⟨by omega, by rw [h2]; rfl, Nat.zero_le _⟩
  have hcreate := createListWith_created (c := .shipped) (2 ^ 62) hc (Nat.zero_le _)
    (by rw [h3]; decide) (by rw [h3]; exact h4)
  rw [h3, if_neg (by decide)] at hcreate
  -- the number of bytes is a multiple of `2 ^ 64`
  have hreq : numPagesReq (2 ^ 62) = 0 := by
    rw [numPagesReq, show u64 (2 ^ 62 * sizeofInt) = 0 by decide,
      ceilDiv_eq_div (by norm_num) (by decide) (by decide)]
    decide
  refine ⟨s, _, hs, hcreate, ?_, ?_, ?_⟩
  · rw [createList_eq, hreq]; exact hcreate
  · rw [← h3]; exact find_insert_self _ _ _
  · intro hcov
    have hle := hcov.pages
    have hnone := (created_entry (s := s) (2 ^ 62) "list1" (Nat.zero_le _)).2
    rw [h3] at hnone
    rw [hnone] at hle
    exact absurd hle (by decide)

/-- 21 elements get two pages. -/
theorem pages_cover_list1 : ∃ s t e,
    run (step .shipped) (createMem .shipped 160) [.initScope] = some s ∧
      createListExact .shipped s 21 "list1" = some (t, 1) ∧ Covers t e 21 := by
  have hrun : (run (step .shipped) (createMem .shipped 160) [.initScope]).map (fun s =>
      (createListExact .shipped s 21 "list1").map Prod.snd) = some (some 1) := by decide +kernel
  obtain ⟨s, hs, heq⟩ := Option.map_eq_some_iff.1 hrun
  obtain ⟨⟨t, r⟩, ht, rfl⟩ := Option.map_eq_some_iff.1 heq
  obtain ⟨e, -, hiff⟩ := pages_cover_iff ht
  exact ⟨s, t, e, hs, ht, hiff.2 (by norm_num)⟩

end OsLab.Malloc
