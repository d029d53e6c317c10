import OsLab.Malloc.Model

/-!
# What each allocator call does

One inversion lemma per function of `goodmalloc.cpp`: every later proof goes through
these and not through the definitions.

* `assignVal_cases`, `getVal_eq`: the accessors touch one cell and one `size` (`Same`).
* `createList_cases`: the call fails and changes nothing, or pops an entry of the free
  chain and the smallest free pages (`created`).
* `endScope_cases`, `freeList_cases`: the two ways a list ends, over one description of
  how its entry is given back (`release`).
* `step_cases`: what any call does to the lists.
-/

namespace OsLab.Malloc

open Lib

variable {c : Config} {s t : State}

/-- The entries that `list_map` refers to. -/
def live (s : State) : List ℕ := s.listMap.map Prod.snd

/-- The page vector of an entry. -/
def pagesOf (s : State) (e : ℕ) : List ℕ := ((s.symTable.entries e).listPages).getD []

/-- The page numbers in `free_list`, as `createList` reads them. -/
def freePages (s : State) : List ℕ := s.mem.freeList.map toULong

/-- The page numbers of all live lists. -/
def heldPages (s : State) : List ℕ := s.listMap.flatMap fun p => pagesOf s p.2

/-- Every page number in `free_list` or in a live list. -/
def allPages (s : State) : List ℕ := freePages s ++ heldPages s

/-- Number of pages of the memory. -/
def numPages (s : State) : ℕ := s.mem.capacity / pageSize

/-- `t` is `s` up to the current scope, the contents of the memory and the `size` fields. -/
structure Same (s t : State) : Prop where
  listMap : t.listMap = s.listMap
  next : ∀ e, (t.symTable.entries e).nextEntry = (s.symTable.entries e).nextEntry
  cap : ∀ e, (t.symTable.entries e).capacity = (s.symTable.entries e).capacity
  pages : ∀ e, (t.symTable.entries e).listPages = (s.symTable.entries e).listPages
  first : t.symTable.firstFreeEntry = s.symTable.firstFreeEntry
  numFree : t.symTable.numFreeEntries = s.symTable.numFreeEntries
  capacity : t.mem.capacity = s.mem.capacity
  freeList : t.mem.freeList = s.mem.freeList
  numPages : t.mem.numFreePages = s.mem.numFreePages
  maxUsed : t.maxPagesUsed = s.maxPagesUsed

theorem Same.refl (s : State) : Same s s := by constructor <;> intros <;> rfl

theorem Same.trans {u : State} (h : Same s t) (h' : Same t u) : Same s u where
  listMap := h'.listMap.trans h.listMap
  next e := (h'.next e).trans (h.next e)
  cap e := (h'.cap e).trans (h.cap e)
  pages e := (h'.pages e).trans (h.pages e)
  first := h'.first.trans h.first
  numFree := h'.numFree.trans h.numFree
  capacity := h'.capacity.trans h.capacity
  freeList := h'.freeList.trans h.freeList
  numPages := h'.numPages.trans h.numPages
  maxUsed := h'.maxUsed.trans h.maxUsed

theorem Same.live (h : Same s t) : live t = live s := by unfold Malloc.live; rw [h.listMap]

theorem Same.pagesOf (h : Same s t) (e : ℕ) : pagesOf t e = pagesOf s e := by
  unfold Malloc.pagesOf; rw [h.pages]

theorem Same.allPages (h : Same s t) : allPages t = allPages s := by
  have hp : Malloc.pagesOf t = Malloc.pagesOf s := funext h.pagesOf
  unfold Malloc.allPages freePages heldPages
  rw [h.listMap, h.freeList, hp]

/-- An address depends on the symbol table only. -/
theorem Same.address (h : Same s t) (e off : ℕ) :
    computeMemAddress t e off = computeMemAddress s e off := by
  unfold computeMemAddress; rw [h.cap, h.pages]

/-! ## Scopes and accessors -/

theorem initScope_eq (h : initScope s = some t) :
    s.currScope < intMax ∧ t = { s with currScope := s.currScope + 1 } := by
  unfold initScope at h
  split_ifs at h with hlt
  cases h; exact ⟨hlt, rfl⟩

theorem same_setScope (s : State) (z : ℤ) : Same s { s with currScope := z } := by
  constructor <;> intros <;> rfl

/-- A resolved name is a key of `list_map`, in the current or in the global scope. -/
theorem resolve_mem {name : String} {e : ℕ} (h : resolve s name = some e) :
    ((s.currScope, name), e) ∈ s.listMap ∨ ((0, name), e) ∈ s.listMap := by
  unfold resolve at h
  split at h
  · rename_i hf; cases h; exact Or.inl (mem_of_find hf)
  · exact Or.inr (mem_of_find h)

theorem resolve_live {name : String} {e : ℕ} (h : resolve s name = some e) : e ∈ live s := by
  rcases resolve_mem h with h | h
  · exact List.mem_map.2 ⟨_, h, rfl⟩
  · exact List.mem_map.2 ⟨_, h, rfl⟩

/-- The state after a value is written to a cell of entry `e`. -/
def written (s : State) (e address : ℕ) (value : ℤ) : State :=
  { s with mem := { s.mem with mem := Function.update s.mem.mem address value } }.setEntry e
    { s.symTable.entries e with size := u64 ((s.symTable.entries e).size + 1) }

theorem same_written (s : State) (e address : ℕ) (value : ℤ) :
    Same s (written s e address value) := by
  constructor <;> intros <;> try rfl
  all_goals
    simp only [written, State.setEntry, Function.update_apply]
    split_ifs with h
    · rw [h]
    · rfl

@[simp] theorem written_mem (s : State) (e address : ℕ) (value : ℤ) :
    (written s e address value).mem.mem = Function.update s.mem.mem address value := rfl

theorem assignEntry_eq {e off : ℕ} {v : ℤ} :
    assignEntry s e off v = (computeMemAddress s e off).map fun a => written s e a v := by
  unfold assignEntry
  cases computeMemAddress s e off <;> rfl

/-- **`assignVal`** writes one cell of the entry its name stands for, or does nothing. -/
theorem assignVal_cases {name : String} {off : ℕ} {v : ℤ} (h : assignVal s name off v = some t) :
    (resolve s name = none ∧ t = s) ∨
      ∃ e a, resolve s name = some e ∧ computeMemAddress s e off = some a ∧ t = written s e a v := by
  unfold assignVal at h
  cases hr : resolve s name with
  | none => rw [hr] at h; cases h; exact Or.inl ⟨rfl, rfl⟩
  | some e =>
    rw [hr] at h
    simp only [assignEntry_eq, Option.map_eq_some_iff] at h
    obtain ⟨a, ha, ht⟩ := h
    exact Or.inr ⟨e, a, rfl, ha, ht.symm⟩

theorem same_assignVal {name : String} {off : ℕ} {v : ℤ} (h : assignVal s name off v = some t) :
    Same s t := by
  rcases assignVal_cases h with ⟨-, rfl⟩ | ⟨e, a, -, -, rfl⟩
  · exact Same.refl _
  · exact same_written _ _ _ _

theorem getVal_eq {name : String} {e off : ℕ} (v : ℤ) (h : resolve s name = some e) :
    getVal s name off v = (computeMemAddress s e off).map s.mem.mem := by
  unfold getVal; rw [h]

/-! ## Creating a list -/

theorem takePages_spec {n : ℕ} {q rest : List ℤ} {ps : List ℕ} :
    takePages n q = some (ps, rest) ↔
      n ≤ q.length ∧ ps = (q.take n).map toULong ∧ rest = q.drop n := by
  induction n generalizing q ps rest with
  | zero => simp only [takePages, Option.some.injEq, Prod.mk.injEq]; simp [eq_comm]
  | succ n ih =>
    cases q with
    | nil => simp [takePages]
    | cons z q =>
      simp only [takePages, Option.map_eq_some_iff, Prod.exists, Prod.mk.injEq]
      constructor
      · intro h
        obtain ⟨ps', rest', h, rfl, rfl⟩ := h
        obtain ⟨h1, rfl, rfl⟩ := ih.1 h
        exact ⟨by simpa using h1, rfl, rfl⟩
      · intro h
        obtain ⟨h1, rfl, rfl⟩ := h
        exact ⟨_, _, ih.2 ⟨by simpa using h1, rfl, rfl⟩, rfl, rfl⟩

/-- The state after a list of `size` elements got the first free entry and the `n` smallest
free pages. -/
def created (s : State) (n size : ℕ) (name : String) : State where
  mem := { s.mem with
    freeList := s.mem.freeList.drop n
    numFreePages := s.mem.numFreePages - n }
  symTable :=
    { firstFreeEntry := (s.symTable.entries s.symTable.firstFreeEntry).nextEntry
      numFreeEntries := s.symTable.numFreeEntries - 1
      entries := Function.update s.symTable.entries s.symTable.firstFreeEntry
        ⟨negOne, 0, size, some ((s.mem.freeList.take n).map toULong)⟩ }
  listMap := insert Key.lt s.listMap (s.currScope, name) s.symTable.firstFreeEntry
  currScope := s.currScope
  maxPagesUsed := u64 (s.mem.capacity / pageSize + 2 ^ 64 - (s.mem.numFreePages - n))

/-- The new list has the pages that were taken. -/
theorem pagesOf_created (s : State) (n size : ℕ) (name : String) :
    pagesOf (created s n size name) s.symTable.firstFreeEntry =
      (s.mem.freeList.take n).map toULong := by
  unfold pagesOf created
  simp only [Function.update_self, Option.getD_some]

/-- `createList` after `num_pages_req` is computed. -/
def createListWith (c : Config) (n : ℕ) (s : State) (size : ℕ) (listName : String) :
    Option (State × ℤ) :=
  if s.symTable.numFreeEntries = 0 then some (s, -1)
  else if (find s.listMap (s.currScope, listName)).isSome then some (s, -1)
  else if s.mem.numFreePages < n then some (s, -1)
  else do
    let (pageMapping, freeList) ← takePages n s.mem.freeList
    let numFreePages := s.mem.numFreePages - n
    let s := { s with
      mem := { s.mem with freeList := freeList, numFreePages := numFreePages }
      maxPagesUsed := u64 (s.mem.capacity / pageSize + 2 ^ 64 - numFreePages) }
    let (s, entryNum) ← addEntry c s s.currScope listName pageMapping size
    if toULong entryNum = negOne then some (s, -1) else some (s, 1)

theorem createList_eq (size : ℕ) (name : String) :
    createList c s size name = createListWith c (numPagesReq size) s size name := rfl

/-- What is checked before `n` pages are taken for a list. -/
structure CanTake (s : State) (n : ℕ) (name : String) : Prop where
  entry : s.symTable.numFreeEntries ≠ 0
  fresh : find s.listMap (s.currScope, name) = none
  room : n ≤ s.mem.numFreePages

/-- What `createList` checks before it takes pages. -/
structure CanCreate (s : State) (size : ℕ) (name : String) : Prop where
  entry : s.symTable.numFreeEntries ≠ 0
  fresh : find s.listMap (s.currScope, name) = none
  room : numPagesReq size ≤ s.mem.numFreePages

theorem canCreate_iff {size : ℕ} {name : String} :
    CanCreate s size name ↔ CanTake s (numPagesReq size) name :=
  ⟨fun h => ⟨h.entry, h.fresh, h.room⟩, fun h => ⟨h.entry, h.fresh, h.room⟩⟩

theorem createListWith_cases {n size : ℕ} {name : String} {r : ℤ}
    (h : createListWith c n s size name = some (t, r)) :
    (¬ CanTake s n name ∧ t = s ∧ r = -1) ∨
      (CanTake s n name ∧ n ≤ s.mem.freeList.length ∧
        s.symTable.firstFreeEntry < c.numSymTableEntries ∧
        (s.symTable.entries s.symTable.firstFreeEntry).listPages.isSome ∧
        t = created s n size name) := by
  unfold createListWith at h
  split_ifs at h with h1 h2 h3
  · cases h; exact Or.inl ⟨fun hc => hc.entry h1, rfl, rfl⟩
  · cases h; exact Or.inl ⟨fun hc => (by rw [hc.fresh] at h2; cases h2), rfl, rfl⟩
  · cases h; exact Or.inl ⟨fun hc => absurd hc.room (by omega), rfl, rfl⟩
  have hfresh : find s.listMap (s.currScope, name) = none := by
    cases hf : find s.listMap (s.currScope, name) with
    | none => rfl
    | some e => rw [hf] at h2; exact absurd rfl h2
  simp only [Option.bind_eq_bind, Option.bind_eq_some_iff, Prod.exists] at h
  obtain ⟨ps, rest, htake, u, ret, hadd, hret⟩ := h
  obtain ⟨hlen, rfl, rfl⟩ := takePages_spec.1 htake
  -- the two checks of `addEntry` have been made already
  unfold addEntry at hadd
  rw [if_neg h1, if_neg (by rw [hfresh]; exact Bool.false_ne_true)] at hadd
  simp only at hadd
  split_ifs at hadd with h4
  cases hadd
  -- the list is there, also when its entry number looks like `-1`
  have ht : t = created s n size name := by
    split_ifs at hret <;> (cases hret; rfl)
  exact Or.inr ⟨⟨h1, hfresh, by omega⟩, hlen, h4.1, h4.2, ht⟩

/-- **`createList`** fails and changes nothing, or creates the list. -/
theorem createList_cases {size : ℕ} {name : String} {r : ℤ}
    (h : createList c s size name = some (t, r)) :
    (¬ CanCreate s size name ∧ t = s ∧ r = -1) ∨
      (CanCreate s size name ∧ numPagesReq size ≤ s.mem.freeList.length ∧
        s.symTable.firstFreeEntry < c.numSymTableEntries ∧
        (s.symTable.entries s.symTable.firstFreeEntry).listPages.isSome ∧
        t = created s (numPagesReq size) size name) := by
  rw [createList_eq] at h
  rw [canCreate_iff]
  exact createListWith_cases h

/-- A call that fails a check. -/
theorem createListWith_fails {n size : ℕ} {name : String} (hc : ¬ CanTake s n name) :
    createListWith c n s size name = some (s, -1) := by
  unfold createListWith
  split_ifs with h1 h2 h3
  · rfl
  · rfl
  · rfl
  · have hf : find s.listMap (s.currScope, name) = none := by simpa using h2
    exact absurd ⟨h1, hf, not_lt.1 h3⟩ hc

/-- When the checks pass and the first free entry is usable, the list is created. What is returned
depends on how the number of its entry looks as an `int`. -/
theorem createListWith_created {n : ℕ} (size : ℕ) {name : String} (hc : CanTake s n name)
    (hlen : n ≤ s.mem.freeList.length) (hN : s.symTable.firstFreeEntry < c.numSymTableEntries)
    (hv : (s.symTable.entries s.symTable.firstFreeEntry).listPages.isSome) :
    createListWith c n s size name = some (created s n size name,
      if toULong (toInt s.symTable.firstFreeEntry) = negOne then -1 else 1) := by
  have htake := takePages_spec.2 ⟨hlen, rfl, rfl⟩
  have hfn : ¬ (find s.listMap (s.currScope, name)).isSome = true := by
    rw [hc.fresh]; exact Bool.false_ne_true
  have h3 : ¬ s.mem.numFreePages < n := not_lt.2 hc.room
  unfold createListWith
  rw [if_neg hc.entry, if_neg hfn, if_neg h3, htake]
  simp only [Option.bind_eq_bind, Option.bind_some, addEntry, if_neg hc.entry, hc.fresh,
    Option.isSome_none, Bool.false_eq_true, if_false, hN, hv, and_self, if_true]
  split_ifs
  · rfl
  · rfl

theorem createList_some {size : ℕ} {name : String} (hc : CanCreate s size name)
    (hlen : numPagesReq size ≤ s.mem.freeList.length)
    (hN : s.symTable.firstFreeEntry < c.numSymTableEntries)
    (hv : (s.symTable.entries s.symTable.firstFreeEntry).listPages.isSome) :
    ∃ r, createList c s size name = some (created s (numPagesReq size) size name, r) :=
  ⟨_, createListWith_created size (canCreate_iff.1 hc) hlen hN hv⟩

/-! ## Ending a list -/

/-- Entry `e` of list `k` is given back to the free chain, its page vector cleared. -/
def release (s : State) (k : Key) (e : ℕ) : State :=
  { s with
    listMap := erase s.listMap k
    symTable :=
      { firstFreeEntry := e
        numFreeEntries := s.symTable.numFreeEntries + 1
        entries := Function.update s.symTable.entries e
          ⟨s.symTable.firstFreeEntry, 0, 0, some []⟩ } }

theorem deleteEntry_cases {scope : ℤ} {name : String} (h : deleteEntry s scope name = some t) :
    (find s.listMap (scope, name) = none ∧ t = s) ∨
      ∃ e, find s.listMap (scope, name) = some e ∧ t = release s (scope, name) e := by
  unfold deleteEntry at h
  cases hf : find s.listMap (scope, name) with
  | none => rw [hf] at h; cases h; exact Or.inl ⟨rfl, rfl⟩
  | some e =>
    rw [hf] at h
    simp only at h
    split_ifs at h
    cases h; exact Or.inr ⟨e, rfl, rfl⟩

theorem firstInScope_mem {p : Key × ℕ} (h : firstInScope s = some p) :
    p ∈ s.listMap ∧ p.1.1 = s.currScope :=
  ⟨List.mem_of_find?_eq_some h, by simpa using List.find?_some h⟩

theorem firstInScope_none (h : firstInScope s = none) :
    ∀ p ∈ s.listMap, p.1.1 ≠ s.currScope := by
  intro p hp
  have := List.find?_eq_none.1 h p hp
  simpa using this

/-- **`endScope`** drops the first list of the current scope, if it has any: the entry is
given back, the pages are not. -/
theorem endScope_cases (hk : (keys s.listMap).Nodup) (h : endScope s = some t) :
    (firstInScope s = none ∧ t = { s with currScope := s.currScope - 1 }) ∨
      ∃ k e, firstInScope s = some (k, e) ∧ find s.listMap k = some e ∧
        t = { release s k e with currScope := s.currScope - 1 } := by
  unfold endScope at h
  cases hf : firstInScope s with
  | none =>
    rw [hf] at h
    simp only [Option.bind_eq_bind, Option.bind_some] at h
    split_ifs at h
    cases h; exact Or.inl ⟨rfl, rfl⟩
  | some p =>
    obtain ⟨k, e⟩ := p
    have hfind : find s.listMap k = some e := find_of_mem hk (firstInScope_mem hf).1
    rw [hf] at h
    simp only [Option.bind_eq_bind, Option.bind_eq_some_iff] at h
    obtain ⟨u, hdel, h⟩ := h
    -- the key comes from `list_map`, so `deleteEntry` finds it
    rcases deleteEntry_cases hdel with ⟨hn, -⟩ | ⟨e', he', rfl⟩
    · rw [hn] at hfind; cases hfind
    · split_ifs at h
      cases h
      rw [hfind] at he'; cases he'
      exact Or.inr ⟨k, e, rfl, hfind, rfl⟩

/-- The state after the list `k` of entry `e` was freed. -/
def freed (s : State) (k : Key) (e : ℕ) : State :=
  { release s k e with
    mem := { s.mem with
      freeList := (pagesOf s e).foldl (fun q p => push q (toInt p)) s.mem.freeList
      numFreePages := u64 (s.mem.numFreePages + (pagesOf s e).length) } }

/-- **`freeList`** gives the entry and the pages back, or does nothing. -/
theorem freeList_cases {name : String} (h : freeList s name = some t) :
    (find s.listMap (s.currScope, name) = none ∧ t = s) ∨
      ∃ e, find s.listMap (s.currScope, name) = some e ∧ t = freed s (s.currScope, name) e := by
  unfold freeList at h
  cases hf : find s.listMap (s.currScope, name) with
  | none => rw [hf] at h; cases h; exact Or.inl ⟨rfl, rfl⟩
  | some e =>
    rw [hf] at h
    simp only [Option.bind_eq_bind, Option.bind_eq_some_iff] at h
    obtain ⟨ps, hps, h⟩ := h
    split_ifs at h
    cases h
    refine Or.inr ⟨e, rfl, ?_⟩
    unfold freed pagesOf release
    rw [hps, Option.getD_some]

theorem freeList_some {name : String} {e : ℕ} (hf : find s.listMap (s.currScope, name) = some e)
    (hv : (s.symTable.entries e).listPages.isSome)
    (hl : ((pagesOf s e).length : ℤ) ≤ intMax) :
    freeList s name = some (freed s (s.currScope, name) e) := by
  obtain ⟨ps, hps⟩ := Option.isSome_iff_exists.1 hv
  have hpe : pagesOf s e = ps := by unfold pagesOf; rw [hps, Option.getD_some]
  rw [hpe] at hl
  unfold freeList freed release
  rw [hf, hpe]
  simp only [Option.bind_eq_bind, hps, Option.bind_some, if_pos hl]

/-! ## One call -/

/-- **What a call does**: it leaves the lists as they are, or creates one, or ends one, the first one
of the scope or the one that it names. -/
theorem step_cases {op : Op} (hk : (keys s.listMap).Nodup) (h : step c s op = some t) :
    (Same s t ∧ ∀ size name, op = .createList size name → ¬ CanCreate s size name) ∨
    (∃ size name, op = .createList size name ∧ CanCreate s size name ∧
      numPagesReq size ≤ s.mem.freeList.length ∧
      (s.symTable.entries s.symTable.firstFreeEntry).listPages.isSome ∧
      t = created s (numPagesReq size) size name) ∨
    (∃ k e, op = .endScope ∧ firstInScope s = some (k, e) ∧ find s.listMap k = some e ∧
      t = { release s k e with currScope := s.currScope - 1 }) ∨
    ∃ name e, op = .freeList name ∧ find s.listMap (s.currScope, name) = some e ∧
      t = freed s (s.currScope, name) e := by
  cases op with
  | initScope =>
    obtain ⟨-, rfl⟩ := initScope_eq h
    exact Or.inl ⟨same_setScope _ _, nofun⟩
  | endScope =>
    rcases endScope_cases hk h with ⟨-, rfl⟩ | ⟨k, e, hfi, hf, rfl⟩
    · exact Or.inl ⟨same_setScope _ _, nofun⟩
    · exact Or.inr (Or.inr (Or.inl ⟨k, e, rfl, hfi, hf, rfl⟩))
  | createList size name =>
    obtain ⟨⟨u, r⟩, hu, rfl⟩ := Option.map_eq_some_iff.1 h
    rcases createList_cases hu with ⟨hc, rfl, -⟩ | ⟨hc, hlen, -, hv, rfl⟩
    · refine Or.inl ⟨Same.refl _, ?_⟩
      rintro _ _ ⟨⟩
      exact hc
    · exact Or.inr (Or.inl ⟨size, name, rfl, hc, hlen, hv, rfl⟩)
  | assignVal name off v => exact Or.inl ⟨same_assignVal h, nofun⟩
  | getVal name off =>
    obtain ⟨_, -, rfl⟩ := Option.map_eq_some_iff.1 h
    exact Or.inl ⟨Same.refl _, nofun⟩
  | freeList name =>
    rcases freeList_cases h with ⟨-, rfl⟩ | ⟨e, hf, rfl⟩
    · exact Or.inl ⟨Same.refl _, nofun⟩
    · exact Or.inr (Or.inr (Or.inr ⟨name, e, rfl, hf, rfl⟩))

end OsLab.Malloc
