import OsLab.Malloc.Effects

/-!
# The allocator's invariants

`TableInv`: `list_map` has no key twice, the free chain and the live entries partition the
symbol table, and every live entry has a page vector. `PageInv`: `num_free_pages` counts
`free_list`, every page number is the image of an `int`, and no page appears from nowhere.
Both hold in every reachable state, for every memory size and every order of calls
(`inv_step`, `inv_run`).

* `allPages_created`, `allPages_freed`: creating and freeing only move pages.
* `allPages_dropped`: ending a scope loses the pages of the list it deletes.
-/

namespace OsLab.Malloc

open Lib

variable {c : Config} {s t : State}

/-- Following `next_entry` from `first_free_entry` visits `fc`, then reaches `-1`. -/
def FreeChain (s : State) (fc : List ℕ) : Prop :=
  Linked (fun e => (s.symTable.entries e).nextEntry) negOne s.symTable.firstFreeEntry fc

/-- The symbol table and `list_map` fit together. -/
structure TableInv (c : Config) (s : State) : Prop where
  keys : (keys s.listMap).Nodup
  chain : ∃ fc, FreeChain s fc ∧ (fc ++ live s).Perm (List.range c.numSymTableEntries) ∧
    fc.length = s.symTable.numFreeEntries ∧
    ∀ e ∈ fc.dropLast, (s.symTable.entries e).listPages.isSome
  vec : ∀ e ∈ live s, (s.symTable.entries e).listPages.isSome

/-- The page counters and the page numbers are sound. -/
structure PageInv (s : State) : Prop where
  count : s.mem.numFreePages = s.mem.freeList.length
  sorted : s.mem.freeList.Pairwise (· ≤ ·)
  ints : ∀ z ∈ s.mem.freeList, toInt (toULong z) = z
  held : ∀ p ∈ heldPages s, toULong (toInt p) = p
  total : (allPages s).length ≤ numPages s
  small : numPages s < 2 ^ 64

/-! ## Integer conversions -/

theorem toInt_range (n : ℕ) : intMin ≤ toInt n ∧ toInt n ≤ intMax := by
  unfold toInt intMin intMax
  split_ifs <;> omega

theorem toInt_toULong {z : ℤ} (h : intMin ≤ z ∧ z ≤ intMax) : toInt (toULong z) = z := by
  unfold intMin intMax at h
  unfold toInt toULong
  split_ifs <;> omega

theorem toInt_toULong_toInt (n : ℕ) : toInt (toULong (toInt n)) = toInt n :=
  toInt_toULong (toInt_range n)

/-- Page numbers below `2^31` survive the passage through `int`. -/
theorem toULong_toInt {n : ℕ} (h : n < 2 ^ 31) : toULong (toInt n) = n := by
  unfold toInt toULong
  rw [if_pos (by omega)]
  omega

theorem toULong_inj {y z : ℤ} (hy : toInt (toULong y) = y) (hz : toInt (toULong z) = z)
    (h : toULong y = toULong z) : y = z := by rw [← hy, h, hz]

/-- A page number is far from the end of the address space, on either side. -/
theorem page_range {p : ℕ} (h : toULong (toInt p) = p) :
    p < 2 ^ 31 ∨ (2 ^ 64 - 2 ^ 31 ≤ p ∧ p < 2 ^ 64) := by
  have hr := toInt_range p
  unfold intMin intMax at hr
  unfold toULong at h
  omega

/-! ## The free heap -/

theorem push_perm (q : List ℤ) (z : ℤ) : (push q z).Perm (z :: q) :=
  List.perm_orderedInsert _ _ _

theorem push_sorted {q : List ℤ} (z : ℤ) (h : q.Pairwise (· ≤ ·)) :
    (push q z).Pairwise (· ≤ ·) := List.Pairwise.orderedInsert z q h

theorem pushAll_perm (ps : List ℕ) (q : List ℤ) :
    (ps.foldl (fun q p => push q (toInt p)) q).Perm (ps.map toInt ++ q) := by
  induction ps generalizing q with
  | nil => exact List.Perm.refl _
  | cons p ps ih =>
    rw [List.foldl_cons, List.map_cons]
    exact (ih _).trans (((push_perm q _).append_left _).trans List.perm_middle)

theorem pushAll_sorted (ps : List ℕ) {q : List ℤ} (h : q.Pairwise (· ≤ ·)) :
    (ps.foldl (fun q p => push q (toInt p)) q).Pairwise (· ≤ ·) := by
  induction ps generalizing q with
  | nil => exact h
  | cons p ps ih => exact ih (push_sorted _ h)

/-- The initial heap holds the `int` images of the page numbers. -/
theorem init_freeList_perm (size : ℕ) :
    (MemBlock.init c size).freeList.Perm ((List.range (size / pageSize)).map toInt) := by
  have h := pushAll_perm (List.range (size / pageSize)) []
  rwa [List.append_nil] at h

theorem init_freeList_sorted (size : ℕ) :
    (MemBlock.init c size).freeList.Pairwise (· ≤ ·) := pushAll_sorted _ List.Pairwise.nil

/-! ## Initial state -/

theorem createMem_capacity (size : ℕ) :
    (createMem c size).mem.capacity = u64 (ceilDiv size pageSize * pageSize) := rfl

theorem allPages_init (size : ℕ) : allPages (createMem c size) = freePages (createMem c size) := by
  simp [allPages, heldPages, createMem]

theorem freePages_init_perm (size : ℕ) :
    (freePages (createMem c size)).Perm
      ((List.range (numPages (createMem c size))).map fun i => toULong (toInt i)) := by
  have h := (init_freeList_perm (c := c) (u64 (ceilDiv size pageSize * pageSize))).map toULong
  rwa [List.map_map] at h

/-- The entries are chained in the order of the table. -/
theorem freeChain_init (size : ℕ) :
    FreeChain (createMem c size) (List.range c.numSymTableEntries) := by
  obtain ⟨n, hn⟩ : ∃ n, c.numSymTableEntries = n + 1 := ⟨_, (Nat.sub_add_cancel c.one_le).symm⟩
  unfold FreeChain
  rw [List.range_eq_range', hn]
  refine linked_range 0 n (by omega) (N := c.numSymTableEntries) ?_ ?_
  · intro i hi; simp [createMem, SymTable.init, hi]
  · simp [createMem, SymTable.init, hn]

theorem tableInv_init (size : ℕ) : TableInv c (createMem c size) where
  keys := List.nodup_nil
  chain := by
    refine ⟨List.range c.numSymTableEntries, freeChain_init size, ?_, ?_, ?_⟩
    · simp [live, createMem]
    · simp [createMem, SymTable.init]
    · -- all but the last have a page vector
      intro e he
      have hlt : e + 1 < c.numSymTableEntries := by
        obtain ⟨n, hn⟩ : ∃ n, c.numSymTableEntries = n + 1 := ⟨_, (Nat.sub_add_cancel c.one_le).symm⟩
        rw [hn, List.range_succ, List.dropLast_concat] at he
        have := List.mem_range.1 he; omega
      simp [createMem, SymTable.init, hlt]
  vec := by simp [live, createMem]

theorem pageInv_init (size : ℕ) : PageInv (createMem c size) where
  count := by
    have h := (init_freeList_perm (c := c) (u64 (ceilDiv size pageSize * pageSize))).length_eq
    rw [List.length_map, List.length_range] at h
    exact h.symm
  sorted := init_freeList_sorted _
  ints := by
    intro z hz
    obtain ⟨i, -, rfl⟩ := List.mem_map.1 ((init_freeList_perm _).mem_iff.1 hz)
    exact toInt_toULong_toInt i
  held := by simp [heldPages, createMem]
  total := by
    rw [allPages_init, (freePages_init_perm size).length_eq, List.length_map, List.length_range]
  small := by
    unfold numPages
    rw [createMem_capacity]
    unfold u64
    exact lt_of_le_of_lt (Nat.div_le_self _ _) (Nat.mod_lt _ (by norm_num))

/-! ## Frames -/

theorem FreeChain.same (h : Same s t) {fc : List ℕ} (hf : FreeChain s fc) : FreeChain t fc := by
  unfold FreeChain at hf ⊢
  rw [h.first]
  exact hf.congr fun e _ => h.next e

theorem TableInv.same (hI : TableInv c s) (h : Same s t) : TableInv c t where
  keys := by rw [h.listMap]; exact hI.keys
  chain := by
    obtain ⟨fc, h1, h2, h3, h4⟩ := hI.chain
    refine ⟨fc, h1.same h, ?_, ?_, ?_⟩
    · rw [h.live]; exact h2
    · rw [h.numFree]; exact h3
    · intro e he; rw [h.pages]; exact h4 e he
  vec := by intro e he; rw [h.pages]; exact hI.vec e (by rwa [h.live] at he)

theorem PageInv.same (hI : PageInv s) (h : Same s t) : PageInv t where
  count := by rw [h.numPages, h.freeList]; exact hI.count
  sorted := by rw [h.freeList]; exact hI.sorted
  ints := by rw [h.freeList]; exact hI.ints
  held := by
    have hp : pagesOf t = pagesOf s := funext h.pagesOf
    unfold heldPages; rw [h.listMap, hp]; exact hI.held
  total := by unfold numPages; rw [h.allPages, h.capacity]; exact hI.total
  small := by unfold numPages; rw [h.capacity]; exact hI.small

/-! ## Entries leave and join the free chain -/

theorem TableInv.live_nodup (hI : TableInv c s) : (live s).Nodup := by
  obtain ⟨fc, -, h2, -, -⟩ := hI.chain
  exact (List.nodup_append.1 (h2.nodup_iff.2 List.nodup_range)).2.1

/-- With a free entry, the chain starts with a table entry that no list uses. -/
theorem TableInv.first (hI : TableInv c s) (h : s.symTable.numFreeEntries ≠ 0) :
    s.symTable.firstFreeEntry < c.numSymTableEntries ∧ s.symTable.firstFreeEntry ∉ live s := by
  obtain ⟨fc, h1, h2, h3, -⟩ := hI.chain
  cases fc with
  | nil => exact absurd h3.symm h
  | cons e fc =>
    have he : s.symTable.firstFreeEntry = e := h1.1
    rw [he]
    refine ⟨List.mem_range.1 (h2.mem_iff.1 List.mem_cons_self), ?_⟩
    intro hl
    have hn := h2.nodup_iff.2 List.nodup_range
    exact (List.nodup_cons.1 hn).1 (List.mem_append_right _ hl)

variable {n size : ℕ} {name : String} {k : Key} {e : ℕ}

theorem TableInv.ne_first (hI : TableInv c s) (h : s.symTable.numFreeEntries ≠ 0) (he : e ∈ live s) :
    e ≠ s.symTable.firstFreeEntry := by
  rintro rfl
  exact (hI.first h).2 he

/-- The counter and the heap agree, so there are as many pages as `createList` takes. -/
theorem CanCreate.enough (hc : CanCreate s size name) (hP : PageInv s) :
    numPagesReq size ≤ s.mem.freeList.length := by
  rw [← hP.count]; exact hc.room

theorem live_created (h : find s.listMap (s.currScope, name) = none) :
    (live (created s n size name)).Perm (s.symTable.firstFreeEntry :: live s) :=
  (insert_perm h).map Prod.snd

theorem mem_live_created (hc : CanCreate s size name) (he : e ∈ live s) :
    e ∈ live (created s n size name) :=
  (live_created hc.fresh).mem_iff.2 (List.mem_cons_of_mem _ he)

theorem live_release (hk : (keys s.listMap).Nodup) (h : find s.listMap k = some e) :
    (live s).Perm (e :: live (release s k e)) := (erase_perm hk h).map Prod.snd

theorem find_live (h : find s.listMap k = some e) : e ∈ live s :=
  List.mem_map.2 ⟨_, mem_of_find h, rfl⟩

/-- The first entry leaves the chain: the rest of it is not written to. -/
theorem FreeChain.created {fc : List ℕ} (hf : FreeChain s (e :: fc)) (he : e ∉ fc) :
    FreeChain (created s n size name) fc := by
  obtain ⟨hfirst, hf⟩ := hf
  unfold FreeChain
  simp only [Malloc.created]
  rw [hfirst]
  apply hf.congr
  intro x hx
  rw [Function.update_of_ne (by rintro rfl; exact he hx)]

/-- The entry goes to the front of the chain. -/
theorem FreeChain.release {fc : List ℕ} (hf : FreeChain s fc) (he : e ∉ fc) :
    FreeChain (release s k e) (e :: fc) := by
  apply (Linked.push he hf).congr
  intro x _
  exact Function.apply_update (fun _ => SymTableEntry.nextEntry) _ _ _ x

theorem TableInv.created (hI : TableInv c s) (hc : CanCreate s size name) :
    TableInv c (created s n size name) := by
  obtain ⟨hlt, hnl⟩ := hI.first hc.entry
  obtain ⟨fc, h1, h2, h3, h4⟩ := hI.chain
  cases fc with
  | nil => exact absurd h3.symm hc.entry
  | cons e fc =>
    have he := h1.1
    have hn := h2.nodup_iff.2 List.nodup_range
    have hefc : e ∉ fc := fun h => (List.nodup_cons.1 hn).1 (List.mem_append_left _ h)
    have hne : ∀ x, x ∈ fc → x ≠ s.symTable.firstFreeEntry := by
      rintro x hx rfl; exact hefc (he ▸ hx)
    refine ⟨?_, ⟨fc, h1.created hefc, ?_, ?_, ?_⟩, ?_⟩
    · apply ((insert_perm hc.fresh).map Prod.fst).nodup_iff.2
      exact List.nodup_cons.2 ⟨find_eq_none_iff.1 hc.fresh, hI.keys⟩
    · exact ((live_created hc.fresh).append_left fc).trans
        (List.perm_middle.trans (by rw [he]; exact h2))
    · simp only [Malloc.created]; rw [← h3]; rfl
    · intro x hx
      have hxf := List.mem_of_mem_dropLast hx
      simp only [Malloc.created]
      rw [Function.update_of_ne (hne x hxf)]
      apply h4 x
      rw [List.dropLast_cons_of_ne_nil (List.ne_nil_of_mem hxf)]
      exact List.mem_cons_of_mem _ hx
    · intro x hx
      simp only [Malloc.created]
      rcases List.mem_cons.1 ((live_created hc.fresh).mem_iff.1 hx) with h | h
      · rw [h, Function.update_self]; rfl
      · rw [Function.update_of_ne (by rintro rfl; exact hnl h)]; exact hI.vec x h

theorem TableInv.release (hI : TableInv c s) (hf : find s.listMap k = some e) :
    TableInv c (release s k e) := by
  obtain ⟨fc, h1, h2, h3, h4⟩ := hI.chain
  have hperm := live_release hI.keys hf
  have hn := h2.nodup_iff.2 List.nodup_range
  have hefc : e ∉ fc := fun h => (List.nodup_append.1 hn).2.2 e h e (find_live hf) rfl
  have hel : e ∉ live (Malloc.release s k e) :=
    (List.nodup_cons.1 (hperm.nodup_iff.1 hI.live_nodup)).1
  refine ⟨?_, ⟨e :: fc, h1.release hefc, ?_, ?_, ?_⟩, ?_⟩
  · have := ((erase_perm hI.keys hf).map Prod.fst).nodup_iff.1 hI.keys
    exact (List.nodup_cons.1 this).2
  · exact (List.perm_middle.symm.trans (hperm.symm.append_left fc)).trans h2
  · simp only [Malloc.release, List.length_cons, h3]
  · intro x hx
    simp only [Malloc.release]
    by_cases hxe : x = e
    · rw [hxe, Function.update_self]; rfl
    · rw [Function.update_of_ne hxe]
      cases fc with
      | nil => simp at hx
      | cons y fc =>
        rw [List.dropLast_cons_of_ne_nil (List.cons_ne_nil _ _)] at hx
        exact h4 x ((List.mem_cons.1 hx).resolve_left hxe)
  · intro x hx
    simp only [Malloc.release]
    rw [Function.update_of_ne (by rintro rfl; exact hel hx)]
    exact hI.vec x (hperm.mem_iff.2 (List.mem_cons_of_mem _ hx))

/-! ## Pages move -/

theorem heldPages_congr {m m' : List (Key × ℕ)} {f g : ℕ → List ℕ} (hp : m.Perm m')
    (hfg : ∀ p ∈ m', f p.2 = g p.2) :
    (m.flatMap fun p => f p.2).Perm (m'.flatMap fun p => g p.2) := by
  rw [← List.flatMap_congr hfg]
  exact hp.flatMap_right _

/-- An entry that no key of the list has does not matter to the pages of its entries. -/
theorem flatMap_update {l : List (Key × ℕ)} {e : ℕ} (he : e ∉ l.map Prod.snd) (f : ℕ → List ℕ)
    (pages : List ℕ) :
    (l.flatMap fun p => Function.update f e pages p.2) = l.flatMap fun p => f p.2 := by
  refine List.flatMap_congr fun p hp => Function.update_of_ne (fun hpe => ?_) _ _
  exact he (hpe ▸ List.mem_map_of_mem hp)

theorem heldPages_created (hI : TableInv c s) (hc : CanCreate s size name) :
    (heldPages (created s n size name)).Perm
      ((s.mem.freeList.take n).map toULong ++ heldPages s) := by
  have hnl := (hI.first hc.entry).2
  have h := heldPages_congr (f := pagesOf (created s n size name))
    (g := Function.update (pagesOf s) s.symTable.firstFreeEntry
      ((s.mem.freeList.take n).map toULong)) (@insert_perm _ _ _ Key.lt _ _
      s.symTable.firstFreeEntry hc.fresh) ?_
  · refine h.trans ?_
    rw [List.flatMap_cons, Function.update_self, flatMap_update hnl]
    exact List.Perm.refl _
  · intro p _
    unfold pagesOf created
    simp only [Function.update_apply]
    split_ifs <;> rfl

/-- **Creating a list only moves pages** from `free_list` to the list. -/
theorem allPages_created (hI : TableInv c s) (hc : CanCreate s size name) :
    (allPages (created s n size name)).Perm (allPages s) := by
  have hfree : freePages s = (s.mem.freeList.take n).map toULong ++
      freePages (created s n size name) := by
    simp only [freePages, created]
    rw [← List.map_append, List.take_append_drop]
  unfold allPages
  rw [hfree]
  refine ((heldPages_created hI hc).append_left _).trans ?_
  rw [← List.append_assoc]
  exact List.perm_append_comm.append_right _

theorem heldPages_release (hI : TableInv c s) (hf : find s.listMap k = some e) :
    (heldPages s).Perm (pagesOf s e ++ heldPages (release s k e)) := by
  have hel : e ∉ live (release s k e) :=
    (List.nodup_cons.1 ((live_release hI.keys hf).nodup_iff.1 hI.live_nodup)).1
  have hpages : pagesOf (release s k e) = Function.update (pagesOf s) e [] := by
    funext x
    simp only [pagesOf, release, Function.update_apply]
    split_ifs <;> rfl
  refine ((erase_perm hI.keys hf).flatMap_right _).trans ?_
  -- no other key shares the entry, so the other page vectors stay
  rw [List.flatMap_cons, heldPages, hpages, flatMap_update hel]
  exact List.Perm.refl _

/-- **A dropped list loses its pages.** -/
theorem allPages_dropped (hI : TableInv c s) (hf : find s.listMap k = some e) (z : ℤ) :
    (allPages s).Perm (pagesOf s e ++ allPages { release s k e with currScope := z }) := by
  have h : (allPages s).Perm (freePages s ++ (pagesOf s e ++ heldPages (release s k e))) :=
    (heldPages_release hI hf).append_left _
  refine h.trans ?_
  rw [← List.append_assoc]
  exact (List.perm_append_comm.append_right _).trans (List.Perm.of_eq (List.append_assoc _ _ _))

theorem freePages_freed (hh : ∀ p ∈ pagesOf s e, toULong (toInt p) = p) :
    (freePages (freed s k e)).Perm (pagesOf s e ++ freePages s) := by
  have h := (pushAll_perm (pagesOf s e) s.mem.freeList).map toULong
  rw [List.map_append, List.map_map] at h
  refine h.trans (List.Perm.append_right _ (List.Perm.of_eq ?_))
  calc (pagesOf s e).map (toULong ∘ toInt) = (pagesOf s e).map id := List.map_congr_left hh
    _ = pagesOf s e := List.map_id _

/-- **Freeing a list only moves pages** from the list to `free_list`. -/
theorem allPages_freed (hI : TableInv c s) (hf : find s.listMap k = some e)
    (hh : ∀ p ∈ pagesOf s e, toULong (toInt p) = p) :
    (allPages (freed s k e)).Perm (allPages s) := by
  have h1 : (allPages (freed s k e)).Perm
      ((pagesOf s e ++ freePages s) ++ heldPages (release s k e)) :=
    (freePages_freed hh).append_right _
  exact h1.trans (allPages_dropped hI hf s.currScope |>.trans
    (List.Perm.of_eq (List.append_assoc _ _ _).symm)).symm

theorem mem_heldPages (h : (k, e) ∈ s.listMap) {p : ℕ} (hp : p ∈ pagesOf s e) :
    p ∈ heldPages s := List.mem_flatMap.2 ⟨(k, e), h, hp⟩

/-! ## What holds of every live list -/

/-- `P` holds of the capacity and the pages of every live entry. -/
def Entries (P : ℕ → List ℕ → Prop) (s : State) : Prop :=
  ∀ e ∈ live s, P (s.symTable.entries e).capacity (pagesOf s e)

variable {P : ℕ → List ℕ → Prop}

theorem entries_init (memSize : ℕ) : Entries P (createMem c memSize) := by
  intro e he
  simp [live, createMem] at he

theorem Entries.same (h : Entries P s) (hs : Same s t) : Entries P t := by
  intro e he
  rw [hs.cap, hs.pagesOf]
  exact h e (by rwa [hs.live] at he)

theorem Entries.created (h : Entries P s) (hI : TableInv c s) (hc : CanCreate s size name)
    (hnew : P size ((s.mem.freeList.take n).map toULong)) : Entries P (created s n size name) := by
  intro x hx
  simp only [Malloc.created, pagesOf, Function.update_apply]
  rcases List.mem_cons.1 ((live_created hc.fresh).mem_iff.1 hx) with hx | hx
  · -- the new list
    rw [if_pos hx]
    exact hnew
  · rw [if_neg (hI.ne_first hc.entry hx)]
    exact h x hx

theorem Entries.release (h : Entries P s) (hI : TableInv c s) (hf : find s.listMap k = some e) :
    Entries P (release s k e) := by
  intro x hx
  have hperm := live_release hI.keys hf
  have hne : x ≠ e := by
    rintro rfl; exact (List.nodup_cons.1 (hperm.nodup_iff.1 hI.live_nodup)).1 hx
  simp only [Malloc.release, pagesOf]
  rw [Function.update_of_ne hne]
  exact h x (hperm.mem_iff.2 (List.mem_cons_of_mem _ hx))

/-- **Every call keeps what holds of all lists**, if it holds of the lists that are created. -/
theorem entries_step {op : Op} (h : Entries P s) (hI : TableInv c s)
    (hnew : ∀ size name, op = .createList size name → numPagesReq size ≤ s.mem.freeList.length →
      P size ((s.mem.freeList.take (numPagesReq size)).map toULong))
    (hst : step c s op = some t) : Entries P t := by
  rcases step_cases hI.keys hst with ⟨hs, -⟩ | ⟨size, name, hop, hc, hlen, -, rfl⟩ |
    ⟨k, e, -, -, hf, rfl⟩ | ⟨name, e, -, hf, rfl⟩
  · exact h.same hs
  · exact h.created hI hc (hnew size name hop hlen)
  · exact h.release hI hf
  · exact h.release hI hf

/-! ## Preservation -/

theorem PageInv.created (hP : PageInv s) (hI : TableInv c s) (hc : CanCreate s size name) :
    PageInv (created s n size name) where
  count := by simp only [Malloc.created, List.length_drop, hP.count]
  sorted := hP.sorted.sublist (List.drop_sublist _ _)
  ints := fun z hz => hP.ints z (List.mem_of_mem_drop hz)
  held := by
    intro p hp
    rcases List.mem_append.1 ((heldPages_created hI hc).mem_iff.1 hp) with h | h
    · obtain ⟨z, hz, rfl⟩ := List.mem_map.1 h
      rw [hP.ints z (List.mem_of_mem_take hz)]
    · exact hP.held p h
  total := by rw [(allPages_created hI hc).length_eq]; exact hP.total
  small := hP.small

theorem PageInv.dropped (hP : PageInv s) (hI : TableInv c s) (hf : find s.listMap k = some e)
    (z : ℤ) : PageInv { release s k e with currScope := z } where
  count := hP.count
  sorted := hP.sorted
  ints := hP.ints
  held := by
    intro p hp
    exact hP.held p ((heldPages_release hI hf).mem_iff.2 (List.mem_append_right _ hp))
  total := by
    have h := (allPages_dropped hI hf z).length_eq
    have h2 := hP.total
    rw [List.length_append] at h
    exact le_trans (by omega) h2
  small := hP.small

theorem PageInv.freed (hP : PageInv s) (hI : TableInv c s) (hf : find s.listMap k = some e) :
    PageInv (freed s k e) := by
  have hh : ∀ p ∈ pagesOf s e, toULong (toInt p) = p := fun p hp =>
    hP.held p (mem_heldPages (mem_of_find hf) hp)
  have hperm := pushAll_perm (pagesOf s e) s.mem.freeList
  have htot : (allPages (Malloc.freed s k e)).length ≤ numPages s := by
    rw [(allPages_freed hI hf hh).length_eq]; exact hP.total
  refine ⟨?_, pushAll_sorted _ hP.sorted, ?_, ?_, htot, hP.small⟩
  · -- the sum is a number of pages, so the counter does not wrap around
    have hlen := (freePages_freed (k := k) hh).length_eq
    have hle : (freePages (Malloc.freed s k e)).length ≤ numPages s :=
      le_trans (by unfold allPages; rw [List.length_append]; omega) htot
    have hsm := hP.small
    have hc := hP.count
    simp only [freePages, List.length_map, List.length_append] at hlen hle
    rw [hlen] at hle ⊢
    simp only [Malloc.freed]
    unfold u64
    rw [Nat.mod_eq_of_lt (by omega)]
    omega
  · intro z hz
    rcases List.mem_append.1 (hperm.mem_iff.1 hz) with h | h
    · obtain ⟨p, -, rfl⟩ := List.mem_map.1 h; exact toInt_toULong_toInt p
    · exact hP.ints z h
  · intro p hp
    exact hP.held p ((heldPages_release hI hf).mem_iff.2 (List.mem_append_right _ hp))

/-- **Every call keeps the symbol table and the page counters sound.** -/
theorem inv_step {op : Op} (hI : TableInv c s) (hP : PageInv s) (h : step c s op = some t) :
    TableInv c t ∧ PageInv t := by
  rcases step_cases hI.keys h with ⟨hs, -⟩ | ⟨size, name, -, hc, -, -, rfl⟩ |
    ⟨k, e, -, -, hf, rfl⟩ | ⟨name, e, -, hf, rfl⟩
  · exact ⟨hI.same hs, hP.same hs⟩
  · exact ⟨hI.created hc, hP.created hI hc⟩
  · exact ⟨(hI.release hf).same (same_setScope _ _), hP.dropped hI hf _⟩
  · have hr := hI.release hf
    exact ⟨⟨hr.keys, hr.chain, hr.vec⟩, hP.freed hI hf⟩

/-- No call changes the size of the memory. -/
theorem capacity_step {op : Op} (hI : TableInv c s) (h : step c s op = some t) :
    t.mem.capacity = s.mem.capacity := by
  rcases step_cases hI.keys h with ⟨hs, -⟩ | ⟨size, name, -, -, -, -, rfl⟩ |
    ⟨k, e, -, -, -, rfl⟩ | ⟨name, e, -, -, rfl⟩
  · exact hs.capacity
  · rfl
  · rfl
  · rfl

theorem numPages_step {op : Op} (hI : TableInv c s) (h : step c s op = some t) :
    numPages t = numPages s := by unfold numPages; rw [capacity_step hI h]

/-- **No call sets a pointer** to a page vector: `addEntry` assigns through it. -/
theorem isSome_step {op : Op} (hI : TableInv c s) (h : step c s op = some t) (e : ℕ) :
    (t.symTable.entries e).listPages.isSome = (s.symTable.entries e).listPages.isSome := by
  have hrelease : ∀ k x, find s.listMap k = some x →
      ((release s k x).symTable.entries e).listPages.isSome =
        (s.symTable.entries e).listPages.isSome := by
    intro k x hf
    simp only [release, Function.update_apply]
    split_ifs with hex
    · rw [hex, hI.vec x (find_live hf)]
      rfl
    · rfl
  rcases step_cases hI.keys h with ⟨hs, -⟩ | ⟨size, name, -, -, -, hv, rfl⟩ |
    ⟨k, x, -, -, hf, rfl⟩ | ⟨name, x, -, hf, rfl⟩
  · rw [hs.pages]
  · simp only [created, Function.update_apply]
    split_ifs with hex
    · rw [hex, hv]
      rfl
    · rfl
  · exact hrelease k x hf
  · exact hrelease _ x hf

theorem inv_run {size : ℕ} {ops : List Op} (h : run (step c) (createMem c size) ops = some s) :
    TableInv c s ∧ PageInv s :=
  run_inv' (I := fun s => TableInv c s ∧ PageInv s) (fun _ _ _ hs h => inv_step hs.1 hs.2 h)
    ⟨tableInv_init size, pageInv_init size⟩ h

/-! ## Memories with page numbers that are no `int` -/

/-- More pages than an `int` can count. -/
def bigPages : ℕ := 2 ^ 31 + 1

theorem createMem_big : (createMem c (80 * bigPages)).mem.numFreePages = bigPages := by
  have hceil : ceilDiv (80 * bigPages) pageSize = bigPages := by
    rw [ceilDiv_eq_div (by decide) (by decide) (by decide)]; decide
  have hmul : u64 (bigPages * pageSize) / pageSize = bigPages := by decide
  calc (createMem c (80 * bigPages)).mem.numFreePages
      = u64 (ceilDiv (80 * bigPages) pageSize * pageSize) / pageSize := rfl
    _ = bigPages := by rw [hceil, hmul]

/-- The top of a heap. -/
theorem sorted_head {q : List ℤ} {z : ℤ} (hs : q.Pairwise (· ≤ ·)) (hz : z ∈ q)
    (hle : ∀ y ∈ q, z ≤ y) : ∃ r, q = z :: r := by
  cases q with
  | nil => cases hz
  | cons y r =>
    refine ⟨r, ?_⟩
    rcases List.mem_cons.1 hz with rfl | hz
    · rfl
    · rw [le_antisymm ((List.pairwise_cons.1 hs).1 z hz) (hle y List.mem_cons_self)]

/-- The last of `2^31 + 1` pages is on top of the heap, as a negative number. -/
theorem freeList_big : ∃ q, (createMem c (80 * bigPages)).mem.freeList = -2 ^ 31 :: q := by
  have hP := pageInv_init (c := c) (80 * bigPages)
  have hnum : numPages (createMem c (80 * bigPages)) = bigPages := createMem_big (c := c)
  have hperm : (createMem c (80 * bigPages)).mem.freeList.Perm ((List.range bigPages).map toInt) := by
    have h := init_freeList_perm (c := c) (createMem c (80 * bigPages)).mem.capacity
    unfold numPages at hnum
    rw [hnum] at h
    exact h
  refine sorted_head hP.sorted ?_ ?_
  · rw [hperm.mem_iff]
    exact List.mem_map.2 ⟨2 ^ 31, List.mem_range.2 (by decide), by decide⟩
  · intro y hy
    obtain ⟨i, -, rfl⟩ := List.mem_map.1 (hperm.mem_iff.1 hy)
    exact (toInt_range i).1

end OsLab.Malloc
