import OsLab.Malloc.Memory

/-!
# Scratch lists

A list that is created, written and freed again gives the allocator back as it found it
(`Back`, `Back.freed`): the same free pages, the same chain of free entries, the same map.
-/

namespace OsLab.Malloc

open Lib

variable {c : Config} {s t u : State} {e x n : ℕ}

/-- `t` is `s` up to the memory and the entries that no list uses. -/
structure Back (s t : State) : Prop where
  scope : t.currScope = s.currScope
  listMap : t.listMap = s.listMap
  freeList : t.mem.freeList = s.mem.freeList
  numFreePages : t.mem.numFreePages = s.mem.numFreePages
  first : t.symTable.firstFreeEntry = s.symTable.firstFreeEntry
  numFree : t.symTable.numFreeEntries = s.symTable.numFreeEntries
  next : ∀ e, (t.symTable.entries e).nextEntry = (s.symTable.entries e).nextEntry
  cap : ∀ e ∈ live s, (t.symTable.entries e).capacity = (s.symTable.entries e).capacity
  pages : ∀ e ∈ live s, (t.symTable.entries e).listPages = (s.symTable.entries e).listPages
  vecs : ∀ e, (t.symTable.entries e).listPages.isSome = (s.symTable.entries e).listPages.isSome

theorem Back.live (h : Back s t) : live t = live s := by unfold Malloc.live; rw [h.listMap]

theorem Back.pagesOf (h : Back s t) (he : e ∈ Malloc.live s) : pagesOf t e = pagesOf s e := by
  unfold Malloc.pagesOf; rw [h.pages e he]

theorem Back.trans (h : Back s t) (h' : Back t u) : Back s u where
  scope := h'.scope.trans h.scope
  listMap := h'.listMap.trans h.listMap
  freeList := h'.freeList.trans h.freeList
  numFreePages := h'.numFreePages.trans h.numFreePages
  first := h'.first.trans h.first
  numFree := h'.numFree.trans h.numFree
  next e := (h'.next e).trans (h.next e)
  cap e he := (h'.cap e (by rw [h.live]; exact he)).trans (h.cap e he)
  pages e he := (h'.pages e (by rw [h.live]; exact he)).trans (h.pages e he)
  vecs e := (h'.vecs e).trans (h.vecs e)

/-- The accessors change the memory only. -/
theorem Same.back (h : Same s t) (hcs : t.currScope = s.currScope) : Back s t where
  scope := hcs
  listMap := h.listMap
  freeList := h.freeList
  numFreePages := h.numPages
  first := h.first
  numFree := h.numFree
  next := h.next
  cap e _ := h.cap e
  pages e _ := h.pages e
  vecs e := by rw [h.pages]

theorem Back.refl (s : State) : Back s s := (Same.refl s).back rfl

/-- The free-entry chain is the same chain. -/
theorem Back.chain (h : Back s t) (fc : List ℕ) : FreeChain t fc ↔ FreeChain s fc := by
  unfold FreeChain
  rw [h.first]
  constructor
  · intro hf
    exact hf.congr fun e _ => (h.next e).symm
  · intro hf
    exact hf.congr fun e _ => h.next e

/-! ## A scratch list -/

theorem numPagesReq_eq (hn : n < 2 ^ 32) : numPagesReq n = (4 * n + 79) / 80 := by
  have hu : u64 (n * sizeofInt) = n * 4 := Nat.mod_eq_of_lt (by unfold sizeofInt; omega)
  unfold numPagesReq
  rw [hu, show pageSize = 80 from rfl, ceilDiv_eq_div (by omega) (by norm_num) (by norm_num)]
  omega

/-- The pages that a list got go back to their places in the heap. -/
theorem pushAll_take {q : List ℤ} (k : ℕ) (hs : q.Pairwise (· ≤ ·))
    (hint : ∀ z ∈ q, toInt (toULong z) = z) :
    ((q.take k).map toULong).foldl (fun q p => push q (toInt p)) (q.drop k) = q := by
  have hmap : ((q.take k).map toULong).map toInt = q.take k := by
    rw [List.map_map]
    exact (List.map_congr_left fun z hz => hint z (List.mem_of_mem_take hz)).trans (List.map_id _)
  -- both heaps are sorted, so it is enough that they hold the same pages
  have hperm := pushAll_perm ((q.take k).map toULong) (q.drop k)
  rw [hmap, List.take_append_drop] at hperm
  exact hperm.eq_of_pairwise (fun a b _ _ h h' => le_antisymm h h')
    (pushAll_sorted _ (hs.sublist (List.drop_sublist _ _))) hs

/-- **A list that is created and freed again** leaves no trace but in the memory, also when other
lists were created and freed in between. -/
theorem Back.freed {name : String} {size : ℕ} (hI : TableInv c s) (hP : PageInv s)
    (hc : CanCreate s size name)
    (hv : (s.symTable.entries s.symTable.firstFreeEntry).listPages.isSome)
    (h : Back (created s (numPagesReq size) size name) t) :
    Back s (freed t (s.currScope, name) s.symTable.firstFreeEntry) := by
  have hlen := hc.enough hP
  have hlive : s.symTable.firstFreeEntry ∈ Malloc.live (created s (numPagesReq size) size name) :=
    (live_created hc.fresh).mem_iff.2 List.mem_cons_self
  have hpages : Malloc.pagesOf t s.symTable.firstFreeEntry =
      (s.mem.freeList.take (numPagesReq size)).map toULong := by
    rw [h.pagesOf hlive, pagesOf_created]
  -- an older list has another entry
  have hold : ∀ e ∈ Malloc.live s, e ≠ s.symTable.firstFreeEntry ∧
      e ∈ Malloc.live (created s (numPagesReq size) size name) := by
    exact fun e he => ⟨hI.ne_first hc.entry he, mem_live_created hc he⟩
  refine ⟨h.scope, ?_, ?_, ?_, rfl, ?_, ?_, ?_, ?_, ?_⟩
  · simp only [Malloc.freed, release, h.listMap, created]
    exact erase_insert hc.fresh
  · -- the pages that were taken are pushed again
    simp only [Malloc.freed, hpages, h.freeList, created]
    exact pushAll_take _ hP.sorted hP.ints
  · have hk := hc.room
    have hle := freeList_le hP
    have hsm := hP.small
    have hcount := hP.count
    simp only [Malloc.freed, hpages, h.numFreePages, created, List.length_map, List.length_take,
      Nat.min_eq_left hlen]
    unfold u64
    rw [Nat.sub_add_cancel hk, Nat.mod_eq_of_lt (by omega)]
  · have hne := hc.entry
    simp only [Malloc.freed, release, h.numFree, created]
    omega
  · -- the entry points to what it pointed to before
    intro e
    simp only [Malloc.freed, release, Function.update_apply]
    split_ifs with he
    · rw [he, h.first]; simp only [created]
    · rw [h.next]; simp only [created, Function.update_of_ne he]
  · intro e he
    obtain ⟨hne, hl⟩ := hold e he
    simp only [Malloc.freed, release, Function.update_of_ne hne]
    rw [h.cap e hl]; simp only [created, Function.update_of_ne hne]
  · intro e he
    obtain ⟨hne, hl⟩ := hold e he
    simp only [Malloc.freed, release, Function.update_of_ne hne]
    rw [h.pages e hl]; simp only [created, Function.update_of_ne hne]
  · intro e
    simp only [Malloc.freed, release, Function.update_apply]
    split_ifs with hne
    · rw [hne, hv, Option.isSome_some]
    · rw [h.vecs]
      simp only [created, Function.update_of_ne hne]

/-- The end of a scope that has no list. -/
theorem endScope_empty (h : ∀ p ∈ s.listMap, p.1.1 ≠ s.currScope) (hcs : intMin < s.currScope) :
    endScope s = some { s with currScope := s.currScope - 1 } := by
  have hf : firstInScope s = none :=
    List.find?_eq_none.2 fun p hp => by simpa using h p hp
  unfold endScope
  rw [hf]
  simp only [Option.bind_eq_bind, Option.bind_some, if_pos hcs]

/-! ## Creating and freeing -/

/-- The first of two free entries has a page vector. -/
theorem first_isSome (hI : TableInv c s) (h : 2 ≤ s.symTable.numFreeEntries) :
    (s.symTable.entries s.symTable.firstFreeEntry).listPages.isSome := by
  obtain ⟨fc, h1, -, h3, h4⟩ := hI.chain
  match fc, h1, h3, h4 with
  | [], _, h3, _ => simp only [List.length_nil] at h3; omega
  | [_], _, h3, _ => simp only [List.length_singleton] at h3; omega
  | a :: b :: fc, h1, _, h4 =>
    rw [h1.1]
    apply h4 a
    rw [List.dropLast_cons_of_ne_nil (List.cons_ne_nil _ _)]
    exact List.mem_cons_self

theorem find_created {name : String} {k : ℕ} {key : Key} (hS : Sound c s)
    (hc : CanCreate s n name) :
    find (created s k n name).listMap key =
      find (((s.currScope, name), s.symTable.firstFreeEntry) :: s.listMap) key :=
  (find_perm (hS.table.created hc).keys (insert_perm hc.fresh) key).symm

theorem cell_freed {k : Key} (hne : e ≠ x) (off : ℕ) : cell (freed s k x) e off = cell s e off :=
  congrArg s.mem.mem (cellAddr_release (k := k) _ hne).1

theorem cell_created {name : String} {k off : ℕ} (hS : Sound c s) (hc : CanCreate s n name)
    (he : e ∈ live s) : cell (created s k n name) e off = cell s e off :=
  congrArg s.mem.mem (cellAddr_created _ hc hS.table he).1

end OsLab.Malloc
