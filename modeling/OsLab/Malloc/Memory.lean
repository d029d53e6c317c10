import OsLab.Malloc.Range

/-!
# The cells of a list

With at most `2^32` pages no page number occurs twice (`MemInv.nodup`), and with sizes below
`2^62` the pages of a list cover its capacity (`MemInv.covered`). Then the cells of the live
lists are pairwise different places of `mem->mem`, and none of them is the place `-1` that
out-of-range accesses go to (`cellAddr_inj`, `cellAddr_ne_negOne`).

* `assignVal_cell`: a write changes the one cell it names.
* `cell_step`: a cell keeps its value until its list ends or it is assigned.
* `read_after_write`: what is read from a cell is what was last written to it.
-/

namespace OsLab.Malloc

open Lib

variable {c : Config} {s t : State}

/-- The lists do not share pages, and their pages cover their capacities. -/
structure MemInv (s : State) : Prop where
  nodup : (allPages s).Nodup
  covered : Entries (fun capacity pages => capacity ≤ numElemPerPage * pages.length) s
  few : numPages s ≤ 2 ^ 32

/-- A `createList` asks for fewer than `2^62` elements. -/
def SmallSize (op : Op) : Prop := ∀ size name, op = .createList size name → size < 2 ^ 62

theorem smallSize_createList {size : ℕ} {name : String} :
    SmallSize (.createList size name) ↔ size < 2 ^ 62 :=
  ⟨fun h => h size name rfl, fun h _ _ heq => by cases heq; exact h⟩

instance : DecidablePred SmallSize
  | .createList _ _ => decidable_of_iff' _ smallSize_createList
  | .initScope => isTrue fun _ _ h => by cases h
  | .endScope => isTrue fun _ _ h => by cases h
  | .assignVal _ _ _ => isTrue fun _ _ h => by cases h
  | .getVal _ _ => isTrue fun _ _ h => by cases h
  | .freeList _ => isTrue fun _ _ h => by cases h

/-- All that is known of a reachable state. -/
structure Sound (c : Config) (s : State) : Prop where
  table : TableInv c s
  pages : PageInv s
  mem : MemInv s

/-! ## Preservation -/

/-- **The pages granted cover the size asked for**, below `2^62` elements. -/
theorem numPagesReq_cover {size : ℕ} (hsz : size < 2 ^ 62) (hreq : numPagesReq size ≤ 2 ^ 32) :
    size ≤ numElemPerPage * numPagesReq size := by
  have hu : u64 (size * sizeofInt) = size * 4 := Nat.mod_eq_of_lt (by unfold sizeofInt; omega)
  have hps : pageSize = 80 := rfl
  unfold numPagesReq at hreq ⊢
  rw [hu, hps] at hreq ⊢
  rcases lt_or_ge (size * 4) (2 ^ 53) with hlt | hge
  · rw [ceilDiv_eq_div hlt (by norm_num) (by norm_num)]
    unfold numElemPerPage; omega
  · -- no memory has this many pages
    have := le_ceilDiv (y := 80) (c := 2 ^ 33) hge (by norm_num) (by norm_num)
    omega

theorem toInt_inj {i j : ℕ} (hi : i < 2 ^ 32) (hj : j < 2 ^ 32) (h : toInt i = toInt j) :
    i = j := by
  unfold toInt at h
  split_ifs at h <;> omega

theorem memInv_init {size : ℕ} (h : numPages (createMem c size) ≤ 2 ^ 32) :
    MemInv (createMem c size) where
  nodup := by
    rw [allPages_init, (freePages_init_perm size).nodup_iff]
    refine List.Nodup.map_on ?_ List.nodup_range
    -- as an `int` a page number is taken modulo `2 ^ 32`
    intro i hi j hj hij
    rw [List.mem_range] at hi hj
    exact toInt_inj (by omega) (by omega)
      (toULong_inj (toInt_toULong_toInt i) (toInt_toULong_toInt j) hij)
  covered := entries_init _
  few := h

theorem MemInv.same (hM : MemInv s) (h : Same s t) : MemInv t where
  nodup := by rw [h.allPages]; exact hM.nodup
  covered := Entries.same hM.covered h
  few := by unfold numPages; rw [h.capacity]; exact hM.few

variable {n size : ℕ} {name : String} {k : Key} {e off : ℕ}

theorem freeList_le (hP : PageInv s) : s.mem.freeList.length ≤ numPages s := by
  have h := hP.total
  unfold allPages freePages at h
  rw [List.length_append, List.length_map] at h
  omega

theorem Sound.created (hS : Sound c s) (hc : CanCreate s size name) (hsz : size < 2 ^ 62) :
    Sound c (created s (numPagesReq size) size name) := by
  have hreq := hc.enough hS.pages
  have hle := freeList_le hS.pages
  refine ⟨hS.table.created hc, hS.pages.created hS.table hc, ?_, ?_, hS.mem.few⟩
  · exact (allPages_created hS.table hc).nodup_iff.2 hS.mem.nodup
  · refine Entries.created hS.mem.covered hS.table hc ?_
    simp only [List.length_map, List.length_take, Nat.min_eq_left hreq]
    exact numPagesReq_cover hsz (by have := hS.mem.few; omega)

theorem Sound.dropped (hS : Sound c s) (hf : find s.listMap k = some e) (z : ℤ) :
    Sound c { release s k e with currScope := z } where
  table := (hS.table.release hf).same (same_setScope _ _)
  pages := hS.pages.dropped hS.table hf z
  mem := by
    refine ⟨?_, Entries.release hS.mem.covered hS.table hf, hS.mem.few⟩
    exact (List.nodup_append.1 ((allPages_dropped hS.table hf z).nodup_iff.1 hS.mem.nodup)).2.1

theorem Sound.freed (hS : Sound c s) (hf : find s.listMap k = some e) :
    Sound c (freed s k e) where
  table := by have h := hS.table.release hf; exact ⟨h.keys, h.chain, h.vec⟩
  pages := hS.pages.freed hS.table hf
  mem := by
    refine ⟨?_, Entries.release hS.mem.covered hS.table hf, hS.mem.few⟩
    exact (allPages_freed hS.table hf fun p hp =>
      hS.pages.held p (mem_heldPages (mem_of_find hf) hp)).nodup_iff.2 hS.mem.nodup

theorem Sound.same (hS : Sound c s) (h : Same s t) : Sound c t :=
  ⟨hS.table.same h, hS.pages.same h, hS.mem.same h⟩

/-- **Every call keeps the lists apart.** -/
theorem sound_step {op : Op} (hS : Sound c s) (hsz : SmallSize op) (h : step c s op = some t) :
    Sound c t := by
  rcases step_cases hS.table.keys h with ⟨hs, -⟩ | ⟨size, name, hop, hc, -, -, rfl⟩ |
    ⟨k, e, -, -, hf, rfl⟩ | ⟨name, e, -, hf, rfl⟩
  · exact hS.same hs
  · exact hS.created hc (hsz size name hop)
  · exact hS.dropped hf _
  · exact hS.freed hf

theorem sound_init (size : ℕ) (h : numPages (createMem c size) ≤ 2 ^ 32) :
    Sound c (createMem c size) :=
  ⟨tableInv_init size, pageInv_init size, memInv_init h⟩

theorem along_ops {C : Op → Prop} {ops : List Op} (h : ∀ op ∈ ops, C op) (s : State) :
    Along (step c) (fun _ op => C op) s ops := by
  induction ops generalizing s with
  | nil => trivial
  | cons op ops ih =>
    intro t _
    exact ⟨h op List.mem_cons_self, ih (fun o ho => h o (List.mem_cons_of_mem _ ho)) t⟩

theorem sound_run {ops : List Op} (hsz : ∀ op ∈ ops, SmallSize op) (hS : Sound c s)
    (h : run (step c) s ops = some t) : Sound c t :=
  run_inv (fun _ _ _ hs hop hst => sound_step hs hop hst) (along_ops hsz s) hS h

/-! ## Addresses -/

/-- The place of a cell in `mem->mem`. -/
def cellAddr (s : State) (e off : ℕ) : ℕ :=
  u64 ((pagesOf s e).getD (off / numElemPerPage) 0 * pageSize + off % numElemPerPage * sizeofInt)

theorem page_eq (hS : Sound c s) (he : e ∈ live s)
    (hoff : off < (s.symTable.entries e).capacity) :
    (pagesOf s e)[off / numElemPerPage]? =
      some ((pagesOf s e).getD (off / numElemPerPage) 0) := by
  have hcov := hS.mem.covered e he
  have hlt : off / numElemPerPage < (pagesOf s e).length := by
    unfold numElemPerPage at hcov ⊢; omega
  rw [List.getD_eq_getElem?_getD, List.getElem?_eq_getElem hlt, Option.getD_some]

theorem computeMemAddress_eq (hS : Sound c s) (he : e ∈ live s)
    (hoff : off < (s.symTable.entries e).capacity) :
    computeMemAddress s e off = some (cellAddr s e off) := by
  have hcov := hS.mem.covered e he
  have hlen := pagesOf_length hS.pages he
  have hfew := hS.mem.few
  exact address_eq (listPages_eq hS.table he) hoff (by unfold numElemPerPage at hcov; omega)
    (page_eq hS he hoff)

theorem cellPage_mem (hS : Sound c s) (he : e ∈ live s)
    (hoff : off < (s.symTable.entries e).capacity) :
    (pagesOf s e).getD (off / numElemPerPage) 0 ∈ pagesOf s e :=
  List.mem_of_getElem? (page_eq hS he hoff)

theorem cellPage_int (hS : Sound c s) (he : e ∈ live s)
    (hoff : off < (s.symTable.entries e).capacity) :
    toULong (toInt ((pagesOf s e).getD (off / numElemPerPage) 0)) =
      (pagesOf s e).getD (off / numElemPerPage) 0 := by
  obtain ⟨⟨k, e'⟩, hm, rfl⟩ := List.mem_map.1 he
  exact hS.pages.held _ (mem_heldPages hm (cellPage_mem hS he hoff))

/-- The byte offsets of two pages do not overlap. -/
theorem u64_page_inj {p p' r r' : ℕ} (hp : toULong (toInt p) = p) (hp' : toULong (toInt p') = p')
    (hr : r < 80) (hr' : r' < 80) (h : u64 (p * 80 + r) = u64 (p' * 80 + r')) :
    p = p' ∧ r = r' := by
  -- a page number is small, or negative as an `int` and wraps around 79 times
  have hwrap : ∀ p r : ℕ, toULong (toInt p) = p → r < 80 →
      (p < 2 ^ 31 ∧ u64 (p * 80 + r) = p * 80 + r) ∨
        (2 ^ 64 - 2 ^ 31 ≤ p ∧ p < 2 ^ 64 ∧
          u64 (p * 80 + r) + 79 * 2 ^ 64 = p * 80 + r) := by
    intro p r hp hr
    rcases page_range hp with h | ⟨h1, h2⟩
    · exact Or.inl ⟨h, Nat.mod_eq_of_lt (by omega)⟩
    · refine Or.inr ⟨h1, h2, ?_⟩
      unfold u64
      rw [show p * 80 + r = (p * 80 + r - 79 * 2 ^ 64) + 2 ^ 64 * 79 by omega,
        Nat.add_mul_mod_self_left, Nat.mod_eq_of_lt (by omega)]
      omega
  rcases hwrap p r hp hr with ⟨h1, h2⟩ | ⟨h1, h2, h3⟩ <;>
    rcases hwrap p' r' hp' hr' with ⟨h1', h2'⟩ | ⟨h1', h2', h3'⟩ <;> omega

/-- A page belongs to one live entry, at one position. -/
theorem page_unique {e' q q' p : ℕ} (hS : Sound c s) (he : e ∈ live s) (he' : e' ∈ live s)
    (hq : (pagesOf s e)[q]? = some p) (hq' : (pagesOf s e')[q']? = some p) :
    e = e' ∧ q = q' := by
  obtain ⟨⟨k, e₁⟩, hm, rfl⟩ := List.mem_map.1 he
  obtain ⟨⟨k', e₁'⟩, hm', rfl⟩ := List.mem_map.1 he'
  have hn : (heldPages s).Nodup := (List.nodup_append.1 hS.mem.nodup).2.1
  obtain ⟨hn1, hn2⟩ := List.nodup_flatMap.1 hn
  have hee : (k, e₁) = (k', e₁') := by
    by_contra hne
    -- the page vectors of two keys are disjoint
    have hsymm : Std.Symm (Function.onFun List.Disjoint fun p : Key × ℕ => pagesOf s p.2) :=
      ⟨fun _ _ h => h.symm⟩
    exact hn2.forall hm hm' hne (List.mem_of_getElem? hq) (List.mem_of_getElem? hq')
  cases hee
  refine ⟨rfl, ?_⟩
  obtain ⟨hlt, hv⟩ := List.getElem?_eq_some_iff.1 hq
  obtain ⟨hlt', hv'⟩ := List.getElem?_eq_some_iff.1 hq'
  exact (hn1 _ hm).getElem_inj_iff.1 (hv.trans hv'.symm)

/-- **Different cells are different places.** -/
theorem cellAddr_inj {e' off' : ℕ} (hS : Sound c s) (he : e ∈ live s) (he' : e' ∈ live s)
    (hoff : off < (s.symTable.entries e).capacity)
    (hoff' : off' < (s.symTable.entries e').capacity)
    (h : cellAddr s e off = cellAddr s e' off') : e = e' ∧ off = off' := by
  have hps : pageSize = 80 := rfl
  unfold cellAddr at h
  rw [hps] at h
  obtain ⟨hp, hr⟩ := u64_page_inj (cellPage_int hS he hoff) (cellPage_int hS he' hoff')
    (by unfold numElemPerPage sizeofInt; omega) (by unfold numElemPerPage sizeofInt; omega) h
  have hq' := page_eq hS he' hoff'
  rw [← hp] at hq'
  obtain ⟨rfl, hdiv⟩ := page_unique hS he he' (page_eq hS he hoff) hq'
  refine ⟨rfl, ?_⟩
  unfold numElemPerPage at hdiv hr
  unfold sizeofInt at hr
  omega

/-- Out-of-range accesses hit no cell of any list. -/
theorem cellAddr_ne_negOne : cellAddr s e off ≠ negOne := by
  unfold cellAddr u64 negOne pageSize numElemPerPage sizeofInt
  omega

/-! ## Cells -/

/-- The value in a cell. -/
def cell (s : State) (e off : ℕ) : ℤ := s.mem.mem (cellAddr s e off)

theorem getVal_cell (hS : Sound c s) (v : ℤ) (hr : resolve s name = some e)
    (hoff : off < (s.symTable.entries e).capacity) :
    getVal s name off v = some (cell s e off) := by
  rw [getVal_eq v hr, computeMemAddress_eq hS (resolve_live hr) hoff]
  rfl

theorem Same.cellAddr_eq (h : Same s t) (e off : ℕ) : cellAddr t e off = cellAddr s e off := by
  unfold cellAddr; rw [h.pagesOf]

/-- **A write changes one cell.** -/
theorem assignVal_cell {v : ℤ} {e' off' : ℕ} (hS : Sound c s) (h : assignVal s name off v = some t)
    (he' : e' ∈ live s) (hoff' : off' < (s.symTable.entries e').capacity) :
    cell t e' off' = if resolve s name = some e' ∧ off = off' then v else cell s e' off' := by
  rcases assignVal_cases h with ⟨hn, rfl⟩ | ⟨e, a, hr, ha, rfl⟩
  · rw [hn, if_neg (fun h => nomatch h.1)]
  unfold cell
  rw [(same_written s e a v).cellAddr_eq, written_mem, Function.update_apply, hr]
  have hiff : cellAddr s e' off' = a ↔ some e = some e' ∧ off = off' := by
    rcases le_or_gt (s.symTable.entries e).capacity off with hge | hlt
    · -- the write goes to the place `-1`
      rw [computeMemAddress_oob hge] at ha
      cases ha
      refine ⟨fun h => absurd h cellAddr_ne_negOne, ?_⟩
      intro h
      obtain ⟨h1, rfl⟩ := h
      cases h1; omega
    · rw [computeMemAddress_eq hS (resolve_live hr) hlt] at ha
      cases ha
      constructor
      · intro h
        obtain ⟨rfl, rfl⟩ := cellAddr_inj hS he' (resolve_live hr) hoff' hlt h
        exact ⟨rfl, rfl⟩
      · intro h
        obtain ⟨h1, rfl⟩ := h
        cases h1; rfl
  simp only [hiff]

theorem cellAddr_created (off : ℕ) (hc : CanCreate s size name) (hI : TableInv c s) (he : e ∈ live s) :
    cellAddr (created s n size name) e off = cellAddr s e off ∧
      ((created s n size name).symTable.entries e).capacity =
        (s.symTable.entries e).capacity := by
  have hne := hI.ne_first hc.entry he
  unfold cellAddr pagesOf created
  simp only [Function.update_of_ne hne, and_self]

theorem cellAddr_release {e' : ℕ} (off : ℕ) (hne : e ≠ e') :
    cellAddr (release s k e') e off = cellAddr s e off ∧
      ((release s k e').symTable.entries e).capacity = (s.symTable.entries e).capacity := by
  unfold cellAddr pagesOf release
  simp only [Function.update_of_ne hne, and_self]

/-- The call ends the list of entry `e`. -/
def Ends (s : State) (op : Op) (e : ℕ) : Prop :=
  (∃ name, op = .freeList name ∧ find s.listMap (s.currScope, name) = some e) ∨
    (op = .endScope ∧ ∃ k, firstInScope s = some (k, e))

/-- The call assigns the offset of entry `e`. -/
def Assigns (s : State) (op : Op) (e off : ℕ) : Prop :=
  ∃ name v, op = .assignVal name off v ∧ resolve s name = some e

/-- Entry `e` is in use and holds `v` at an offset below its capacity. -/
structure Holds (s : State) (e off : ℕ) (v : ℤ) : Prop where
  live : e ∈ live s
  lt : off < (s.symTable.entries e).capacity
  val : cell s e off = v

theorem live_of_release {e' : ℕ} (hk : (keys s.listMap).Nodup) (hf : find s.listMap k = some e')
    (hne : e ≠ e') (he : e ∈ live s) : e ∈ live (release s k e') :=
  (List.mem_cons.1 ((live_release hk hf).mem_iff.1 he)).resolve_left hne

/-- The end of another list leaves the cell as it is. -/
theorem Holds.release {e' : ℕ} {v : ℤ} (hH : Holds s e off v) (hk : (keys s.listMap).Nodup)
    (hf : find s.listMap k = some e') (hne : e ≠ e') : Holds (release s k e') e off v := by
  obtain ⟨he, hlt, hv⟩ := hH
  obtain ⟨ha, hc⟩ := cellAddr_release (s := s) (k := k) off hne
  refine ⟨live_of_release hk hf hne he, lt_of_lt_of_eq hlt hc.symm, ?_⟩
  unfold cell at hv ⊢
  exact (congrArg s.mem.mem ha).trans hv

/-- **A cell keeps its value** over every call that neither ends its list nor assigns it. -/
theorem cell_step {op : Op} {v : ℤ} (hS : Sound c s) (hH : Holds s e off v)
    (hends : ¬ Ends s op e) (hass : ¬ Assigns s op e off) (h : step c s op = some t) :
    Holds t e off v := by
  obtain ⟨he, hlt, hv⟩ := hH
  cases op with
  | initScope => obtain ⟨-, rfl⟩ := initScope_eq h; exact ⟨he, hlt, hv⟩
  | endScope =>
    rcases endScope_cases hS.table.keys h with ⟨-, rfl⟩ | ⟨k, e', hfi, hf, rfl⟩
    · exact ⟨he, hlt, hv⟩
    · have hne : e ≠ e' := by rintro rfl; exact hends (Or.inr ⟨rfl, k, hfi⟩)
      have hr := Holds.release ⟨he, hlt, hv⟩ hS.table.keys hf hne
      exact ⟨hr.live, hr.lt, hr.val⟩
  | createList size name =>
    obtain ⟨⟨u, r⟩, hu, rfl⟩ := Option.map_eq_some_iff.1 h
    rcases createList_cases hu with ⟨-, rfl, -⟩ | ⟨hc, -, -, -, rfl⟩
    · exact ⟨he, hlt, hv⟩
    · obtain ⟨ha, hcap⟩ := cellAddr_created (n := numPagesReq size) off hc hS.table he
      refine ⟨mem_live_created hc he, lt_of_lt_of_eq hlt hcap.symm, ?_⟩
      unfold cell at hv ⊢
      exact (congrArg s.mem.mem ha).trans hv
  | assignVal name off' w =>
    have hsame := same_assignVal h
    refine ⟨by rw [hsame.live]; exact he, by rw [hsame.cap]; exact hlt, ?_⟩
    rw [assignVal_cell hS h he hlt, if_neg, hv]
    intro heq
    obtain ⟨hr, rfl⟩ := heq
    exact hass ⟨name, w, rfl, hr⟩
  | getVal name off' => obtain ⟨_, -, rfl⟩ := Option.map_eq_some_iff.1 h; exact ⟨he, hlt, hv⟩
  | freeList name =>
    rcases freeList_cases h with ⟨-, rfl⟩ | ⟨e', hf, rfl⟩
    · exact ⟨he, hlt, hv⟩
    · have hne : e ≠ e' := by rintro rfl; exact hends (Or.inl ⟨name, rfl, hf⟩)
      have hr := Holds.release ⟨he, hlt, hv⟩ hS.table.keys hf hne
      exact ⟨hr.live, hr.lt, hr.val⟩

/-- **Read after write.** After a value is assigned to an offset of an entry, every read
that resolves to this entry and offset returns it, as long as the entry's list has not
ended and the offset has not been assigned again, whatever else was called. -/
theorem read_after_write {ops₁ ops₂ : List Op} {s₁ s₂ s₃ : State} {name' : String} {v w : ℤ}
    (hpages : numPages (createMem c size) ≤ 2 ^ 32) (hsz : ∀ op ∈ ops₁ ++ ops₂, SmallSize op)
    (h₁ : run (step c) (createMem c size) ops₁ = some s₁)
    (hr : resolve s₁ name = some e) (hoff : off < (s₁.symTable.entries e).capacity)
    (hw : assignVal s₁ name off v = some s₂)
    (h₂ : run (step c) s₂ ops₂ = some s₃)
    (hkeep : Along (step c) (fun s op => ¬ Ends s op e ∧ ¬ Assigns s op e off) s₂ ops₂)
    (hr' : resolve s₃ name' = some e) : getVal s₃ name' off w = some v := by
  have hS₁ : Sound c s₁ := sound_run (fun op hop => hsz op (List.mem_append_left _ hop))
    (sound_init size hpages) h₁
  have hsame := same_assignVal hw
  have he := resolve_live hr
  -- the write puts `v` into the cell, and every later call keeps it there
  have hH : Holds s₂ e off v := by
    refine ⟨by rw [hsame.live]; exact he, by rw [hsame.cap]; exact hoff, ?_⟩
    rw [assignVal_cell hS₁ hw he hoff, if_pos ⟨hr, rfl⟩]
  have hsz₂ := along_ops (c := c) (fun op hop => hsz op (List.mem_append_right _ hop)) s₂
  obtain ⟨hS₃, hH₃⟩ := run_inv (I := fun s => Sound c s ∧ Holds s e off v)
    (fun s op t hs hop hst => ⟨sound_step hs.1 hop.2 hst, cell_step hs.1 hs.2 hop.1.1 hop.1.2 hst⟩)
    (hkeep.and hsz₂) ⟨hS₁.same hsame, hH⟩ h₂
  rw [getVal_cell hS₃ w hr' hH₃.lt, hH₃.val]

/-- A value survives the creation of another list and a write to the same offset there. -/
theorem read_after_write_list1 : ∃ s,
    run (step .shipped) (createMem .shipped 400) [.initScope, .createList 30 "list1",
      .assignVal "list1" 5 7, .createList 20 "list2", .assignVal "list2" 5 8] = some s ∧
      getVal s "list1" 5 0 = some 7 := by
  obtain ⟨s₁, h₁⟩ := Option.isSome_iff_exists.1 (show (run (step .shipped)
    (createMem .shipped 400) [.initScope, .createList 30 "list1"]).isSome by decide +kernel)
  have hr := run_eval (fun s => resolve s "list1") (b := some 0) h₁ (by decide +kernel)
  have hcap := run_eval (fun s => (s.symTable.entries 0).capacity) (b := 30) h₁
    (by decide +kernel)
  have e₂ := run_append [.assignVal "list1" 5 7] h₁
  obtain ⟨s₂, h₂⟩ := Option.isSome_iff_exists.1 (show (run (step .shipped) s₁
    [.assignVal "list1" 5 7]).isSome by rw [← e₂]; decide +kernel)
  have hw : assignVal s₁ "list1" 5 7 = some s₂ := by simpa [run, step] using h₂
  rw [h₂] at e₂
  have e₃ := run_append [.createList 20 "list2", .assignVal "list2" 5 8] e₂
  obtain ⟨s₃, h₃⟩ := Option.isSome_iff_exists.1 (show (run (step .shipped) s₂
    [.createList 20 "list2", .assignVal "list2" 5 8]).isSome by rw [← e₃]; decide +kernel)
  rw [h₃] at e₃
  refine ⟨s₃, e₃, @read_after_write .shipped 400 "list1" 0 5 [.initScope, .createList 30 "list1"]
    [.createList 20 "list2", .assignVal "list2" 5 8] s₁ s₂ s₃ "list1" 7 0 (by decide +kernel)
    (by decide) h₁ hr
    (by omega) hw h₃ ?_ (run_eval (fun s => resolve s "list1") e₃ (by decide +kernel))⟩
  · intro t ht
    refine ⟨⟨?_, ?_⟩, fun u _ => ⟨⟨?_, ?_⟩, trivial⟩⟩
    · rintro (⟨_, h, _⟩ | ⟨h, _⟩) <;> cases h
    · rintro ⟨_, _, h, _⟩; cases h
    · rintro (⟨_, h, _⟩ | ⟨h, _⟩) <;> cases h
    · -- the write to `list2` goes to the second entry
      rintro ⟨_, _, h, hres⟩
      cases h
      have e₄ := run_append [.createList 20 "list2"] e₂
      rw [run, ht, Option.bind_some, run_nil] at e₄
      rw [run_eval (fun s => resolve s "list2") (b := some 1) e₄ (by decide +kernel)] at hres
      cases hres

end OsLab.Malloc
