import OsLab.Malloc.FreeChain

/-!
# The page vectors that `Sym_Table::init` allocates

`init` allocates a vector for each entry but the last one, and no other function sets `list_pages`:
`addEntry` assigns through it. The last entry ends the free chain, so it is taken as soon as all the
others are taken.

* `followsInit_iff`: a run uses only vectors of `init` exactly if it creates lists only while there
  is a second free entry.
* `last_vector_missing`: two lists in a table of two entries.
-/

namespace OsLab.Malloc

open Lib

/-- `Sym_Table::init` sets the pointer of the entry, whatever the memory held. -/
def SetByInit (c : Config) (e : ℕ) : Prop :=
  ∀ u, ((SymTable.init { c with uninitEntry := u }).entries e).listPages.isSome

/-- The call follows the `list_pages` of the entry. -/
def Follows (s : State) : Op → ℕ → Prop
  | .initScope, _ => False
  | .endScope, e => ∃ k, firstInScope s = some (k, e)
  -- the checks of `addEntry` are among those of `createList`
  | .createList size listName, e => CanCreate s size listName ∧ e = s.symTable.firstFreeEntry
  | .assignVal listName offset _, e =>
    resolve s listName = some e ∧ offset < (s.symTable.entries e).capacity
  | .getVal listName offset, e =>
    resolve s listName = some e ∧ offset < (s.symTable.entries e).capacity
  | .freeList listName, e => find s.listMap (s.currScope, listName) = some e

/-- Each pointer that the call follows was set by `init`, and there is a vector. -/
def FollowsInit (c : Config) (s : State) (op : Op) : Prop :=
  ∀ e, Follows s op e → SetByInit c e ∧ (s.symTable.entries e).listPages.isSome

/-- A list is created only while there is more than one free entry. -/
def LeavesFree (s : State) : Op → Prop
  | .createList size listName => CanCreate s size listName → s.symTable.numFreeEntries ≠ 1
  | _ => True

/-- The symbol table is sound, and its last entry ends the free chain. -/
structure LastFree (c : Config) (s : State) : Prop where
  table : TableInv c s
  last : ∃ fc, visited s = fc ++ [c.numSymTableEntries - 1]

variable {c : Config} {s t : State} {k : Key} {e n size : ℕ} {name : String}

/-! ## The entries with a vector -/

/-- The loop of `init` stops before the last entry. -/
theorem setByInit_iff : SetByInit c e ↔ e + 1 < c.numSymTableEntries := by
  constructor
  · intro h
    by_contra hlt
    have hset := h ⟨0, 0, 0, none⟩
    unfold SymTable.init at hset
    simp only [if_neg hlt] at hset
    split_ifs at hset
    · cases hset
    · cases hset
  · intro h u
    unfold SymTable.init
    simp only [if_pos h]
    rfl

/-! ## The last entry -/

theorem lastFree_init (size : ℕ) : LastFree c (createMem c size) where
  table := tableInv_init size
  last := by
    have hlen : (List.range c.numSymTableEntries).length =
        (createMem c size).symTable.numFreeEntries := List.length_range
    obtain ⟨n, hn⟩ : ∃ n, c.numSymTableEntries = n + 1 := ⟨_, (Nat.sub_add_cancel c.one_le).symm⟩
    refine ⟨List.range n, ?_⟩
    rw [← ((freeChain_init size).visited hlen).1, hn, List.range_succ, Nat.add_sub_cancel]

/-- The entry of a live list is not the last one. -/
theorem LastFree.live (hL : LastFree c s) (he : e ∈ live s) :
    SetByInit c e ∧ (s.symTable.entries e).listPages.isSome := by
  obtain ⟨fc, hlast⟩ := hL.last
  have hfree : e ∉ visited s := fun hv => (hL.table.mem_visited.1 hv).2 he
  have hlt := hL.table.visited_or_live.1 (.inr he)
  have hne : e ≠ c.numSymTableEntries - 1 := by
    rintro rfl
    rw [hlast] at hfree
    exact hfree (List.mem_append_right _ List.mem_cons_self)
  exact ⟨setByInit_iff.2 (by omega), hL.table.vec e he⟩

/-- The first free entry is the last one of the table if and only if there is no other. -/
theorem LastFree.first (hL : LastFree c s) :
    (SetByInit c s.symTable.firstFreeEntry ∧
      (s.symTable.entries s.symTable.firstFreeEntry).listPages.isSome) ↔
      s.symTable.numFreeEntries ≠ 1 := by
  obtain ⟨fc, hlast⟩ := hL.last
  obtain ⟨hchain, hperm, -, hvec⟩ := hL.table.visited
  have hlen := visited_length s
  have hN := c.one_le
  rw [hlast] at hchain hperm hvec hlen
  rw [setByInit_iff]
  cases fc with
  | nil =>
    have hfirst : s.symTable.firstFreeEntry = c.numSymTableEntries - 1 := hchain.1
    constructor
    · intro hset
      omega
    · exact fun hne => absurd hlen.symm hne
  | cons x fc =>
    have hfirst : s.symTable.firstFreeEntry = x := hchain.1
    have hnodup := (List.nodup_append.1 (hperm.nodup_iff.2 List.nodup_range)).1
    have hx : x < c.numSymTableEntries := List.mem_range.1 (hperm.mem_iff.1 List.mem_cons_self)
    have hne : x ≠ c.numSymTableEntries - 1 := by
      rintro rfl
      exact (List.nodup_cons.1 hnodup).1 (List.mem_append_right _ List.mem_cons_self)
    rw [List.length_append, List.length_cons, List.length_singleton] at hlen
    rw [hfirst]
    refine iff_of_true ⟨by omega, hvec x ?_⟩ (by omega)
    rw [List.dropLast_concat]
    exact List.mem_cons_self

theorem LastFree.same (hL : LastFree c s) (h : Same s t) : LastFree c t := by
  refine ⟨hL.table.same h, ?_⟩
  rw [visited_same h]
  exact hL.last

theorem LastFree.release (hL : LastFree c s) (hf : find s.listMap k = some e) :
    LastFree c (release s k e) := by
  obtain ⟨fc, hlast⟩ := hL.last
  refine ⟨hL.table.release hf, e :: fc, ?_⟩
  rw [visited_release hL.table hf, hlast, List.cons_append]

theorem LastFree.created (hL : LastFree c s) (hc : CanCreate s size name)
    (h : s.symTable.numFreeEntries ≠ 1) : LastFree c (created s n size name) := by
  obtain ⟨fc, hlast⟩ := hL.last
  have hcons := visited_created (n := n) hL.table hc
  have hlen := visited_length s
  refine ⟨hL.table.created hc, ?_⟩
  rw [hlast] at hcons hlen
  cases fc with
  | nil => exact absurd hlen.symm h
  | cons x fc => exact ⟨fc, (List.cons.inj hcons).2.symm⟩

/-! ## Runs -/

theorem lastFree_step (s : State) (op : Op) (t : State) (hL : LastFree c s) (hC : LeavesFree s op)
    (h : step c s op = some t) : LastFree c t := by
  rcases step_cases hL.table.keys h with ⟨hs, -⟩ | ⟨size, name, rfl, hc, -, -, rfl⟩ |
    ⟨k, e, -, -, hf, rfl⟩ | ⟨name, e, -, hf, rfl⟩
  · exact hL.same hs
  · exact hL.created hc (hC hc)
  · exact (hL.release hf).same (same_setScope _ _)
  · have hr := hL.release hf
    exact ⟨⟨hr.table.keys, hr.table.chain, hr.table.vec⟩, hr.last⟩

/-- While the last entry is free, a call follows a pointer of `init` unless it takes that entry. -/
theorem followsInit_step (s : State) (op : Op) (hL : LastFree c s) :
    FollowsInit c s op ↔ LeavesFree s op := by
  cases op with
  | initScope => exact iff_of_true (fun e he => he.elim) trivial
  | endScope =>
    refine iff_of_true ?_ trivial
    intro e he
    obtain ⟨k, hk⟩ := he
    exact hL.live (List.mem_map_of_mem (firstInScope_mem hk).1)
  | createList size name =>
    constructor
    · intro h hc
      exact hL.first.1 (h _ ⟨hc, rfl⟩)
    · intro h e he
      obtain ⟨hc, rfl⟩ := he
      exact hL.first.2 (h hc)
  | assignVal name off v => exact iff_of_true (fun e he => hL.live (resolve_live he.1)) trivial
  | getVal name off => exact iff_of_true (fun e he => hL.live (resolve_live he.1)) trivial
  | freeList name => exact iff_of_true (fun e he => hL.live (find_live he)) trivial

/-- **The vectors of `init` suffice** for a run if and only if each list that it creates leaves an
entry free. -/
theorem followsInit_iff (c : Config) (size : ℕ) (ops : List Op) :
    Called (step c) (FollowsInit c) (createMem c size) ops ↔
      Called (step c) LeavesFree (createMem c size) ops :=
  called_iff followsInit_step lastFree_step (lastFree_init size)

/-- **The last entry has no vector**: two lists fill a table of two entries, and the second one is
assigned through a pointer that nothing has set. -/
theorem last_vector_missing : ¬ ∀ (c : Config) (size : ℕ) (ops : List Op),
    Called (step c) (FollowsInit c) (createMem c size) ops := by
  intro hclaim
  have hcalled := called_append.1 (show Called (step (.twoEntries none))
    (FollowsInit (.twoEntries none)) (createMem (.twoEntries none) 400)
    ([.initScope, .createList 1 "a"] ++ [.createList 1 "b"]) from hclaim _ _ _)
  have hrun : (run (step (.twoEntries none)) (createMem (.twoEntries none) 400)
      [.initScope, .createList 1 "a"]).map (fun s => (s.symTable.firstFreeEntry,
        s.symTable.numFreeEntries, find s.listMap (s.currScope, "b"),
        decide (numPagesReq 1 ≤ s.mem.numFreePages))) = some (1, 1, none, true) := by decide +kernel
  obtain ⟨s, hs, heq⟩ := Option.map_eq_some_iff.1 hrun
  simp only [Prod.mk.injEq, decide_eq_true_eq] at heq
  obtain ⟨hfirst, hfree, hfresh, hroom⟩ := heq
  -- the checks pass, and the entry is the last one
  have hc : CanCreate s 1 "b" := ⟨by rw [hfree]; decide, hfresh, hroom⟩
  have hset := ((hcalled.2 s hs).1 _ ⟨hc, rfl⟩).1
  rw [setByInit_iff, hfirst] at hset
  exact absurd hset (by decide)

end OsLab.Malloc
