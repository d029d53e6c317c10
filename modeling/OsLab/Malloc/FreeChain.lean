import OsLab.Malloc.Invariant

/-!
# The free chain of the symbol table

The free entries are chained through `next_entry`, from `first_free_entry` to `-1`. `createList` pops
the chain, and `endScope` and `freeList` push to it. The memory may hold anything where the
`list_pages` of the last entry is: where it is a vector, the runs that fill the table are runs of the
model.

* `visited_created`, `visited_release`: the chain after a call.
* `freeChain_run`: the chain in every reachable state.
-/

namespace OsLab.Malloc

open Lib

/-- The entries that following `next_entry` from `first_free_entry` visits, `num_free_entries` of
them. -/
def visited (s : State) : List ℕ :=
  List.iterate (fun e => (s.symTable.entries e).nextEntry) s.symTable.firstFreeEntry
    s.symTable.numFreeEntries

/-- Where the chain goes after them. -/
def chainEnd (s : State) : ℕ :=
  (fun e => (s.symTable.entries e).nextEntry)^[s.symTable.numFreeEntries] s.symTable.firstFreeEntry

/-- The free chain ends after `num_free_entries` distinct entries, those of the table that no key of
`list_map` has, and no two keys have one entry. -/
structure ChainSound (c : Config) (s : State) : Prop where
  ends : chainEnd s = negOne
  before : ∀ e ∈ visited s, e ≠ negOne
  distinct : (visited s).Nodup
  unmapped : ∀ e, e ∈ visited s ↔ e < c.numSymTableEntries ∧ ∀ k, find s.listMap k ≠ some e
  injective : ∀ k k' e, find s.listMap k = some e → find s.listMap k' = some e → k = k'

variable {c : Config} {s t : State} {k : Key} {e n size : ℕ} {name : String}

theorem visited_length (s : State) : (visited s).length = s.symTable.numFreeEntries :=
  List.length_iterate _ _ _

theorem FreeChain.visited {fc : List ℕ} (h : FreeChain s fc)
    (hlen : fc.length = s.symTable.numFreeEntries) : fc = visited s ∧ chainEnd s = negOne := by
  unfold Malloc.visited chainEnd
  rw [← hlen]
  exact h.iterate

/-- The entries that keys have. -/
theorem TableInv.mem_live (hI : TableInv c s) : e ∈ live s ↔ ∃ k, find s.listMap k = some e := by
  constructor
  · intro he
    obtain ⟨⟨k, e⟩, hmem, rfl⟩ := List.mem_map.1 he
    exact ⟨k, find_of_mem hI.keys hmem⟩
  · intro h
    obtain ⟨k, hk⟩ := h
    exact find_live hk

/-- The visited entries and the live ones are the entries of the table, each once; all visited ones
but the last have a vector. -/
theorem TableInv.visited (hI : TableInv c s) : FreeChain s (visited s) ∧
    (visited s ++ live s).Perm (List.range c.numSymTableEntries) ∧ chainEnd s = negOne ∧
    ∀ e ∈ (visited s).dropLast, (s.symTable.entries e).listPages.isSome := by
  obtain ⟨fc, hchain, hperm, hlen, hvec⟩ := hI.chain
  obtain ⟨rfl, hend⟩ := hchain.visited hlen
  exact ⟨hchain, hperm, hend, hvec⟩

theorem TableInv.visited_nodup (hI : TableInv c s) : (Malloc.visited s).Nodup :=
  (List.nodup_append.1 (hI.visited.2.1.nodup_iff.2 List.nodup_range)).1

theorem TableInv.visited_or_live (hI : TableInv c s) :
    e ∈ Malloc.visited s ∨ e ∈ live s ↔ e < c.numSymTableEntries := by
  obtain ⟨-, hperm, -, -⟩ := hI.visited
  rw [← List.mem_append, hperm.mem_iff, List.mem_range]

theorem TableInv.mem_visited (hI : TableInv c s) :
    e ∈ Malloc.visited s ↔ e < c.numSymTableEntries ∧ e ∉ live s := by
  obtain ⟨-, hperm, -, -⟩ := hI.visited
  have hdisjoint := (List.nodup_append.1 (hperm.nodup_iff.2 List.nodup_range)).2.2
  constructor
  · intro he
    exact ⟨hI.visited_or_live.1 (.inl he), fun hl => hdisjoint e he e hl rfl⟩
  · intro h
    exact (hI.visited_or_live.2 h.1).resolve_right h.2

theorem TableInv.chainSound (hI : TableInv c s) : ChainSound c s := by
  refine ⟨hI.visited.2.2.1, ?_, hI.visited_nodup, ?_, ?_⟩
  · intro e he
    have hlt := (hI.mem_visited.1 he).1
    have hN := c.lt_u64
    unfold negOne
    omega
  · intro e
    rw [hI.mem_visited, hI.mem_live, not_exists]
  · intro k k' e hk hk'
    -- two pairs of `list_map` with one entry are one pair
    have hpair := List.inj_on_of_nodup_map hI.live_nodup (mem_of_find hk) (mem_of_find hk') rfl
    exact congrArg Prod.fst hpair

/-! ## The chain after a call -/

theorem visited_same (h : Same s t) : visited t = visited s := by
  unfold visited
  simp only [h.next, h.first, h.numFree]

/-- A list that is created takes the first entry of the chain. -/
theorem visited_created (hI : TableInv c s) (hc : CanCreate s size name) :
    visited s = s.symTable.firstFreeEntry :: visited (created s n size name) := by
  have hchain := hI.visited.1
  have hlen := visited_length s
  have hnodup := hI.visited_nodup
  cases hv : visited s with
  | nil =>
    rw [hv] at hlen
    exact absurd hlen.symm hc.entry
  | cons x fc =>
    rw [hv] at hchain hlen hnodup
    have hrest : FreeChain (created s n size name) fc := hchain.created (List.nodup_cons.1 hnodup).1
    have hcount : fc.length = (created s n size name).symTable.numFreeEntries := by
      simp only [created]
      rw [← hlen, List.length_cons, Nat.add_sub_cancel]
    rw [← (hrest.visited hcount).1, hchain.1]

/-- A list that ends gives its entry back to the front of the chain. -/
theorem visited_release (hI : TableInv c s) (hf : find s.listMap k = some e) :
    visited (release s k e) = e :: visited s := by
  have hfree : e ∉ visited s := fun he => (hI.mem_visited.1 he).2 (find_live hf)
  have hlen := visited_length s
  have hcount : (e :: visited s).length = (release s k e).symTable.numFreeEntries :=
    congrArg Nat.succ hlen
  exact ((hI.visited.1.release hfree).visited hcount).1.symm

/-! ## Runs -/

/-- **The free chain** is sound in every state that calls of the library lead to. -/
theorem freeChain_run {ops : List Op} (h : run (step c) (createMem c size) ops = some s) :
    ChainSound c s := (inv_run h).1.chainSound

/-- A table of two entries, with what the memory held where the pointer of the last one is. -/
def Config.twoEntries (listPages : Option (List ℕ)) : Config :=
  ⟨2, by decide, by decide, fun _ => 0, ⟨0, 0, 0, listPages⟩⟩

/-- A run that fills the table, gives an entry back, and fills it again. -/
theorem freeChain_full : ∃ s, run (step (.twoEntries (some []))) (createMem (.twoEntries (some [])) 400)
      [.initScope, .createList 1 "a", .createList 1 "b", .freeList "a", .createList 1 "c"] = some s ∧
    s.symTable.firstFreeEntry = negOne ∧ ChainSound (.twoEntries (some [])) s := by
  have hrun : (run (step (.twoEntries (some []))) (createMem (.twoEntries (some [])) 400)
      [.initScope, .createList 1 "a", .createList 1 "b", .freeList "a", .createList 1 "c"]).map
        (fun s => s.symTable.firstFreeEntry) = some negOne := by decide +kernel
  obtain ⟨s, hs, hfirst⟩ := Option.map_eq_some_iff.1 hrun
  exact ⟨s, hs, hfirst, freeChain_run hs⟩

end OsLab.Malloc
