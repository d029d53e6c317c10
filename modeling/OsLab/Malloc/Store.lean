import OsLab.Lib.Simulation
import OsLab.Malloc.Creation
import OsLab.Malloc.Peak
import Mathlib.Data.String.Basic

/-!
# The allocator as a store of lists

`Store` says what the allocator is for. A program has named lists of numbers, each in a scope and with a
capacity, and sees nothing of pages, addresses, the symbol table and its free chain: only how many lists
can still be created, and how many pages are left for them.

* `simulates_store`: every call, and what it returns, is a step of the store.
* `trace_store`: so are whole runs from `createMem`, with sizes below `2^62` and at most `2^32` pages.
-/

namespace OsLab.Malloc

open Lib

/-! ## The store -/

/-- A list: the cells that were assigned, below its capacity. -/
structure Cells where
  capacity : ℕ
  value : ℕ → Option ℤ

/-- A list whose cells hold nothing yet. -/
def Cells.fresh (capacity : ℕ) : Cells := ⟨capacity, fun _ => none⟩

/-- An assignment. Past the capacity there is no cell. -/
def Cells.assign (l : Cells) (off : ℕ) (v : ℤ) : Cells :=
  if off < l.capacity then { l with value := Function.update l.value off (some v) } else l

/-- The lists by scope and name, the number of lists and of pages that are left. -/
structure Store where
  scope : ℤ
  lists : Key → Option Cells
  entries : ℕ
  pages : ℕ

/-- No list yet. -/
def Store.init (entries pages : ℕ) : Store := ⟨-1, fun _ => none, entries, pages⟩

/-- The list a name stands for: in the current scope, else in the global one. -/
def Store.key (m : Store) (name : String) : Key :=
  if (m.lists (m.scope, name)).isSome then (m.scope, name) else (0, name)

/-- A list can be created: there is an entry, the name is free, and the pages suffice. -/
structure Store.Room (m : Store) (size : ℕ) (name : String) : Prop where
  entry : m.entries ≠ 0
  fresh : m.lists (m.scope, name) = none
  pages : size ⌈/⌉ numElemPerPage ≤ m.pages

/-- A call and what it returns. -/
abbrev Answered := Op × Option ℤ

/-- The steps of the store. Ending a scope removes the first list of the scope by name, and its pages
are lost. A cell that was not assigned reads as anything. -/
inductive Store.Step : Store → Answered → Store → Prop where
  | initScope (m : Store) : Step m (.initScope, none) { m with scope := m.scope + 1 }
  | endScope_empty (m : Store) : (∀ name, m.lists (m.scope, name) = none) →
      Step m (.endScope, none) { m with scope := m.scope - 1 }
  | endScope (m : Store) (name : String) (l : Cells) : m.lists (m.scope, name) = some l →
      (∀ name', (m.lists (m.scope, name')).isSome → name ≤ name') →
      Step m (.endScope, none)
        ⟨m.scope - 1, Function.update m.lists (m.scope, name) none, m.entries + 1, m.pages⟩
  | createList (m : Store) (size : ℕ) (name : String) : m.Room size name →
      Step m (.createList size name, some 1)
        ⟨m.scope, Function.update m.lists (m.scope, name) (some (.fresh size)), m.entries - 1,
          m.pages - size ⌈/⌉ numElemPerPage⟩
  | createList_fails (m : Store) (size : ℕ) (name : String) : ¬ m.Room size name →
      Step m (.createList size name, some (-1)) m
  | assignVal (m : Store) (name : String) (off : ℕ) (v : ℤ) (l : Cells) :
      m.lists (m.key name) = some l →
      Step m (.assignVal name off v, none)
        { m with lists := Function.update m.lists (m.key name) (some (l.assign off v)) }
  | assignVal_none (m : Store) (name : String) (off : ℕ) (v : ℤ) : m.lists (m.key name) = none →
      Step m (.assignVal name off v, none) m
  | getVal (m : Store) (name : String) (off : ℕ) (l : Cells) (r : ℤ) :
      m.lists (m.key name) = some l → (∀ v, l.value off = some v → r = v) →
      Step m (.getVal name off, some r) m
  | getVal_none (m : Store) (name : String) (off : ℕ) : m.lists (m.key name) = none →
      Step m (.getVal name off, some 0) m
  | freeList (m : Store) (name : String) (l : Cells) : m.lists (m.scope, name) = some l →
      Step m (.freeList name, none)
        ⟨m.scope, Function.update m.lists (m.scope, name) none, m.entries + 1,
          m.pages + l.capacity ⌈/⌉ numElemPerPage⟩
  | freeList_none (m : Store) (name : String) : m.lists (m.scope, name) = none →
      Step m (.freeList name, none) m

/-- One call of the allocator, with what it returns. `getVal` is called on a variable that holds `0`. -/
def call (c : Config) (s : State) : Op → Option (State × Option ℤ)
  | .createList size name => (createList c s size name).map fun r => (r.1, some r.2)
  | .getVal name off => (getVal s name off 0).map fun v => (s, some v)
  | op => (step c s op).map fun t => (t, none)

variable {c : Config} {s t : State} {m : Store} {k k' : Key} {e off : ℕ} {l : Cells} {op : Op}

/-! ## What a state stores -/

/-- Entry `e` holds the list `l`. -/
structure Keeps (s : State) (e : ℕ) (l : Cells) : Prop where
  capacity : l.capacity = (s.symTable.entries e).capacity
  holds : ∀ off v, l.value off = some v → Holds s e off v

/-- The pairs of `list_map` are in key order. -/
def KeySorted (s : State) : Prop := s.listMap.Pairwise fun p q => Key.lt p.1 q.1 = true

/-- The state `s` is one way to keep the store `m`. -/
structure Stores (c : Config) (s : State) (m : Store) : Prop where
  sound : Sound c s
  sorted : KeySorted s
  exact : Entries (fun capacity pages => pages.length = capacity ⌈/⌉ numElemPerPage) s
  scope : m.scope = s.currScope
  entries : m.entries = s.symTable.numFreeEntries
  pages : m.pages = s.mem.numFreePages
  lists : ∀ k, Option.Rel (Keeps s) (find s.listMap k) (m.lists k)

theorem step_eq_call (c : Config) (s : State) (op : Op) : step c s op = (call c s op).map Prod.fst := by
  cases op <;> simp only [call, step, Option.map_map] <;> first | rfl | exact Option.map_id'.symm

/-! ### Page counts -/

theorem ceil_page (size : ℕ) : size ⌈/⌉ numElemPerPage = (size + 19) / 20 := rfl

/-- In a memory of at most `2^32` pages the double arithmetic of `createList` makes no difference. -/
theorem numPagesReq_le_iff {size n : ℕ} (hsz : size < 2 ^ 62) (hn : n ≤ 2 ^ 32) :
    numPagesReq size ≤ n ↔ size ⌈/⌉ numElemPerPage ≤ n := by
  rw [ceil_page]
  rcases lt_or_ge (size * 4) (2 ^ 53) with hlt | hge
  · rw [numPagesReq_exact hlt, pagesFor_eq]
    omega
  · have hu : u64 (size * sizeofInt) = size * 4 := Nat.mod_eq_of_lt (by unfold sizeofInt; omega)
    have := le_ceilDiv (y := 80) (c := 2 ^ 33) hge (by norm_num) (by norm_num)
    unfold numPagesReq
    rw [hu, show pageSize = 80 from rfl]
    omega

theorem numPagesReq_eq_ceilDiv {size : ℕ} (hsz : size < 2 ^ 62) (h : numPagesReq size ≤ 2 ^ 32) :
    numPagesReq size = size ⌈/⌉ numElemPerPage :=
  le_antisymm ((numPagesReq_le_iff hsz ((numPagesReq_le_iff hsz le_rfl).1 h)).2 le_rfl)
    ((numPagesReq_le_iff hsz h).1 le_rfl)

/-! ### Keys and entries -/

theorem key_lt_trans (a b k : Key) (h : Key.lt a b = true) (h' : Key.lt b k = true) :
    Key.lt a k = true := by
  simp only [Key.lt, Bool.or_eq_true, Bool.and_eq_true, beq_iff_eq, decide_eq_true_eq] at h h' ⊢
  rcases h with h | ⟨h1, h2⟩ <;> rcases h' with h' | ⟨h1', h2'⟩
  · exact Or.inl (h.trans h')
  · exact Or.inl (h1' ▸ h)
  · exact Or.inl (h1 ▸ h')
  · exact Or.inr ⟨h1.trans h1', h2.trans h2'⟩

theorem key_lt_tri (a b : Key) : Key.lt a b = true ∨ a = b ∨ Key.lt b a = true := by
  simp only [Key.lt, Bool.or_eq_true, Bool.and_eq_true, beq_iff_eq, decide_eq_true_eq]
  rcases lt_trichotomy a.1 b.1 with h | h | h
  · exact Or.inl (Or.inl h)
  · rcases lt_trichotomy a.2 b.2 with h' | h' | h'
    · exact Or.inl (Or.inr ⟨h, h'⟩)
    · exact Or.inr (Or.inl (Prod.ext h h'))
    · exact Or.inr (Or.inr (Or.inr ⟨h.symm, h'⟩))
  · exact Or.inr (Or.inr (Or.inl h))

/-- Two keys have two entries. -/
theorem find_inj (hI : TableInv c s) (h : find s.listMap k = some e)
    (h' : find s.listMap k' = some e) : k = k' := by
  have hinj := List.inj_on_of_nodup_map hI.live_nodup (mem_of_find h) (mem_of_find h') rfl
  exact congrArg Prod.fst hinj

theorem KeySorted.same (hs : KeySorted s) (h : Same s t) : KeySorted t := by
  unfold KeySorted; rw [h.listMap]; exact hs

/-- **Every call keeps the key order.** -/
theorem keySorted_step (hs : KeySorted s) (hk : (keys s.listMap).Nodup) (h : step c s op = some t) :
    KeySorted t := by
  rcases step_cases hk h with ⟨hsame, -⟩ | ⟨size, name, -, -, -, -, rfl⟩ | ⟨k, e, -, -, -, rfl⟩ |
    ⟨name, e, -, -, rfl⟩
  · exact hs.same hsame
  · exact insert_sorted key_lt_trans key_lt_tri hs
  · exact List.Pairwise.filter _ hs
  · exact List.Pairwise.filter _ hs

/-- **`endScope` finds the first list of the scope by name.** -/
theorem firstInScope_least (hs : KeySorted s) (h : firstInScope s = some (k, e)) :
    ∀ name, (find s.listMap (s.currScope, name)).isSome → k.2 ≤ name := by
  intro name hname
  obtain ⟨e', he'⟩ := Option.isSome_iff_exists.1 hname
  obtain ⟨as, bs, hsplit, hnot⟩ := (List.find?_eq_some_iff_append.1 h).2
  have hscope : k.1 = s.currScope := (firstInScope_mem h).2
  have hmem := mem_of_find he'
  unfold KeySorted at hs
  rw [hsplit] at hmem hs
  rcases List.mem_append.1 hmem with hm | hm
  · -- before it there is none of the scope
    simpa using hnot _ hm
  rcases List.mem_cons.1 hm with hm | hm
  · cases hm; exact le_rfl
  · have hlt := (List.pairwise_cons.1 (List.pairwise_append.1 hs).2.1).1 _ hm
    simp only [Key.lt, hscope, lt_irrefl, decide_false, beq_self_eq_true, Bool.true_and, Bool.false_or,
      decide_eq_true_eq] at hlt
    exact hlt.le

/-! ## The simulation -/

theorem Stores.cases (hR : Stores c s m) (k : Key) :
    (find s.listMap k = none ∧ m.lists k = none) ∨
      ∃ e l, find s.listMap k = some e ∧ m.lists k = some l ∧ Keeps s e l := by
  have h := hR.lists k
  cases hf : find s.listMap k with
  | none =>
    rw [hf] at h
    generalize hl : m.lists k = x at h
    cases h; exact Or.inl ⟨rfl, rfl⟩
  | some e =>
    rw [hf] at h
    generalize hl : m.lists k = x at h
    cases h with
    | some h => exact Or.inr ⟨e, _, rfl, rfl, h⟩

theorem Stores.isSome (hR : Stores c s m) (k : Key) :
    (m.lists k).isSome = (find s.listMap k).isSome := by
  rcases hR.cases k with ⟨h, h'⟩ | ⟨e, l, h, h', -⟩ <;> rw [h, h'] <;> rfl

theorem Stores.none_iff (hR : Stores c s m) (k : Key) : m.lists k = none ↔ find s.listMap k = none := by
  rw [← Option.not_isSome_iff_eq_none, hR.isSome, Option.not_isSome_iff_eq_none]

/-- A name stands for the same list in both. -/
theorem Stores.resolve (hR : Stores c s m) (name : String) :
    resolve s name = find s.listMap (m.key name) := by
  unfold Malloc.resolve Store.key
  rw [hR.isSome, hR.scope]
  cases hf : find s.listMap (s.currScope, name) with
  | none => rfl
  | some e => simp only [Option.isSome_some, if_true, hf]

theorem cap_step (hI : TableInv c s) (he : e ∈ live s) (hends : ¬ Ends s op e)
    (h : step c s op = some t) : (t.symTable.entries e).capacity = (s.symTable.entries e).capacity := by
  rcases step_cases hI.keys h with ⟨hsame, -⟩ | ⟨size, name, -, hc, -, -, rfl⟩ |
    ⟨k, e', hop, hfi, -, rfl⟩ | ⟨name, e', hop, hf, rfl⟩
  · exact hsame.cap e
  · exact (cellAddr_created 0 hc hI he).2
  · have hne : e ≠ e' := by rintro rfl; exact hends (Or.inr ⟨hop, k, hfi⟩)
    exact (cellAddr_release (k := k) 0 hne).2
  · have hne : e ≠ e' := by rintro rfl; exact hends (Or.inl ⟨name, hop, hf⟩)
    exact (cellAddr_release (k := (s.currScope, name)) 0 hne).2

/-- **A list that a call neither ends nor assigns stays as it is.** -/
theorem Keeps.step (hk : Keeps s e l) (hS : Sound c s) (he : e ∈ live s) (hends : ¬ Ends s op e)
    (hass : ∀ off, ¬ Assigns s op e off) (h : step c s op = some t) : Keeps t e l where
  capacity := hk.capacity.trans (cap_step hS.table he hends h).symm
  holds off v hv := cell_step hS (hk.holds off v hv) hends (hass off) h

theorem Stores.kept (hR : Stores c s m) (h : Malloc.step c s op = some t) (k : Key)
    (hends : ∀ e, find s.listMap k = some e → ¬ Ends s op e)
    (hass : ∀ e off, find s.listMap k = some e → ¬ Assigns s op e off) :
    Option.Rel (Keeps t) (find s.listMap k) (m.lists k) := by
  rcases hR.cases k with ⟨hf, hl⟩ | ⟨e, l, hf, hl, hk⟩
  · rw [hf, hl]; exact .none
  · rw [hf, hl]
    exact .some (hk.step hR.sound (find_live hf) (hends e hf) (fun off => hass e off hf) h)

theorem Stores.step (hR : Stores c s m) (hsz : SmallSize op) (h : Malloc.step c s op = some t)
    {m' : Store} (hscope : m'.scope = t.currScope) (hent : m'.entries = t.symTable.numFreeEntries)
    (hpages : m'.pages = t.mem.numFreePages)
    (hlists : ∀ k, Option.Rel (Keeps t) (find t.listMap k) (m'.lists k)) : Stores c t m' where
  sound := sound_step hR.sound hsz h
  sorted := keySorted_step hR.sorted hR.sound.table.keys h
  exact := by
    refine entries_step hR.exact hR.sound.table ?_ h
    intro size name hop hlen
    have hle := freeList_le hR.sound.pages
    have hfew := hR.sound.mem.few
    rw [List.length_map, List.length_take, Nat.min_eq_left hlen]
    exact numPagesReq_eq_ceilDiv (hsz size name hop) (by omega)
  scope := hscope
  entries := hent
  pages := hpages
  lists := hlists

/-! ### One lemma for each call -/

theorem simulates_initScope (hR : Stores c s m) (h : step c s .initScope = some t) :
    ∃ m', m.Step (.initScope, none) m' ∧ Stores c t m' := by
  obtain ⟨-, ht⟩ := initScope_eq h
  refine ⟨_, .initScope m, hR.step (by rintro _ _ ⟨⟩) h ?_ ?_ ?_ ?_⟩ <;> subst ht
  · exact congrArg (· + 1) hR.scope
  · exact hR.entries
  · exact hR.pages
  · intro k
    refine hR.kept h k (fun e _ => ?_) fun e off _ => ?_
    · rintro (⟨_, hop, _⟩ | ⟨hop, _⟩) <;> cases hop
    · rintro ⟨_, _, hop, _⟩; cases hop

/-- The list `k` has ended, the others are kept. -/
theorem Stores.ended (hR : Stores c s m) (h : Malloc.step c s op = some t)
    (hf : find s.listMap k = some e) (hmap : t.listMap = erase s.listMap k)
    (hends : ∀ e', Ends s op e' → e' = e) (hass : ∀ e' off, ¬ Assigns s op e' off) (k' : Key) :
    Option.Rel (Keeps t) (find t.listMap k') (Function.update m.lists k none k') := by
  rw [hmap, find_erase, Function.update_apply]
  split_ifs with hk
  · exact .none
  · refine hR.kept h k' (fun e' he' hE => ?_) fun e' off _ => hass e' off
    rw [hends e' hE] at he'
    exact hk (find_inj hR.sound.table he' hf)

theorem simulates_endScope (hR : Stores c s m) (h : step c s .endScope = some t) :
    ∃ m', m.Step (.endScope, none) m' ∧ Stores c t m' := by
  have hass : ∀ e off, ¬ Assigns s .endScope e off := by rintro e off ⟨_, _, hop, _⟩; cases hop
  rcases endScope_cases hR.sound.table.keys h with ⟨hnone, ht⟩ | ⟨k, e, hfi, hf, ht⟩
  · -- the scope has no list
    have hlists : ∀ name, m.lists (m.scope, name) = none := by
      intro name
      rw [hR.none_iff, hR.scope, find_eq_none_iff]
      intro hmem
      obtain ⟨p, hp, heq⟩ := List.mem_map.1 hmem
      exact firstInScope_none hnone p hp (congrArg Prod.fst heq)
    refine ⟨_, .endScope_empty m hlists, hR.step (by rintro _ _ ⟨⟩) h ?_ ?_ ?_ ?_⟩ <;> subst ht
    · exact congrArg (· - 1) hR.scope
    · exact hR.entries
    · exact hR.pages
    · intro k
      refine hR.kept h k (fun e _ => ?_) fun e off _ => hass e off
      rintro (⟨_, hop, _⟩ | ⟨_, _, hfi⟩)
      · cases hop
      · rw [hnone] at hfi; cases hfi
  · have hk : k = (m.scope, k.2) := by rw [hR.scope, ← (firstInScope_mem hfi).2]
    rcases hR.cases k with ⟨hn, -⟩ | ⟨_, l, -, hl, -⟩
    · rw [hn] at hf; cases hf
    have hstep : m.Step (.endScope, none)
        ⟨m.scope - 1, Function.update m.lists k none, m.entries + 1, m.pages⟩ := by
      have hleast := firstInScope_least hR.sorted hfi
      rw [hk]
      refine .endScope m k.2 l (hk ▸ hl) fun name hname => hleast name ?_
      rw [← hR.scope, ← hR.isSome]; exact hname
    refine ⟨_, hstep, hR.step (by rintro _ _ ⟨⟩) h ?_ ?_ ?_ ?_⟩
    · subst ht; exact congrArg (· - 1) hR.scope
    · subst ht; exact congrArg (· + 1) hR.entries
    · subst ht; exact hR.pages
    · refine hR.ended h hf (by subst ht; rfl) ?_ hass
      rintro e' (⟨_, hop, _⟩ | ⟨_, k', hfi'⟩)
      · cases hop
      · rw [hfi] at hfi'; cases hfi'; rfl

theorem Stores.room_iff {size : ℕ} {name : String} (hR : Stores c s m) (hsz : size < 2 ^ 62) :
    m.Room size name ↔ CanCreate s size name := by
  have hfew : s.mem.numFreePages ≤ 2 ^ 32 := (numFreePages_le hR.sound.pages).trans hR.sound.mem.few
  have hle := numPagesReq_le_iff hsz hfew
  constructor
  · intro h
    exact ⟨hR.entries ▸ h.entry, hR.scope ▸ (hR.none_iff _).1 h.fresh, hle.2 (hR.pages ▸ h.pages)⟩
  · intro h
    refine ⟨hR.entries ▸ h.entry, ?_, hR.pages ▸ hle.1 h.room⟩
    rw [hR.none_iff, hR.scope]
    exact h.fresh

/-- What `createList` returns tells whether there was room, in tables of fewer than `2^32` entries. -/
theorem createList_reply {size : ℕ} {name : String} {r : ℤ}
    (hN : c.numSymTableEntries < 2 ^ 32) (h : createList c s size name = some (t, r)) :
    ¬ CanCreate s size name ∧ t = s ∧ r = -1 ∨
      CanCreate s size name ∧ t = created s (numPagesReq size) size name ∧ r = 1 := by
  rcases createList_cases h with h' | ⟨hc, hlen, hfirst, hv, rfl⟩
  · exact Or.inl h'
  · refine Or.inr ⟨hc, rfl, ?_⟩
    rw [createList_eq, createListWith_created size (canCreate_iff.1 hc) hlen hfirst hv, if_neg] at h
    · cases h; rfl
    · -- the number of the entry does not look like `-1`
      unfold toInt toULong negOne
      split_ifs <;> omega

theorem simulates_createList {size : ℕ} {name : String} {r : ℤ} (hR : Stores c s m)
    (hN : c.numSymTableEntries < 2 ^ 32) (hsz : size < 2 ^ 62)
    (h : createList c s size name = some (t, r)) :
    ∃ m', m.Step (.createList size name, some r) m' ∧ Stores c t m' := by
  have hstep : step c s (.createList size name) = some t := by
    simp only [step, h, Option.map_some]
  rcases createList_reply hN h with ⟨hc, rfl, rfl⟩ | ⟨hc, rfl, rfl⟩
  · exact ⟨m, .createList_fails m size name (fun hroom => hc ((hR.room_iff hsz).1 hroom)), hR⟩
  have hreq := hc.enough hR.sound.pages
  have hle := freeList_le hR.sound.pages
  have hfew := hR.sound.mem.few
  refine ⟨_, .createList m size name ((hR.room_iff hsz).2 hc),
    hR.step (smallSize_createList.2 hsz) hstep hR.scope ?_ ?_ fun k => ?_⟩
  · exact congrArg (· - 1) hR.entries
  · rw [hR.pages, ← numPagesReq_eq_ceilDiv hsz (by omega)]; rfl
  simp only [Function.update_apply, hR.scope]
  split_ifs with hk
  · subst hk
    unfold created
    rw [find_insert_self]
    refine .some ⟨?_, fun off v h => by cases h⟩
    simp only [Cells.fresh, Function.update_self]
  · unfold created
    rw [find_insert_ne hc.fresh hR.sound.table.keys hk]
    refine hR.kept hstep k (fun e _ => ?_) fun e off _ => ?_
    · rintro (⟨_, hop, _⟩ | ⟨hop, _⟩) <;> cases hop
    · rintro ⟨_, _, hop, _⟩; cases hop

/-- **An assigned list has its cell changed**, and no other one. -/
theorem Keeps.assign {name : String} {v : ℤ} (hk : Keeps s e l) (hS : Sound c s)
    (hr : resolve s name = some e) (h : assignVal s name off v = some t) :
    Keeps t e (l.assign off v) := by
  have hsame := same_assignVal h
  have hother : ∀ off' v', l.value off' = some v' → off' ≠ off → Holds t e off' v' := by
    intro off' v' hv' hne
    have hstep : Malloc.step c s (.assignVal name off v) = some t := h
    refine cell_step hS (hk.holds off' v' hv') ?_ ?_ hstep
    · rintro (⟨_, hop, _⟩ | ⟨hop, _⟩) <;> cases hop
    · rintro ⟨_, _, hop, _⟩; cases hop; exact hne rfl
  unfold Cells.assign
  split_ifs with hoff
  · refine ⟨hk.capacity.trans (hsame.cap e).symm, fun off' v' hv' => ?_⟩
    simp only [Function.update_apply] at hv'
    split_ifs at hv' with heq
    · cases hv'; subst heq
      rw [hk.capacity] at hoff
      refine ⟨by rw [hsame.live]; exact resolve_live hr, by rw [hsame.cap]; exact hoff, ?_⟩
      rw [assignVal_cell hS h (resolve_live hr) hoff, if_pos ⟨hr, rfl⟩]
    · exact hother off' v' hv' heq
  · refine ⟨hk.capacity.trans (hsame.cap e).symm, fun off' v' hv' => hother off' v' hv' ?_⟩
    rintro rfl
    exact hoff (hk.capacity ▸ (hk.holds off' v' hv').lt)

theorem simulates_assignVal {name : String} {v : ℤ} (hR : Stores c s m)
    (h : assignVal s name off v = some t) :
    ∃ m', m.Step (.assignVal name off v, none) m' ∧ Stores c t m' := by
  have hkey := hR.resolve name
  rcases assignVal_cases h with ⟨hn, rfl⟩ | ⟨e, a, hr, -, ht⟩
  · exact ⟨m, .assignVal_none m name off v ((hR.none_iff _).2 (hkey.symm.trans hn)), hR⟩
  rw [hr] at hkey
  rcases hR.cases (m.key name) with ⟨hn, -⟩ | ⟨e', l, hf, hl, hk⟩
  · rw [hn] at hkey; cases hkey
  rw [hf] at hkey
  cases hkey
  have hstep : step c s (.assignVal name off v) = some t := h
  have hsame := same_assignVal h
  refine ⟨_, .assignVal m name off v l hl, hR.step (by rintro _ _ ⟨⟩) hstep ?_ ?_ ?_ fun k => ?_⟩
  · subst ht; exact hR.scope
  · rw [hsame.numFree]; exact hR.entries
  · rw [hsame.numPages]; exact hR.pages
  simp only [hsame.listMap, Function.update_apply]
  split_ifs with hkk
  · subst hkk
    rw [hf]
    exact .some (hk.assign hR.sound hr h)
  · refine hR.kept hstep k (fun e' _ => ?_) fun e' off' he' => ?_
    · rintro (⟨_, hop, _⟩ | ⟨hop, _⟩) <;> cases hop
    · rintro ⟨_, _, hop, hr'⟩
      cases hop
      rw [hr] at hr'; cases hr'
      exact hkk (find_inj hR.sound.table he' hf)

theorem simulates_getVal {name : String} {r : ℤ} (hR : Stores c s m)
    (h : getVal s name off 0 = some r) : m.Step (.getVal name off, some r) m := by
  have hkey := hR.resolve name
  rcases hR.cases (m.key name) with ⟨hf, hl⟩ | ⟨e, l, hf, hl, hk⟩
  · rw [hf] at hkey
    unfold getVal at h
    rw [hkey] at h
    cases h
    exact .getVal_none m name off hl
  · rw [hf] at hkey
    refine .getVal m name off l r hl fun v hv => ?_
    have hH := hk.holds off v hv
    rw [getVal_cell hR.sound 0 hkey hH.lt, hH.val] at h
    cases h; rfl

theorem simulates_freeList {name : String} (hR : Stores c s m) (h : freeList s name = some t) :
    ∃ m', m.Step (.freeList name, none) m' ∧ Stores c t m' := by
  have hstep : step c s (.freeList name) = some t := h
  rcases freeList_cases h with ⟨hn, rfl⟩ | ⟨e, hf, ht⟩
  · exact ⟨m, .freeList_none m name ((hR.none_iff _).2 (hR.scope ▸ hn)), hR⟩
  rw [← hR.scope] at hf
  rcases hR.cases (m.scope, name) with ⟨hn, -⟩ | ⟨e', l, hf', hl, hk⟩
  · rw [hn] at hf; cases hf
  rw [hf] at hf'
  cases hf'
  refine ⟨_, .freeList m name l hl, hR.step (by rintro _ _ ⟨⟩) hstep ?_ ?_ ?_ ?_⟩
  · subst ht; exact hR.scope
  · subst ht; exact congrArg (· + 1) hR.entries
  · -- the pages of the list are as many as its capacity needs
    have hcount := (sound_step hR.sound (by rintro _ _ ⟨⟩) hstep).pages.count
    have hpush := (pushAll_perm (pagesOf s e) s.mem.freeList).length_eq
    have hlen := hR.exact e (find_live hf)
    have hcap := hk.capacity
    rw [List.length_append, List.length_map] at hpush
    rw [hcount, ht, hcap, ← hlen, hR.pages, hR.sound.pages.count]
    exact (hpush.trans (Nat.add_comm _ _)).symm
  · refine hR.ended hstep hf (by rw [ht, hR.scope]; rfl) ?_ ?_
    · rintro e' (⟨_, hop, hf'⟩ | ⟨hop, _⟩)
      · cases hop
        rw [← hR.scope, hf] at hf'
        cases hf'; rfl
      · cases hop
    · rintro e' off ⟨_, _, hop, _⟩; cases hop

/-! ## Runs -/

/-- **Every call is a step of the store.** -/
theorem simulates_store (hN : c.numSymTableEntries < 2 ^ 32) :
    Simulates (fun x : Answered => SmallSize x.1) (Stores c)
      (fun s x t => replying (call c) s x = some t) Store.Step := by
  rintro s ⟨op, r⟩ t m hsz hR h
  rw [replying_eq_some] at h
  cases op with
  | initScope =>
    obtain ⟨u, hu, heq⟩ := Option.map_eq_some_iff.1 h
    cases heq
    exact simulates_initScope hR hu
  | endScope =>
    obtain ⟨u, hu, heq⟩ := Option.map_eq_some_iff.1 h
    cases heq
    exact simulates_endScope hR hu
  | createList size name =>
    obtain ⟨⟨u, r⟩, hu, heq⟩ := Option.map_eq_some_iff.1 h
    cases heq
    exact simulates_createList hR hN (hsz size name rfl) hu
  | assignVal name off v =>
    obtain ⟨u, hu, heq⟩ := Option.map_eq_some_iff.1 h
    cases heq
    exact simulates_assignVal hR hu
  | getVal name off =>
    obtain ⟨v, hv, heq⟩ := Option.map_eq_some_iff.1 h
    cases heq
    exact ⟨m, simulates_getVal hR hv, hR⟩
  | freeList name =>
    obtain ⟨u, hu, heq⟩ := Option.map_eq_some_iff.1 h
    cases heq
    exact simulates_freeList hR hu

theorem stores_init {size : ℕ} (h : numPages (createMem c size) ≤ 2 ^ 32) :
    Stores c (createMem c size) (.init c.numSymTableEntries (numPages (createMem c size))) where
  sound := sound_init size h
  sorted := List.Pairwise.nil
  exact := entries_init size
  scope := rfl
  entries := rfl
  pages := rfl
  lists _ := .none

/-- The second list only fits after the first one is freed. -/
def twoLists : List Answered :=
  [(.initScope, none), (.createList 30 "list1", some 1), (.createList 80 "list2", some (-1)),
    (.assignVal "list1" 5 7, none), (.getVal "list1" 5, some 7), (.freeList "list1", none),
    (.createList 80 "list2", some 1), (.endScope, none)]

end OsLab.Malloc
