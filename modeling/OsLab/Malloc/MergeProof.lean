import OsLab.Malloc.MergeLoops
import OsLab.Malloc.Scratch
import OsLab.Malloc.Scope
import Mathlib.Data.Nat.Log

/-!
# `merge_sort` is correct

Every level of the recursion opens a scope that no list lives in, creates `temp` there and
frees it again, so that the allocator is given back as it was found.

* `mergeSort_spec`: the induction over the recursion.
* `mergeSort_correct`: the sort in every reachable state of a memory of at most `2^32` pages.
* `mergeSort_aliased`: with more pages a page can be given to the list and to `temp`.
-/

namespace OsLab.Malloc

open Lib

variable {c : Config} {s t u : State} {listName : String} {e x start n : ℕ}

/-! ## The recursion -/

/-- `temp` can be created for a call on `n` elements. -/
structure TempFits (s : State) (n : ℕ) : Prop where
  entry : s.symTable.numFreeEntries ≠ 0
  vec : (s.symTable.entries s.symTable.firstFreeEntry).listPages.isSome
  room : numPagesReq n ≤ s.mem.numFreePages

theorem TempFits.mono {n' : ℕ} (h : TempFits s n) (hle : n' ≤ n) (hn : n < 2 ^ 32) :
    TempFits s n' where
  entry := h.entry
  vec := h.vec
  room := by
    have := h.room
    rw [numPagesReq_eq (by omega)] at this ⊢
    omega

theorem TempFits.back (h : TempFits s n) (hB : Back s t) : TempFits t n where
  entry := by rw [hB.numFree]; exact h.entry
  vec := by rw [hB.first, hB.vecs]; exact h.vec
  room := by rw [hB.numFreePages]; exact h.room

/-- What a call of `merge_sort` relies on. -/
structure CanSort (c : Config) (s : State) (listName : String) (e start n : ℕ) : Prop where
  sound : Sound c s
  hygiene : ScopeHygiene s
  list : find s.listMap (0, listName) = some e
  name : listName ≠ "temp"
  fits : start + n ≤ (s.symTable.entries e).capacity
  startLt : start < 2 ^ 32
  lt : n < 2 ^ 32
  temp : 1 < n → TempFits s n
  depth : s.currScope + 1 + Nat.clog 2 n ≤ intMax

/-- What a call of `merge_sort` does. A segment that runs past `2^32` goes on at 0. -/
structure Sorts (c : Config) (s t : State) (e start n : ℕ) : Prop where
  sound : Sound c t
  back : Back s t
  sorted : start + n < 2 ^ 32 → (seg t e start n).Pairwise (· ≤ ·)
  perm : (seg t e start n).Perm (seg s e start n)
  entry : ∀ e' ∈ live s, e' ≠ e → t.symTable.entries e' = s.symTable.entries e'
  frame : ∀ e' off, e' ∈ live s → off < (s.symTable.entries e').capacity →
    (e' = e → (off < start ∨ start + n ≤ off) ∧ start + n ≤ off + 2 ^ 32) →
    cell t e' off = cell s e' off

theorem CanSort.scope_nonneg (h : CanSort c s listName e start n) : 0 ≤ s.currScope :=
  h.hygiene _ (mem_of_find h.list)

theorem CanSort.live (h : CanSort c s listName e start n) : e ∈ live s := find_live h.list

theorem CanSort.back (h : CanSort c s listName e start n) (hS : Sound c t) (hB : Back s t) :
    CanSort c t listName e start n where
  sound := hS
  hygiene := by intro p hp; rw [hB.scope]; rw [hB.listMap] at hp; exact h.hygiene p hp
  list := by rw [hB.listMap]; exact h.list
  name := h.name
  fits := by rw [hB.cap e h.live]; exact h.fits
  startLt := h.startLt
  lt := h.lt
  temp hn := (h.temp hn).back hB
  depth := by rw [hB.scope]; exact h.depth

/-- The state in which the body of the call runs. -/
def deeper (s : State) : State := { s with currScope := s.currScope + 1 }

theorem same_deeper (s : State) : Same s (deeper s) := same_setScope s _

theorem initScope_deeper (h : s.currScope < intMax) : initScope s = some (deeper s) := by
  unfold Malloc.initScope
  rw [if_pos h]; rfl

theorem CanSort.initScope (h : CanSort c s listName e start n) :
    initScope s = some (deeper s) := by
  have := h.depth
  exact initScope_deeper (by omega)

/-- The scope of a call starts without lists. -/
theorem scope_empty (h : ScopeHygiene s) {p : Key × ℕ} (hp : p ∈ s.listMap) :
    p.1.1 ≠ s.currScope + 1 := by
  have := h p hp
  omega

/-- No name is a key of the scope of a call. -/
theorem find_deeper (h : ScopeHygiene s) (hB : Back (deeper s) t) (name : String) :
    find t.listMap (t.currScope, name) = none := by
  rw [find_eq_none_iff, hB.listMap, hB.scope]
  intro hk
  obtain ⟨p, hp, hpk⟩ := List.mem_map.1 hk
  exact scope_empty h hp (congrArg Prod.fst hpk)

theorem hygiene_deeper (h : ScopeHygiene s) (hB : Back (deeper s) t) : ScopeHygiene t := by
  intro p hp
  rw [hB.listMap] at hp
  have := h p hp
  rw [hB.scope]
  simp only [deeper]; omega

theorem resolve_deeper (h : ScopeHygiene s) (hB : Back (deeper s) t) (name : String) :
    resolve t name = find s.listMap (0, name) := by
  unfold resolve
  rw [find_deeper h hB]
  simp only [hB.listMap, deeper]

/-- The scope of a call is ended without lists. -/
theorem endScope_deeper (h : ScopeHygiene s) (hcs : 0 ≤ s.currScope) (hB : Back (deeper s) t) :
    endScope t = some { t with currScope := s.currScope } := by
  have hscope : t.currScope = s.currScope + 1 := hB.scope
  rw [endScope_empty, hscope, Int.add_sub_cancel]
  · intro p hp
    rw [hB.listMap] at hp
    rw [hscope]; exact scope_empty h hp
  · rw [hscope]; unfold intMin; omega

/-- After the scope is ended, the allocator is as it was before the call. -/
theorem Back.ended (h : Back (deeper s) t) : Back s { t with currScope := s.currScope } :=
  ⟨rfl, h.listMap, h.freeList, h.numFreePages, h.first, h.numFree, h.next, h.cap, h.pages, h.vecs⟩

/-- Both halves can be sorted in the scope of the call. -/
theorem CanSort.half (h : CanSort c s listName e start n) (hn : 2 ≤ n) (start' n' : ℕ)
    (hs : start' < 2 ^ 32) (hfit : start' + n' ≤ start + n) (hn' : n' ≤ n - n / 2) :
    CanSort c (deeper s) listName e start' n' where
  sound := h.sound.same (same_deeper s)
  hygiene := hygiene_deeper h.hygiene (Back.refl _)
  list := h.list
  name := h.name
  fits := le_trans hfit h.fits
  startLt := hs
  lt := by have := h.lt; omega
  temp _ := by
    have := (h.temp (by omega)).mono (show n' ≤ n by omega) h.lt
    exact ⟨this.entry, this.vec, this.room⟩
  depth := by
    have hd := h.depth
    -- the recursion is one deeper for twice as many elements
    have h1 : Nat.clog 2 n = Nat.clog 2 ((n + 2 - 1) / 2) + 1 :=
      Nat.clog_of_two_le (by norm_num) hn
    have h2 : Nat.clog 2 n' ≤ Nat.clog 2 ((n + 2 - 1) / 2) := Nat.clog_mono_right 2 (by omega)
    simp only [deeper]
    omega

/-! ## The scratch list -/

/-- `temp` can be created in the scope of the call. -/
theorem canCreate_temp (h : ScopeHygiene s) (hB : Back (deeper s) t) (hT : TempFits t n) :
    CanCreate t n "temp" :=
  ⟨hT.entry, find_deeper h hB "temp", hT.room⟩

/-- `temp` in scope `cs`, and the list in scope 0. -/
theorem resolve_created (hS : Sound c t) (hc : CanCreate t n "temp") (name : String) :
    resolve (created t (numPagesReq n) n "temp") name =
      if name = "temp" then some t.symTable.firstFreeEntry else resolve t name := by
  have hfind : ∀ z, find (created t (numPagesReq n) n "temp").listMap (z, name) =
      if (z, name) = (t.currScope, "temp") then some t.symTable.firstFreeEntry
      else find t.listMap (z, name) := by
    intro z
    rw [find_created hS hc]
    split_ifs with hz
    · rw [hz, find_cons_self]
    · exact find_cons_ne _ _ hz
  unfold resolve
  rw [show (created t (numPagesReq n) n "temp").currScope = t.currScope from rfl, hfind, hfind]
  by_cases hname : name = "temp"
  · subst hname; simp
  · simp [hname]

/-- After `temp` is created, the loops are ready to run. -/
theorem ready_created (hS : Sound c t) (hc : CanCreate t n "temp") (hn : n < 2 ^ 32)
    (hl : resolve t listName = some e) (hname : listName ≠ "temp") :
    Ready c (created t (numPagesReq n) n "temp") listName t.symTable.firstFreeEntry e where
  sound := hS.created hc (by omega)
  temp := by rw [resolve_created hS hc, if_pos rfl]
  list := by rw [resolve_created hS hc, if_neg hname, hl]
  ne := hS.table.ne_first hc.entry (resolve_live hl)

/-- **`temp` is freed** after loops that changed cells only, and nothing of it is left. -/
theorem free_temp (hS : Sound c t) (hc : CanCreate t n "temp") (hT : TempFits t n)
    (hn : n < 2 ^ 32) (hsame : Same (created t (numPagesReq n) n "temp") u)
    (hcs : u.currScope = t.currScope) :
    ∃ v, freeList u "temp" = some v ∧ Sound c v ∧ Back t v ∧
      (∀ e' ∈ live t, ∀ off, cell v e' off = cell u e' off) ∧
      ∀ e' ∈ live t, v.symTable.entries e' = u.symTable.entries e' := by
  have hSu : Sound c u := (hS.created hc (by omega)).same hsame
  have hne : ∀ e' ∈ live t, e' ≠ t.symTable.firstFreeEntry := fun e' he' =>
    hS.table.ne_first hc.entry he'
  have hf : find u.listMap (u.currScope, "temp") = some t.symTable.firstFreeEntry := by
    rw [hcs, hsame.listMap, find_created hS hc, find_cons_self]
  have hlen : ((pagesOf u t.symTable.firstFreeEntry).length : ℤ) ≤ intMax := by
    rw [hsame.pagesOf, pagesOf_created, List.length_map, List.length_take, numPagesReq_eq hn]
    unfold intMax; omega
  have hfree := freeList_some hf (hSu.table.vec _ (find_live hf)) hlen
  rw [hcs] at hfree hf
  exact ⟨_, hfree, hSu.freed hf, (hsame.back hcs).freed hS.table hS.pages hc hT.vec,
    fun e' he' off => cell_freed (hne e' he') off, fun e' he' => Function.update_of_ne (hne e' he') _ _⟩

/-- **The body of a call** in its scope: `temp` is created, the halves are merged, and `temp` is freed
again. -/
theorem body_sorts (ξ : ℕ → ℕ → ℤ) (hS : Sound c t) (hc : CanCreate t n "temp") (hT : TempFits t n)
    (hl : resolve t listName = some e) (hname : listName ≠ "temp")
    (hfits : start + n ≤ (t.symTable.entries e).capacity) (hstart : start < 2 ^ 32) (hn : n < 2 ^ 32)
    (hleft : start + n < 2 ^ 32 → (seg t e start (n / 2)).Pairwise (· ≤ ·))
    (hright : start + n < 2 ^ 32 → (seg t e (start + n / 2) (n - n / 2)).Pairwise (· ≤ ·)) :
    ∃ v, ((createList c t n "temp").bind fun r =>
        (mergeRest ξ listName r.1 start (u32 (start + n / 2)) (u32 (start + n))).bind fun s₄ =>
          freeList s₄ "temp") = some v ∧
      Sorts c t v e start n := by
  have he := resolve_live hl
  have hne : ∀ e' ∈ live t, e' ≠ t.symTable.firstFreeEntry := fun e' he' =>
    hS.table.ne_first hc.entry he'
  obtain ⟨r, hcreate⟩ := createList_some (c := c) hc (hc.enough hS.pages)
    (hS.table.first hc.entry).1 hT.vec
  -- the list is in the new state what it was
  have hcap : ∀ e' ∈ live t, ((created t (numPagesReq n) n "temp").symTable.entries e').capacity =
      (t.symTable.entries e').capacity := fun e' he' => (cellAddr_created 0 hc hS.table he').2
  have hseg : ∀ start' n', seg (created t (numPagesReq n) n "temp") e start' n' = seg t e start' n' :=
    fun _ _ => seg_congr fun off _ _ => cell_created hS hc he
  obtain ⟨u, hrun, hm, hsorted, hperm⟩ := mergeRest_sorts ξ (ready_created hS hc hn hl hname)
    (by rw [hcap e he]; exact hfits) hstart hn (by simp only [created, Function.update_self])
    (by rw [hseg]; exact hleft) (by rw [hseg]; exact hright)
  obtain ⟨v, hfree, hSv, hBv, hcells, hentries⟩ := free_temp hS hc hT hn hm.same hm.scope
  have hsegv : seg v e start n = seg u e start n := seg_congr fun off _ _ => hcells e he off
  refine ⟨v, ?_, hSv, hBv, ?_, ?_, ?_, ?_⟩
  · simp only [hcreate, Option.bind_some, hrun, hfree]
  · rw [hsegv]; exact hsorted
  · rw [hsegv, ← hseg]; exact hperm
  · intro e' he' hne'
    rw [hentries e' he', hm.entry e' (hne e' he') hne']
    exact Function.update_of_ne (hne e' he') _ _
  · intro e' off he' hoff hout
    rw [hcells e' he', hm.frame e' off (mem_live_created hc he') (by rw [hcap e' he']; exact hoff)
      (hne e' he') fun heq => by have := hout heq; omega]
    exact cell_created hS hc he'

/-- A call on at most one element only opens and ends a scope. -/
theorem mergeSort_short (ξ : Uninit) {s₁ : State} (hn : n ≤ 1) (h₁ : initScope s = some s₁)
    (h₂ : endScope s₁ = some t) : mergeSort c listName ξ s start n = some t := by
  rw [mergeSort, h₁]
  simp only [Option.bind_eq_bind, Option.bind_some, if_pos hn]
  exact h₂

/-- The parts of a longer call, one after another. -/
theorem mergeSort_long {ξ : Uninit} {s₁ s₂ s₃ u v : State} (hn : 1 < n) (h₁ : initScope s = some s₁)
    (h₂ : mergeSort c listName ξ s₁ start (n / 2) = some s₂)
    (h₃ : mergeSort c listName ξ s₂ (u32 (start + n / 2)) (n - n / 2) = some s₃)
    (h₄ : ((createList c s₃ n "temp").bind fun r =>
      (mergeRest (fun site => ξ site start n) listName r.1 start (u32 (start + n / 2))
        (u32 (start + n))).bind fun s₄ => freeList s₄ "temp") = some u)
    (h₅ : endScope u = some v) : mergeSort c listName ξ s start n = some v := by
  rw [mergeSort_eq ξ hn, h₁, Option.bind_some, h₂, Option.bind_some, h₃, Option.bind_some]
  simp only [← Option.bind_assoc] at h₄ ⊢
  rw [h₄, Option.bind_some, h₅]

/-- Where the right half begins. -/
theorem rightStart (h : CanSort c s listName e start n) :
    u32 (start + n / 2) = start + n / 2 ∧ start + n / 2 < 2 ^ 32 ∨
      u32 (start + n / 2) + 2 ^ 32 = start + n / 2 := by
  have := h.startLt
  have := h.lt
  unfold u32
  omega

/-- Sorting one half after the other permutes the whole segment. -/
theorem halves_perm {t₁ t₂ : State} (h : CanSort c s listName e start n)
    (h₁ : Sorts c (deeper s) t₁ e start (n / 2))
    (h₂ : Sorts c t₁ t₂ e (u32 (start + n / 2)) (n - n / 2)) :
    seg t₂ e start (n / 2) = seg t₁ e start (n / 2) ∧
      (seg t₂ e start n).Perm (seg s e start n) := by
  have hright := rightStart h
  have hlt := h.lt
  have hfits := h.fits
  have he₁ : e ∈ live t₁ := by rw [h₁.back.live]; exact h.live
  have hcap : (t₁.symTable.entries e).capacity = (s.symTable.entries e).capacity :=
    h₁.back.cap e h.live
  -- the left half is not touched while the right one is sorted
  have hleft : seg t₂ e start (n / 2) = seg t₁ e start (n / 2) :=
    seg_congr fun off hoff hoff' => h₂.frame e off he₁ (by omega) fun _ => by omega
  have hsame : seg t₁ e (start + n / 2) (n - n / 2) = seg s e (start + n / 2) (n - n / 2) :=
    seg_congr fun off hoff hoff' => h₁.frame e off h.live
      (show off < (s.symTable.entries e).capacity by omega) fun _ => by omega
  have hrest : (seg t₂ e (start + n / 2) (n - n / 2)).Perm (seg s e (start + n / 2) (n - n / 2)) := by
    rcases hright with ⟨heq, -⟩ | heq
    · have hp := h₂.perm
      rw [heq, hsame] at hp
      exact hp
    · -- the right half is sorted at the beginning of the list
      rw [← hsame, seg_congr fun off hoff hoff' => h₂.frame e off he₁ (by omega) fun _ => by omega]
  refine ⟨hleft, ?_⟩
  have hsplit : ∀ t, seg t e start n =
      seg t e start (n / 2) ++ seg t e (start + n / 2) (n - n / 2) := by
    intro t; rw [seg_append, Nat.add_sub_cancel' (by omega)]
  rw [hsplit t₂, hsplit s, hleft]
  exact h₁.perm.append hrest

/-- The halves are sorted one after the other, and then merged. -/
theorem Sorts.level {t₁ t₂ v : State} (h : CanSort c s listName e start n)
    (h₁ : Sorts c (deeper s) t₁ e start (n / 2))
    (h₂ : Sorts c t₁ t₂ e (u32 (start + n / 2)) (n - n / 2)) (h₃ : Sorts c t₂ v e start n) :
    Sorts c s { v with currScope := s.currScope } e start n := by
  have hright := rightStart h
  have hlt := h.lt
  have hfits := h.fits
  have hB := h₁.back.trans h₂.back
  have hlive₁ : ∀ e' ∈ live s, e' ∈ live t₁ := fun e' he' => by rw [h₁.back.live]; exact he'
  have hlive₂ : ∀ e' ∈ live s, e' ∈ live t₂ := fun e' he' => by rw [hB.live]; exact he'
  refine ⟨h₃.sound.same (same_setScope _ _), (hB.trans h₃.back).ended, h₃.sorted,
    h₃.perm.trans (halves_perm h h₁ h₂).2, ?_, ?_⟩
  · intro e' he' hne
    exact (h₃.entry e' (hlive₂ e' he') hne).trans
      ((h₂.entry e' (hlive₁ e' he') hne).trans (h₁.entry e' he' hne))
  · -- a cell outside is outside of both halves
    intro e' off he' hoff hout
    have hcap₁ : (t₁.symTable.entries e').capacity = (s.symTable.entries e').capacity :=
      h₁.back.cap e' he'
    have hcap₂ : (t₂.symTable.entries e').capacity = (s.symTable.entries e').capacity :=
      hB.cap e' he'
    have hv := h₃.frame e' off (hlive₂ e' he') (by omega) hout
    have ht₂ := h₂.frame e' off (hlive₁ e' he') (by omega) fun he => by have := hout he; omega
    have ht₁ := h₁.frame e' off he' hoff fun he => by have := hout he; omega
    exact hv.trans (ht₂.trans ht₁)

/-- **The recursion sorts**, and gives the allocator back. -/
theorem mergeSort_spec (ξ : Uninit) (h : CanSort c s listName e start n) :
    ∃ t, mergeSort c listName ξ s start n = some t ∧ Sorts c s t e start n := by
  induction n using Nat.strong_induction_on generalizing s start with
  | _ n ih =>
    rcases Nat.lt_or_ge 1 n with hn | hn
    swap
    · -- the scope is opened and ended again
      have hend := endScope_deeper h.hygiene h.scope_nonneg (Back.refl (deeper s))
      refine ⟨s, mergeSort_short ξ hn h.initScope hend, h.sound, Back.refl s, fun _ => ?_,
        List.Perm.refl _, fun _ _ _ => rfl, fun _ _ _ _ _ => rfl⟩
      obtain rfl | rfl : n = 0 ∨ n = 1 := by omega
      · exact List.Pairwise.nil
      · exact List.pairwise_singleton _ _
    have hlt := h.lt
    have hstart := h.startLt
    have hright := rightStart h
    -- the left half, and the right half in the state that this leaves
    obtain ⟨t₁, hrun₁, hs₁⟩ := ih (n / 2) (by omega)
      (h.half hn start (n / 2) hstart (by omega) (by omega))
    obtain ⟨t₂, hrun₂, hs₂⟩ := ih (n - n / 2) (by omega)
      ((h.half hn (u32 (start + n / 2)) (n - n / 2) (by omega) (by omega) le_rfl).back
        hs₁.sound hs₁.back)
    have hB := hs₁.back.trans hs₂.back
    obtain ⟨hleft, -⟩ := halves_perm h hs₁ hs₂
    have hsorted : start + n < 2 ^ 32 → (seg t₂ e (start + n / 2) (n - n / 2)).Pairwise (· ≤ ·) := by
      intro hno
      have hr := hs₂.sorted (by omega)
      rwa [show u32 (start + n / 2) = start + n / 2 from Nat.mod_eq_of_lt (by omega)] at hr
    -- `temp` can still be created
    have hT₀ : TempFits (deeper s) n := ⟨(h.temp hn).entry, (h.temp hn).vec, (h.temp hn).room⟩
    have hT : TempFits t₂ n := hT₀.back hB
    obtain ⟨v, hbody, hs₃⟩ := body_sorts (fun site => ξ site start n) hs₂.sound
      (canCreate_temp h.hygiene hB hT) hT ((resolve_deeper h.hygiene hB listName).trans h.list) h.name
      (by rw [hB.cap e h.live]; exact h.fits) hstart hlt
      (fun hno => by rw [hleft]; exact hs₁.sorted (by omega)) hsorted
    exact ⟨_, mergeSort_long hn h.initScope hrun₁ hrun₂ hbody
      (endScope_deeper h.hygiene h.scope_nonneg (hB.trans hs₃.back)), hs₁.level h hs₂ hs₃⟩

/-- **`merge_sort` is correct** in every state that is reached with at most `2^32` pages: it
terminates, its segment of the list is a sorted permutation of what it was, every other cell
of every live list is unchanged, and so are the scope, the map of the lists, the free pages and
the chain of free entries. -/
theorem mergeSort_correct {size : ℕ} {ops : List Op} (ξ : Uninit)
    (hpages : numPages (createMem c size) ≤ 2 ^ 32) (hsz : ∀ op ∈ ops, SmallSize op)
    (hrun : run (step c) (createMem c size) ops = some s) (hscope : ScopeHygiene s)
    (hlist : find s.listMap (0, listName) = some e) (hname : listName ≠ "temp")
    (hfits : start + n ≤ (s.symTable.entries e).capacity) (hlt : start + n < 2 ^ 32)
    (hfree : (4 * n + 79) / 80 ≤ s.mem.freeList.length) (hentries : 2 ≤ s.symTable.numFreeEntries)
    (hdepth : s.currScope + 1 + Nat.clog 2 n ≤ intMax) :
    ∃ t, mergeSort c listName ξ s start n = some t ∧
      (seg t e start n).Pairwise (· ≤ ·) ∧ (seg t e start n).Perm (seg s e start n) ∧
      (∀ e' off, e' ∈ live s → off < (s.symTable.entries e').capacity →
        (e' = e → off < start ∨ start + n ≤ off) → cell t e' off = cell s e' off) ∧
      t.currScope = s.currScope ∧ t.listMap = s.listMap ∧ t.mem.freeList = s.mem.freeList ∧
      t.mem.numFreePages = s.mem.numFreePages ∧ ∀ fc, FreeChain t fc ↔ FreeChain s fc := by
  have hS := sound_run hsz (sound_init size hpages) hrun
  have hroom : numPagesReq n ≤ s.mem.numFreePages := by
    rw [hS.pages.count, numPagesReq_eq (by omega)]; exact hfree
  obtain ⟨t, ht, hs⟩ := mergeSort_spec ξ ⟨hS, hscope, hlist, hname, hfits, by omega, by omega,
    fun _ => ⟨by omega, first_isSome hS.table hentries, hroom⟩, hdepth⟩
  exact ⟨t, ht, hs.sorted hlt, hs.perm,
    fun e' off he' hoff hout => hs.frame e' off he' hoff fun he => ⟨hout he, by omega⟩,
    hs.back.scope, hs.back.listMap, hs.back.freeList, hs.back.numFreePages, hs.back.chain⟩

/-- Three values are sorted in a memory of five pages. -/
theorem mergeSort_correct_list1 : ∃ s t,
    run (step .shipped) (createMem .shipped 400) [.initScope, .createList 3 "list1",
      .assignVal "list1" 0 3, .assignVal "list1" 1 1, .assignVal "list1" 2 2] = some s ∧
      mergeSort .shipped "list1" (fun _ _ _ _ => 0) s 0 3 = some t ∧
      (seg t 0 0 3).Pairwise (· ≤ ·) ∧ (seg t 0 0 3).Perm [3, 1, 2] := by
  obtain ⟨s, hs⟩ := Option.isSome_iff_exists.1 (show (run (step .shipped) (createMem .shipped 400)
    [.initScope, .createList 3 "list1", .assignVal "list1" 0 3, .assignVal "list1" 1 1,
      .assignVal "list1" 2 2]).isSome by decide +kernel)
  have hmap := run_eval (fun s => (s.listMap, s.currScope, (s.symTable.entries 0).capacity,
    s.mem.freeList.length, s.symTable.numFreeEntries))
    (b := ([((0, "list1"), 0)], 0, 3, 4, 99999)) hs (by decide +kernel)
  have hseg := run_eval (fun s => seg s 0 0 3) (b := [3, 1, 2]) hs (by decide +kernel)
  simp only [Prod.mk.injEq] at hmap
  obtain ⟨h1, h2, h3, h4, h5⟩ := hmap
  have hclog : Nat.clog 2 3 = 2 := by decide +kernel
  obtain ⟨t, ht, hsorted, hperm, -⟩ := @mergeSort_correct .shipped s "list1" 0 0 3 400 _
    (fun _ _ _ _ => 0) (by decide +kernel) (by decide) hs
    (by intro p hp; rw [h1, List.mem_singleton] at hp; rw [hp, h2]) (by rw [h1]; rfl) (by decide)
    (by omega) (by omega) (by omega) (by omega) (by rw [h2, hclog]; decide)
  exact ⟨s, t, hs, ht, hsorted, hseg ▸ hperm⟩

/-! ## More than `2^32` pages -/

/-- The bytes of `2^32 + 2^31 + 1` pages: two of them are `-2^31` in the heap. -/
def aliasedSize : ℕ := 80 * (2 ^ 32 + 2 ^ 31 + 1)

/-- The same page number is on top of the heap twice. -/
theorem freeList_aliased : ∃ q,
    (MemBlock.init c aliasedSize).freeList = -2 ^ 31 :: -2 ^ 31 :: q := by
  have hperm := init_freeList_perm (c := c) aliasedSize
  have hsorted := init_freeList_sorted (c := c) aliasedSize
  have hn : aliasedSize / pageSize = 2 ^ 32 + 2 ^ 31 + 1 := by decide
  rw [hn] at hperm
  have hmin : ∀ y ∈ (MemBlock.init c aliasedSize).freeList, -2 ^ 31 ≤ y := by
    intro y hy
    obtain ⟨i, -, rfl⟩ := List.mem_map.1 (hperm.mem_iff.1 hy)
    exact (toInt_range i).1
  -- the pages `2^31` and `2^32 + 2^31`
  have hpair : (List.range (2 ^ 32 + 2 ^ 31 + 1)).Perm
      (2 ^ 31 :: (List.range (2 ^ 32 + 2 ^ 31 + 1)).erase (2 ^ 31)) :=
    List.perm_cons_erase (List.mem_range.2 (by norm_num))
  have hp := hperm.trans (hpair.map toInt)
  have htop : toInt (2 ^ 31) = -2 ^ 31 := by decide
  rw [List.map_cons, htop] at hp
  obtain ⟨r, hr⟩ := sorted_head hsorted (hp.mem_iff.2 List.mem_cons_self) hmin
  rw [hr] at hp hsorted hmin ⊢
  have hmem : -2 ^ 31 ∈ r := by
    rw [((List.perm_cons _).1 hp).mem_iff]
    refine List.mem_map.2 ⟨2 ^ 32 + 2 ^ 31, ?_, by decide⟩
    exact (List.mem_erase_of_ne (by norm_num)).2 (List.mem_range.2 (by norm_num))
  obtain ⟨q, hq⟩ := sorted_head (List.pairwise_cons.1 hsorted).2 hmem
    fun y hy => hmin y (List.mem_cons_of_mem _ hy)
  exact ⟨q, by rw [hq]⟩

/-- The state before the sort: the list has the first of the two pages. -/
def aliasedState (m : ℕ → ℤ) (q : List ℤ) : State :=
  written (written (created
    { mem := ⟨m, aliasedSize, -2 ^ 31 :: -2 ^ 31 :: q, 2 ^ 32 + 2 ^ 31 + 1⟩
      symTable := SymTable.init .shipped
      listMap := []
      currScope := 0
      maxPagesUsed := 0 } 1 2 "list1") 0 0xFFFFFFD800000000 5) 0 0xFFFFFFD800000004 3

theorem run_aliased : ∃ m q, run (step .shipped) (createMem .shipped aliasedSize)
    [.initScope, .createList 2 "list1", .assignVal "list1" 0 5, .assignVal "list1" 1 3] =
      some (aliasedState m q) := by
  -- the size is a whole number of pages, and not rounded
  have hsize : u64 (ceilDiv aliasedSize pageSize * pageSize) = aliasedSize := by
    rw [ceilDiv_eq_div (by decide) (by decide) (by decide)]; decide
  obtain ⟨q, hq⟩ := freeList_aliased (c := .shipped)
  refine ⟨(MemBlock.init .shipped aliasedSize).mem, q, ?_⟩
  have h0 : createMem .shipped aliasedSize =
      { mem := ⟨(MemBlock.init .shipped aliasedSize).mem, aliasedSize, -2 ^ 31 :: -2 ^ 31 :: q,
          2 ^ 32 + 2 ^ 31 + 1⟩
        symTable := SymTable.init .shipped
        listMap := []
        currScope := -1
        maxPagesUsed := 0 } := by
    have hinit : ∀ size, MemBlock.init .shipped size = ⟨(MemBlock.init .shipped size).mem, size,
        (MemBlock.init .shipped size).freeList, size / pageSize⟩ := fun _ => rfl
    have hpages : aliasedSize / pageSize = 2 ^ 32 + 2 ^ 31 + 1 := by decide
    unfold createMem
    rw [hsize, ← hq, ← hpages, ← hinit]
  have hreq : numPagesReq 2 = 1 := by rw [numPagesReq_eq (by norm_num)]
  rw [h0]
  simp only [run, step, createList, hreq]
  rfl

@[simp] theorem resolve_written (s : State) (e a : ℕ) (v : ℤ) (name : String) :
    resolve (written s e a v) name = resolve s name := rfl

@[simp] theorem address_written (s : State) (e a : ℕ) (v : ℤ) (e' off : ℕ) :
    computeMemAddress (written s e a v) e' off = computeMemAddress s e' off :=
  (same_written s e a v).address e' off

/-- Two cells of `temp` on the page of the list: the smaller value is copied over the other. -/
theorem loops_aliased {listName : String} {x e a₀ a₁ : ℕ} {ξ : ℕ → ℕ → ℤ}
    (ht : resolve s "temp" = some x) (hl : resolve s listName = some e)
    (ht₀ : computeMemAddress s x 0 = some a₀)
    (ht₁ : computeMemAddress s x 1 = some a₁) (hl₀ : computeMemAddress s e 0 = some a₀)
    (hl₁ : computeMemAddress s e 1 = some a₁) (hv : s.mem.mem a₁ < s.mem.mem a₀) (ha : a₀ ≠ a₁) :
    ∃ s₁ s₂ t, mergeLoop ξ listName 1 2 s 0 1 0 = some (s₁, 0, 2, 1) ∧
      copyLoop ξ listName 2 1 s₁ 0 1 = some (s₂, 2) ∧ copyLoop ξ listName 3 2 s₂ 2 2 = some (s₂, 2) ∧
      copyBack ξ listName 0 2 s₂ 0 = some t ∧ Same s t ∧ t.currScope = s.currScope ∧
      t.mem.mem a₀ = s.mem.mem a₁ ∧ t.mem.mem a₁ = s.mem.mem a₁ := by
  have hnot : ¬ s.mem.mem a₀ < s.mem.mem a₁ := by omega
  -- the smaller value goes to the first cell of `temp`, which holds the other value
  let s₁ := written s x a₀ (s.mem.mem a₁)
  let s₂ := written s₁ x a₁ (s.mem.mem a₁)
  let s₃ := written s₂ e a₀ (s.mem.mem a₁)
  let t := written s₃ e a₁ (s.mem.mem a₁)
  have h₁ : mergeLoop ξ listName 1 2 s₁ 0 2 1 = some (s₁, 0, 2, 1) := by
    rw [mergeLoop, if_neg (by omega)]
  have h₂ : copyLoop ξ listName 2 1 s₂ 1 2 = some (s₂, 2) := by
    rw [copyLoop, if_neg (by omega)]
  have h₃ : copyBack ξ listName 0 2 t 2 = some t := by rw [copyBack, if_neg (by omega)]
  have h₄ : copyBack ξ listName 0 2 s₃ 1 = some t := by
    rw [copyBack, if_pos (by omega)]
    simp [getVal, assignVal, assignEntry_eq, s₁, s₂, s₃, hl, ht, ht₁, hl₁, u32,
      Function.update_of_ne ha.symm]
    exact h₃
  refine ⟨s₁, s₂, t, ?_, ?_, ?_, ?_, ?_, rfl, ?_, ?_⟩
  · rw [mergeLoop, if_pos (by omega)]
    simp [getVal, assignVal, assignEntry_eq, hl, ht, ht₀, hl₀, hl₁, hnot, u32, s₁, h₁]
  · rw [copyLoop, if_pos (by omega)]
    simp [getVal, assignVal, assignEntry_eq, ht, hl, ht₁, hl₀, u32, s₁, s₂, h₂]
  · rw [copyLoop, if_neg (by omega)]
  · rw [copyBack, if_pos (by omega)]
    simp [getVal, assignVal, assignEntry_eq, ht, hl, ht₀, hl₀, u32, ha, s₁, s₂, s₃, h₄]
  · exact (same_written _ _ _ _).trans ((same_written _ _ _ _).trans
      ((same_written _ _ _ _).trans (same_written _ _ _ _)))
  · simp [ha, t, s₃]
  · simp [t]

/-- The state once `temp` is created on the second page. -/
def aliasedTemp (m : ℕ → ℤ) (q : List ℤ) : State :=
  created (deeper (aliasedState m q)) 1 2 "temp"

theorem createList_aliased (m : ℕ → ℤ) (q : List ℤ) :
    createList .shipped (deeper (aliasedState m q)) 2 "temp" = some (aliasedTemp m q, 1) := by
  have hreq : numPagesReq 2 = 1 := by rw [numPagesReq_eq (by norm_num)]
  unfold createList
  rw [hreq]; rfl

/-- The cells of the list, before the sort and once `temp` is created. -/
theorem cells_aliased (m : ℕ → ℤ) (q : List ℤ) : ∀ s, s = aliasedState m q ∨ s = aliasedTemp m q →
    cellAddr s 0 0 = 0xFFFFFFD800000000 ∧ cellAddr s 0 1 = 0xFFFFFFD800000004 ∧
    s.mem.mem 0xFFFFFFD800000000 = 5 ∧ s.mem.mem 0xFFFFFFD800000004 = 3 := by
  intro s hs
  have hpage : pagesOf s 0 = [0xFFFFFFFF80000000] := by rcases hs with rfl | rfl <;> rfl
  refine ⟨by unfold cellAddr; rw [hpage]; decide +kernel,
    by unfold cellAddr; rw [hpage]; decide +kernel, ?_, ?_⟩
  · rcases hs with rfl | rfl <;> rfl
  · rcases hs with rfl | rfl <;> rfl

/-- `temp` is freed and its scope ended. -/
theorem freeTemp_aliased {m : ℕ → ℤ} {q : List ℤ} {u : State} (hsame : Same (aliasedTemp m q) u)
    (hcs : u.currScope = 1) : ∃ v t, freeList u "temp" = some v ∧ endScope v = some t ∧
      t.mem.mem = u.mem.mem ∧ pagesOf t 0 = pagesOf (aliasedTemp m q) 0 := by
  have hfind : find u.listMap (u.currScope, "temp") = some 1 := by
    rw [hsame.listMap, hcs]; rfl
  have hpages : pagesOf u 1 = [0xFFFFFFFF80000000] := by rw [hsame.pagesOf]; rfl
  have hfree := freeList_some hfind (by rw [hsame.pages]; rfl) (by rw [hpages]; decide)
  have hmap : (freed u (u.currScope, "temp") 1).listMap = [((0, "list1"), 0)] := by
    simp only [freed, release, hsame.listMap, hcs]; rfl
  have hend := endScope_empty (s := freed u (u.currScope, "temp") 1)
    (by
      intro p hp
      rw [hmap, List.mem_singleton] at hp
      rw [hp, show (freed u (u.currScope, "temp") 1).currScope = 1 from hcs]
      decide)
    (by rw [show (freed u (u.currScope, "temp") 1).currScope = 1 from hcs]; decide)
  have hrel : pagesOf (freed u (u.currScope, "temp") 1) 0 = pagesOf u 0 := by
    unfold pagesOf freed release
    simp only [Function.update_of_ne (show (0 : ℕ) ≠ 1 by decide)]
  -- the entry of the list is not touched
  exact ⟨_, { freed u (u.currScope, "temp") 1 with
    currScope := (freed u (u.currScope, "temp") 1).currScope - 1 }, hfree, hend, rfl,
    hrel.trans (hsame.pagesOf 0)⟩

/-- `temp` gets the second of the two pages, which is the page of the list: the sort of
`5, 3` gives `3, 3`. -/
theorem mergeSort_aliased : ∃ s t, run (step .shipped) (createMem .shipped aliasedSize)
    [.initScope, .createList 2 "list1", .assignVal "list1" 0 5, .assignVal "list1" 1 3] = some s ∧
    ScopeHygiene s ∧ find s.listMap (0, "list1") = some 0 ∧ (s.symTable.entries 0).capacity = 2 ∧
    1 ≤ s.mem.freeList.length ∧ s.symTable.numFreeEntries = 99999 ∧
    mergeSort .shipped "list1" (fun _ _ _ _ => 0) s 0 2 = some t ∧
    seg s 0 0 2 = [5, 3] ∧ seg t 0 0 2 = [3, 3] ∧ ¬ (seg t 0 0 2).Perm (seg s 0 0 2) := by
  obtain ⟨m, q, hrun⟩ := run_aliased
  obtain ⟨hs₀, hs₁, hsv₀, hsv₁⟩ := cells_aliased m q _ (Or.inl rfl)
  obtain ⟨hc₀, hc₁, hv₀, hv₁⟩ := cells_aliased m q _ (Or.inr rfl)
  have hl₀ : computeMemAddress (aliasedTemp m q) 0 0 = some 0xFFFFFFD800000000 := rfl
  have hl₁ : computeMemAddress (aliasedTemp m q) 0 1 = some 0xFFFFFFD800000004 := rfl
  have ht₀ : computeMemAddress (aliasedTemp m q) 1 0 = some 0xFFFFFFD800000000 := rfl
  have ht₁ : computeMemAddress (aliasedTemp m q) 1 1 = some 0xFFFFFFD800000004 := rfl
  obtain ⟨s₁, s₂, u, h₁, h₂, h₃, h₄, hsame, hcs, hu₀, hu₁⟩ := loops_aliased (ξ := fun _ _ => 0)
    (show resolve (aliasedTemp m q) "temp" = some 1 from rfl)
    (show resolve (aliasedTemp m q) "list1" = some 0 from rfl) ht₀ ht₁ hl₀ hl₁
    (by rw [hv₀, hv₁]; norm_num) (by norm_num)
  obtain ⟨v, t, hv, ht, htm, hta⟩ := freeTemp_aliased hsame hcs
  have hhalf : ∀ start, mergeSort .shipped "list1" (fun _ _ _ _ => 0)
      (deeper (aliasedState m q)) start 1 = some (deeper (aliasedState m q)) :=
    fun start => mergeSort_short _ le_rfl rfl rfl
  have hrunt : mergeSort .shipped "list1" (fun _ _ _ _ => 0) (aliasedState m q) 0 2 = some t := by
    refine mergeSort_long (by norm_num) rfl (hhalf 0) (hhalf 1) ?_ ht
    rw [createList_aliased m q]
    show ((mergeRest (fun _ _ => 0) "list1" (aliasedTemp m q) 0 1 2).bind fun s₄ =>
      freeList s₄ "temp") = some v
    unfold mergeRest
    simp only [Option.bind_eq_bind, h₁, Option.bind_some, h₂, h₃, h₄, hv]
  have hsegs : seg (aliasedState m q) 0 0 2 = [5, 3] := by
    rw [seg_succ, seg_succ, seg_zero]
    unfold cell
    rw [hs₀, hs₁, hsv₀, hsv₁]
  have hsegt : seg t 0 0 2 = [3, 3] := by
    -- the cells of the list are where they were
    have haddr : ∀ off, cellAddr t 0 off = cellAddr (aliasedTemp m q) 0 off := by
      intro off; unfold cellAddr; rw [hta]
    rw [seg_succ, seg_succ, seg_zero]
    unfold cell
    rw [haddr, haddr, htm, hc₀, hc₁, hu₀, hu₁, hv₁]
  refine ⟨aliasedState m q, t, hrun, ?_, rfl, rfl, ?_, rfl, hrunt, hsegs, hsegt, ?_⟩
  · intro p hp
    obtain rfl := List.mem_singleton.1 (show p ∈ [((0, "list1"), 0)] from hp)
    exact le_rfl
  · show 1 ≤ (-2 ^ 31 :: q).length
    simp
  · rw [hsegs, hsegt]; decide

end OsLab.Malloc
