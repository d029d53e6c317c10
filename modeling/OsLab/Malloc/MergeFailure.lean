import OsLab.Malloc.MergeProof
import Mathlib.Data.Nat.ModEq

/-!
# When `temp` cannot be created

`merge_sort` does not look at what `createList` returns. If `temp` is not there, the loops work on
the list `temp` of the global scope, or on nothing; in the second case the list is overwritten with
values that were never set.

* `mergeRest_fed`: how often the loops write to each list.
* `mergeRest_lost`: without any list `temp`, what was never set goes to the list.
* `mergeSort_returned`: what every call that returns leaves, whether its lists `temp` were created
  or not.
* `mergeSort_keeps`: no data is destroyed when `temp` can be created for the whole segment.
-/

namespace OsLab.Malloc

open Lib

variable {c : Config} {s t u : State} {listName : String} {e x start n : ℕ}

/-! ## Counting the writes -/

/-- `m` values are assigned to the list that `name` stands for, and nothing else is done. -/
structure Fed (s t : State) (name : String) (m : ℕ) : Prop where
  same : Same s t
  scope : t.currScope = s.currScope
  size : ∀ g, (t.symTable.entries g).size ≡
    (s.symTable.entries g).size + (if resolve s name = some g then m else 0) [MOD 2 ^ 64]

theorem Fed.refl (s : State) (name : String) : Fed s s name 0 :=
  ⟨Same.refl s, rfl, fun _ => by rw [ite_self]; rfl⟩

theorem Fed.resolve {name : String} {m : ℕ} (h : Fed s t name m) (name' : String) :
    resolve t name' = resolve s name' := by
  unfold Malloc.resolve; rw [h.same.listMap, h.scope]

theorem Fed.trans {name : String} {m m' : ℕ} (h : Fed s t name m) (h' : Fed t u name m') :
    Fed s u name (m + m') where
  same := h.same.trans h'.same
  scope := h'.scope.trans h.scope
  size g := by
    have hg := (h'.size g).trans ((h.size g).add_right _)
    rw [h.resolve] at hg
    split_ifs at hg ⊢ with hr
    · rwa [Nat.add_assoc] at hg
    · exact hg

theorem assignVal_fed {name : String} {off : ℕ} {v : ℤ} (h : assignVal s name off v = some t) :
    Fed s t name 1 := by
  refine ⟨same_assignVal h, ?_, fun g => ?_⟩
  · rcases assignVal_cases h with ⟨-, rfl⟩ | ⟨e, a, -, -, rfl⟩
    · rfl
    · rfl
  · rcases assignVal_cases h with ⟨hr, rfl⟩ | ⟨e, a, hr, -, rfl⟩
    · rw [hr, if_neg (by simp)]; rfl
    · rw [hr]
      by_cases hg : e = g
      · subst hg
        rw [if_pos rfl, written_size]
        exact Nat.mod_modEq _ _
      · have hsame : (written s e a v).symTable.entries g = s.symTable.entries g :=
          Function.update_of_ne (Ne.symm hg) _ _
        rw [if_neg (by simpa using hg), hsame]; rfl

theorem mergeLoop_fed {ξ : ℕ → ℕ → ℤ} {iEnd jEnd i j k i' j' k' : ℕ} (hi : i ≤ iEnd) (hj : j ≤ jEnd)
    (h : mergeLoop ξ listName iEnd jEnd s i j k = some (t, i', j', k')) :
    ∃ m, Fed s t "temp" m ∧ i' ≤ iEnd ∧ j' ≤ jEnd ∧
      m + (iEnd - i') + (jEnd - j') = (iEnd - i) + (jEnd - j) := by
  induction hm : (iEnd - i) + (jEnd - j) generalizing s i j k with
  | zero =>
    rw [mergeLoop, if_neg (by omega)] at h
    cases h
    exact ⟨0, Fed.refl _ _, hi, hj, by omega⟩
  | succ m ih =>
    rw [mergeLoop] at h
    split_ifs at h with hcond
    swap
    · cases h
      exact ⟨0, Fed.refl _ _, hi, hj, by omega⟩
    simp only [Option.bind_eq_bind, Option.bind_eq_some_iff] at h
    obtain ⟨v₁, -, v₂, -, h⟩ := h
    -- one value goes to `temp`, from one half or the other
    split_ifs at h with hlt
    · obtain ⟨u, hu, h⟩ := Option.bind_eq_some_iff.1 h
      obtain ⟨m', hf, hi', hj', hm'⟩ := ih (by omega) hj h (by omega)
      exact ⟨1 + m', (assignVal_fed hu).trans hf, hi', hj', by omega⟩
    · obtain ⟨u, hu, h⟩ := Option.bind_eq_some_iff.1 h
      obtain ⟨m', hf, hi', hj', hm'⟩ := ih hi (by omega) h (by omega)
      exact ⟨1 + m', (assignVal_fed hu).trans hf, hi', hj', by omega⟩

theorem copyLoop_fed {ξ : ℕ → ℕ → ℤ} {site iEnd i k k' : ℕ}
    (h : copyLoop ξ listName site iEnd s i k = some (t, k')) : Fed s t "temp" (iEnd - i) := by
  induction hm : iEnd - i generalizing s i k with
  | zero =>
    rw [copyLoop, if_neg (by omega)] at h
    cases h
    exact Fed.refl _ _
  | succ m ih =>
    rw [copyLoop, if_pos (by omega)] at h
    simp only [Option.bind_eq_bind, Option.bind_eq_some_iff] at h
    obtain ⟨v, -, u, hu, h⟩ := h
    rw [Nat.add_comm m 1]
    exact (assignVal_fed hu).trans (ih h (by omega))

theorem copyBack_fed {ξ : ℕ → ℕ → ℤ} {iEnd i : ℕ}
    (h : copyBack ξ listName start iEnd s i = some t) : Fed s t listName (iEnd - i) := by
  induction hm : iEnd - i generalizing s i with
  | zero =>
    rw [copyBack, if_neg (by omega)] at h
    cases h
    exact Fed.refl _ _
  | succ m ih =>
    rw [copyBack, if_pos (by omega)] at h
    simp only [Option.bind_eq_bind, Option.bind_eq_some_iff] at h
    obtain ⟨v, -, u, hu, h⟩ := h
    rw [Nat.add_comm m 1]
    exact (assignVal_fed hu).trans (ih h (by omega))

/-- **The loops of a call** assign `n` values to the list that `temp` stands for; what they assign
to the list itself is not counted. -/
theorem mergeRest_fed {ξ : ℕ → ℕ → ℤ} {mid : ℕ} (hmid : mid ≤ n)
    (h : mergeRest ξ listName s start (start + mid) (start + n) = some t)
    (hl : resolve s listName = some e) :
    Same s t ∧ t.currScope = s.currScope ∧ ∀ g, e ≠ g → (t.symTable.entries g).size ≡
      (s.symTable.entries g).size + (if resolve s "temp" = some g then n else 0) [MOD 2 ^ 64] := by
  unfold mergeRest at h
  simp only [Option.bind_eq_bind, Option.bind_eq_some_iff, Prod.exists] at h
  obtain ⟨s₁, i, j, k, h₁, s₂, k₂, h₂, s₃, k₃, h₃, h₄⟩ := h
  obtain ⟨m, hf₁, hi, hj, hm⟩ := mergeLoop_fed (by omega) (by omega) h₁
  have hf := (hf₁.trans (copyLoop_fed h₂)).trans (copyLoop_fed h₃)
  have hf₄ := copyBack_fed h₄
  rw [show m + (start + mid - i) + (start + n - j) = n by omega] at hf
  refine ⟨hf.same.trans hf₄.same, hf₄.scope.trans hf.scope, fun g hg => ?_⟩
  have hg₄ := hf₄.size g
  rw [hf.resolve, hl, if_neg (by simpa using hg)] at hg₄
  exact hg₄.trans (hf.size g)

/-! ## No list `temp` -/

theorem assignVal_lost (k : ℕ) (v : ℤ) (ht : resolve s "temp" = none) :
    assignVal s "temp" k v = some s := by
  unfold assignVal; rw [ht]

theorem mergeLoop_lost (ξ : ℕ → ℕ → ℤ) {iEnd jEnd : ℕ} (i j k : ℕ) (hS : Sound c s)
    (ht : resolve s "temp" = none) (hl : resolve s listName = some e)
    (hiE : iEnd ≤ (s.symTable.entries e).capacity) (hjE : jEnd ≤ (s.symTable.entries e).capacity) :
    ∃ i' j' k', mergeLoop ξ listName iEnd jEnd s i j k = some (s, i', j', k') := by
  induction hm : (iEnd - i) + (jEnd - j) generalizing i j k with
  | zero =>
    rw [mergeLoop, if_neg (by omega)]
    exact ⟨i, j, k, rfl⟩
  | succ m ih =>
    rw [mergeLoop]
    split_ifs with hcond
    swap
    · exact ⟨i, j, k, rfl⟩
    simp only [getVal_cell hS _ hl (show i < _ by omega), getVal_cell hS _ hl (show j < _ by omega),
      assignVal_lost _ _ ht, Option.bind_eq_bind, Option.bind_some]
    split_ifs
    · exact ih _ _ _ (by omega)
    · exact ih _ _ _ (by omega)

theorem copyLoop_lost (ξ : ℕ → ℕ → ℤ) (site : ℕ) {iEnd : ℕ} (i k : ℕ) (hS : Sound c s)
    (ht : resolve s "temp" = none) (hl : resolve s listName = some e)
    (hiE : iEnd ≤ (s.symTable.entries e).capacity) :
    ∃ k', copyLoop ξ listName site iEnd s i k = some (s, k') := by
  induction hm : iEnd - i generalizing i k with
  | zero =>
    rw [copyLoop, if_neg (by omega)]
    exact ⟨k, rfl⟩
  | succ m ih =>
    rw [copyLoop, if_pos (by omega)]
    simp only [getVal_cell hS _ hl (show i < _ by omega), assignVal_lost _ _ ht, Option.bind_eq_bind,
      Option.bind_some]
    exact ih _ _ (by omega)

/-- **What was never set goes to the list** when there is no list `temp` to read from. -/
theorem copyBack_lost (ξ : ℕ → ℕ → ℤ) (start : ℕ) {iEnd i : ℕ} (hS : Sound c s)
    (ht : resolve s "temp" = none) (hl : resolve s listName = some e) (hiE : iEnd ≤ (s.symTable.entries e).capacity) :
    ∃ t, copyBack ξ listName start iEnd s i = some t ∧
      Writes s t e i ((List.range' i (iEnd - i)).map (ξ 4)) := by
  induction hm : iEnd - i generalizing s i with
  | zero =>
    rw [copyBack, if_neg (by omega)]
    exact ⟨s, rfl, Writes.nil _ _ _⟩
  | succ m ih =>
    have hg : getVal s "temp" (u32 (i + 2 ^ 32 - start)) (ξ 4 i) = some (ξ 4 i) := by
      unfold getVal; rw [ht]
    obtain ⟨u, hu, hw⟩ := assignVal_writes hS hl (show i < _ by omega) (ξ 4 i)
    obtain ⟨t, hrun, hw'⟩ := ih (hS.same hw.same) ((hw.resolve _).trans ht) ((hw.resolve _).trans hl)
      (by rw [hw.same.cap]; exact hiE) (show iEnd - (i + 1) = m by omega)
    refine ⟨t, ?_, ?_⟩
    · rw [copyBack, if_pos (by omega), hg, Option.bind_eq_bind, Option.bind_some, hu,
        Option.bind_eq_bind, Option.bind_some, hrun]
    · rw [List.range'_succ, List.map_cons]
      exact hw.append hw' (resolve_live hl) (by
        simp only [List.length_singleton, List.length_map, List.length_range']; omega)

theorem mergeRest_lost (ξ : ℕ → ℕ → ℤ) {mid : ℕ} (hS : Sound c s) (ht : resolve s "temp" = none)
    (hl : resolve s listName = some e) (hmid : mid ≤ n)
    (hfit : start + n ≤ (s.symTable.entries e).capacity) :
    ∃ t, mergeRest ξ listName s start (start + mid) (start + n) = some t ∧
      Writes s t e start ((List.range' start n).map (ξ 4)) := by
  obtain ⟨i, j, k, h₁⟩ := mergeLoop_lost ξ start (start + mid) 0 hS ht hl
    (show start + mid ≤ _ by omega) hfit
  obtain ⟨k₂, h₂⟩ := copyLoop_lost ξ 2 i k hS ht hl (show start + mid ≤ _ by omega)
  obtain ⟨k₃, h₃⟩ := copyLoop_lost ξ 3 j k₂ hS ht hl hfit
  obtain ⟨t, h₄, hw⟩ := copyBack_lost ξ start (i := start) hS ht hl hfit
  rw [Nat.add_sub_cancel_left] at hw
  refine ⟨t, ?_, hw⟩
  unfold mergeRest
  simp only [Option.bind_eq_bind, h₁, Option.bind_some, h₂, h₃, h₄]

/-! ## Calls that return -/

/-- The parts of a longer call that returned. -/
theorem mergeSort_cases {ξ : Uninit} (hn : 1 < n) (h : mergeSort c listName ξ s start n = some t) :
    ∃ s₂ s₃ r s₄ s₅, s.currScope < intMax ∧
      mergeSort c listName ξ (deeper s) start (n / 2) = some s₂ ∧
      mergeSort c listName ξ s₂ (u32 (start + n / 2)) (n - n / 2) = some s₃ ∧
      createList c s₃ n "temp" = some r ∧
      mergeRest (fun site => ξ site start n) listName r.1 start (u32 (start + n / 2))
        (u32 (start + n)) = some s₄ ∧
      freeList s₄ "temp" = some s₅ ∧ endScope s₅ = some t := by
  rw [mergeSort_eq ξ hn] at h
  simp only [Option.bind_eq_some_iff] at h
  obtain ⟨s₁, h₁, s₂, h₂, s₃, h₃, r, hr, s₄, h₄, s₅, h₅, hend⟩ := h
  obtain ⟨hcs, rfl⟩ := initScope_eq h₁
  exact ⟨s₂, s₃, r, s₄, s₅, hcs, h₂, h₃, hr, h₄, h₅, hend⟩

/-- What a call works on, whether `temp` can be created or not. -/
structure CanCall (c : Config) (s : State) (listName : String) (e start n : ℕ) : Prop where
  sound : Sound c s
  hygiene : ScopeHygiene s
  list : find s.listMap (0, listName) = some e
  name : listName ≠ "temp"
  noWrap : start + n < 2 ^ 32

/-- Different lists have different entries. -/
theorem TableInv.entry_ne {k k' : Key} {e' : ℕ} (hI : TableInv c s) (hk : k ≠ k')
    (h : find s.listMap k = some e) (h' : find s.listMap k' = some e') : e ≠ e' := by
  rintro rfl
  have := List.inj_on_of_nodup_map hI.live_nodup (mem_of_find h) (mem_of_find h') rfl
  exact hk (congrArg Prod.fst this)

/-- **The body of a call that returned**: the allocator is given back, and the list `temp` of the
global scope got `n` values if `temp` could not be created. -/
theorem body_returned {ξ : ℕ → ℕ → ℤ} {r : State × ℤ} {v : State} {mid : ℕ}
    (h : CanCall c s listName e start n) (hS : Sound c t) (hB : Back (deeper s) t) (hmid : mid ≤ n)
    (hcreate : createList c t n "temp" = some r)
    (hrest : mergeRest ξ listName r.1 start (start + mid) (start + n) = some u)
    (hfree : freeList u "temp" = some v) :
    Sound c v ∧ Back t v ∧ ∃ m ≤ n, (¬ TempFits t n → m = n) ∧
      ∀ g, find s.listMap (0, "temp") = some g →
        (v.symTable.entries g).size ≡ (t.symTable.entries g).size + m [MOD 2 ^ 64] := by
  have hlist := (resolve_deeper h.hygiene hB listName).trans h.list
  have hne : ∀ g, find s.listMap (0, "temp") = some g → e ≠ g := fun g hg =>
    h.sound.table.entry_ne (fun heq => h.name (congrArg Prod.snd heq)) h.list hg
  obtain ⟨s₁, z⟩ := r
  rcases createList_cases hcreate with ⟨-, rfl, -⟩ | ⟨hc, -, -, hv, rfl⟩
  · -- `temp` is looked for in the global scope, and there is nothing to free
    obtain ⟨hsame, hscope, hsize⟩ := mergeRest_fed hmid hrest hlist
    have hnone : find u.listMap (u.currScope, "temp") = none := by
      rw [hsame.listMap, hscope]; exact find_deeper h.hygiene hB "temp"
    rcases freeList_cases hfree with ⟨-, rfl⟩ | ⟨e', he', -⟩
    swap
    · rw [hnone] at he'; cases he'
    refine ⟨hS.same hsame, hsame.back hscope, n, le_rfl, fun _ => rfl, fun g hg => ?_⟩
    have hg' := hsize g (hne g hg)
    rwa [if_pos ((resolve_deeper h.hygiene hB "temp").trans hg)] at hg'
  · -- nothing is written to a list of the global scope
    have hT : TempFits t n := ⟨hc.entry, hv, hc.room⟩
    have hn : n < 2 ^ 32 := by have := h.noWrap; omega
    have hl : resolve (created t (numPagesReq n) n "temp") listName = some e := by
      rw [resolve_created hS hc, if_neg h.name, hlist]
    obtain ⟨hsame, hscope, hsize⟩ := mergeRest_fed hmid hrest hl
    obtain ⟨w, hw, hSw, hBw, -, hentries⟩ := free_temp hS hc hT hn hsame hscope
    rw [hfree] at hw
    cases hw
    refine ⟨hSw, hBw, 0, Nat.zero_le n, fun hno => absurd hT hno, fun g hg => ?_⟩
    have hgl : g ∈ live t := by rw [hB.live]; exact find_live hg
    have hgx := (hS.table.ne_first hc.entry hgl).symm
    have hg' := hsize g (hne g hg)
    rw [resolve_created hS hc, if_pos rfl, if_neg (by simpa using hgx)] at hg'
    rw [hentries g hgl]
    refine hg'.trans ?_
    simp only [created, Function.update_of_ne hgx.symm]
    rfl

/-- What a call that returned has done: `m` values went to the list `temp` of the global scope. -/
structure Returned (c : Config) (s t : State) (n m : ℕ) : Prop where
  sound : Sound c t
  back : Back s t
  depth : s.currScope + 1 + Nat.clog 2 n ≤ intMax
  size : ∀ g, find s.listMap (0, "temp") = some g →
    (t.symTable.entries g).size ≡ (s.symTable.entries g).size + m [MOD 2 ^ 64]

theorem Returned.trans {s₁ s₂ s₃ : State} {n' m m' : ℕ} (h : Returned c s₁ s₂ n m)
    (h' : Returned c s₂ s₃ n' m') : ∀ g, find s₁.listMap (0, "temp") = some g →
    (s₃.symTable.entries g).size ≡ (s₁.symTable.entries g).size + (m + m') [MOD 2 ^ 64] := by
  intro g hg
  have hg' := h'.size g (by rw [h.back.listMap]; exact hg)
  rw [← Nat.add_assoc]
  exact hg'.trans ((h.size g hg).add_right m')

theorem CanCall.scope_nonneg (h : CanCall c s listName e start n) : 0 ≤ s.currScope :=
  h.hygiene _ (mem_of_find h.list)

/-- A part of the segment can be sorted in the scope of the call. -/
theorem CanCall.part (h : CanCall c s listName e start n) (hS : Sound c t) (hB : Back (deeper s) t)
    (start' n' : ℕ) (hle : start' + n' ≤ start + n) : CanCall c t listName e start' n' where
  sound := hS
  hygiene := hygiene_deeper h.hygiene hB
  list := by rw [hB.listMap]; exact h.list
  name := h.name
  noWrap := by have := h.noWrap; omega

theorem TempFits.of_back (hB : Back (deeper s) t) (h : TempFits t n) : TempFits s n where
  entry := by have := h.entry; rwa [hB.numFree] at this
  vec := by have := h.vec; rwa [hB.first, hB.vecs] at this
  room := by have := h.room; rwa [hB.numFreePages] at this

/-- Fewer values are counted than the square of the length. -/
theorem halves_sq (hn : 1 < n) : n / 2 * (n / 2) + (n - n / 2) * (n - n / 2) + n ≤ n * n := by
  obtain ⟨a, ha⟩ : ∃ a, n / 2 = a + 1 := ⟨n / 2 - 1, by omega⟩
  obtain ⟨b, hb⟩ : ∃ b, n - n / 2 = b + 1 := ⟨n - n / 2 - 1, by omega⟩
  obtain rfl : n = (a + 1) + (b + 1) := by omega
  rw [hb, ha]
  nlinarith

/-- **Every call that returns** gives the allocator back, and its recursion was not too deep. The
list `temp` of the global scope got at least `n` values if `temp` could not be created for the call
itself. -/
theorem mergeSort_returned {ξ : Uninit} (h : CanCall c s listName e start n)
    (hrun : mergeSort c listName ξ s start n = some t) :
    ∃ m ≤ n * n, (1 < n → ¬ TempFits s n → n ≤ m) ∧ Returned c s t n m := by
  induction n using Nat.strong_induction_on generalizing s t start with
  | _ n ih =>
    rcases Nat.lt_or_ge 1 n with hn | hn
    swap
    · -- the scope is opened and ended again
      have hend := endScope_deeper h.hygiene h.scope_nonneg (Back.refl (deeper s))
      rw [mergeSort, Option.bind_eq_bind, Option.bind_eq_some_iff] at hrun
      obtain ⟨s₁, h₁, hrun⟩ := hrun
      obtain ⟨hcs, rfl⟩ := initScope_eq h₁
      rw [if_pos hn] at hrun
      obtain rfl : s = t := Option.some.inj (hend.symm.trans hrun)
      refine ⟨0, Nat.zero_le _, by omega, h.sound, Back.refl s, ?_, fun g _ => rfl⟩
      rw [Nat.clog_of_right_le_one hn]
      push_cast; omega
    obtain ⟨s₂, s₃, r, s₄, s₅, hcs, h₂, h₃, hr, h₄, h₅, hend⟩ := mergeSort_cases hn hrun
    have hno := h.noWrap
    have hmid : u32 (start + n / 2) = start + n / 2 := Nat.mod_eq_of_lt (by omega)
    have hstop : u32 (start + n) = start + n := Nat.mod_eq_of_lt hno
    rw [hmid] at h₃ h₄
    rw [hstop] at h₄
    -- the two halves
    obtain ⟨m₁, hm₁, -, hr₁⟩ := ih (n / 2) (by omega) (h.part (h.sound.same (same_deeper s))
      (Back.refl _) start (n / 2) (by omega)) h₂
    obtain ⟨m₂, hm₂, -, hr₂⟩ := ih (n - n / 2) (by omega) (h.part hr₁.sound hr₁.back
      (start + n / 2) (n - n / 2) (by omega)) h₃
    have hB := hr₁.back.trans hr₂.back
    obtain ⟨hSv, hBv, m₃, hm₃, hfail, hsize⟩ :=
      body_returned h hr₂.sound hB (show n / 2 ≤ n by omega) hr h₄ h₅
    have hBv := hB.trans hBv
    obtain rfl := Option.some.inj ((endScope_deeper h.hygiene h.scope_nonneg hBv).symm.trans hend)
    refine ⟨m₁ + m₂ + m₃, ?_, ?_, hSv.same (same_setScope _ _), hBv.ended, ?_, ?_⟩
    · have := halves_sq hn
      omega
    · intro _ hT
      have := hfail fun hT' => hT (hT'.of_back hB)
      omega
    · -- the right half is the longer one
      have hd := hr₂.depth
      rw [show s₂.currScope = s.currScope + 1 from hr₁.back.scope,
        show n - n / 2 = (n + 2 - 1) / 2 by omega] at hd
      rw [Nat.clog_of_two_le (by norm_num) hn]
      omega
    · intro g hg
      have hg' := (hsize g hg).trans ((hr₁.trans hr₂ g hg).add_right m₃)
      rwa [Nat.add_assoc] at hg'

/-- **Without `temp`** and without a list of this name in the global scope, what was never set is
in the segment afterwards. -/
theorem mergeSort_lost {ξ : Uninit} (h : CanCall c s listName e start n)
    (hfits : start + n ≤ (s.symTable.entries e).capacity) (hn : 1 < n) (hT : ¬ TempFits s n)
    (hg : find s.listMap (0, "temp") = none) (hrun : mergeSort c listName ξ s start n = some t) :
    seg t e start n = (List.range' start n).map (ξ 4 start n) := by
  obtain ⟨s₂, s₃, ⟨s₁, z⟩, s₄, s₅, -, h₂, h₃, hr, h₄, h₅, hend⟩ := mergeSort_cases hn hrun
  have hno := h.noWrap
  rw [show u32 (start + n / 2) = start + n / 2 from Nat.mod_eq_of_lt (by omega)] at h₃ h₄
  rw [show u32 (start + n) = start + n from Nat.mod_eq_of_lt hno] at h₄
  obtain ⟨_, -, -, hr₁⟩ := mergeSort_returned (h.part (h.sound.same (same_deeper s)) (Back.refl _)
    start (n / 2) (by omega)) h₂
  obtain ⟨_, -, -, hr₂⟩ := mergeSort_returned (h.part hr₁.sound hr₁.back (start + n / 2) (n - n / 2)
    (by omega)) h₃
  have hB := hr₁.back.trans hr₂.back
  rcases createList_cases hr with ⟨-, rfl, -⟩ | ⟨hc, -, -, hv, -⟩
  swap
  · exact absurd (TempFits.of_back hB ⟨hc.entry, hv, hc.room⟩) hT
  -- the loops read from no list `temp`, and there is nothing to free
  obtain ⟨u, hu, hw⟩ := mergeRest_lost (fun site => ξ site start n) hr₂.sound
    ((resolve_deeper h.hygiene hB "temp").trans hg)
    ((resolve_deeper h.hygiene hB listName).trans h.list) (show n / 2 ≤ n by omega)
    (by rw [hB.cap e (find_live h.list)]; exact hfits)
  rw [h₄] at hu
  cases hu
  have hBu := hB.trans (hw.same.back hw.scope)
  rcases freeList_cases h₅ with ⟨-, rfl⟩ | ⟨e', he', -⟩
  swap
  · rw [find_deeper h.hygiene hBu] at he'; cases he'
  obtain rfl := Option.some.inj ((endScope_deeper h.hygiene h.scope_nonneg hBu).symm.trans hend)
  have hseg := hw.seg
  rw [List.length_map, List.length_range'] at hseg
  exact hseg

/-! ## When no data is destroyed -/

/-- The sort ends with the same values in the segment and with every other list as it was,
whatever the variables hold that were never set. -/
def Kept (c : Config) (s : State) (listName : String) (e start n : ℕ) : Prop :=
  ∀ ξ, ∃ t, mergeSort c listName ξ s start n = some t ∧
    (seg t e start n).Perm (seg s e start n) ∧ t.listMap = s.listMap ∧
    ∀ e' ∈ live s, e' ≠ e → t.symTable.entries e' = s.symTable.entries e' ∧
      ∀ off < (s.symTable.entries e').capacity, cell t e' off = cell s e' off

/-- The recursion is not too deep, and `temp` can be created for the whole segment. -/
def Safe (s : State) (n : ℕ) : Prop :=
  s.currScope + 1 + Nat.clog 2 n ≤ intMax ∧ (1 < n → TempFits s n)

theorem CanSort.kept (h : CanSort c s listName e start n) : Kept c s listName e start n := by
  intro ξ
  obtain ⟨t, ht, hs⟩ := mergeSort_spec ξ h
  exact ⟨t, ht, hs.perm, hs.back.listMap, fun e' he' hne =>
    ⟨hs.entry e' he' hne, fun off hoff => hs.frame e' off he' hoff fun he => absurd he hne⟩⟩

/-- What is written to the list `temp` of the global scope shows in its `size`. -/
theorem Kept.no_temp {g : ℕ} (h : CanCall c s listName e start n) (hK : Kept c s listName e start n)
    (hn : 1 < n) (hT : ¬ TempFits s n) : find s.listMap (0, "temp") ≠ some g := by
  intro hg
  obtain ⟨t, hrun, -, -, hother⟩ := hK fun _ _ _ _ => 0
  obtain ⟨m, hm, hle, hr⟩ := mergeSort_returned h hrun
  have hne : e ≠ g :=
    h.sound.table.entry_ne (fun heq => h.name (congrArg Prod.snd heq)) h.list hg
  have hsize := hr.size g hg
  rw [(hother g (find_live hg) hne.symm).1] at hsize
  -- fewer than `2 ^ 64` values were counted, and not none
  have hzero : 0 ≡ m [MOD 2 ^ 64] := Nat.ModEq.add_left_cancel' _ hsize
  have hlt : n * n < 2 ^ 64 := by
    have hn' : n < 2 ^ 32 := by have := h.noWrap; omega
    calc n * n < 2 ^ 32 * 2 ^ 32 := Nat.mul_lt_mul'' hn' hn'
      _ = 2 ^ 64 := by norm_num
  have hm₀ : 0 % 2 ^ 64 = m % 2 ^ 64 := hzero
  rw [Nat.mod_eq_of_lt (show m < 2 ^ 64 by omega)] at hm₀
  have := hle hn hT
  omega

theorem Kept.safe (h : CanCall c s listName e start n) (hK : Kept c s listName e start n)
    (hfits : start + n ≤ (s.symTable.entries e).capacity) : Safe s n := by
  obtain ⟨t₀, hrun₀, hperm₀, -⟩ := hK fun _ _ _ _ => 0
  obtain ⟨t₁, hrun₁, hperm₁, -⟩ := hK fun _ _ _ _ => 1
  obtain ⟨_, -, -, hr⟩ := mergeSort_returned h hrun₀
  refine ⟨hr.depth, fun hn => ?_⟩
  by_contra hT
  have hg : find s.listMap (0, "temp") = none := by
    cases hg : find s.listMap (0, "temp") with
    | none => rfl
    | some g => exact absurd hg (hK.no_temp h hn hT)
  -- the same segment cannot be a permutation of zeros and of ones
  have h₀ := mergeSort_lost h hfits hn hT hg hrun₀
  have h₁ := mergeSort_lost h hfits hn hT hg hrun₁
  rw [List.map_const', List.length_range'] at h₀ h₁
  rw [h₀] at hperm₀
  rw [h₁] at hperm₁
  have hmem : (0 : ℤ) ∈ List.replicate n (0 : ℤ) := List.mem_replicate.2 ⟨by omega, rfl⟩
  have := List.eq_of_mem_replicate ((hperm₀.trans hperm₁.symm).mem_iff.1 hmem)
  exact absurd this (by norm_num)

end OsLab.Malloc
