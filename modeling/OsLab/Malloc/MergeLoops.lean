import OsLab.Malloc.MergeSort
import Mathlib.Data.List.GetD

/-!
# The loops of `merge_sort`

The loops are described by the segments of cells they read (`seg`) and write (`Writes`).

* `pairwise_merge`: merging sorted lists as the first loop does gives a sorted list.
* `mergeLoop_spec`, `copyLoop_spec`: what reaches `temp`.
* `copyBack_spec`: what goes back to the list.
* `mergeRest_sorts`: the loops of a call one after another.
-/

namespace OsLab.Malloc

open Lib

variable {c : Config} {s t : State}

/-! ## Merging -/

/-- The head of the left list goes first only when it is smaller. -/
def smaller (a b : ℤ) : Bool := a < b

theorem merge_cons (x y : ℤ) (xs ys : List ℤ) :
    List.merge (x :: xs) (y :: ys) smaller =
      if x < y then x :: List.merge xs (y :: ys) smaller
      else y :: List.merge (x :: xs) ys smaller := by
  rw [List.cons_merge_cons]
  unfold smaller
  simp only [decide_eq_true_eq]

/-- **Merging keeps lists sorted**, although `<` is not total. -/
theorem pairwise_merge : ∀ {xs ys : List ℤ}, xs.Pairwise (· ≤ ·) → ys.Pairwise (· ≤ ·) →
    (List.merge xs ys smaller).Pairwise (· ≤ ·)
  | [], ys, _, hy => by rw [List.nil_merge]; exact hy
  | x :: xs, [], hx, _ => by rw [List.merge_right]; exact hx
  | x :: xs, y :: ys, hx, hy => by
    obtain ⟨hx1, hx2⟩ := List.pairwise_cons.1 hx
    obtain ⟨hy1, hy2⟩ := List.pairwise_cons.1 hy
    rw [merge_cons]
    split_ifs with hlt
    · refine List.pairwise_cons.2 ⟨?_, pairwise_merge hx2 hy⟩
      intro z hz
      rcases List.mem_append.1 ((List.merge_perm_append _).mem_iff.1 hz) with h | h
      · exact hx1 z h
      · rcases List.mem_cons.1 h with rfl | h
        · exact hlt.le
        · exact hlt.le.trans (hy1 z h)
    · refine List.pairwise_cons.2 ⟨?_, pairwise_merge hx hy2⟩
      intro z hz
      -- not smaller is at most, so the right head is the least of all
      have hle : y ≤ x := not_lt.1 hlt
      rcases List.mem_append.1 ((List.merge_perm_append _).mem_iff.1 hz) with h | h
      · rcases List.mem_cons.1 h with rfl | h
        · exact hle
        · exact hle.trans (hx1 z h)
      · exact hy1 z h
termination_by xs ys => xs.length + ys.length

/-! ## Segments -/

/-- The values of `n` cells of an entry from `start` on. -/
def seg (s : State) (e start n : ℕ) : List ℤ := (List.range' start n).map (cell s e)

@[simp] theorem seg_zero (s : State) (e start : ℕ) : seg s e start 0 = [] := rfl

@[simp] theorem seg_length (s : State) (e start n : ℕ) : (seg s e start n).length = n := by
  unfold seg; rw [List.length_map, List.length_range']

theorem seg_succ (s : State) (e start n : ℕ) :
    seg s e start (n + 1) = cell s e start :: seg s e (start + 1) n := by
  unfold seg; rw [List.range'_succ, List.map_cons]

theorem seg_append (s : State) (e start m n : ℕ) :
    seg s e start m ++ seg s e (start + m) n = seg s e start (m + n) := by
  unfold seg; rw [← List.map_append, List.range'_append_1]

theorem seg_getElem {e start n i : ℕ} (h : i < n) :
    (seg s e start n)[i]? = some (cell s e (start + i)) := by
  unfold seg; simp [h]

theorem seg_congr {e start n : ℕ}
    (h : ∀ off, start ≤ off → off < start + n → cell t e off = cell s e off) :
    seg t e start n = seg s e start n := by
  unfold seg
  apply List.map_congr_left
  intro off hoff
  rw [List.mem_range'_1] at hoff
  exact h off hoff.1 hoff.2

/-- **`out` is written** to the cells of entry `x` from `k` on; every other cell and all the
bookkeeping stay as they are. -/
structure Writes (s t : State) (x k : ℕ) (out : List ℤ) : Prop where
  same : Same s t
  scope : t.currScope = s.currScope
  entry : ∀ e, e ≠ x → t.symTable.entries e = s.symTable.entries e
  cells : ∀ i, i < out.length → cell t x (k + i) = out.getD i 0
  frame : ∀ e off, e ∈ live s → off < (s.symTable.entries e).capacity →
    (e = x → off < k ∨ k + out.length ≤ off) → cell t e off = cell s e off

theorem Writes.nil (s : State) (x k : ℕ) : Writes s s x k [] :=
  ⟨Same.refl s, rfl, fun _ _ => rfl, fun _ h => absurd h (Nat.not_lt_zero _), fun _ _ _ _ _ => rfl⟩

theorem Writes.resolve {x k : ℕ} {out : List ℤ} (h : Writes s t x k out) (name : String) :
    resolve t name = resolve s name := by
  unfold Malloc.resolve; rw [h.same.listMap, h.scope]

theorem Writes.seg {x k : ℕ} {out : List ℤ} (h : Writes s t x k out) :
    seg t x k out.length = out := by
  apply List.ext_getElem?
  intro i
  rcases lt_or_ge i out.length with hi | hi
  · rw [seg_getElem hi, h.cells i hi, List.getD_eq_getElem?_getD, List.getElem?_eq_getElem hi,
      Option.getD_some]
  · rw [List.getElem?_eq_none (by rw [seg_length]; exact hi), List.getElem?_eq_none hi]

/-- One write after another. -/
theorem Writes.append {u : State} {x k : ℕ} {o₁ o₂ : List ℤ} (h₁ : Writes s t x k o₁)
    (h₂ : Writes t u x (k + o₁.length) o₂) (hx : x ∈ live s)
    (hk : k + o₁.length + o₂.length ≤ (s.symTable.entries x).capacity) :
    Writes s u x k (o₁ ++ o₂) where
  same := h₁.same.trans h₂.same
  scope := h₂.scope.trans h₁.scope
  entry e he := (h₂.entry e he).trans (h₁.entry e he)
  cells := by
    intro i hi
    rw [List.length_append] at hi
    rcases lt_or_ge i o₁.length with h | h
    · -- the second write leaves the cells of the first one alone
      rw [h₂.frame x (k + i) (by rw [h₁.same.live]; exact hx) (by rw [h₁.same.cap]; omega)
        (fun _ => Or.inl (by omega)), h₁.cells i h, List.getD_append _ _ _ _ h]
    · have := h₂.cells (i - o₁.length) (by omega)
      rw [show k + o₁.length + (i - o₁.length) = k + i by omega] at this
      rw [this, List.getD_append_right _ _ _ _ h]
  frame := by
    intro e off he hoff hout
    rw [List.length_append] at hout
    rw [h₂.frame e off (by rw [h₁.same.live]; exact he) (by rw [h₁.same.cap]; exact hoff)
      (fun h => (hout h).imp (by omega) (by omega)),
      h₁.frame e off he hoff (fun h => (hout h).imp id (by omega))]

/-- A write within the capacity succeeds. -/
theorem assignVal_writes {name : String} {x off : ℕ} (hS : Sound c s)
    (hr : resolve s name = some x) (hoff : off < (s.symTable.entries x).capacity) (v : ℤ) :
    ∃ t, assignVal s name off v = some t ∧ Writes s t x off [v] := by
  have ha := computeMemAddress_eq hS (resolve_live hr) hoff
  have h : assignVal s name off v = some (written s x (cellAddr s x off) v) := by
    unfold assignVal; rw [hr]; simp only [assignEntry_eq, ha, Option.map_some]
  refine ⟨_, h, same_written _ _ _ _, rfl, fun e he => Function.update_of_ne he _ _, ?_, ?_⟩
  · intro i hi
    obtain rfl : i = 0 := by simpa using hi
    rw [Nat.add_zero, assignVal_cell hS h (resolve_live hr) hoff, if_pos ⟨hr, rfl⟩]
    rfl
  · intro e off' he hoff' hne
    rw [assignVal_cell hS h he hoff', if_neg]
    intro heq
    obtain ⟨h1, h2⟩ := heq
    rw [hr] at h1
    cases h1
    rcases hne rfl with h | h
    · omega
    · rw [List.length_singleton] at h; omega

/-! ## The loops -/

/-- What the loops of one call work on: `temp` of entry `x`, the list of entry `e`. -/
structure Ready (c : Config) (s : State) (listName : String) (x e : ℕ) : Prop where
  sound : Sound c s
  temp : resolve s "temp" = some x
  list : resolve s listName = some e
  ne : e ≠ x

variable {listName : String} {x e : ℕ}

theorem Ready.writes {y k : ℕ} {out : List ℤ} (hR : Ready c s listName x e)
    (h : Writes s t y k out) : Ready c t listName x e :=
  ⟨hR.sound.same h.same, (h.resolve _).trans hR.temp, (h.resolve _).trans hR.list, hR.ne⟩

/-- Writing to `temp` leaves the list alone. -/
theorem Ready.seg_list {k i n : ℕ} {out : List ℤ} (hR : Ready c s listName x e)
    (h : Writes s t x k out) (hi : i + n ≤ (s.symTable.entries e).capacity) :
    seg t e i n = seg s e i n :=
  seg_congr fun off _ hoff => h.frame e off (resolve_live hR.list) (by omega)
    fun he => absurd he hR.ne

/-- One turn of a loop that fills `temp`. -/
theorem Ready.put {k : ℕ} (hR : Ready c s listName x e)
    (hk : k < (s.symTable.entries x).capacity) (v : ℤ) :
    ∃ t, assignVal s "temp" k v = some t ∧ Writes s t x k [v] :=
  assignVal_writes hR.sound hR.temp hk v

theorem u32_succ {k n : ℕ} (h : k < n) (hn : n < 2 ^ 32) : u32 (k + 1) = k + 1 :=
  Nat.mod_eq_of_lt (by omega)

/-- **The first loop** merges until one half is used up. -/
theorem mergeLoop_spec (ξ : ℕ → ℕ → ℤ) (iEnd jEnd : ℕ) {i j k : ℕ} (hR : Ready c s listName x e)
    (hi : i ≤ iEnd) (hj : j ≤ jEnd) (hiE : iEnd ≤ (s.symTable.entries e).capacity)
    (hjE : jEnd ≤ (s.symTable.entries e).capacity)
    (hk : k + (iEnd - i) + (jEnd - j) ≤ (s.symTable.entries x).capacity)
    (hx : (s.symTable.entries x).capacity < 2 ^ 32) :
    ∃ t i' j' out, mergeLoop ξ listName iEnd jEnd s i j k = some (t, i', j', k + out.length) ∧
      Writes s t x k out ∧ i' ≤ iEnd ∧ j' ≤ jEnd ∧ (i' = iEnd ∨ j' = jEnd) ∧
      out.length + (iEnd - i') + (jEnd - j') = (iEnd - i) + (jEnd - j) ∧
      List.merge (seg s e i (iEnd - i)) (seg s e j (jEnd - j)) smaller =
        out ++ (seg s e i' (iEnd - i') ++ seg s e j' (jEnd - j')) := by
  -- by induction on the number of cells that are not copied yet
  obtain ⟨m, hm⟩ : ∃ m, (iEnd - i) + (jEnd - j) = m := ⟨_, rfl⟩
  induction m generalizing s i j k with
  | zero =>
    rw [mergeLoop, if_neg (by omega)]
    refine ⟨s, i, j, [], rfl, Writes.nil _ _ _, hi, hj, by omega, by simp, ?_⟩
    rw [show iEnd - i = 0 by omega, show jEnd - j = 0 by omega]
    simp
  | succ m ih =>
    by_cases hcond : i < iEnd ∧ j < jEnd
    swap
    · -- one half is used up: the merge is the rest of the other one
      rw [mergeLoop, if_neg hcond]
      refine ⟨s, i, j, [], rfl, Writes.nil _ _ _, hi, hj, by omega, by simp, ?_⟩
      rcases Nat.lt_or_ge i iEnd with h | h
      · rw [show jEnd - j = 0 by omega]; simp
      · rw [show iEnd - i = 0 by omega]; simp
    · -- a turn that copies `v` and goes on at `i₁` and `j₁`
      have turn : ∀ (v : ℤ) (i₁ j₁ : ℕ), i ≤ i₁ → i₁ ≤ iEnd → j ≤ j₁ → j₁ ≤ jEnd →
          (iEnd - i₁) + (jEnd - j₁) = m →
          ∃ u t i' j' out, assignVal s "temp" k v = some u ∧
            mergeLoop ξ listName iEnd jEnd u i₁ j₁ (k + 1) =
              some (t, i', j', k + (v :: out).length) ∧
            Writes s t x k (v :: out) ∧ i' ≤ iEnd ∧ j' ≤ jEnd ∧ (i' = iEnd ∨ j' = jEnd) ∧
            (v :: out).length + (iEnd - i') + (jEnd - j') = (iEnd - i) + (jEnd - j) ∧
            List.merge (seg s e i₁ (iEnd - i₁)) (seg s e j₁ (jEnd - j₁)) smaller =
              out ++ (seg s e i' (iEnd - i') ++ seg s e j' (jEnd - j')) := by
        intro v i₁ j₁ hi₁ hiE₁ hj₁ hjE₁ hm₁
        obtain ⟨u, hu, hw⟩ := hR.put (show k < _ by omega) v
        have hcu := hw.same.cap
        obtain ⟨t, i', j', out, hrun, hw', hi', hj', hend, hlen, hmerge⟩ :=
          ih (hR.writes hw) (i := i₁) (j := j₁) (k := k + 1) hiE₁ hjE₁ (by rw [hcu]; exact hiE)
            (by rw [hcu]; exact hjE) (by rw [hcu]; omega) (by rw [hcu]; exact hx) hm₁
        -- the halves are still in the list
        rw [hR.seg_list hw (by omega), hR.seg_list hw (by omega), hR.seg_list hw (by omega),
          hR.seg_list hw (by omega)] at hmerge
        refine ⟨u, t, i', j', out, hu, ?_, ?_, hi', hj', hend, ?_, hmerge⟩
        · rw [hrun, List.length_cons]
          congr 4; omega
        · exact hw.append hw' (resolve_live hR.temp) (by simp only [List.length_singleton]; omega)
        · rw [List.length_cons]; omega
      have hgi := getVal_cell hR.sound (ξ 0 k) hR.list (show i < _ by omega)
      have hgj := getVal_cell hR.sound (ξ 1 k) hR.list (show j < _ by omega)
      have hsi := seg_succ s e i (iEnd - (i + 1))
      have hsj := seg_succ s e j (jEnd - (j + 1))
      rw [show iEnd - (i + 1) + 1 = iEnd - i by omega] at hsi
      rw [show jEnd - (j + 1) + 1 = jEnd - j by omega] at hsj
      have hku := u32_succ (show k < (s.symTable.entries x).capacity by omega) hx
      rw [mergeLoop, if_pos hcond]
      simp only [hgi, hgj, Option.bind_eq_bind, Option.bind_some]
      rw [hsi, hsj, merge_cons]
      split_ifs with hlt
      · -- the left head is smaller
        obtain ⟨u, t, i', j', out, hu, hrun, hw, hi', hj', hend, hlen, hmerge⟩ :=
          turn (cell s e i) (i + 1) j (by omega) (by omega) le_rfl hj (by omega)
        refine ⟨t, i', j', cell s e i :: out, ?_, hw, hi', hj', hend, hlen, ?_⟩
        · rw [hu, Option.bind_some, hku, hrun]
        · rw [← hsj, hmerge]; rfl
      · -- the right head goes first, also on ties
        obtain ⟨u, t, i', j', out, hu, hrun, hw, hi', hj', hend, hlen, hmerge⟩ :=
          turn (cell s e j) i (j + 1) le_rfl hi (by omega) (by omega) (by omega)
        refine ⟨t, i', j', cell s e j :: out, ?_, hw, hi', hj', hend, hlen, ?_⟩
        · rw [hu, Option.bind_some, hku, hrun]
        · rw [← hsi, hmerge]; rfl

/-- **The second and the third loop** copy the rest of a half. -/
theorem copyLoop_spec (ξ : ℕ → ℕ → ℤ) (site iEnd : ℕ) {i k : ℕ} (hR : Ready c s listName x e)
    (hiE : iEnd ≤ (s.symTable.entries e).capacity)
    (hk : k + (iEnd - i) ≤ (s.symTable.entries x).capacity)
    (hx : (s.symTable.entries x).capacity < 2 ^ 32) :
    ∃ t, copyLoop ξ listName site iEnd s i k = some (t, k + (iEnd - i)) ∧
      Writes s t x k (seg s e i (iEnd - i)) := by
  obtain ⟨m, hm⟩ : ∃ m, iEnd - i = m := ⟨_, rfl⟩
  induction m generalizing s i k with
  | zero =>
    rw [copyLoop, if_neg (by omega), hm]
    exact ⟨s, rfl, Writes.nil _ _ _⟩
  | succ m ih =>
    have hgi := getVal_cell hR.sound (ξ site k) hR.list (show i < _ by omega)
    obtain ⟨u, hu, hw⟩ := hR.put (show k < _ by omega) (cell s e i)
    have hcu := hw.same.cap
    obtain ⟨t, hrun, hw'⟩ := ih (hR.writes hw) (i := i + 1) (k := k + 1) (by rw [hcu]; exact hiE)
      (by rw [hcu]; omega) (by rw [hcu]; exact hx) (by omega)
    -- the rest of the half is still in the list
    rw [hR.seg_list hw (by omega), show iEnd - (i + 1) = m by omega] at hw'
    refine ⟨t, ?_, ?_⟩
    · rw [copyLoop, if_pos (by omega)]
      simp only [hgi, Option.bind_eq_bind, Option.bind_some, hu]
      rw [u32_succ (show k < (s.symTable.entries x).capacity by omega) hx, hrun]
      congr 2; omega
    · have happ := hw.append hw' (resolve_live hR.temp)
        (by simp only [List.length_singleton, seg_length]; omega)
      rw [hm, seg_succ]
      exact happ

/-- **The last loop** copies `temp` to the list. -/
theorem copyBack_spec (ξ : ℕ → ℕ → ℤ) (start iEnd : ℕ) {i : ℕ} (hR : Ready c s listName x e)
    (hi : start ≤ i) (hiE : iEnd ≤ (s.symTable.entries e).capacity)
    (hx : iEnd - start ≤ (s.symTable.entries x).capacity) (hE : iEnd < 2 ^ 32) :
    ∃ t, copyBack ξ listName start iEnd s i = some t ∧
      Writes s t e i (seg s x (i - start) (iEnd - i)) := by
  obtain ⟨m, hm⟩ : ∃ m, iEnd - i = m := ⟨_, rfl⟩
  induction m generalizing s i with
  | zero =>
    rw [copyBack, if_neg (by omega), hm]
    exact ⟨s, rfl, Writes.nil _ _ _⟩
  | succ m ih =>
    -- `i - start` does not wrap around
    have hoff : u32 (i + 2 ^ 32 - start) = i - start := by
      unfold u32
      rw [show i + 2 ^ 32 - start = i - start + 2 ^ 32 by omega, Nat.add_mod_right]
      exact Nat.mod_eq_of_lt (by omega)
    have hg := getVal_cell hR.sound (ξ 4 i) hR.temp (show i - start < _ by omega)
    obtain ⟨u, hu, hw⟩ := assignVal_writes hR.sound hR.list (show i < _ by omega)
      (cell s x (i - start))
    have hcu := hw.same.cap
    obtain ⟨t, hrun, hw'⟩ := ih (hR.writes hw) (i := i + 1) (by omega) (by rw [hcu]; exact hiE)
      (by rw [hcu]; exact hx) (by omega)
    have htemp : seg u x (i + 1 - start) (iEnd - (i + 1)) = seg s x (i - start + 1) m := by
      rw [show i + 1 - start = i - start + 1 by omega, show iEnd - (i + 1) = m by omega]
      exact seg_congr fun off _ hlt => hw.frame x off (resolve_live hR.temp) (by omega)
        fun h => absurd h.symm hR.ne
    rw [htemp] at hw'
    refine ⟨t, ?_, ?_⟩
    · rw [copyBack, if_pos (by omega)]
      simp only [hoff, hg, Option.bind_eq_bind, Option.bind_some, hu]
      exact hrun
    · have happ := hw.append hw' (resolve_live hR.list)
        (by simp only [List.length_singleton, seg_length]; omega)
      rw [hm, seg_succ]
      exact happ

/-! ## The loops of a call -/

/-- The four loops of a call, once `temp` is created. -/
def mergeRest (ξ : ℕ → ℕ → ℤ) (listName : String) (s : State) (start mid stop : ℕ) :
    Option State := do
  let (s, i, j, k) ← mergeLoop ξ listName mid stop s start mid 0
  let (s, k) ← copyLoop ξ listName 2 mid s i k
  let (s, _) ← copyLoop ξ listName 3 stop s j k
  copyBack ξ listName start stop s start

/-- A longer call of `merge_sort`. -/
theorem mergeSort_eq (ξ : Uninit) {start n : ℕ} (hn : 1 < n) :
    mergeSort c listName ξ s start n = (initScope s).bind fun s₁ =>
      (mergeSort c listName ξ s₁ start (n / 2)).bind fun s₂ =>
      (mergeSort c listName ξ s₂ (u32 (start + n / 2)) (n - n / 2)).bind fun s₃ =>
      (createList c s₃ n "temp").bind fun r =>
      (mergeRest (fun site => ξ site start n) listName r.1 start (u32 (start + n / 2))
        (u32 (start + n))).bind fun s₄ =>
      (freeList s₄ "temp").bind endScope := by
  rw [mergeSort]
  simp only [Option.bind_eq_bind, if_neg (not_le.2 hn), mergeRest, Option.bind_assoc]

/-- The loops change cells of the list at the offsets in `P`, and cells of `temp`. -/
structure Merged (s t : State) (x e : ℕ) (P : ℕ → Prop) : Prop where
  same : Same s t
  scope : t.currScope = s.currScope
  entry : ∀ e', e' ≠ x → e' ≠ e → t.symTable.entries e' = s.symTable.entries e'
  frame : ∀ e' off, e' ∈ live s → off < (s.symTable.entries e').capacity → e' ≠ x →
    (e' = e → ¬ P off) → cell t e' off = cell s e' off

variable {start n : ℕ}

/-- The three loops that fill `temp` write the merge of the two halves. -/
theorem fill_temp (ξ : ℕ → ℕ → ℤ) {mid : ℕ} (hR : Ready c s listName x e) (hmid : mid ≤ n)
    (hfit : start + n ≤ (s.symTable.entries e).capacity) (hn : n < 2 ^ 32)
    (hx : (s.symTable.entries x).capacity = n) :
    ∃ s₁ i j k s₂ k₂ s₃ k₃,
      mergeLoop ξ listName (start + mid) (start + n) s start (start + mid) 0 = some (s₁, i, j, k) ∧
      copyLoop ξ listName 2 (start + mid) s₁ i k = some (s₂, k₂) ∧
      copyLoop ξ listName 3 (start + n) s₂ j k₂ = some (s₃, k₃) ∧
      Writes s s₃ x 0
        (List.merge (seg s e start mid) (seg s e (start + mid) (n - mid)) smaller) := by
  have hxl := resolve_live hR.temp
  obtain ⟨s₁, i, j, out, h₁, hw₁, hi, hj, hend, hlen, hmerge⟩ :=
    mergeLoop_spec ξ (start + mid) (start + n) hR (i := start) (j := start + mid) (k := 0) (by omega)
      (by omega) (by omega) hfit (by omega) (by omega)
  rw [show start + mid - start = mid by omega, show start + n - (start + mid) = n - mid by omega]
    at hmerge
  have hc₁ := hw₁.same.cap
  -- what is left of the left half, then of the right half
  obtain ⟨s₂, h₂, hw₂⟩ := copyLoop_spec ξ 2 (start + mid) (hR.writes hw₁) (i := i)
    (k := 0 + out.length) (by rw [hc₁]; omega) (by rw [hc₁]; omega) (by rw [hc₁]; omega)
  rw [hR.seg_list hw₁ (by omega)] at hw₂
  have hw₁₂ := hw₁.append hw₂ hxl (by rw [seg_length]; omega)
  have hc₂ := hw₁₂.same.cap
  obtain ⟨s₃, h₃, hw₃⟩ := copyLoop_spec ξ 3 (start + n) (hR.writes hw₁₂) (i := j)
    (k := 0 + out.length + (start + mid - i)) (by rw [hc₂]; omega) (by rw [hc₂]; omega)
    (by rw [hc₂]; omega)
  rw [hR.seg_list hw₁₂ (by omega), show 0 + out.length + (start + mid - i) =
    0 + (out ++ seg s e i (start + mid - i)).length by
      rw [List.length_append, seg_length]; omega] at hw₃
  have hw := hw₁₂.append hw₃ hxl (by rw [List.length_append, seg_length, seg_length]; omega)
  rw [hmerge, ← hR.seg_list hw₁ (by omega), ← hR.seg_list hw₁ (by omega), ← List.append_assoc,
    hR.seg_list hw₁ (by omega), hR.seg_list hw₁ (by omega)]
  exact ⟨s₁, i, j, _, s₂, _, s₃, _, h₁, h₂, h₃, hw⟩

/-- **The loops merge** the two halves of a segment. -/
theorem mergeRest_spec (ξ : ℕ → ℕ → ℤ) {mid : ℕ} (hR : Ready c s listName x e) (hmid : mid ≤ n)
    (hfit : start + n ≤ (s.symTable.entries e).capacity) (hlt : start + n < 2 ^ 32)
    (hx : (s.symTable.entries x).capacity = n) :
    ∃ t, mergeRest ξ listName s start (start + mid) (start + n) = some t ∧
      Merged s t x e (fun off => start ≤ off ∧ off < start + n) ∧
      seg t e start n =
        List.merge (seg s e start mid) (seg s e (start + mid) (n - mid)) smaller := by
  obtain ⟨s₁, i, j, k, s₂, k₂, s₃, k₃, h₁, h₂, h₃, hw⟩ := fill_temp ξ hR hmid hfit (by omega) hx
  have hcap := hw.same.cap
  obtain ⟨t, h₄, hw₄⟩ := copyBack_spec ξ start (start + n) (hR.writes hw) (i := start)
    le_rfl (by rw [hcap]; exact hfit) (by rw [hcap, hx]; omega) hlt
  -- what is copied back is what was merged
  have hM : (List.merge (seg s e start mid) (seg s e (start + mid) (n - mid)) smaller).length = n := by
    rw [(List.merge_perm_append _).length_eq, List.length_append, seg_length, seg_length]; omega
  have hseg := hw.seg
  rw [hM] at hseg
  rw [Nat.sub_self, Nat.add_sub_cancel_left, hseg] at hw₄
  refine ⟨t, ?_, ⟨hw.same.trans hw₄.same, hw₄.scope.trans hw.scope, ?_, ?_⟩, ?_⟩
  · unfold mergeRest
    simp only [Option.bind_eq_bind, h₁, Option.bind_some, h₂, h₃, h₄]
  · intro e' hx' he'
    exact (hw₄.entry e' he').trans (hw.entry e' hx')
  · intro e' off he' hoff hx' hout
    rw [hw₄.frame e' off (by rw [hw.same.live]; exact he') (by rw [hcap]; exact hoff)
        (fun h => by have := hout h; omega),
      hw.frame e' off he' hoff (fun h => absurd h hx')]
  · have hseg₄ := hw₄.seg
    rwa [hM] at hseg₄

/-- **A segment that runs past `2^32`**: its end is before its start, so nothing is copied back. -/
theorem mergeRest_wrapped (ξ : ℕ → ℕ → ℤ) {mid mid' stop : ℕ} (hR : Ready c s listName x e)
    (hmid : mid ≤ n) (hfit : start + n ≤ (s.symTable.entries e).capacity) (hn : n < 2 ^ 32)
    (hx : (s.symTable.entries x).capacity = n) (hstop : stop < start)
    (hmid' : (mid' = start + mid) ∨ (mid' ≤ stop ∧ stop = mid' + (n - mid))) :
    ∃ t, mergeRest ξ listName s start mid' stop = some t ∧ Merged s t x e (fun _ => False) := by
  have h₁ : mergeLoop ξ listName mid' stop s start mid' 0 = some (s, start, mid', 0) := by
    rw [mergeLoop, if_neg (by omega)]
  obtain ⟨s₂, h₂, hw₂⟩ := copyLoop_spec ξ 2 mid' hR (i := start) (k := 0) (by omega) (by omega)
    (by omega)
  have hc₂ := hw₂.same.cap
  obtain ⟨s₃, h₃, hw₃⟩ := copyLoop_spec ξ 3 stop (hR.writes hw₂) (i := mid')
    (k := 0 + (mid' - start)) (by rw [hc₂]; omega) (by rw [hc₂]; omega) (by rw [hc₂]; omega)
  have h₄ : copyBack ξ listName start stop s₃ start = some s₃ := by
    rw [copyBack, if_neg (by omega)]
  refine ⟨s₃, ?_, hw₂.same.trans hw₃.same, hw₃.scope.trans hw₂.scope, ?_, ?_⟩
  · unfold mergeRest
    simp only [Option.bind_eq_bind, h₁, Option.bind_some, h₂, h₃, h₄]
  · intro e' hx' _
    exact (hw₃.entry e' hx').trans (hw₂.entry e' hx')
  · intro e' off he' hoff hx' _
    rw [hw₃.frame e' off (by rw [hw₂.same.live]; exact he') (by rw [hc₂]; exact hoff)
        (fun h => absurd h hx'),
      hw₂.frame e' off he' hoff (fun h => absurd h hx')]

/-- **The loops of a call** permute the segment, also one that runs past `2^32`; they sort it if its
halves are sorted and it does not. -/
theorem mergeRest_sorts (ξ : ℕ → ℕ → ℤ) (hR : Ready c s listName x e)
    (hfit : start + n ≤ (s.symTable.entries e).capacity) (hstart : start < 2 ^ 32) (hn : n < 2 ^ 32)
    (hx : (s.symTable.entries x).capacity = n)
    (hleft : start + n < 2 ^ 32 → (seg s e start (n / 2)).Pairwise (· ≤ ·))
    (hright : start + n < 2 ^ 32 → (seg s e (start + n / 2) (n - n / 2)).Pairwise (· ≤ ·)) :
    ∃ t, mergeRest ξ listName s start (u32 (start + n / 2)) (u32 (start + n)) = some t ∧
      Merged s t x e (fun off => start ≤ off ∧ off < start + n) ∧
      (start + n < 2 ^ 32 → (seg t e start n).Pairwise (· ≤ ·)) ∧
      (seg t e start n).Perm (seg s e start n) := by
  have hmid : n / 2 ≤ n := by omega
  rcases Nat.lt_or_ge (start + n) (2 ^ 32) with hno | hwrap
  · obtain ⟨t, hrun, hm, hseg⟩ := mergeRest_spec ξ hR hmid hfit hno hx
    rw [show u32 (start + n / 2) = start + n / 2 from Nat.mod_eq_of_lt (by omega),
      show u32 (start + n) = start + n from Nat.mod_eq_of_lt hno]
    refine ⟨t, hrun, hm, fun _ => ?_, ?_⟩
    · rw [hseg]
      exact pairwise_merge (hleft hno) (hright hno)
    · rw [hseg]
      refine (List.merge_perm_append _).trans ?_
      rw [seg_append, Nat.add_sub_cancel' hmid]
  · have hstop : u32 (start + n) < start := by unfold u32; omega
    have hmid' : u32 (start + n / 2) = start + n / 2 ∨ (u32 (start + n / 2) ≤ u32 (start + n) ∧
        u32 (start + n) = u32 (start + n / 2) + (n - n / 2)) := by
      unfold u32; omega
    obtain ⟨t, hrun, hm⟩ := mergeRest_wrapped ξ hR hmid hfit hn hx hstop hmid'
    refine ⟨t, hrun, ⟨hm.same, hm.scope, hm.entry, ?_⟩, fun hno => absurd hno (not_lt.2 hwrap), ?_⟩
    · exact fun e' off he' hoff hne _ => hm.frame e' off he' hoff hne fun _ => id
    · -- nothing is copied back
      rw [seg_congr fun off _ hoff => hm.frame e off (resolve_live hR.list) (by omega) hR.ne
        fun _ => id]

end OsLab.Malloc
