import OsLab.Malloc.MergeProof
import OsLab.Lib.Loop
import OsLab.Scripts.CheckSorted
import Mathlib.Data.List.MinMax

/-!
# The sorting program (`main` of `mergesort.cpp`)

`main` fills a list with random values, which it also puts into a heap, sorts the list, and compares it
with what it pops off the heap. It writes the values to a file before the sort and after it.

* `checkSorted_spec`: the comparison succeeds on a sorted permutation of the heap.
* `program_sorts`: the run of the program, up to the check of its file by the script.
-/

namespace OsLab.Malloc

open Lib

/-- `MAX_VAL`. -/
def maxVal : ℕ := 100000

/-- `getRandomNumber`, where `rand` has returned `r`. -/
def getRandomNumber (r : ℕ) : ℤ := ((r % (maxVal - 1) + 1 : ℕ) : ℤ)

/-- One turn of the loop that assigns random values. The heap `pq` is a list in no order. -/
def assignTurn (rand : ℕ → ℕ) (x : State × List ℤ) (i : ℕ) : Option (State × List ℤ) :=
  (assignVal x.1 "list1" i (getRandomNumber (rand i))).map fun s =>
    (s, getRandomNumber (rand i) :: x.2)

/-- The loop. -/
def assignRandom (rand : ℕ → ℕ) (n : ℕ) (s : State) : Option (State × List ℤ) :=
  forRange n (assignTurn rand) (s, [])

/-- The loops that write a file: its lines are the numbers. -/
def writeFile (ξ : ℕ → ℤ) (n : ℕ) (s : State) : Option (List ℤ) :=
  forRange n (fun lines i => (getVal s "list1" i (ξ i)).map fun val => lines ++ [val]) []

/-- One turn of the comparison with the heap. It is `none` inside when the program has returned after
"NOT SORTED!". -/
def compareTop (ξ : ℕ → ℤ) (s : State) (x : Option (List ℤ)) (i : ℕ) : Option (Option (List ℤ)) :=
  match x with
  | none => some none
  | some pq => do
    let val ← getVal s "list1" i (ξ i)
    let top ← pq.min?
    some (if val ≠ top then none else some (pq.erase top))

/-- The loop that compares the list with the heap. -/
def checkSorted (ξ : ℕ → ℤ) (n : ℕ) (s : State) (pq : List ℤ) : Option (Option (List ℤ)) :=
  forRange n (compareTop ξ s) (some pq)

/-- The lines of `unsort.txt`, and those of `sort.txt` if the program gets there. -/
structure Files where
  unsort : List ℤ
  sort : Option (List ℤ)

/-- `main`, with a memory of `memSize` bytes and a list of `n` elements. `ξ` and `ζ` are what the
variables that `getVal` reads into hold before. -/
def program (c : Config) (memSize n : ℕ) (rand : ℕ → ℕ) (ξ : Uninit) (ζ : ℕ → ℕ → ℤ) :
    Option (Files × State) := do
  let s ← initScope (createMem c memSize)
  let (s, _) ← createList c s n "list1"
  let (s, pq) ← assignRandom rand n s
  let unsort ← writeFile (ζ 0) n s
  let s ← mergeSort c "list1" ξ s 0 n
  let checked ← checkSorted (ζ 1) n s pq
  match checked with
  | none => some (⟨unsort, none⟩, s)
  | some _ => do
    let sorted ← writeFile (ζ 2) n s
    let s ← freeList s "list1"
    let s ← endScope s
    some (⟨unsort, some sorted⟩, s)

variable {c : Config} {s t u : State} {e n : ℕ} {pq : List ℤ}

/-! ## The loops -/

/-- The random values. -/
def randomValues (rand : ℕ → ℕ) (n : ℕ) : List ℤ :=
  (List.range n).map fun i => getRandomNumber (rand i)

theorem length_randomValues (rand : ℕ → ℕ) (n : ℕ) : (randomValues rand n).length = n := by
  rw [randomValues, List.length_map, List.length_range]

theorem randomValues_succ (rand : ℕ → ℕ) (n : ℕ) :
    randomValues rand (n + 1) = randomValues rand n ++ [getRandomNumber (rand n)] := by
  rw [randomValues, List.range_succ, List.map_append, List.map_singleton, randomValues]

theorem mem_randomValues {rand : ℕ → ℕ} {z : ℤ} (h : z ∈ randomValues rand n) :
    1 ≤ z ∧ z < maxVal := by
  obtain ⟨i, -, rfl⟩ := List.mem_map.1 h
  have := Nat.mod_lt (rand i) (show 0 < maxVal - 1 by decide)
  unfold getRandomNumber
  omega

/-- **The list is filled**, and the heap holds the same values. -/
theorem assignRandom_spec (rand : ℕ → ℕ) (hS : Sound c s) (hr : resolve s "list1" = some e)
    (hn : n ≤ (s.symTable.entries e).capacity) : ∃ t pq, assignRandom rand n s = some (t, pq) ∧
    Writes s t e 0 (randomValues rand n) ∧ pq.Perm (randomValues rand n) := by
  have hturn : ∀ i (x : State × List ℤ), i < n →
      Writes s x.1 e 0 (randomValues rand i) ∧ x.2.Perm (randomValues rand i) →
      ∃ y, assignTurn rand x i = some y ∧
        Writes s y.1 e 0 (randomValues rand (i + 1)) ∧ y.2.Perm (randomValues rand (i + 1)) := by
    rintro i ⟨u, q⟩ hi ⟨hw, hq⟩
    have hcap := hw.same.cap e
    obtain ⟨v, hv, hwv⟩ := assignVal_writes (hS.same hw.same) ((hw.resolve "list1").trans hr)
      (show i < _ by omega) (getRandomNumber (rand i))
    have hlen := length_randomValues rand i
    refine ⟨(v, getRandomNumber (rand i) :: q), by rw [assignTurn, hv]; rfl, ?_, ?_⟩
    · rw [randomValues_succ]
      refine hw.append (by rw [hlen, Nat.zero_add]; exact hwv) (resolve_live hr) ?_
      rw [hlen, List.length_singleton]
      omega
    · rw [randomValues_succ]
      exact (hq.cons _).trans (List.perm_append_singleton _ _).symm
  have hstart : Writes s (s, ([] : List ℤ)).1 e 0 (randomValues rand 0) ∧
      (s, ([] : List ℤ)).2.Perm (randomValues rand 0) := ⟨Writes.nil s e 0, List.Perm.refl []⟩
  obtain ⟨⟨t, pq⟩, hrun, hw, hpq⟩ := forRange_spec hstart hturn
  exact ⟨t, pq, hrun, hw, hpq⟩

theorem writeFile_spec (ξ : ℕ → ℤ) (hS : Sound c s) (hr : resolve s "list1" = some e)
    (hn : n ≤ (s.symTable.entries e).capacity) : writeFile ξ n s = some (seg s e 0 n) := by
  obtain ⟨lines, hrun, hlines⟩ := forRange_spec (P := fun m lines => lines = seg s e 0 m) (n := n)
    (f := fun lines i => (getVal s "list1" i (ξ i)).map fun val => lines ++ [val]) (s := [])
    (seg_zero s e 0).symm fun i lines hi hlines => by
      refine ⟨_, by rw [getVal_cell hS (ξ i) hr (show i < _ by omega)]; rfl, ?_⟩
      rw [hlines, ← seg_append s e 0 i 1, Nat.zero_add]
      rfl
  rw [← hlines]
  exact hrun

/-- The top of a heap that holds a sorted list is the head of the list. -/
theorem top_eq {v : ℤ} {vs : List ℤ} (hperm : pq.Perm (v :: vs)) (hsorted : (v :: vs).Pairwise (· ≤ ·)) :
    pq.min? = some v := by
  rw [List.min?_eq_some_iff]
  refine ⟨hperm.mem_iff.2 List.mem_cons_self, fun b hb => ?_⟩
  rcases List.mem_cons.1 (hperm.mem_iff.1 hb) with rfl | hb
  · exact le_rfl
  · exact (List.pairwise_cons.1 hsorted).1 b hb

/-- **The comparison succeeds** if the list is sorted and has the values of the heap. -/
theorem checkSorted_spec (ξ : ℕ → ℤ) (hS : Sound c s) (hr : resolve s "list1" = some e)
    (hn : n ≤ (s.symTable.entries e).capacity) (hperm : pq.Perm (seg s e 0 n))
    (hsorted : (seg s e 0 n).Pairwise (· ≤ ·)) : checkSorted ξ n s pq = some (some []) := by
  obtain ⟨x, hrun, q, hx, hq⟩ := forRange_spec
    (P := fun m x => ∃ q, x = some q ∧ q.Perm (seg s e m (n - m))) (n := n) (f := compareTop ξ s)
    (s := some pq) ⟨pq, rfl, hperm⟩ fun i x hi hP => by
      obtain ⟨q, rfl, hq⟩ := hP
      have hseg := seg_succ s e i (n - (i + 1))
      rw [show n - (i + 1) + 1 = n - i by omega] at hseg
      -- the rest of the list is sorted
      have hrest : (seg s e i (n - i)).Pairwise (· ≤ ·) := by
        have hsplit := seg_append s e 0 i (n - i)
        rw [Nat.zero_add, show i + (n - i) = n by omega] at hsplit
        rw [← hsplit] at hsorted
        exact (List.pairwise_append.1 hsorted).2.1
      rw [hseg] at hq hrest
      refine ⟨some (q.erase (cell s e i)), ?_, _, rfl, ?_⟩
      · simp only [compareTop, getVal_cell hS (ξ i) hr (show i < _ by omega), top_eq hq hrest,
          Option.bind_eq_bind, Option.bind_some, ne_eq, not_true_eq_false, if_false]
      · exact (List.cons_perm_iff_perm_erase.1 hq.symm).2.symm
  rw [Nat.sub_self, seg_zero, List.perm_nil] at hq
  rw [checkSorted, hrun, hx, hq]

/-! ## The program -/

/-- What the program needs: pages for the list and for `temp`, and entries for both. -/
structure CanRun (c : Config) (memSize n : ℕ) : Prop where
  few : numPages (createMem c memSize) ≤ 2 ^ 32
  room : 2 * numPagesReq n ≤ numPages (createMem c memSize)
  entries : 3 ≤ c.numSymTableEntries
  size : (n : ℤ) ≤ intMax

/-- The state in which the list is created. -/
def started (c : Config) (memSize : ℕ) : State := deeper (createMem c memSize)

/-- The state after it. The list has entry 0. -/
def withList (c : Config) (memSize n : ℕ) : State :=
  created (started c memSize) (numPagesReq n) n "list1"

variable {memSize : ℕ}

theorem CanRun.canCreate (h : CanRun c memSize n) : CanCreate (started c memSize) n "list1" where
  entry := by
    have := h.entries
    show c.numSymTableEntries ≠ 0
    omega
  fresh := rfl
  room := by
    have := h.room
    show numPagesReq n ≤ numPages (createMem c memSize)
    omega

theorem CanRun.sound_started (h : CanRun c memSize n) : Sound c (started c memSize) :=
  (sound_init memSize h.few).same (same_deeper _)

theorem CanRun.vec (h : CanRun c memSize n) :
    ((started c memSize).symTable.entries (started c memSize).symTable.firstFreeEntry).listPages.isSome :=
  first_isSome h.sound_started.table (Nat.le_of_succ_le h.entries)

theorem CanRun.createList (h : CanRun c memSize n) : ∃ r,
    Malloc.createList c (started c memSize) n "list1" = some (withList c memSize n, r) :=
  createList_some h.canCreate (h.canCreate.enough h.sound_started.pages)
    (h.sound_started.table.first h.canCreate.entry).1 h.vec

theorem CanRun.lt (h : CanRun c memSize n) : n < 2 ^ 31 := by
  have := h.size
  unfold intMax at this
  omega

theorem CanRun.sound (h : CanRun c memSize n) : Sound c (withList c memSize n) :=
  h.sound_started.created h.canCreate (by have := h.lt; omega)

theorem CanRun.find (h : CanRun c memSize n) :
    Lib.find (withList c memSize n).listMap (0, "list1") = some 0 := by
  unfold withList
  rw [find_created h.sound_started h.canCreate]
  exact find_cons_self ..

theorem capacity_withList (c : Config) (memSize n : ℕ) :
    ((withList c memSize n).symTable.entries 0).capacity = n := by
  unfold withList created
  simp only [started, deeper, createMem, SymTable.init, Function.update_self]

/-- **The list can be sorted** once its values are assigned. -/
theorem CanRun.canSort {out : List ℤ} (h : CanRun c memSize n)
    (hw : Writes (withList c memSize n) t 0 0 out) : CanSort c t "list1" 0 0 n where
  sound := h.sound.same hw.same
  hygiene p hp := by
    rw [hw.same.listMap] at hp
    rw [hw.scope]
    -- the one list is in the current scope
    have hperm : (withList c memSize n).listMap.Perm [(((started c memSize).currScope, "list1"), 0)] :=
      insert_perm h.canCreate.fresh
    rw [List.mem_singleton.1 (hperm.mem_iff.1 hp)]
    exact le_rfl
  list := by rw [hw.same.listMap]; exact h.find
  name := by decide
  fits := by rw [hw.same.cap, capacity_withList, Nat.zero_add]
  startLt := by norm_num
  lt := by have := h.lt; omega
  temp _ := by
    have hentries : t.symTable.numFreeEntries = c.numSymTableEntries - 1 := hw.same.numFree
    have hpages : t.mem.numFreePages = numPages (createMem c memSize) - numPagesReq n := hw.same.numPages
    have h3 := h.entries
    have hroom := h.room
    refine ⟨by omega, first_isSome (h.sound.same hw.same).table (by omega), by omega⟩
  depth := by
    have hclog : Nat.clog 2 n ≤ 31 := Nat.clog_le_of_le_pow h.lt.le
    have hscope : t.currScope = 0 := hw.scope
    rw [hscope]
    unfold intMax
    omega

theorem pagesOf_withList (h : CanRun c memSize n) :
    ((pagesOf (withList c memSize n) 0).length : ℤ) ≤ intMax := by
  have hpages : pagesOf (withList c memSize n) 0 =
      ((started c memSize).mem.freeList.take (numPagesReq n)).map toULong :=
    pagesOf_created (started c memSize) (numPagesReq n) n "list1"
  have hlt := h.lt
  rw [hpages, List.length_map, List.length_take, numPagesReq_eq (by omega)]
  unfold intMax
  omega

/-- The end of the program gives everything back. -/
theorem CanRun.ends {out : List ℤ} (h : CanRun c memSize n)
    (hw : Writes (withList c memSize n) t 0 0 out) (hs : Sorts c t u 0 0 n) :
    ∃ v w, freeList u "list1" = some v ∧ endScope v = some w ∧ Back (createMem c memSize) w := by
  have hB : Back (withList c memSize n) u := (hw.same.back hw.scope).trans hs.back
  have hlive : 0 ∈ live (withList c memSize n) := find_live h.find
  have hscope : u.currScope = 0 := hB.scope
  have hfind : Lib.find u.listMap (u.currScope, "list1") = some 0 := by
    rw [hscope, hB.listMap]; exact h.find
  have hfree := freeList_some hfind (hs.sound.table.vec 0 (find_live hfind))
    (by rw [hB.pagesOf hlive]; exact pagesOf_withList h)
  have hback := hB.freed h.sound_started.table h.sound_started.pages h.canCreate h.vec
  rw [hscope] at hfree
  have hlists : (freed u (0, "list1") 0).listMap = [] := hback.listMap
  have hend : endScope (freed u (0, "list1") 0) =
      some { freed u (0, "list1") 0 with currScope := u.currScope - 1 } :=
    endScope_empty (by rw [hlists]; nofun) (by show intMin < u.currScope; rw [hscope]; decide)
  rw [hscope] at hend
  exact ⟨_, _, hfree, hend, hback.ended⟩

/-- **The program sorts.** For all values of `rand`, the program writes the random values to
`unsort.txt`, finds the list sorted, and writes the sorted values to `sort.txt`, which the script finds
sorted too. It leaves no list and has all pages free again. -/
theorem program_sorts (h : CanRun c memSize n) (rand : ℕ → ℕ) (ξ : Uninit) (ζ : ℕ → ℕ → ℤ) :
    ∃ sorted t, program c memSize n rand ξ ζ = some (⟨randomValues rand n, some sorted⟩, t) ∧
      sorted.Pairwise (· ≤ ·) ∧ sorted.Perm (randomValues rand n) ∧
      Scripts.checkIfSorted (sorted.map Scripts.decimalText) = "Sorted" ∧
      Back (createMem c memSize) t := by
  obtain ⟨r, hcreate⟩ := h.createList
  have hcap := capacity_withList c memSize n
  have hresolve : resolve (withList c memSize n) "list1" = some 0 := by
    unfold resolve
    rw [show (withList c memSize n).currScope = 0 from rfl, h.find]
  obtain ⟨t, pq, hfill, hw, hpq⟩ := assignRandom_spec rand h.sound hresolve hcap.ge
  have hsort := h.canSort hw
  have hunsort := writeFile_spec (ζ 0) hsort.sound ((hw.resolve "list1").trans hresolve)
    (n := n) (by rw [hw.same.cap, hcap])
  have hvalues : seg t 0 0 n = randomValues rand n := by
    have hseg := hw.seg
    rwa [length_randomValues] at hseg
  obtain ⟨u, hrun, hs⟩ := mergeSort_spec ξ hsort
  have hresolve' : resolve u "list1" = some 0 := by
    rw [← hresolve, ← hw.resolve]
    unfold resolve
    rw [hs.back.listMap, hs.back.scope]
  have hcap' : n ≤ (u.symTable.entries 0).capacity := by
    rw [hs.back.cap 0 hsort.live, hw.same.cap, hcap]
  have hperm : (seg u 0 0 n).Perm (randomValues rand n) := hvalues ▸ hs.perm
  have hsorted : (seg u 0 0 n).Pairwise (· ≤ ·) := hs.sorted (by have := h.lt; omega)
  have hcheck := checkSorted_spec (ζ 1) hs.sound hresolve' hcap' (hpq.trans hperm.symm) hsorted
  have hwrite := writeFile_spec (ζ 2) hs.sound hresolve' hcap'
  obtain ⟨v, w, hfree, hend, hback⟩ := h.ends hw hs
  refine ⟨seg u 0 0 n, w, ?_, hsorted, hperm, (Scripts.checkIfSorted_iff fun z hz => ?_).2 hsorted,
    hback⟩
  · have hinit : initScope (createMem c memSize) = some (started c memSize) :=
      initScope_deeper (show (-1 : ℤ) < intMax by decide)
    unfold program
    simp only [hinit, hcreate, hfill, hunsort, hrun, hcheck, hwrite, hfree, hend, hvalues,
      Option.bind_eq_bind, Option.bind_some]
  · have hz' := mem_randomValues (hperm.mem_iff.1 hz)
    unfold maxVal at hz'
    omega

/-- The program as it is: 250 MB, and 50000 values, here the multiples of 7919. -/
theorem program_sorts_shipped : ∃ sorted t,
    program .shipped (250 * 1024 * 1024) 50000 (7919 * ·) (fun _ _ _ _ => 0) (fun _ _ => 0) =
      some (⟨randomValues (7919 * ·) 50000, some sorted⟩, t) ∧ sorted.Pairwise (· ≤ ·) := by
  have hpages : numPages (createMem .shipped (250 * 1024 * 1024)) = 3276800 := by
    show u64 (ceilDiv (250 * 1024 * 1024) pageSize * pageSize) / pageSize = _
    rw [ceilDiv_eq_div (by norm_num) (by decide) (by decide)]
    decide
  have hreq : numPagesReq 50000 = 2500 := by rw [numPagesReq_eq (by norm_num)]
  have hcan : CanRun .shipped (250 * 1024 * 1024) 50000 :=
    ⟨by rw [hpages]; norm_num, by rw [hpages, hreq]; norm_num, by decide, by decide⟩
  obtain ⟨sorted, t, hrun, hsorted, -⟩ := program_sorts hcan (7919 * ·) (fun _ _ _ _ => 0) (fun _ _ => 0)
  exact ⟨sorted, t, hrun, hsorted⟩

end OsLab.Malloc
