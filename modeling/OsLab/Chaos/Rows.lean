import OsLab.Chaos.Flags

/-!
# The rows that the threads touch

The chaos thread draws a row from 1 to `rows` and a column from 1 to `cols`, where the matrix has the
rows 0 to `rows - 1`. An order thread that finds no row in `A` goes on with the `r` it has.

* `touched_iff`: a step is defined if and only if what it touches is there.
* `realRows_iff`: when every access of a run is to a row of the matrix, and every row processed is one
  that was taken.
-/

namespace OsLab.Chaos

open Lib

/-- An access to `M[r][j]` or to `B[r]`. -/
inductive Access where
  | cell (r : ℤ) (j : ℕ)
  | flag (r : ℤ)

/-- The row is one of the matrix, and so is the column. -/
def Access.Real (M : Grid ℤ) : Access → Prop
  | .cell r j => 0 ≤ r ∧ r < M.rows ∧ j < M.cols
  | .flag r => 0 ≤ r ∧ r < M.rows

/-- The array has such an element. -/
def Access.Inside (s : State) : Access → Prop
  | .cell r j => 0 ≤ r ∧ r < s.M.rows ∧ j < s.M.cols
  | .flag r => 0 ≤ r ∧ r < s.B.size

/-- The accesses of the region that sorts row `r`: the row is copied, sorted, and copied again. -/
def sortTouched (M : Grid ℤ) (r : ℤ) : List Access :=
  (List.range M.cols).map (.cell r) ++
    ((List.range M.cols).flatMap fun i => (List.range (M.cols - (i + 1))).flatMap fun k =>
      [.cell r i, .cell r (i + 1 + k)]) ++
    (List.range M.cols).map (.cell r)

/-- What a thread touches of `M` and `B` in its next step, defined or not. Nothing, if the step is not
the next one of its thread. -/
def touched (s : State) : Action → List Access
  | .chaosWrite x y _ =>
    match s.chaos with
    | .draw (_ + 1) => [.cell (draw x s.M.rows) (draw y s.M.cols)]
    | _ => []
  | .chaosEnter =>
    match s.chaos with
    | .enter _ randR => [.flag randR]
    | _ => []
  | .orderTake i r0 =>
    match s.orders.at i with
    | some (.take (_ + 1)) => [.flag (takenRow s.A r0)]
    | _ => []
  | .orderSort i =>
    match s.orders.at i with
    | some (.sort _ r) => sortTouched s.M r
    | _ => []

/-- The step is the next one of its thread. -/
def Ready (s : State) : Action → Prop
  | .chaosWrite _ _ _ => ∃ itr, s.chaos = .draw (itr + 1)
  | .chaosEnter => ∃ itr randR, s.chaos = .enter itr randR
  | .orderTake i _ => ∃ itr, s.orders.at i = some (.take (itr + 1))
  | .orderSort i => ∃ itr r, s.orders.at i = some (.sort itr r)

/-- The row that the loop takes from `A`, if it finds one. -/
def found (A : Vec ℤ) : Option ℤ := (firstSlot A (0 ≤ ·)).bind A.at

/-- What each order thread has taken from `A` in its last round. -/
def noteTaken (s : State) (a : Action) (_ : State) (taken : ℕ → Option ℤ) : ℕ → Option ℤ :=
  match a with
  | .orderTake i _ => Function.update taken i (found s.A)
  | _ => taken

/-- The row that an order thread processes in its next step, which sets its flag or sorts it, is the one
that it has just taken. -/
def ProcessesTaken (s : State) (taken : ℕ → Option ℤ) : Action → Prop
  | .orderTake i r0 =>
    ∀ itr, s.orders.at i = some (.take (itr + 1)) → found s.A = some (takenRow s.A r0)
  | .orderSort i => ∀ itr r, s.orders.at i = some (.sort itr r) → taken i = some r
  | _ => True

/-- A step touches real rows and columns only, and processes a row that was taken. -/
structure RealRows (x : State × (ℕ → Option ℤ)) (a : Action) : Prop where
  real : ∀ y ∈ touched x.1 a, y.Real x.1.M
  taken : ProcessesTaken x.1 x.2 a

/-- No number drawn has the largest remainder, and an order thread takes when there is a row in `A`. -/
def keepsRows (s : State) : Action → Bool
  | .chaosWrite x y _ =>
    match s.chaos with
    | .draw (_ + 1) => x % s.M.rows + 1 ≠ s.M.rows && y % s.M.cols + 1 ≠ s.M.cols
    | _ => true
  | .orderTake i _ =>
    match s.orders.at i with
    | some (.take (_ + 1)) => (firstSlot s.A (0 ≤ ·)).isSome
    | _ => true
  | _ => true

/-- What holds in a run that keeps to real rows. -/
structure RowsInv (M : Grid ℤ) (s : State) (taken : ℕ → Option ℤ) : Prop where
  rows : s.M.rows = M.rows
  cols : s.M.cols = M.cols
  entries : ∀ k r, s.A.at k = some r → r < M.rows
  written : ∀ itr r, s.chaos = .enter itr r → r < M.rows
  sorting : ∀ i itr r, s.orders.at i = some (.sort itr r) → taken i = some r ∧ 0 ≤ r ∧ r < M.rows

section

variable {s t : State} {M M' : Grid ℤ} {A : Vec ℤ} {taken : ℕ → Option ℤ} {r r0 : ℤ} {i j n : ℕ}

/-! ## What is touched -/

theorem mem_sortTouched {y : Access} : y ∈ sortTouched M r ↔ ∃ j, j < M.cols ∧ y = .cell r j := by
  simp only [sortTouched, List.mem_append, List.mem_map, List.mem_flatMap, List.mem_range,
    List.mem_cons, List.not_mem_nil, or_false]
  constructor
  · rintro ((⟨j, hj, rfl⟩ | ⟨i, hi, k, hk, rfl | rfl⟩) | ⟨j, hj, rfl⟩)
    · exact ⟨j, hj, rfl⟩
    · exact ⟨i, hi, rfl⟩
    · exact ⟨i + 1 + k, by omega, rfl⟩
    · exact ⟨j, hj, rfl⟩
  · intro h
    obtain ⟨j, hj, rfl⟩ := h
    exact .inr ⟨j, hj, rfl⟩

theorem found_some (r0 : ℤ) (h : found A = some r) :
    0 ≤ r ∧ takenRow A r0 = r ∧ ∃ k, A.at k = some r := by
  obtain ⟨k, hk, hr⟩ := Option.bind_eq_some_iff.1 h
  obtain ⟨-, x, hx, hpos⟩ := firstSlot_some hk
  rw [hr] at hx
  cases hx
  refine ⟨of_decide_eq_true hpos, ?_, k, hr⟩
  have htaken : takenRow A r0 = (found A).getD r0 := rfl
  rw [htaken, h, Option.getD_some]

theorem found_isSome : (found A).isSome = (firstSlot A (0 ≤ ·)).isSome := by
  cases h : firstSlot A (0 ≤ ·) with
  | none =>
    unfold found
    rw [h]
    rfl
  | some k =>
    obtain ⟨-, x, hx, -⟩ := firstSlot_some h
    unfold found
    rw [h, Option.bind_some, hx]
    rfl

/-! ## The regions are defined -/

theorem announce_defined (A : Vec ℤ) (r : ℤ) : ∃ A', announce A r = some A' := by
  unfold announce
  cases h : firstSlot A (· = -1) with
  | none => exact ⟨A, rfl⟩
  | some i =>
    obtain ⟨-, x, hx, -⟩ := firstSlot_some h
    exact ⟨_, Vec.set_eq (Vec.at_eq_some.1 hx).1 r⟩

theorem take_defined (A : Vec ℤ) (r0 : ℤ) : ∃ y, take A r0 = some y := by
  unfold take
  cases h : firstSlot A (0 ≤ ·) with
  | none => exact ⟨_, rfl⟩
  | some i =>
    obtain ⟨-, x, hx, -⟩ := firstSlot_some h
    simp only [hx, Vec.set_eq (Vec.at_eq_some.1 hx).1, Option.bind_eq_bind, Option.bind_some]
    exact ⟨_, rfl⟩

theorem setFlag_defined {B : Vec ℤ} {x : ℤ} : (∃ B', setFlag B r x = some B') ↔ 0 ≤ r ∧ r < B.size := by
  constructor
  · intro h
    obtain ⟨B', hB⟩ := h
    obtain ⟨hr, hlt, -⟩ := setFlag_some hB
    exact ⟨hr, by omega⟩
  · intro h
    exact ⟨_, (if_pos h.1).trans (Vec.set_eq (by omega) x)⟩

theorem cell_eq (hr : 0 ≤ r) (hlt : r < M.rows) (hi : i < M.cols) :
    cell M r i = some (M.val r.toNat i) := (if_pos hr).trans (Grid.at_eq (by omega) hi)

theorem setCell_eq (hr : 0 ≤ r) (hlt : r < M.rows) (hi : i < M.cols) (x : ℤ) :
    setCell M r i x = some (M.put r.toNat i x) := (if_pos hr).trans (Grid.set_eq (by omega) hi x)

theorem compareCells_defined (hr : 0 ≤ r) (hlt : r < M.rows) (hi : i < M.cols) (hj : j < M.cols) :
    ∃ M', compareCells r M i j = some M' ∧ M'.rows = M.rows ∧ M'.cols = M.cols := by
  unfold compareCells
  simp only [cell_eq hr hlt hi, cell_eq hr hlt hj, Option.bind_eq_bind, Option.bind_some]
  split_ifs
  · rw [setCell_eq hr hlt hi, Option.bind_some, setCell_eq hr (by exact hlt) (by exact hj)]
    exact ⟨_, rfl, rfl, rfl⟩
  · exact ⟨M, rfl, rfl, rfl⟩

/-- The row that a loop over the columns needs. -/
def HasRow (M : Grid ℤ) (r : ℤ) : Prop := ∀ j, j < M.cols → 0 ≤ r ∧ r < M.rows

theorem copyRow_defined : (∃ arr, copyRow M r = some arr) ↔ HasRow M r := by
  constructor
  · intro h j hj
    obtain ⟨arr, h⟩ := h
    obtain ⟨_, _, -, hcell⟩ := forRange_pass h hj
    obtain ⟨x, hx, -⟩ := Option.map_eq_some_iff.1 hcell
    obtain ⟨hr, hlt, -, -⟩ := cell_some hx
    exact ⟨hr, by omega⟩
  · intro h
    have hpass : ∀ i (arr : List ℤ), i < M.cols → True →
        ∃ arr', (cell M r i).map (fun x => arr ++ [x]) = some arr' ∧ True := by
      intro i arr hi _
      obtain ⟨hr, hlt⟩ := h i hi
      exact ⟨_, by rw [cell_eq hr hlt hi]; rfl, trivial⟩
    obtain ⟨arr, harr, -⟩ := forRange_spec (P := fun _ _ => True) (s := []) trivial hpass
    exact ⟨arr, harr⟩

theorem sortRow_defined (h : HasRow M r) :
    ∃ M', sortRow M r = some M' ∧ M'.rows = M.rows ∧ M'.cols = M.cols := by
  refine forRange_spec (P := fun _ (t : Grid ℤ) => t.rows = M.rows ∧ t.cols = M.cols) ⟨rfl, rfl⟩ ?_
  intro i t hi ht
  obtain ⟨hr, hlt⟩ := h i hi
  refine forRange_spec (P := fun _ (u : Grid ℤ) => u.rows = M.rows ∧ u.cols = M.cols) ht ?_
  intro k u hk hu
  rw [ht.2] at hk
  obtain ⟨M', hM, hrows, hcols⟩ := compareCells_defined (M := u) (i := i) (j := i + 1 + k) hr
    (by rw [hu.1]; exact hlt) (by omega) (by omega)
  exact ⟨M', hM, hrows.trans hu.1, hcols.trans hu.2⟩

theorem sortRegion_defined : (∃ y, sortRegion M r = some y) ↔ HasRow M r := by
  constructor
  · intro h
    obtain ⟨y, h⟩ := h
    obtain ⟨arr, harr, -⟩ := Option.bind_eq_some_iff.1 h
    exact copyRow_defined.1 ⟨arr, harr⟩
  · intro h
    obtain ⟨arr, harr⟩ := copyRow_defined.2 h
    obtain ⟨M', hM, hrows, hcols⟩ := sortRow_defined h
    obtain ⟨arr1, harr1⟩ : ∃ arr1, copyRow M' r = some arr1 := by
      refine copyRow_defined.2 fun j hj => ?_
      rw [hrows]
      exact h j (hcols ▸ hj)
    refine ⟨⟨M', arr, arr1⟩, ?_⟩
    simp only [sortRegion, harr, hM, harr1, Option.bind_eq_bind, Option.bind_some]

/-! ## What a step touches -/

theorem touched_write {x y z itr : ℕ} (h : s.chaos = .draw (itr + 1)) :
    touched s (.chaosWrite x y z) = [.cell (draw x s.M.rows) (draw y s.M.cols)] := by
  simp only [touched, h]

theorem touched_enter {itr randR : ℕ} (h : s.chaos = .enter itr randR) :
    touched s .chaosEnter = [.flag randR] := by
  simp only [touched, h]

theorem touched_take {itr : ℕ} (h : s.orders.at i = some (.take (itr + 1))) :
    touched s (.orderTake i r0) = [.flag (takenRow s.A r0)] := by
  simp only [touched, h]

theorem touched_sort {itr : ℕ} (h : s.orders.at i = some (.sort itr r)) :
    touched s (.orderSort i) = sortTouched s.M r := by
  simp only [touched, h]

theorem sortTouched_inside : (∀ y ∈ sortTouched s.M r, y.Inside s) ↔ HasRow s.M r := by
  constructor
  · intro h j hj
    obtain ⟨hr, hlt, -⟩ := h _ (mem_sortTouched.2 ⟨j, hj, rfl⟩)
    exact ⟨hr, hlt⟩
  · intro h y hy
    obtain ⟨j, hj, rfl⟩ := mem_sortTouched.1 hy
    obtain ⟨hr, hlt⟩ := h j hj
    exact ⟨hr, hlt, hj⟩

/-- A step that is defined is the next one of its thread, and what it touches is there. -/
theorem touched_of_step (a : Action) (h : step s a = some t) :
    Ready s a ∧ ∀ y ∈ touched s a, y.Inside s := by
  cases a with
  | chaosWrite x y z =>
    obtain ⟨itr, hpc, hr, hc, -⟩ := step_chaosWrite h
    rw [touched_write hpc, List.forall_mem_singleton]
    exact ⟨⟨itr, hpc⟩, by omega, by omega, hc⟩
  | chaosEnter =>
    obtain ⟨itr, randR, A, B, hpc, -, hB, -⟩ := step_chaosEnter h
    rw [touched_enter hpc, List.forall_mem_singleton]
    exact ⟨⟨itr, randR, hpc⟩, setFlag_defined.1 ⟨B, hB⟩⟩
  | orderTake i r0 =>
    obtain ⟨itr, r, A, B, orders, hpc, htake, hB, -, -⟩ := step_orderTake h
    rw [touched_take hpc, List.forall_mem_singleton, take_takenRow htake]
    exact ⟨⟨itr, hpc⟩, setFlag_defined.1 ⟨B, hB⟩⟩
  | orderSort i =>
    obtain ⟨itr, r, orders, sorted, hpc, hsorted, -, -⟩ := step_orderSort h
    rw [touched_sort hpc, sortTouched_inside]
    exact ⟨⟨itr, r, hpc⟩, sortRegion_defined.1 ⟨sorted, hsorted⟩⟩

/-- **A step is defined** if and only if it is the next one of its thread and what it touches is
there. -/
theorem touched_iff (s : State) (a : Action) :
    (∃ t, step s a = some t) ↔ Ready s a ∧ ∀ y ∈ touched s a, y.Inside s := by
  refine ⟨fun h => touched_of_step a h.choose_spec, fun h => ?_⟩
  obtain ⟨hready, h⟩ := h
  cases a with
  | chaosWrite x y z =>
    obtain ⟨itr, hpc⟩ := hready
    rw [touched_write hpc, List.forall_mem_singleton] at h
    obtain ⟨-, hr, hc⟩ := h
    simp only [step, State.chaosWrite, hpc, Grid.set_eq (Int.ofNat_lt.1 hr) hc, Option.bind_eq_bind,
      Option.bind_some]
    exact ⟨_, rfl⟩
  | chaosEnter =>
    obtain ⟨itr, randR, hpc⟩ := hready
    rw [touched_enter hpc, List.forall_mem_singleton] at h
    obtain ⟨A, hA⟩ := announce_defined s.A randR
    obtain ⟨B, hB⟩ := setFlag_defined (x := unprocessed).2 h
    simp only [step, State.chaosEnter, hpc, hA, hB, Option.bind_eq_bind, Option.bind_some]
    exact ⟨_, rfl⟩
  | orderTake i r0 =>
    obtain ⟨itr, hpc⟩ := hready
    obtain ⟨⟨r, A⟩, htake⟩ := take_defined s.A r0
    rw [touched_take hpc, List.forall_mem_singleton, take_takenRow htake] at h
    obtain ⟨B, hB⟩ := setFlag_defined (x := processed).2 h
    simp only [step, State.orderTake, hpc, htake, hB, Vec.set_eq (Vec.at_eq_some.1 hpc).1,
      Option.bind_eq_bind, Option.bind_some]
    exact ⟨_, rfl⟩
  | orderSort i =>
    obtain ⟨itr, r, hpc⟩ := hready
    rw [touched_sort hpc, sortTouched_inside] at h
    obtain ⟨sorted, hsorted⟩ := sortRegion_defined.2 h
    simp only [step, State.orderSort, hpc, hsorted, Vec.set_eq (Vec.at_eq_some.1 hpc).1,
      Option.bind_eq_bind, Option.bind_some]
    exact ⟨_, rfl⟩

/-! ## Real rows -/

/-- A step that is not the next one of its thread touches nothing. -/
theorem touched_idle {a : Action} (h : ¬ Ready s a) : touched s a = [] := by
  cases a with
  | chaosWrite x y z =>
    simp only [touched]
    split
    · next itr hpc => exact absurd ⟨itr, hpc⟩ h
    · rfl
  | chaosEnter =>
    simp only [touched]
    split
    · next itr randR hpc => exact absurd ⟨itr, randR, hpc⟩ h
    · rfl
  | orderTake i r0 =>
    simp only [touched]
    split
    · next itr hpc => exact absurd ⟨itr, hpc⟩ h
    · rfl
  | orderSort i =>
    simp only [touched]
    split
    · next itr r hpc => exact absurd ⟨itr, r, hpc⟩ h
    · rfl

theorem keepsRows_idle {a : Action} (h : ¬ Ready s a) : keepsRows s a = true := by
  cases a with
  | chaosWrite x y z =>
    simp only [keepsRows]
    split
    · next itr hpc => exact absurd ⟨itr, hpc⟩ h
    · rfl
  | chaosEnter => rfl
  | orderTake i r0 =>
    simp only [keepsRows]
    split
    · next itr hpc => exact absurd ⟨itr, hpc⟩ h
    · rfl
  | orderSort i => rfl

theorem processesTaken_idle {a : Action} (h : ¬ Ready s a) : ProcessesTaken s taken a := by
  cases a with
  | chaosWrite x y z => trivial
  | chaosEnter => trivial
  | orderTake i r0 => exact fun itr hpc => absurd ⟨itr, hpc⟩ h
  | orderSort i => exact fun itr r hpc => absurd ⟨itr, r, hpc⟩ h

/-- The number drawn is an index, unless it comes from the largest remainder. -/
theorem draw_lt {x n : ℕ} (hn : 1 ≤ n) : draw x n < n ↔ x % n + 1 ≠ n := by
  have hlt := Nat.mod_lt x hn
  unfold draw
  omega

theorem realRows_write {x y z itr : ℕ} (hrows : 1 ≤ M.rows) (hcols : 1 ≤ M.cols)
    (hI : RowsInv M s taken) (hpc : s.chaos = .draw (itr + 1)) :
    RealRows (s, taken) (.chaosWrite x y z) ↔ keepsRows s (.chaosWrite x y z) = true := by
  have hkeeps : keepsRows s (.chaosWrite x y z) = true ↔
      draw x s.M.rows < s.M.rows ∧ draw y s.M.cols < s.M.cols := by
    rw [draw_lt (by rw [hI.rows]; exact hrows), draw_lt (by rw [hI.cols]; exact hcols)]
    simp only [keepsRows, hpc, Bool.and_eq_true, decide_eq_true_eq]
  rw [hkeeps]
  constructor
  · intro h
    have hreal := h.real _ (by rw [touched_write hpc]; exact List.mem_singleton_self _)
    exact ⟨Int.ofNat_lt.1 hreal.2.1, hreal.2.2⟩
  · intro h
    refine ⟨?_, trivial⟩
    rw [touched_write hpc, List.forall_mem_singleton]
    exact ⟨Int.natCast_nonneg _, Int.ofNat_lt.2 h.1, h.2⟩

theorem realRows_take {itr : ℕ} (hI : RowsInv M s taken)
    (hpc : s.orders.at i = some (.take (itr + 1))) :
    RealRows (s, taken) (.orderTake i r0) ↔ keepsRows s (.orderTake i r0) = true := by
  have hkeeps : keepsRows s (.orderTake i r0) = (found s.A).isSome := by
    simp only [keepsRows, hpc, found_isSome]
  rw [hkeeps, Option.isSome_iff_exists]
  constructor
  · exact fun h => ⟨_, h.taken itr hpc⟩
  · intro h
    obtain ⟨r, hr⟩ := h
    obtain ⟨hpos, htaken, k, hk⟩ := found_some r0 hr
    refine ⟨?_, fun _ _ => hr.trans (congrArg some htaken.symm)⟩
    rw [touched_take hpc, List.forall_mem_singleton, htaken]
    exact ⟨hpos, by rw [hI.rows]; exact hI.entries k r hk⟩

/-- While the invariant holds, a step touches real rows exactly if its draws or its find keep to
them. -/
theorem realRows_step (hrows : 1 ≤ M.rows) (hcols : 1 ≤ M.cols) (x : State × (ℕ → Option ℤ))
    (a : Action) (hI : RowsInv M x.1 x.2) : RealRows x a ↔ keepsRows x.1 a = true := by
  by_cases hready : Ready x.1 a
  case neg =>
    refine iff_of_true ⟨?_, processesTaken_idle hready⟩ (keepsRows_idle hready)
    rw [touched_idle hready]
    exact fun y hy => absurd hy List.not_mem_nil
  cases a with
  | chaosWrite _ _ _ =>
    obtain ⟨itr, hpc⟩ := hready
    exact realRows_write hrows hcols hI hpc
  | chaosEnter =>
    obtain ⟨itr, randR, hpc⟩ := hready
    refine iff_of_true ⟨?_, trivial⟩ rfl
    rw [touched_enter hpc, List.forall_mem_singleton]
    have hlt := hI.written itr randR hpc
    rw [← hI.rows] at hlt
    exact ⟨Int.natCast_nonneg _, Int.ofNat_lt.2 hlt⟩
  | orderTake i r0 =>
    obtain ⟨itr, hpc⟩ := hready
    exact realRows_take hI hpc
  | orderSort i =>
    obtain ⟨itr, r, hpc⟩ := hready
    obtain ⟨-, hpos, hlt⟩ := hI.sorting i itr r hpc
    refine iff_of_true ⟨?_, fun itr r hpc => (hI.sorting i itr r hpc).1⟩ rfl
    rw [touched_sort hpc]
    intro y hy
    obtain ⟨j, hj, rfl⟩ := mem_sortTouched.1 hy
    exact ⟨hpos, by rw [hI.rows]; exact hlt, hj⟩

/-! ## Runs -/

theorem rowsInv_start (M : Grid ℤ) (n : ℕ) : RowsInv M (.start M n) fun _ => none where
  rows := rfl
  cols := rfl
  entries := by
    intro k r hk
    obtain ⟨-, hr⟩ := Vec.at_eq_some.1 hk
    have hr : r = -1 := hr
    omega
  written := fun _ _ h => by cases h
  sorting := by
    intro i itr r h
    obtain ⟨-, hr⟩ := Vec.at_eq_some.1 h
    cases hr

/-- The row announced is the one that was written. -/
theorem rowsInv_enter (hI : RowsInv M s taken) (h : step s .chaosEnter = some t) :
    RowsInv M t taken := by
  obtain ⟨itr, randR, A, B, hpc, hA, -, rfl⟩ := step_chaosEnter h
  refine ⟨hI.rows, hI.cols, fun k r hk => ?_, fun _ _ hpc => (by cases hpc), hI.sorting⟩
  rcases (announce_at hA).2 k r hk with rfl | hold
  · exact Int.ofNat_lt.2 (hI.written itr randR hpc)
  · exact hI.entries k r hold

/-- The row to sort is an entry of `A`, since there was one. -/
theorem rowsInv_take (hI : RowsInv M s taken) (hC : keepsRows s (.orderTake i r0) = true)
    (h : step s (.orderTake i r0) = some t) :
    RowsInv M t (Function.update taken i (found s.A)) := by
  obtain ⟨itr, r, A, B, orders, hpc, htake, -, hset, rfl⟩ := step_orderTake h
  obtain ⟨-, hself, hother⟩ := Vec.set_at hset
  obtain ⟨r', hr'⟩ : ∃ r', found s.A = some r' := by
    rw [← Option.isSome_iff_exists, found_isSome]
    simpa only [keepsRows, hpc] using hC
  obtain ⟨hpos, htaken, k, hk⟩ := found_some r0 hr'
  obtain rfl : r' = r := htaken.symm.trans (take_takenRow htake)
  refine ⟨hI.rows, hI.cols, fun k x hk => ?_, hI.written, fun j itr' x hj => ?_⟩
  · rcases (take_at htake).2 k x hk with rfl | hold
    · omega
    · exact hI.entries k x hold
  · by_cases hji : j = i
    · rw [hji, hself] at hj
      cases hj
      refine ⟨?_, hpos, hI.entries k _ hk⟩
      rw [hji, Function.update_self, hr']
    · rw [Function.update_of_ne hji]
      exact hI.sorting j itr' x ((hother j hji).symm.trans hj)

theorem rowsInv_sort (hI : RowsInv M s taken) (h : step s (.orderSort i) = some t) :
    RowsInv M t taken := by
  obtain ⟨itr, r, orders, sorted, -, hsorted, hset, rfl⟩ := step_orderSort h
  have hsorts := sortRegion_sortsRow hsorted
  obtain ⟨-, hself, hother⟩ := Vec.set_at hset
  refine ⟨hsorts.rows.trans hI.rows, hsorts.cols.trans hI.cols, hI.entries, hI.written, ?_⟩
  intro j itr' x hj
  by_cases hji : j = i
  · rw [hji, hself] at hj
    cases hj
  · exact hI.sorting j itr' x ((hother j hji).symm.trans hj)

theorem rowsInv_step (x : State × (ℕ → Option ℤ)) (a : Action) (y : State × (ℕ → Option ℤ))
    (hI : RowsInv M x.1 x.2) (hC : keepsRows x.1 a = true)
    (h : record step noteTaken x a = some y) : RowsInv M y.1 y.2 := by
  obtain ⟨t, ht, rfl⟩ := Option.map_eq_some_iff.1 h
  cases a with
  | chaosWrite _ _ _ =>
    obtain ⟨itr, -, hr, -, rfl⟩ := step_chaosWrite ht
    refine ⟨hI.rows, hI.cols, hI.entries, fun itr r hpc => ?_, hI.sorting⟩
    cases hpc
    rw [← hI.rows]
    exact hr
  | chaosEnter => exact rowsInv_enter hI ht
  | orderTake i r0 => exact rowsInv_take hI hC ht
  | orderSort i => exact rowsInv_sort hI ht

/-- **Only real rows are touched**, and only rows that were taken are processed, in every step of a run,
if and only if no draw has the largest remainder and each order thread that takes finds a row. -/
theorem realRows_iff (M : Grid ℤ) (n : ℕ) (actions : List Action) (hrows : 1 ≤ M.rows)
    (hcols : 1 ≤ M.cols) :
    Called (record step noteTaken) RealRows (.start M n, fun _ => none) actions ↔
      Called step (fun s a => keepsRows s a = true) (.start M n) actions := by
  rw [called_iff (I := fun x : State × (ℕ → Option ℤ) => RowsInv M x.1 x.2)
    (realRows_step hrows hcols) rowsInv_step (rowsInv_start M n)]
  exact called_record (C := fun s a => keepsRows s a = true) _

/-- The chaos thread draws the smallest numbers, and the order thread comes after it. -/
theorem realRows_twoRows : Called (record step noteTaken) RealRows (.start twoRows 1, fun _ => none)
    [.chaosWrite 0 0 0, .chaosEnter, .orderTake 0 0, .orderSort 0] :=
  (realRows_iff twoRows 1 _ (by decide) (by decide)).2 (by decide +kernel)

end

/-- **Rows that are not real**: the chaos thread draws the largest remainder, and writes to the row 2 of
a matrix with two rows; or an order thread finds no row, and processes the one that its `r` happens to
be. -/
theorem unreal_rows :
    ¬ Called (record step noteTaken) RealRows (.start twoRows 3, fun _ => none) [.chaosWrite 1 0 0] ∧
      ¬ Called (record step noteTaken) RealRows (.start twoRows 3, fun _ => none) [.orderTake 0 7] := by
  constructor
  · intro h
    have hreal := h.1.real (.cell 2 1) List.mem_cons_self
    exact absurd hreal.2.1 (by decide)
  · intro h
    have htaken := h.1.taken 29 rfl
    have hnone : found (Vec.replicate 1000 (-1)) = none := by decide +kernel
    cases hnone.symm.trans htaken

end OsLab.Chaos
