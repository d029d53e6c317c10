import OsLab.Chaos.Progress

/-!
# The statements and the regions of `problem3.cpp`

The model of `Chaos.Model` takes a region in one step. Whatever the statements of the threads reach, in
any order, is a state of that model but for the regions that are still open, and every state of the
model is reached by statements.

* `reached_shows`: from the statements to the model.
* `step_reaches`: a step of the model, statement by statement.
* `statements_refine`: both.
-/

namespace OsLab.Chaos.Statements

open Lib

variable {rows cols n : ℕ}

/-! ## The states of the model -/

/-- Where the region began that the chaos thread is in. -/
def ChaosPoint.place : ChaosPoint → ChaosPc
  | .draw itr => .draw itr
  | .matLock itr .. | .write itr .. | .matUnlock itr _ => .draw (itr + 1)
  | .aLock itr r | .aTest itr r _ | .aSet itr r _ | .bLock itr r | .bSet itr r | .bUnlock itr r
  | .aUnlock itr r => .enter itr r

def OrderPoint.place : OrderPoint → OrderPc
  | .loop itr => .take itr
  | .aLock itr _ | .aTest itr .. | .aRead itr .. | .aClear itr .. | .bLock itr _ | .bSet itr _
  | .bUnlock itr _ | .aUnlock itr _ => .take (itr + 1)
  | .matLock itr r | .copy itr r .. | .test itr r .. | .temp itr r .. | .move itr r .. | .put itr r ..
  | .copy1 itr r .. | .matUnlock itr r .. => .sort itr r

def Point.chaosPc : Point → ChaosPc
  | .chaos p => p.place
  | .order _ => .draw 0

def Point.orderPc : Point → OrderPc
  | .chaos _ => .take 0
  | .order p => p.place

def Point.SamePlace (p q : Point) : Prop := p.chaosPc = q.chaosPc ∧ p.orderPc = q.orderPc

theorem outside_place {t : Thread} {p q : Point} (h : Outside n t p q) : p.SamePlace q := by
  cases h with
  | chaos h => cases h <;> exact ⟨rfl, rfl⟩
  | order _ h => cases h <;> exact ⟨rfl, rfl⟩

theorem body_place {m : Mutex} {t : Thread} {a b : Part m × Point}
    (h : (code rows cols n).Body m t a b) : a.2.SamePlace b.2 := by
  obtain ⟨h, hop⟩ := h
  cases h with
  | chaosMat h =>
    cases h with
    | matUnlock => exact absurd rfl hop
    | _ => exact ⟨rfl, rfl⟩
  | chaosArrays h =>
    cases h with
    | aUnlock => exact absurd rfl hop
    | _ => exact ⟨rfl, rfl⟩
  | orderMat _ h =>
    cases h with
    | matUnlock => exact absurd rfl hop
    | _ => exact ⟨rfl, rfl⟩
  | orderArrays _ h =>
    cases h with
    | aUnlock => exact absurd rfl hop
    | _ => exact ⟨rfl, rfl⟩

/-- The threads with their data, as a state of the model with `n` order threads. -/
def view (n : ℕ) (pc : Thread → Point) (d : ∀ m, Part m) : State where
  M := d .mat
  A := (d .a).1
  B := (d .a).2
  chaos := (pc .chaos).chaosPc
  orders := ⟨n, fun i => (pc (.order i)).orderPc⟩

section

variable {pc : Thread → Point} {d : ∀ m, Part m}

theorem view_chaos (q : Point) :
    view n (Function.update pc .chaos q) d = { view n pc d with chaos := q.chaosPc } := rfl

theorem view_order (i : ℕ) (q : Point) :
    view n (Function.update pc (.order i) q) d =
      { view n pc d with
        orders := ⟨n, Function.update (fun i => (pc (.order i)).orderPc) i q.orderPc⟩ } := by
  have horders : (fun j => (Function.update pc (.order i) q (.order j)).orderPc) =
      Function.update (fun j => (pc (.order j)).orderPc) i q.orderPc := by
    funext j
    by_cases hj : j = i
    · subst hj
      rw [Function.update_self, Function.update_self]
    · rw [Function.update_of_ne hj, Function.update_of_ne fun h => hj (Thread.order.inj h)]
  exact congrArg (fun o => { view n pc d with orders := ⟨n, o⟩ }) horders

end

/-! ## From the statements to the model -/

section

variable {s : State}

theorem step_chaosWrite_eq {itr x y z : ℕ} {M : Grid ℤ} (h : s.chaos = .draw (itr + 1))
    (hM : s.M.set (draw x s.M.rows) (draw y s.M.cols) (draw z 1000) = some M) :
    step s (.chaosWrite x y z) = some { s with M := M, chaos := .enter itr (draw x s.M.rows) } := by
  simp [step, State.chaosWrite, h, hM]

theorem step_chaosEnter_eq {itr r : ℕ} {A B : Vec ℤ} (h : s.chaos = .enter itr r)
    (hA : announce s.A r = some A) (hB : setFlag s.B r unprocessed = some B) :
    step s .chaosEnter = some { s with A := A, B := B, chaos := .draw itr } := by
  simp [step, State.chaosEnter, h, hA, hB]

theorem step_orderTake_eq {i itr : ℕ} {r0 r : ℤ} {A B : Vec ℤ} {orders : Vec OrderPc}
    (h : s.orders.at i = some (.take (itr + 1))) (hA : take s.A r0 = some (r, A))
    (hB : setFlag s.B r processed = some B) (ho : s.orders.set i (.sort itr r) = some orders) :
    step s (.orderTake i r0) = some { s with A := A, B := B, orders := orders } := by
  simp [step, State.orderTake, h, hA, hB, ho]

theorem step_orderSort_eq {i itr : ℕ} {r : ℤ} {y : SortedRow} {orders : Vec OrderPc}
    (h : s.orders.at i = some (.sort itr r)) (hM : sortRegion s.M r = some y)
    (ho : s.orders.set i (.take itr) = some orders) :
    step s (.orderSort i) = some { s with M := y.M, orders := orders } := by
  simp [step, State.orderSort, h, hM, ho]

end

/-- Outside the regions the threads stay where they are. -/
theorem outside_view {pc : Thread → Point} {d : ∀ m, Part m} {t : Thread} {q : Point}
    (h : Outside n t (pc t) q) : view n (Function.update pc t q) d = view n pc d := by
  have hplace := outside_place h
  cases t with
  | chaos =>
    rw [view_chaos, ← hplace.1]
    rfl
  | order i =>
    rw [view_order, ← hplace.2, Function.update_eq_self i fun i => (pc (.order i)).orderPc]
    rfl

/-- **One region** is a step of the model. -/
theorem atomic_view {a a' : (Thread → Point) × (∀ m, Part m)} {t : Thread}
    (hrows : (a.2 .mat).rows = rows) (hcols : (a.2 .mat).cols = cols)
    (h : (code rows cols n).Atomic a t a') :
    view n a'.1 a'.2 = view n a.1 a.2 ∨
      ∃ act, step (view n a.1 a.2) act = some (view n a'.1 a'.2) := by
  cases h with
  | outside _ _ h => exact .inl (outside_view h)
  | @region m p x p' y q _ hop henter hbody hop' hleave =>
    right
    obtain ⟨pc, d⟩ := a
    dsimp only at *
    cases m with
    | mat =>
      rcases mat_region hcols henter hop hbody hop' hleave with
        ⟨itr, x, y, z, rfl, hp, hset, rfl⟩ | ⟨i, itr, r, arr, arr1, rfl, hi, hp, hsort, rfl⟩
      · subst hrows hcols
        exact ⟨.chaosWrite x y z, step_chaosWrite_eq (congrArg Point.chaosPc hp) hset⟩
      · have hat : (view n pc d).orders.at i = some (.sort itr r) :=
          (Vec.at_eq hi).trans (congrArg (fun p => some p.orderPc) hp)
        refine ⟨.orderSort i, ?_⟩
        rw [view_order]
        exact step_orderSort_eq hat hsort (Vec.set_eq (v := (view n pc d).orders) hi _)
    | a =>
      rcases arrays_region henter hop hbody hop' hleave with
        ⟨itr, r, rfl, hp, hA, hB, rfl⟩ | ⟨i, itr, r0, r, rfl, hi, hp, hA, hB, rfl⟩
      · exact ⟨.chaosEnter, step_chaosEnter_eq (congrArg Point.chaosPc hp) hA hB⟩
      · have hat : (view n pc d).orders.at i = some (.take (itr + 1)) :=
          (Vec.at_eq hi).trans (congrArg (fun p => some p.orderPc) hp)
        refine ⟨.orderTake i r0, ?_⟩
        rw [view_order]
        exact step_orderTake_eq hat hA hB (Vec.set_eq (v := (view n pc d).orders) hi _)
    | b => cases hleave

/-- The sizes of the arrays, which no step changes. -/
structure SizesOf (M : Grid ℤ) (n : ℕ) (s : State) : Prop where
  rows : s.M.rows = M.rows
  cols : s.M.cols = M.cols
  slots : s.A.size = 1000
  orders : s.orders.size = n

theorem sizes_start (M : Grid ℤ) (n : ℕ) : SizesOf M n (.start M n) := ⟨rfl, rfl, rfl, rfl⟩

theorem sizes_step {M : Grid ℤ} (s : State) (act : Action) (t : State) (hs : SizesOf M n s)
    (h : step s act = some t) : SizesOf M n t := by
  cases act with
  | chaosWrite x y z =>
    obtain ⟨itr, -, -, -, rfl⟩ := step_chaosWrite h
    exact ⟨hs.rows, hs.cols, hs.slots, hs.orders⟩
  | chaosEnter =>
    obtain ⟨itr, r, A, B, -, hA, -, rfl⟩ := step_chaosEnter h
    exact ⟨hs.rows, hs.cols, (announce_at hA).1.trans hs.slots, hs.orders⟩
  | orderTake i r0 =>
    obtain ⟨itr, r, A, B, orders, -, hA, -, ho, rfl⟩ := step_orderTake h
    exact ⟨hs.rows, hs.cols, (take_at hA).1.trans hs.slots, (Vec.set_at ho).1.trans hs.orders⟩
  | orderSort i =>
    obtain ⟨itr, r, orders, y, -, hM, ho, rfl⟩ := step_orderSort h
    have hy := (sortRegion_some hM).1
    exact ⟨(congrArg Grid.rows hy).trans hs.rows, (congrArg Grid.cols hy).trans hs.cols, hs.slots,
      (Vec.set_at ho).1.trans hs.orders⟩

/-- Region by region, the threads run as the model does. -/
theorem atomic_run {M : Grid ℤ} {a : (Thread → Point) × (∀ m, Part m)}
    (h : Reaches (code M.rows M.cols n).Atomic ((start M).pc, (start M).data) a) :
    ∃ acts, run step (.start M n) acts = some (view n a.1 a.2) := by
  refine reaches_inv (I := fun a => ∃ acts, run step (.start M n) acts = some (view n a.1 a.2))
    (fun a t a' hI hst => ?_) ⟨[], rfl⟩ h
  obtain ⟨acts, hrun⟩ := hI
  have hsizes : SizesOf M n (view n a.1 a.2) := run_inv' sizes_step (sizes_start M n) hrun
  rcases atomic_view hsizes.rows hsizes.cols hst with heq | ⟨act, hact⟩
  · exact ⟨acts, by rw [heq]; exact hrun⟩
  · exact ⟨acts ++ [act], run_append_eq_some.2 ⟨_, hrun, run_cons_eq_some.2 ⟨_, hact, rfl⟩⟩⟩

/-- The state of the model has the places of the threads, and what the closed regions have left. -/
structure Shows (n : ℕ) (s : Locked Thread Mutex Point (∀ m, Part m)) (t : State) : Prop where
  chaos : t.chaos = (s.pc .chaos).chaosPc
  orders : t.orders = ⟨n, fun i => (s.pc (.order i)).orderPc⟩
  mat : (∀ u, (s.pc u).region ≠ some .mat) → t.M = s.data .mat
  arrays : (∀ u, (s.pc u).region ≠ some .a) → (t.A, t.B) = s.data .a

theorem behind_place {a : (Thread → Point) × (∀ m, Part m)}
    {s : Locked Thread Mutex Point (∀ m, Part m)} (hb : (code rows cols n).Behind a s) (t : Thread) :
    (a.1 t).SamePlace (s.pc t) := by
  cases hregion : (s.pc t).region with
  | none => exact (hb.closed t hregion) ▸ ⟨rfl, rfl⟩
  | some m =>
    obtain ⟨-, -, p₀, henter, hbody⟩ := hb.opened t m hregion
    have hplace := outside_place henter
    exact body_done (D := fun b => (a.1 t).SamePlace b.2)
      (fun b c hb hc => ⟨hb.1.trans (body_place hc).1, hb.2.trans (body_place hc).2⟩) hplace hbody

theorem behind_shows {a : (Thread → Point) × (∀ m, Part m)}
    {s : Locked Thread Mutex Point (∀ m, Part m)} (hb : (code rows cols n).Behind a s) :
    Shows n s (view n a.1 a.2) where
  chaos := (behind_place hb .chaos).1
  orders := congrArg (Vec.mk n) (funext fun i => (behind_place hb (.order i)).2)
  mat h := hb.data .mat h
  arrays h := hb.data .a h

theorem start_quiet (M : Grid ℤ) : (code rows cols n).Quiet (start M).pc := by
  intro t
  cases t <;> rfl

/-- **Every state that the statements reach** is one of the model. -/
theorem reached_shows {M : Grid ℤ} {s : Locked Thread Mutex Point (∀ m, Part m)}
    (h : Reaches (code M.rows M.cols n).code.Step (start M) s) :
    ∃ acts t, run step (.start M n) acts = some t ∧ Shows n s t := by
  obtain ⟨a, ha, hb⟩ := regions_atomic (code_bracketed M.rows M.cols n) (start_ownersHold M)
    ((behind_quiet (start_quiet M)).2 rfl) h
  obtain ⟨acts, hrun⟩ := atomic_run ha
  exact ⟨acts, _, hrun, behind_shows hb⟩

/-! ## From the model to the statements -/

/-- Where a thread is outside its regions. -/
def chaosPoint : ChaosPc → ChaosPoint
  | .draw itr => .draw itr
  | .enter itr r => .aLock itr r

def orderPoint : OrderPc → OrderPoint
  | .take itr => .loop itr
  | .sort itr r => .matLock itr r

/-- The threads in a state of the model, -/
def restPc (s : State) : Thread → Point
  | .chaos => .chaos (chaosPoint s.chaos)
  | .order i => .order (orderPoint (s.orders.val i))

/-- and their data. -/
def restData (s : State) : ∀ m, Part m
  | .mat => s.M
  | .a => (s.A, s.B)
  | .b => ()

section

variable {M M' : Grid ℤ} {A A' B B' : Vec ℤ} {s : State} {r r0 : ℤ} {t : Thread} {m : Mutex}
  {itr i k : ℕ} {arr : List ℤ}

theorem restPc_chaos (c : ChaosPc) : restPc { s with chaos := c } =
    Function.update (restPc s) .chaos (.chaos (chaosPoint c)) := by
  funext t
  cases t <;> rfl

theorem restPc_order {pc : OrderPc} {orders : Vec OrderPc} (h : s.orders.set i pc = some orders) :
    restPc { s with orders := orders } =
      Function.update (restPc s) (.order i) (.order (orderPoint pc)) := by
  obtain ⟨-, rfl⟩ := Vec.set_eq_some.1 h
  funext t
  cases t with
  | chaos => rfl
  | order j =>
    by_cases hj : j = i
    · subst hj
      simp [restPc]
    · rw [Function.update_of_ne fun h => hj (Thread.order.inj h)]
      simp [restPc, hj]

theorem restData_mat : restData { s with M := M } = Function.update (restData s) .mat M := by
  funext m
  cases m <;> rfl

theorem restData_arrays : restData { s with A := A, B := B } =
    Function.update (restData s) .a (A, B) := by
  funext m
  cases m <;> rfl

/-- A statement that unlocks nothing is inside. -/
theorem body_of {a b : Part m × Point} (h : Inside rows cols n m t a b) (hop : a.2.op.unlockOf = none) :
    (code rows cols n).Body m t a b :=
  ⟨h, fun hm => Option.some_ne_none m (hm.symm.trans hop)⟩

theorem run_of {a b : Part m × Point} (h : Inside rows cols n m t a b) (hop : a.2.op.unlockOf = none) :
    Relation.ReflTransGen ((code rows cols n).Body m t) a b := .single (body_of h hop)

/-- A loop whose rounds are statements. -/
theorem rounds_run {g : ℕ → Part m × Point} (h : ∀ j < k, Inside rows cols n m t (g j) (g (j + 1)))
    (hop : ∀ j, (g j).2.op.unlockOf = none) :
    Relation.ReflTransGen ((code rows cols n).Body m t) (g 0) (g k) := by
  induction k with
  | zero => exact .refl
  | succ k ih => exact (ih fun j hj => h j (by omega)).tail (body_of (h k (Nat.lt_succ_self k)) (hop k))

/-- A loop over the matrix whose rounds are runs of statements. -/
theorem loop_run {σ : Type} {f : σ → ℕ → Option σ} {x y : σ} {g : ℕ → σ → Part m × Point}
    (hstep : ∀ j u v, j < k → f u j = some v →
      Relation.ReflTransGen ((code rows cols n).Body m t) (g j u) (g (j + 1) v))
    (h : forRange k f x = some y) :
    Relation.ReflTransGen ((code rows cols n).Body m t) (g 0 x) (g k y) :=
  forRange_inv (P := fun j u => Relation.ReflTransGen ((code rows cols n).Body m t) (g 0 x) (g j u))
    .refl (fun j u v hj hu hf => hu.trans (hstep j u v hj hf)) h

/-- The chaos thread announces a row. -/
theorem announce_run {r : ℕ} (hA : A.size = 1000) (h : announce A r = some A') :
    Relation.ReflTransGen ((code rows cols n).Body .a .chaos)
      ((A, B), .chaos (.aTest itr r 0)) ((A', B), .chaos (.bLock itr r)) := by
  have hscan : ∀ {i}, i ≤ 1000 → (∀ j < i, A.val j ≠ -1) →
      Relation.ReflTransGen ((code rows cols n).Body .a .chaos)
        ((A, B), .chaos (.aTest itr r 0)) ((A, B), .chaos (.aTest itr r i)) := fun {i} hi hne =>
    rounds_run (g := fun i => ((A, B), .chaos (.aTest itr r i)))
      (fun j hj => .chaosArrays (.skip (by omega) (Vec.at_eq (by omega)) (hne j hj))) fun _ => rfl
  rcases announce_some h with ⟨hnone, rfl⟩ | ⟨i, hi, hset⟩
  · refine (hscan le_rfl fun j hj => ?_).trans (run_of (.chaosArrays (.full (by omega))) rfl)
    exact of_decide_eq_false (firstSlot_none hnone hj (Vec.at_eq (by omega)))
  · obtain ⟨hlt, x, hx, hp⟩ := firstSlot_some hi
    refine ((hscan hlt.le fun j hj heq => ?_).trans ?_).trans (run_of (.chaosArrays (.aSet hset)) rfl)
    · have := firstSlot_le hi (Vec.at_eq (v := A) (i := j) (by omega)) (decide_eq_true heq)
      omega
    · exact run_of (.chaosArrays (.found hlt hx (of_decide_eq_true hp))) rfl

/-- An order thread takes a row. -/
theorem take_run (hi : i < n) (hA : A.size = 1000) (h : take A r0 = some (r, A')) :
    Relation.ReflTransGen ((code rows cols n).Body .a (.order i))
      ((A, B), .order (.aTest itr r0 0)) ((A', B), .order (.bLock itr r)) := by
  have hscan : ∀ {k}, k ≤ 1000 → (∀ j < k, ¬ 0 ≤ A.val j) →
      Relation.ReflTransGen ((code rows cols n).Body .a (.order i))
        ((A, B), .order (.aTest itr r0 0)) ((A, B), .order (.aTest itr r0 k)) := fun {k} hk hneg =>
    rounds_run (g := fun k => ((A, B), .order (.aTest itr r0 k)))
      (fun j hj => .orderArrays hi (.skip (by omega) (Vec.at_eq (by omega)) (hneg j hj))) fun _ => rfl
  rcases take_some h with ⟨hnone, heq⟩ | ⟨k, hk, hr, hset⟩
  · cases heq
    refine (hscan le_rfl fun j hj => ?_).trans (run_of (.orderArrays hi (.missed (by omega))) rfl)
    exact of_decide_eq_false (firstSlot_none hnone hj (Vec.at_eq (by omega)))
  · obtain ⟨hlt, x, hx, hp⟩ := firstSlot_some hk
    refine (((hscan hlt.le fun j hj hle => ?_).trans ?_).trans
      (run_of (.orderArrays hi (.aRead hr)) rfl)).trans (run_of (.orderArrays hi (.aClear hset)) rfl)
    · have := firstSlot_le hk (Vec.at_eq (v := A) (i := j) (by omega)) (decide_eq_true hle)
      omega
    · exact run_of (.orderArrays hi (.found hlt hx (of_decide_eq_true hp))) rfl

/-- The body of the two loops that sort. -/
theorem compare_run (ht : t = .order i) (hi : i < n) {j : ℕ} (hj : j < cols) (hk : j + 1 + k < cols)
    (h : compareCells r M j (j + 1 + k) = some M') :
    Relation.ReflTransGen ((code rows cols n).Body .mat t)
      (M, .order (.test itr r j k arr)) (M', .order (.test itr r j (k + 1) arr)) := by
  subst ht
  obtain ⟨x, hx, h⟩ := Option.bind_eq_some_iff.1 h
  obtain ⟨y, hy, h⟩ := Option.bind_eq_some_iff.1 h
  by_cases hgt : x > y
  · rw [if_pos hgt] at h
    obtain ⟨M₁, hset, hset'⟩ := Option.bind_eq_some_iff.1 h
    have hswap : Inside rows cols n .mat (.order i) (M, .order (.test itr r j k arr))
      (M, .order (.temp itr r j k arr)) := .orderMat hi (.swap hj hk hx hy hgt)
    have htemp : Inside rows cols n .mat (.order i) (M, .order (.temp itr r j k arr))
      (M, .order (.move itr r j k x arr)) := .orderMat hi (.temp hx)
    have hmove : Inside rows cols n .mat (.order i) (M, .order (.move itr r j k x arr))
      (M₁, .order (.put itr r j k x arr)) := .orderMat hi (.move hy hset)
    exact (((run_of hswap rfl).trans (run_of htemp rfl)).trans (run_of hmove rfl)).trans
      (run_of (.orderMat hi (.put hset')) rfl)
  · rw [if_neg hgt] at h
    cases h
    exact run_of (.orderMat hi (.keep hj hk hx hy hgt)) rfl

/-- The two loops. -/
theorem sort_run (hi : i < n) (hcols : M.cols = cols) (h : sortRow M r = some M') :
    Relation.ReflTransGen ((code rows cols n).Body .mat (.order i))
      (M, .order (.test itr r 0 0 arr)) (M', .order (.copy1 itr r 0 arr [])) := by
  have hpasses : M'.cols = cols ∧ Relation.ReflTransGen ((code rows cols n).Body .mat (.order i))
      (M, .order (.test itr r 0 0 arr)) (M', .order (.test itr r cols 0 arr)) := by
    rw [← hcols]
    refine forRange_inv (f := sortPass r) (P := fun j u => u.cols = M.cols ∧
      Relation.ReflTransGen ((code rows M.cols n).Body .mat (.order i))
        (M, .order (.test itr r 0 0 arr)) (u, .order (.test itr r j 0 arr))) ⟨rfl, .refl⟩
      (fun j u v hj hu hpass => ?_) h
    obtain ⟨hucols, hrun⟩ := hu
    have hround : Relation.ReflTransGen ((code rows M.cols n).Body .mat (.order i))
        (u, .order (.test itr r j 0 arr)) (v, .order (.test itr r j (M.cols - (j + 1)) arr)) := by
      rw [sortPass, hucols] at hpass
      exact loop_run (g := fun k u => (u, .order (.test itr r j k arr)))
        (fun k u v hk hcmp => compare_run rfl hi hj (by omega) hcmp) hpass
    refine ⟨(sortPass_cols hpass).trans hucols, (hrun.trans hround).trans ?_⟩
    exact run_of (.orderMat hi (.next hj (by omega))) rfl
  exact hpasses.2.trans (run_of (.orderMat hi (.sorted (Nat.lt_irrefl cols))) rfl)

/-- The region that sorts. -/
theorem sortRegion_run (hi : i < n) (hcols : M.cols = cols) {y : SortedRow}
    (h : sortRegion M r = some y) :
    Relation.ReflTransGen ((code rows cols n).Body .mat (.order i))
      (M, .order (.copy itr r 0 [])) (y.M, .order (.matUnlock itr r y.arr y.arr1)) := by
  obtain ⟨arr, harr, h⟩ := Option.bind_eq_some_iff.1 h
  obtain ⟨M', hM, h⟩ := Option.bind_eq_some_iff.1 h
  obtain ⟨arr1, harr1, h⟩ := Option.bind_eq_some_iff.1 h
  cases h
  have hcols' : M'.cols = cols := (sortRow_cols hM).trans hcols
  have hcopy : Relation.ReflTransGen ((code rows cols n).Body .mat (.order i))
      (M, .order (.copy itr r 0 [])) (M, .order (.copy itr r cols arr)) := by
    rw [copyRow, hcols] at harr
    refine loop_run (m := .mat) (g := fun j arr => (M, .order (.copy itr r j arr)))
      (fun j u v hj hv => ?_) harr
    obtain ⟨x, hx, rfl⟩ := Option.map_eq_some_iff.1 hv
    exact run_of (.orderMat hi (.copy hj hx)) rfl
  have hcopy1 : Relation.ReflTransGen ((code rows cols n).Body .mat (.order i))
      (M', .order (.copy1 itr r 0 arr [])) (M', .order (.copy1 itr r cols arr arr1)) := by
    rw [copyRow, hcols'] at harr1
    refine loop_run (m := .mat) (g := fun j arr1 => (M', .order (.copy1 itr r j arr arr1)))
      (fun j u v hj hv => ?_) harr1
    obtain ⟨x, hx, rfl⟩ := Option.map_eq_some_iff.1 hv
    exact run_of (.orderMat hi (.copy1 hj hx)) rfl
  have hcopied : Inside rows cols n .mat (.order i) (M, .order (.copy itr r cols arr))
    (M, .order (.test itr r 0 0 arr)) := .orderMat hi (.copied (Nat.lt_irrefl cols))
  exact (((hcopy.trans (run_of hcopied rfl)).trans (sort_run hi hcols hM)).trans hcopy1).trans
    (run_of (.orderMat hi (.copied1 (Nat.lt_irrefl cols))) rfl)

end

section

variable {pc : Thread → Point} {d : ∀ m, Part m} {t : Thread} {m : Mutex} {p w q : Point}
  {x y : Part m}

/-- Thread `t` goes through its region alone. -/
theorem region_reaches (henter : Outside n t (pc t) p) (hop : (pc t).op.lockOf = some m)
    (hbody : Relation.ReflTransGen ((code rows cols n).Body m t) (d m, p) (x, w))
    (how : w.op.unlockOf = some m) (hleave : Inside rows cols n m t (x, w) (y, q)) :
    Reaches (code rows cols n).Atomic (pc, d) (Function.update pc t q, Function.update d m y) :=
  (Reaches.refl _).snoc (.region (outside_region henter).2 hop henter hbody how hleave)

/-- It first makes a step outside. -/
theorem outside_reaches {o : Point} (hout : Outside n t (pc t) o) (hnone : (pc t).op.lockOf = none)
    (henter : Outside n t o p) (hop : o.op.lockOf = some m)
    (hbody : Relation.ReflTransGen ((code rows cols n).Body m t) (d m, p) (x, w))
    (how : w.op.unlockOf = some m) (hleave : Inside rows cols n m t (x, w) (y, q)) :
    Reaches (code rows cols n).Atomic (pc, d) (Function.update pc t q, Function.update d m y) := by
  have hfirst : Reaches (code rows cols n).Atomic (pc, d) (Function.update pc t o, d) :=
    (Reaches.refl _).snoc (.outside (outside_region hout).2 hnone hout)
  refine hfirst.trans ?_
  rw [← Function.update_idem (a := t) o q pc]
  rw [← Function.update_self t o pc] at henter hop
  exact region_reaches henter hop hbody how hleave

end

/-- **A step of the model** is a region of a thread. -/
theorem step_reaches {M : Grid ℤ} {s t : State} {act : Action} (hs : SizesOf M n s)
    (h : step s act = some t) :
    Reaches (code M.rows M.cols n).Atomic (restPc s, restData s) (restPc t, restData t) := by
  cases act with
  | chaosWrite x y z =>
    obtain ⟨itr, hpc, hr, hc, rfl⟩ := step_chaosWrite h
    have hat : restPc s .chaos = .chaos (.draw (itr + 1)) :=
      congrArg (fun c => Point.chaos (chaosPoint c)) hpc
    have hpc' : restPc { s with
        M := s.M.put (draw x s.M.rows) (draw y s.M.cols) (draw z 1000)
        chaos := .enter itr (draw x s.M.rows) } = _ :=
      restPc_chaos (s := { s with M := s.M.put (draw x s.M.rows) (draw y s.M.cols) (draw z 1000) }) _
    have hwrite : Inside s.M.rows s.M.cols n .mat .chaos (s.M, .chaos (.write itr x y z)) (_, _) :=
      .chaosMat (.write (Grid.set_eq hr hc _))
    have hdata : restData { s with
        M := s.M.put (draw x s.M.rows) (draw y s.M.cols) (draw z 1000)
        chaos := .enter itr (draw x s.M.rows) } = Function.update (restData s) .mat _ := restData_mat
    rw [hpc', hdata, ← hs.rows, ← hs.cols]
    refine outside_reaches (o := .chaos (.matLock itr x y z)) ?_ ?_ (.chaos .matLock) rfl
      (run_of hwrite rfl) rfl (.chaosMat .matUnlock)
    · rw [hat]
      exact .chaos (.draw x y z)
    · rw [hat]
      rfl
  | chaosEnter =>
    obtain ⟨itr, r, A, B, hpc, hA, hB, rfl⟩ := step_chaosEnter h
    have hat : restPc s .chaos = .chaos (.aLock itr r) :=
      congrArg (fun c => Point.chaos (chaosPoint c)) hpc
    have hpc' : restPc { s with A := A, B := B, chaos := .draw itr } = _ :=
      restPc_chaos (s := { s with A := A, B := B }) _
    have hdata : restData { s with A := A, B := B, chaos := .draw itr } =
      Function.update (restData s) .a (A, B) := restData_arrays
    rw [hpc', hdata]
    refine region_reaches (p := .chaos (.aTest itr r 0)) (w := .chaos (.aUnlock itr r)) (x := (A, B))
      ?_ ?_ ?_ rfl (.chaosArrays .aUnlock)
    · rw [hat]
      exact .chaos .aLock
    · rw [hat]
      rfl
    · have hlock : Inside M.rows M.cols n .a .chaos ((A, s.B), .chaos (.bLock itr r))
        ((A, s.B), .chaos (.bSet itr r)) := .chaosArrays .bLock
      have hflag : Inside M.rows M.cols n .a .chaos ((A, s.B), .chaos (.bSet itr r))
        ((A, B), .chaos (.bUnlock itr r)) := .chaosArrays (.bSet hB)
      exact (((announce_run hs.slots hA).trans (run_of hlock rfl)).trans (run_of hflag rfl)).trans
        (.single ⟨.chaosArrays .bUnlock, fun hb => absurd (Option.some.inj hb) (by decide)⟩)
  | orderTake i r0 =>
    obtain ⟨itr, r, A, B, orders, hpc, hA, hB, ho, rfl⟩ := step_orderTake h
    obtain ⟨hi, hval⟩ := Vec.at_eq_some.1 hpc
    have hat : restPc s (.order i) = .order (.loop (itr + 1)) :=
      congrArg (fun c => Point.order (orderPoint c)) hval.symm
    rw [hs.orders] at hi
    have hpc' : restPc { s with A := A, B := B, orders := orders } = _ :=
      restPc_order (s := { s with A := A, B := B }) ho
    have hdata : restData { s with A := A, B := B, orders := orders } =
      Function.update (restData s) .a (A, B) := restData_arrays
    rw [hpc', hdata]
    refine outside_reaches (o := .order (.aLock itr r0)) (w := .order (.aUnlock itr r)) (x := (A, B))
      ?_ ?_ (.order hi .aLock) rfl ?_ rfl (.orderArrays hi .aUnlock)
    · rw [hat]
      exact .order hi (.loop r0)
    · rw [hat]
      rfl
    · have hlock : Inside M.rows M.cols n .a (.order i) ((A, s.B), .order (.bLock itr r))
        ((A, s.B), .order (.bSet itr r)) := .orderArrays hi .bLock
      have hmark : Inside M.rows M.cols n .a (.order i) ((A, s.B), .order (.bSet itr r))
        ((A, B), .order (.bUnlock itr r)) := .orderArrays hi (.bSet hB)
      exact (((take_run hi hs.slots hA).trans (run_of hlock rfl)).trans (run_of hmark rfl)).trans
        (.single ⟨.orderArrays hi .bUnlock, fun hb => absurd (Option.some.inj hb) (by decide)⟩)
  | orderSort i =>
    obtain ⟨itr, r, orders, y, hpc, hM, ho, rfl⟩ := step_orderSort h
    obtain ⟨hi, hval⟩ := Vec.at_eq_some.1 hpc
    have hat : restPc s (.order i) = .order (.matLock itr r) :=
      congrArg (fun c => Point.order (orderPoint c)) hval.symm
    rw [hs.orders] at hi
    have hpc' : restPc { s with M := y.M, orders := orders } = _ :=
      restPc_order (s := { s with M := y.M }) ho
    have hdata : restData { s with M := y.M, orders := orders } =
      Function.update (restData s) .mat y.M := restData_mat
    rw [hpc', hdata]
    refine region_reaches (p := .order (.copy itr r 0 []))
      (w := .order (.matUnlock itr r y.arr y.arr1)) (x := y.M) ?_ ?_
      (sortRegion_run hi hs.cols hM) rfl (.orderMat hi .matUnlock)
    · rw [hat]
      exact .order hi .matLock
    · rw [hat]
      rfl

theorem run_reaches {M : Grid ℤ} {acts : List Action} {t : State}
    (h : run step (.start M n) acts = some t) :
    SizesOf M n t ∧ Reaches (code M.rows M.cols n).Atomic ((start M).pc, (start M).data)
      (restPc t, restData t) := by
  have hstart : ((start M).pc, (start M).data) = (restPc (.start M n), restData (.start M n)) := by
    refine Prod.ext (funext fun t => ?_) (funext fun m => ?_)
    · cases t <;> rfl
    · cases m <;> rfl
  rw [hstart]
  refine run_inv' (I := fun t => SizesOf M n t ∧ Reaches (code M.rows M.cols n).Atomic
    (restPc (.start M n), restData (.start M n)) (restPc t, restData t)) (fun s act t hI hst => ?_)
    ⟨sizes_start M n, .refl _⟩ h
  exact ⟨sizes_step s act t hI.1 hst, hI.2.trans (step_reaches hI.1 hst)⟩

/-- **The statements refine the model**: every state that they reach, in any order, is shown by one that
the model reaches, and every state that the model reaches shows one of theirs with no region open. -/
theorem statements_refine (M : Grid ℤ) (n : ℕ) :
    (∀ s, Reaches (code M.rows M.cols n).code.Step (start M) s →
      ∃ acts t, run step (.start M n) acts = some t ∧ Shows n s t) ∧
    ∀ acts t, run step (.start M n) acts = some t →
      ∃ s, Reaches (code M.rows M.cols n).code.Step (start M) s ∧
        (code M.rows M.cols n).Quiet s.pc ∧ Shows n s t := by
  refine ⟨fun s h => reached_shows h, fun acts t h => ?_⟩
  obtain ⟨hsizes, hr⟩ := run_reaches h
  obtain ⟨hquiet, s, hs, hpc, hdata⟩ := regions_reached (code_bracketed M.rows M.cols n)
    (start_ownersHold M) (start_quiet M) hr
  refine ⟨s, hs, hpc ▸ hquiet, ?_⟩
  constructor
  · rw [hpc]
    show t.chaos = (chaosPoint t.chaos).place
    cases t.chaos <;> rfl
  · rw [hpc]
    have hplace : ∀ pc, (orderPoint pc).place = pc := fun pc => by cases pc <;> rfl
    show t.orders = ⟨n, fun i => (orderPoint (t.orders.val i)).place⟩
    rw [funext fun i => hplace (t.orders.val i), ← hsizes.orders]
  · exact fun _ => (congrFun hdata .mat).symm
  · exact fun _ => (congrFun hdata .a).symm

end OsLab.Chaos.Statements
