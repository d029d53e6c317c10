import OsLab.Chaos.Statements

/-!
# What has been done in an open region (`problem3.cpp`)

A thread that is inside a region has done a part of it, from the data that it found at the lock. Of the
region that sorts, this is some passes of the outer loop and some rounds of the inner one; of the loops
over `A`, that no slot so far is such.

* `matDone_step`, `arraysDone_step`: the next statement.
* `mat_region`, `arrays_region`: the regions, from the lock to the unlock.
-/

namespace OsLab.Chaos.Statements

open Lib

variable {rows cols n : ℕ}

/-! ## The region that sorts -/

/-- One pass of the outer loop of the two that sort. -/
def sortPass (r : ℤ) (M : Grid ℤ) (i : ℕ) : Option (Grid ℤ) :=
  forRange (M.cols - (i + 1)) (fun M k => compareCells r M i (i + 1 + k)) M

/-- The body of the loops that copy. -/
def copyCell (M : Grid ℤ) (r : ℤ) (arr : List ℤ) (i : ℕ) : Option (List ℤ) :=
  (cell M r i).map fun x => arr ++ [x]

/-- `arr` is filled, and the loops that sort have come to `i` and `k`. -/
structure Sorting (cols : ℕ) (M₀ : Grid ℤ) (r : ℤ) (i k : ℕ) (arr : List ℤ) (M : Grid ℤ) : Prop where
  arr : copyRow M₀ r = some arr
  outer : i ≤ cols
  inner : k ≤ cols - (i + 1)
  passes : ∃ M₁, forRange i (sortPass r) M₀ = some M₁ ∧
    forRange k (fun M k => compareCells r M i (i + 1 + k)) M₁ = some M

section

variable {M M' M₀ : Grid ℤ} {i k : ℕ} {r : ℤ} {arr : List ℤ}

theorem compareCells_cols {j : ℕ} (h : compareCells r M i j = some M') : M'.cols = M.cols := by
  rw [compareCells_some h]
  rfl

theorem sortPass_cols (h : sortPass r M i = some M') : M'.cols = M.cols :=
  forRange_inv (P := fun _ M' => M'.cols = M.cols) rfl
    (fun _ _ _ _ ht hu => (compareCells_cols hu).trans ht) h

theorem passes_cols (h : forRange i (sortPass r) M = some M') : M'.cols = M.cols :=
  forRange_inv (P := fun _ M' => M'.cols = M.cols) rfl
    (fun _ _ _ _ ht hu => (sortPass_cols hu).trans ht) h

theorem compareCells_keep {j : ℕ} {x y : ℤ} (hx : cell M r i = some x) (hy : cell M r j = some y)
    (hle : ¬ x > y) : compareCells r M i j = some M := by
  rw [compareCells, hx, hy]
  exact if_neg hle

theorem compareCells_swap {j : ℕ} {x y : ℤ} {M₁ : Grid ℤ} (hx : cell M r i = some x)
    (hy : cell M r j = some y) (hgt : x > y) (h₁ : setCell M r i y = some M₁)
    (h : setCell M₁ r j x = some M') : compareCells r M i j = some M' := by
  rw [compareCells, hx, hy]
  refine (if_pos hgt).trans ?_
  rw [h₁]
  exact h

theorem Sorting.round (h : Sorting cols M₀ r i k arr M) (hj : i + 1 + k < cols)
    (hcmp : compareCells r M i (i + 1 + k) = some M') : Sorting cols M₀ r i (k + 1) arr M' := by
  obtain ⟨M₁, hout, hin⟩ := h.passes
  exact ⟨h.arr, h.outer, by omega, M₁, hout, by rw [forRange_succ, hin]; exact hcmp⟩

theorem Sorting.pass (h : Sorting cols M₀ r i k arr M) (hcols : M₀.cols = cols) (hi : i < cols)
    (hj : ¬ i + 1 + k < cols) : Sorting cols M₀ r (i + 1) 0 arr M := by
  obtain ⟨M₁, hout, hin⟩ := h.passes
  have hinner := h.inner
  obtain rfl : k = M₁.cols - (i + 1) := by rw [passes_cols hout, hcols]; omega
  exact ⟨h.arr, hi, Nat.zero_le _, M, by rw [forRange_succ, hout]; exact hin, rfl⟩

theorem Sorting.sorted (h : Sorting cols M₀ r i k arr M) (hcols : M₀.cols = cols) (hi : ¬ i < cols) :
    sortRow M₀ r = some M := by
  obtain ⟨M₁, hout, hin⟩ := h.passes
  have houter := h.outer
  have hinner := h.inner
  obtain rfl : k = 0 := by omega
  obtain rfl : i = M₀.cols := by omega
  obtain rfl : M₁ = M := Option.some.inj hin
  exact hout

end

/-- The two cells at `i` and `k` are in the wrong order. -/
structure Exchanging (cols : ℕ) (M₀ : Grid ℤ) (r : ℤ) (i k : ℕ) (arr : List ℤ) (M : Grid ℤ) (x y : ℤ) :
    Prop where
  sorting : Sorting cols M₀ r i k arr M
  lt : i + 1 + k < cols
  left : cell M r i = some x
  right : cell M r (i + 1 + k) = some y
  gt : x > y

/-- What has been done in a region under `mat_mutex`, from its lock at `p₀` and the matrix `M₀`. -/
def MatDone (rows cols : ℕ) (M₀ : Grid ℤ) (p₀ : Point) (M : Grid ℤ) : Point → Prop
  | .chaos (.write itr x y z) => p₀ = .chaos (.matLock itr x y z) ∧ M = M₀
  | .chaos (.matUnlock itr x) => ∃ y z, p₀ = .chaos (.matLock itr x y z) ∧
      M₀.set (draw x rows) (draw y cols) (draw z 1000) = some M
  | .order (.copy itr r i arr) => p₀ = .order (.matLock itr r) ∧ M = M₀ ∧ i ≤ cols ∧
      forRange i (copyCell M₀ r) [] = some arr
  | .order (.test itr r i k arr) => p₀ = .order (.matLock itr r) ∧ Sorting cols M₀ r i k arr M
  | .order (.temp itr r i k arr) => p₀ = .order (.matLock itr r) ∧
      ∃ x y, Exchanging cols M₀ r i k arr M x y
  | .order (.move itr r i k x arr) => p₀ = .order (.matLock itr r) ∧
      ∃ y, Exchanging cols M₀ r i k arr M x y
  | .order (.put itr r i k x arr) => p₀ = .order (.matLock itr r) ∧
      ∃ M₁ y, Exchanging cols M₀ r i k arr M₁ x y ∧ setCell M₁ r i y = some M
  | .order (.copy1 itr r i arr arr1) => p₀ = .order (.matLock itr r) ∧ copyRow M₀ r = some arr ∧
      sortRow M₀ r = some M ∧ i ≤ cols ∧ forRange i (copyCell M r) [] = some arr1
  | .order (.matUnlock itr r arr arr1) => p₀ = .order (.matLock itr r) ∧
      sortRegion M₀ r = some ⟨M, arr, arr1⟩
  | _ => False

variable {M₀ : Grid ℤ} {p₀ : Point}

theorem sortRow_cols {M : Grid ℤ} {r : ℤ} (h : sortRow M₀ r = some M) : M.cols = M₀.cols :=
  passes_cols h

/-- One statement under `mat_mutex`. -/
theorem matDone_step {t : Thread} {M M' : Grid ℤ} {p q : Point} (hcols : M₀.cols = cols)
    (h : MatDone rows cols M₀ p₀ M p) (hst : (code rows cols n).Body .mat t (M, p) (M', q)) :
    MatDone rows cols M₀ p₀ M' q := by
  obtain ⟨hst, hop⟩ := hst
  cases hst with
  | chaosMat hst =>
    cases hst with
    | write hset =>
      obtain ⟨rfl, rfl⟩ := h
      exact ⟨_, _, rfl, hset⟩
    | matUnlock => exact absurd rfl hop
  | orderMat _ hst =>
    cases hst with
    | copy hi hx =>
      obtain ⟨rfl, rfl, -, harr⟩ := h
      exact ⟨rfl, rfl, hi, by rw [forRange_succ, harr, Option.bind_some, copyCell, hx]; rfl⟩
    | copied hi =>
      obtain ⟨rfl, rfl, hle, harr⟩ := h
      subst hcols
      obtain rfl := Nat.le_antisymm hle (Nat.not_lt.1 hi)
      exact ⟨rfl, harr, Nat.zero_le _, Nat.zero_le _, _, rfl, rfl⟩
    | keep hi hj hx hy hle =>
      obtain ⟨rfl, h⟩ := h
      exact ⟨rfl, h.round hj (compareCells_keep hx hy hle)⟩
    | swap hi hj hx hy hgt =>
      obtain ⟨rfl, h⟩ := h
      exact ⟨rfl, _, _, h, hj, hx, hy, hgt⟩
    | temp hx =>
      obtain ⟨rfl, x, y, h⟩ := h
      obtain rfl := Option.some.inj (h.left.symm.trans hx)
      exact ⟨rfl, y, h⟩
    | move hy hset =>
      obtain ⟨rfl, y, h⟩ := h
      obtain rfl := Option.some.inj (h.right.symm.trans hy)
      exact ⟨rfl, _, _, h, hset⟩
    | put hset =>
      obtain ⟨rfl, M₁, y, h, hset'⟩ := h
      exact ⟨rfl, h.sorting.round h.lt (compareCells_swap h.left h.right h.gt hset' hset)⟩
    | next hi hj =>
      obtain ⟨rfl, h⟩ := h
      exact ⟨rfl, h.pass hcols hi hj⟩
    | sorted hi =>
      obtain ⟨rfl, h⟩ := h
      exact ⟨rfl, h.arr, h.sorted hcols hi, Nat.zero_le _, rfl⟩
    | copy1 hi hx =>
      obtain ⟨rfl, harr, hM, -, harr1⟩ := h
      exact ⟨rfl, harr, hM, hi, by rw [forRange_succ, harr1, Option.bind_some, copyCell, hx]; rfl⟩
    | copied1 hi =>
      obtain ⟨rfl, harr, hM, hle, harr1⟩ := h
      rw [← (sortRow_cols hM).trans hcols] at hle hi
      obtain rfl := Nat.le_antisymm hle (Nat.not_lt.1 hi)
      refine ⟨rfl, ?_⟩
      rw [sortRegion, harr, Option.bind_eq_bind, Option.bind_some, hM, Option.bind_eq_bind,
        Option.bind_some]
      exact congrArg (Option.bind · _) harr1
    | matUnlock => exact absurd rfl hop

/-! ## The regions of the arrays -/

section

variable {A : Vec ℤ} {p : ℤ → Bool} {i : ℕ} {x : ℤ}

theorem firstSlot_eq_some (hi : i < 1000) (hx : A.at i = some x) (hp : p x = true)
    (hbelow : ∀ j < i, (A.at j).any p = false) : firstSlot A p = some i := by
  refine List.find?_range_eq_some.2 ⟨by rw [hx]; exact hp, List.mem_range.2 hi, fun j hj => ?_⟩
  rw [hbelow j hj]
  rfl

theorem firstSlot_eq_none (hbelow : ∀ j < 1000, (A.at j).any p = false) : firstSlot A p = none := by
  refine List.find?_eq_none.2 fun j hj => ?_
  rw [hbelow j (List.mem_range.1 hj)]
  exact Bool.false_ne_true

theorem announce_eq_none {r : ℤ} (h : firstSlot A (· = -1) = none) : announce A r = some A := by
  unfold announce
  split
  · rfl
  · next hi => exact absurd (h.symm.trans hi) (Option.some_ne_none _).symm

theorem announce_eq_set {r : ℤ} {A' : Vec ℤ} (h : firstSlot A (· = -1) = some i)
    (hset : A.set i r = some A') : announce A r = some A' := by
  unfold announce
  split
  · next hnone => exact absurd (hnone.symm.trans h) (Option.some_ne_none i).symm
  · next j hj =>
    obtain rfl := Option.some.inj (h.symm.trans hj)
    exact hset

theorem take_eq_none (r0 : ℤ) (h : firstSlot A (0 ≤ ·) = none) : take A r0 = some (r0, A) := by
  unfold take
  split
  · rfl
  · next hi => exact absurd (h.symm.trans hi) (Option.some_ne_none _).symm

theorem take_eq_set {r r0 : ℤ} {A' : Vec ℤ} (h : firstSlot A (0 ≤ ·) = some i) (hr : A.at i = some r)
    (hset : A.set i (-1) = some A') : take A r0 = some (r, A') := by
  unfold take
  split
  · next hnone => exact absurd (hnone.symm.trans h) (Option.some_ne_none i).symm
  · next j hj =>
    obtain rfl := Option.some.inj (h.symm.trans hj)
    rw [hr, hset]
    rfl

/-- One more slot that is not such. -/
theorem below_succ (hbelow : ∀ j < i, (A.at j).any p = false) (hx : A.at i = some x)
    (hp : p x = false) : ∀ j < i + 1, (A.at j).any p = false := by
  intro j hj
  rcases Nat.lt_succ_iff_lt_or_eq.1 hj with hj | rfl
  · exact hbelow j hj
  · rw [hx]
    exact hp

end

/-- What has been done in a region under `A_mutex`, from its lock at `p₀` and the arrays `A₀` and `B₀`. -/
def ArraysDone (A₀ B₀ : Vec ℤ) (p₀ : Point) (x : Vec ℤ × Vec ℤ) : Point → Prop
  | .chaos (.aTest itr r i) => p₀ = .chaos (.aLock itr r) ∧ x = (A₀, B₀) ∧ i ≤ 1000 ∧
      ∀ j < i, (A₀.at j).any (· = -1) = false
  | .chaos (.aSet itr r i) => p₀ = .chaos (.aLock itr r) ∧ x = (A₀, B₀) ∧
      firstSlot A₀ (· = -1) = some i
  | .chaos (.bLock itr r) | .chaos (.bSet itr r) => p₀ = .chaos (.aLock itr r) ∧
      announce A₀ r = some x.1 ∧ x.2 = B₀
  | .chaos (.bUnlock itr r) | .chaos (.aUnlock itr r) => p₀ = .chaos (.aLock itr r) ∧
      announce A₀ r = some x.1 ∧ setFlag B₀ r unprocessed = some x.2
  | .order (.aTest itr r0 i) => p₀ = .order (.aLock itr r0) ∧ x = (A₀, B₀) ∧ i ≤ 1000 ∧
      ∀ j < i, (A₀.at j).any (0 ≤ ·) = false
  | .order (.aRead itr i) => ∃ r0, p₀ = .order (.aLock itr r0) ∧ x = (A₀, B₀) ∧
      firstSlot A₀ (0 ≤ ·) = some i
  | .order (.aClear itr i r) => ∃ r0, p₀ = .order (.aLock itr r0) ∧ x = (A₀, B₀) ∧
      firstSlot A₀ (0 ≤ ·) = some i ∧ A₀.at i = some r
  | .order (.bLock itr r) | .order (.bSet itr r) => ∃ r0, p₀ = .order (.aLock itr r0) ∧
      take A₀ r0 = some (r, x.1) ∧ x.2 = B₀
  | .order (.bUnlock itr r) | .order (.aUnlock itr r) => ∃ r0, p₀ = .order (.aLock itr r0) ∧
      take A₀ r0 = some (r, x.1) ∧ setFlag B₀ r processed = some x.2
  | _ => False

variable {A₀ B₀ : Vec ℤ}

/-- One statement under `A_mutex`. -/
theorem arraysDone_step {t : Thread} {x y : Vec ℤ × Vec ℤ} {p q : Point} (h : ArraysDone A₀ B₀ p₀ x p)
    (hst : (code rows cols n).Body .a t (x, p) (y, q)) : ArraysDone A₀ B₀ p₀ y q := by
  obtain ⟨hst, hop⟩ := hst
  cases hst with
  | chaosArrays hst =>
    cases hst with
    | skip hi hx hne =>
      obtain ⟨rfl, hx₀, -, hbelow⟩ := h
      cases hx₀
      exact ⟨rfl, rfl, hi, below_succ hbelow hx (decide_eq_false hne)⟩
    | found hi hx heq =>
      obtain ⟨rfl, hx₀, -, hbelow⟩ := h
      cases hx₀
      exact ⟨rfl, rfl, firstSlot_eq_some hi hx (decide_eq_true heq) hbelow⟩
    | aSet hset =>
      obtain ⟨rfl, hx₀, h⟩ := h
      cases hx₀
      exact ⟨rfl, announce_eq_set h hset, rfl⟩
    | full hi =>
      obtain ⟨rfl, hx₀, hle, hbelow⟩ := h
      cases hx₀
      obtain rfl := Nat.le_antisymm hle (Nat.not_lt.1 hi)
      exact ⟨rfl, announce_eq_none (firstSlot_eq_none hbelow), rfl⟩
    | bLock => exact h
    | bSet hB =>
      obtain ⟨rfl, hA, rfl⟩ := h
      exact ⟨rfl, hA, hB⟩
    | bUnlock => exact h
    | aUnlock => exact absurd rfl hop
  | orderArrays _ hst =>
    cases hst with
    | skip hi hx hneg =>
      obtain ⟨rfl, hx₀, -, hbelow⟩ := h
      cases hx₀
      exact ⟨rfl, rfl, hi, below_succ hbelow hx (decide_eq_false hneg)⟩
    | found hi hx hnonneg =>
      obtain ⟨rfl, hx₀, -, hbelow⟩ := h
      cases hx₀
      exact ⟨_, rfl, rfl, firstSlot_eq_some hi hx (decide_eq_true hnonneg) hbelow⟩
    | aRead hr =>
      obtain ⟨r0, rfl, hx₀, h⟩ := h
      cases hx₀
      exact ⟨r0, rfl, rfl, h, hr⟩
    | aClear hset =>
      obtain ⟨r0, rfl, hx₀, h, hr⟩ := h
      cases hx₀
      exact ⟨r0, rfl, take_eq_set h hr hset, rfl⟩
    | missed hi =>
      obtain ⟨rfl, hx₀, hle, hbelow⟩ := h
      cases hx₀
      obtain rfl := Nat.le_antisymm hle (Nat.not_lt.1 hi)
      exact ⟨_, rfl, take_eq_none _ (firstSlot_eq_none hbelow), rfl⟩
    | bLock => exact h
    | bSet hB =>
      obtain ⟨r0, rfl, hA, rfl⟩ := h
      exact ⟨r0, rfl, hA, hB⟩
    | bUnlock => exact h
    | aUnlock => exact absurd rfl hop

/-! ## The regions -/

/-- What is done in a run of statements is kept by the next one. -/
theorem body_done {m : Mutex} {t : Thread} {D : Part m × Point → Prop}
    (hstep : ∀ a b, D a → (code rows cols n).Body m t a b → D b) {a b : Part m × Point}
    (h : D a) (hbody : Relation.ReflTransGen ((code rows cols n).Body m t) a b) : D b := by
  induction hbody with
  | refl => exact h
  | tail _ hb ih => exact hstep _ _ ih hb

/-- **The regions under `mat_mutex`.** -/
theorem mat_region {t : Thread} {p p' q : Point} {M M' : Grid ℤ} (hcols : M₀.cols = cols)
    (henter : Outside n t p₀ p) (hop : p₀.op.lockOf = some .mat)
    (hbody : Relation.ReflTransGen ((code rows cols n).Body .mat t) (M₀, p) (M, p'))
    (hop' : p'.op.unlockOf = some .mat) (hleave : Inside rows cols n .mat t (M, p') (M', q)) :
    (∃ itr x y z, t = .chaos ∧ p₀ = .chaos (.matLock itr x y z) ∧
        M₀.set (draw x rows) (draw y cols) (draw z 1000) = some M' ∧
        q = .chaos (.aLock itr (draw x rows))) ∨
      ∃ i itr r arr arr1, t = .order i ∧ i < n ∧ p₀ = .order (.matLock itr r) ∧
        sortRegion M₀ r = some ⟨M', arr, arr1⟩ ∧ q = .order (.loop itr) := by
  have hfirst : MatDone rows cols M₀ p₀ M₀ p := by
    cases henter with
    | chaos h =>
      cases h with
      | draw => cases hop
      | matLock => exact ⟨rfl, rfl⟩
      | aLock => cases hop
    | order _ h =>
      cases h with
      | loop => cases hop
      | aLock => cases hop
      | matLock => exact ⟨rfl, rfl, Nat.zero_le _, rfl⟩
  have hdone := body_done (D := fun a => MatDone rows cols M₀ p₀ a.1 a.2)
    (fun _ _ h hb => matDone_step hcols h hb) hfirst hbody
  cases hleave with
  | chaosMat h =>
    cases h with
    | write => cases hop'
    | matUnlock =>
      obtain ⟨y, z, rfl, hset⟩ := hdone
      exact .inl ⟨_, _, y, z, rfl, rfl, hset, rfl⟩
  | orderMat hi h =>
    cases h with
    | matUnlock =>
      obtain ⟨rfl, h⟩ := hdone
      exact .inr ⟨_, _, _, _, _, rfl, hi, rfl, h, rfl⟩
    | _ => cases hop'

/-- **The regions under `A_mutex`.** -/
theorem arrays_region {t : Thread} {p p' q : Point} {x x' : Vec ℤ × Vec ℤ}
    (henter : Outside n t p₀ p) (hop : p₀.op.lockOf = some .a)
    (hbody : Relation.ReflTransGen ((code rows cols n).Body .a t) ((A₀, B₀), p) (x, p'))
    (hop' : p'.op.unlockOf = some .a) (hleave : Inside rows cols n .a t (x, p') (x', q)) :
    (∃ itr r : ℕ, t = .chaos ∧ p₀ = .chaos (.aLock itr r) ∧ announce A₀ r = some x'.1 ∧
        setFlag B₀ r unprocessed = some x'.2 ∧ q = .chaos (.draw itr)) ∨
      ∃ i itr r0 r, t = .order i ∧ i < n ∧ p₀ = .order (.aLock itr r0) ∧
        take A₀ r0 = some (r, x'.1) ∧ setFlag B₀ r processed = some x'.2 ∧
        q = .order (.matLock itr r) := by
  have hfirst : ArraysDone A₀ B₀ p₀ (A₀, B₀) p := by
    cases henter with
    | chaos h =>
      cases h with
      | draw => cases hop
      | matLock => cases hop
      | aLock => exact ⟨rfl, rfl, Nat.zero_le _, fun j hj => absurd hj (Nat.not_lt_zero j)⟩
    | order _ h =>
      cases h with
      | loop => cases hop
      | aLock => exact ⟨rfl, rfl, Nat.zero_le _, fun j hj => absurd hj (Nat.not_lt_zero j)⟩
      | matLock => cases hop
  have hdone := body_done (D := fun a => ArraysDone A₀ B₀ p₀ a.1 a.2)
    (fun _ _ h hb => arraysDone_step h hb) hfirst hbody
  cases hleave with
  | chaosArrays h =>
    cases h with
    | aUnlock =>
      obtain ⟨rfl, hA, hB⟩ := hdone
      exact .inl ⟨_, _, rfl, rfl, hA, hB, rfl⟩
    | _ => cases hop'
  | orderArrays hi h =>
    cases h with
    | aUnlock =>
      obtain ⟨r0, rfl, hA, hB⟩ := hdone
      exact .inr ⟨_, _, r0, _, rfl, hi, rfl, hA, hB, rfl⟩
    | _ => cases hop'

end OsLab.Chaos.Statements
