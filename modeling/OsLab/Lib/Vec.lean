import Mathlib.Algebra.Group.Int.Defs
import Mathlib.Data.Int.Notation
import Mathlib.Logic.Function.Basic
import Mathlib.Tactic.Common

/-!
# Machine integers and bounded arrays

`int` is `ℤ` with the range `intMin .. intMax`; an addition or a multiplication that leaves the
range is undefined (`addInt`, `mulInt`). A `Vec` is an array of a fixed size and a `Grid` a
rectangular array of arrays; an index past the end is undefined. Reads and writes in range are
described by the value functions `val` (`Vec.at_eq`, `Vec.set_eq`, `Grid.at_eq`, `Grid.set_eq`).
-/

namespace OsLab.Lib

/-- `INT_MAX`. -/
def intMax : ℤ := 2 ^ 31 - 1

/-- `INT_MIN`. -/
def intMin : ℤ := -2 ^ 31

/-- `a + b` on `int`. -/
def addInt (a b : ℤ) : Option ℤ :=
  if intMin ≤ a + b ∧ a + b ≤ intMax then some (a + b) else none

theorem addInt_eq_some {a b c : ℤ} :
    addInt a b = some c ↔ (intMin ≤ c ∧ c ≤ intMax) ∧ c = a + b := by
  unfold addInt
  rw [Option.ite_none_right_eq_some, Option.some_inj]
  constructor
  · rintro ⟨h, rfl⟩
    exact ⟨h, rfl⟩
  · rintro ⟨h, rfl⟩
    exact ⟨h, rfl⟩

/-- `a * b` on `int`. -/
def mulInt (a b : ℤ) : Option ℤ :=
  if intMin ≤ a * b ∧ a * b ≤ intMax then some (a * b) else none

theorem mulInt_eq_some {a b c : ℤ} :
    mulInt a b = some c ↔ (intMin ≤ c ∧ c ≤ intMax) ∧ c = a * b := by
  unfold mulInt
  rw [Option.ite_none_right_eq_some, Option.some_inj]
  constructor
  · rintro ⟨h, rfl⟩
    exact ⟨h, rfl⟩
  · rintro ⟨h, rfl⟩
    exact ⟨h, rfl⟩

/-- An array of `size` elements. -/
structure Vec (α : Type*) where
  size : ℕ
  val : ℕ → α

variable {α : Type*}

/-- `vector<α>(size, x)`. -/
def Vec.replicate (size : ℕ) (x : α) : Vec α := ⟨size, fun _ => x⟩

/-- `v[i]`. -/
def Vec.at (v : Vec α) (i : ℕ) : Option α := if i < v.size then some (v.val i) else none

/-- `v[i] = x`. -/
def Vec.set (v : Vec α) (i : ℕ) (x : α) : Option (Vec α) :=
  if i < v.size then some { v with val := Function.update v.val i x } else none

theorem Vec.at_eq {v : Vec α} {i : ℕ} (h : i < v.size) : v.at i = some (v.val i) := if_pos h

theorem Vec.set_eq {v : Vec α} {i : ℕ} (h : i < v.size) (x : α) :
    v.set i x = some { v with val := Function.update v.val i x } := if_pos h

theorem Vec.at_eq_some {v : Vec α} {i : ℕ} {x : α} :
    v.at i = some x ↔ i < v.size ∧ x = v.val i := by
  unfold Vec.at
  rw [Option.ite_none_right_eq_some, Option.some_inj, @eq_comm α x]

theorem Vec.set_eq_some {v w : Vec α} {i : ℕ} {x : α} :
    v.set i x = some w ↔ i < v.size ∧ w = { v with val := Function.update v.val i x } := by
  unfold Vec.set
  rw [Option.ite_none_right_eq_some, Option.some_inj, @eq_comm (Vec α) w]

/-- The array after a write. -/
theorem Vec.set_at {v w : Vec α} {i : ℕ} {x : α} (h : v.set i x = some w) :
    w.size = v.size ∧ w.at i = some x ∧ ∀ j, j ≠ i → w.at j = v.at j := by
  obtain ⟨hi, rfl⟩ := Vec.set_eq_some.1 h
  refine ⟨rfl, ?_, fun j hj => ?_⟩
  · exact (Vec.at_eq (by exact hi)).trans (by simp)
  · unfold Vec.at
    simp only [Function.update_of_ne hj]

/-- An array of `rows` arrays of `cols` elements. -/
structure Grid (α : Type*) where
  rows : ℕ
  cols : ℕ
  val : ℕ → ℕ → α

/-- `vector<vector<α>>(rows, vector<α>(cols, x))`. -/
def Grid.replicate (rows cols : ℕ) (x : α) : Grid α := ⟨rows, cols, fun _ _ => x⟩

/-- `g[i][j]`. -/
def Grid.at (g : Grid α) (i j : ℕ) : Option α :=
  if i < g.rows ∧ j < g.cols then some (g.val i j) else none

/-- The array after `g[i][j] = x`. -/
def Grid.put (g : Grid α) (i j : ℕ) (x : α) : Grid α :=
  { g with val := fun a b => if a = i ∧ b = j then x else g.val a b }

/-- `g[i][j] = x`. -/
def Grid.set (g : Grid α) (i j : ℕ) (x : α) : Option (Grid α) :=
  if i < g.rows ∧ j < g.cols then some (g.put i j x) else none

theorem Grid.at_eq {g : Grid α} {i j : ℕ} (hi : i < g.rows) (hj : j < g.cols) :
    g.at i j = some (g.val i j) := if_pos ⟨hi, hj⟩

theorem Grid.set_eq {g : Grid α} {i j : ℕ} (hi : i < g.rows) (hj : j < g.cols) (x : α) :
    g.set i j x = some (g.put i j x) := if_pos ⟨hi, hj⟩

@[simp] theorem Grid.put_rows (g : Grid α) (i j : ℕ) (x : α) : (g.put i j x).rows = g.rows := rfl

@[simp] theorem Grid.put_cols (g : Grid α) (i j : ℕ) (x : α) : (g.put i j x).cols = g.cols := rfl

@[simp] theorem Grid.put_self (g : Grid α) (i j : ℕ) (x : α) : (g.put i j x).val i j = x :=
  if_pos ⟨rfl, rfl⟩

theorem Grid.put_other (g : Grid α) {i j a b : ℕ} (x : α) (h : ¬ (a = i ∧ b = j)) :
    (g.put i j x).val a b = g.val a b := if_neg h

end OsLab.Lib
