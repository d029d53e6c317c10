import Mathlib.Data.List.Basic
import Mathlib.Data.List.Iterate
import Mathlib.Data.List.Nodup
import Mathlib.Logic.Function.Basic
import Mathlib.Tactic.Common

/-!
# Intrusive singly linked lists

`Linked next nil first l`: following `next` from `first` visits exactly the nodes of `l`
and then reaches the terminator `nil`. Pushing a fresh node in front adds it (`Linked.push`),
and writing the pointers of other nodes does not matter (`Linked.congr`). The nodes are those that
iterating `next` gives (`Linked.iterate`), so their number determines them.
-/

namespace OsLab.Lib

variable {α : Type*}

/-- The nodes along `next` from `first` up to the terminator `nil`. -/
def Linked (next : α → α) (nil : α) : α → List α → Prop
  | first, [] => first = nil
  | first, e :: l => first = e ∧ Linked next nil (next e) l

variable {next next' : α → α} {nil first : α} {l : List α}

theorem Linked.congr (h : ∀ e ∈ l, next' e = next e) (hl : Linked next nil first l) :
    Linked next' nil first l := by
  induction l generalizing first with
  | nil => exact hl
  | cons e l ih =>
    refine ⟨hl.1, ?_⟩
    rw [h e List.mem_cons_self]
    exact ih (fun x hx => h x (List.mem_cons_of_mem _ hx)) hl.2

/-- Pushing a node in front. -/
theorem Linked.push [DecidableEq α] {e : α} (he : e ∉ l) (hl : Linked next nil first l) :
    Linked (Function.update next e first) nil e (e :: l) := by
  refine ⟨rfl, ?_⟩
  rw [Function.update_self]
  -- the pointers of the other nodes stay
  apply hl.congr
  intro x hx
  exact Function.update_of_ne (by rintro rfl; exact he hx) _ _

theorem Linked.iterate (hl : Linked next nil first l) :
    l = List.iterate next first l.length ∧ next^[l.length] first = nil := by
  induction l generalizing first with
  | nil => exact ⟨rfl, hl⟩
  | cons e l ih =>
    obtain ⟨rfl, hl⟩ := hl
    obtain ⟨hnodes, hend⟩ := ih hl
    exact ⟨congrArg (List.cons first) hnodes, hend⟩

/-- Nodes that are chained in the order of an array, from `k` to its last element. -/
theorem linked_range {next : ℕ → ℕ} {nil N : ℕ} (k n : ℕ) (hk : k + (n + 1) = N)
    (hnext : ∀ i, i + 1 < N → next i = i + 1) (hlast : next (N - 1) = nil) :
    Linked next nil k (List.range' k (n + 1)) := by
  induction n generalizing k with
  | zero =>
    refine ⟨rfl, ?_⟩
    rw [show k = N - 1 by omega]; exact hlast
  | succ n ih =>
    rw [List.range'_succ]
    refine ⟨rfl, ?_⟩
    rw [hnext k (by omega)]
    exact ih (k + 1) (by omega)

end OsLab.Lib
