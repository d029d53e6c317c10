import Mathlib.Data.List.Basic
import Mathlib.Tactic.Common

/-!
# Text buffers with an insertion point

A **buffer** is the text before the insertion point and the text after it. Two buffers that take two
different characters to the same texts are equal (`eq_of_insert`): typing shows where the point is.
-/

namespace OsLab.Lib

/-- A text and a point in it. -/
structure Buffer (α : Type*) where
  before : List α
  after : List α
  deriving DecidableEq

namespace Buffer

variable {α : Type*} {b b' : Buffer α} {c d : α}

def text (b : Buffer α) : List α := b.before ++ b.after

/-- The text `l`, with the point at its end. -/
def ofText (l : List α) : Buffer α := ⟨l, []⟩

/-- A character at the point, which moves behind it. -/
def insert (b : Buffer α) (c : α) : Buffer α := ⟨b.before ++ [c], b.after⟩

/-- Without the character before the point. -/
def backspace (b : Buffer α) : Buffer α := ⟨b.before.dropLast, b.after⟩

def toStart (b : Buffer α) : Buffer α := ⟨[], b.text⟩

def toEnd (b : Buffer α) : Buffer α := ofText b.text

@[simp] theorem text_ofText (l : List α) : (ofText l).text = l := List.append_nil l

/-- A character that was inserted at two points of one text. -/
theorem before_le (hcd : c ≠ d) (hc : (b.insert c).text = (b'.insert c).text)
    (hd : (b.insert d).text = (b'.insert d).text) : b'.before.length ≤ b.before.length := by
  rw [← Nat.not_lt]
  intro hlt
  -- the character of the second text at the first point
  have hat : ∀ x : α, (b.insert x).text = (b'.insert x).text →
      b'.before[b.before.length]? = some x := by
    intro x hx
    have hget := congrArg (fun l : List α => l[b.before.length]?) hx
    simpa [text, insert, List.getElem?_append_left hlt] using hget.symm
  have heq := (hat c hc).symm.trans (hat d hd)
  exact hcd (Option.some.inj heq)

/-- **Typing shows where the point is.** -/
theorem eq_of_insert (hcd : c ≠ d) (hc : (b.insert c).text = (b'.insert c).text)
    (hd : (b.insert d).text = (b'.insert d).text) : b = b' := by
  have hlen := Nat.le_antisymm (before_le hcd hc.symm hd.symm) (before_le hcd hc hd)
  have hparts : b.before ++ c :: b.after = b'.before ++ c :: b'.after := by
    simpa [text, insert] using hc
  obtain ⟨hbefore, hafter⟩ := List.append_inj hparts hlen
  cases b with
  | mk before after =>
    cases b' with
    | mk before' after' =>
      simp only [List.cons.injEq, true_and] at hbefore hafter
      rw [hbefore, hafter]

end Buffer

end OsLab.Lib
