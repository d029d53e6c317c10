import Mathlib.Data.List.GetD
import Mathlib.Logic.Function.Basic
import Mathlib.Tactic.Common

/-!
# A row of a terminal

A row of cells that are blank at first, with a cursor. The row has no right end, and the cursor stops at
its left one. A program that wants to change the text it has **shown** goes back over it with
`"\b \b"`, and writes it again.

* `puts_erases`: what is blank after some of these, also at the left end.
* `Shows.gap`: one of them within the text.
* `Shows.replaced`: the row after another text is written over the one that was shown.
-/

namespace OsLab.Lib

/-- What a terminal is sent. -/
inductive Output where
  | glyph (c : Char)
  /-- `\b` -/
  | backspace
  /-- `ESC [ n D` -/
  | left (n : ℕ)
  /-- `ESC [ n C` -/
  | right (n : ℕ)
  deriving DecidableEq

structure Terminal where
  cells : ℕ → Char
  cursor : ℕ

namespace Terminal

def blank : Terminal := ⟨fun _ => ' ', 0⟩

/-- A move by 0 is a move by 1. -/
def put (t : Terminal) : Output → Terminal
  | .glyph c => ⟨Function.update t.cells t.cursor c, t.cursor + 1⟩
  | .backspace => { t with cursor := t.cursor - 1 }
  | .left n => { t with cursor := t.cursor - max n 1 }
  | .right n => { t with cursor := t.cursor + max n 1 }

def puts (t : Terminal) (os : List Output) : Terminal := os.foldl put t

/-- The row has the text, and nothing behind it, with the cursor at `p`. -/
structure Shows (t : Terminal) (l : List Char) (p : ℕ) : Prop where
  cells : ∀ i, t.cells i = l.getD i ' '
  cursor : t.cursor = p

/-- `"\b \b"`, `n` times. -/
def erases (n : ℕ) : List Output := (List.replicate n [.backspace, .glyph ' ', .backspace]).flatten

variable {t : Terminal} {l e : List Char} {m n p : ℕ}

theorem puts_append (t : Terminal) (os os' : List Output) : t.puts (os ++ os') = (t.puts os).puts os' :=
  List.foldl_append

theorem erases_add (m n : ℕ) : erases (m + n) = erases m ++ erases n := by
  rw [erases, ← List.replicate_append_replicate, List.flatten_append]
  rfl

/-- Past the left end, the first cell is written again and again. -/
theorem puts_erases (t : Terminal) (n : ℕ) :
    t.puts (erases n) =
      ⟨fun i => if t.cursor - n ≤ i ∧ i < t.cursor ∨ i = 0 ∧ t.cursor < n then ' ' else t.cells i,
        t.cursor - n⟩ := by
  induction n generalizing t with
  | zero =>
    have hnone : ∀ i, ¬ (t.cursor - 0 ≤ i ∧ i < t.cursor ∨ i = 0 ∧ t.cursor < 0) := fun i => by omega
    simp only [hnone, if_false]
    rfl
  | succ n ih =>
    rw [Nat.add_comm, erases_add, puts_append, ih]
    show (⟨fun i => if t.cursor - 1 - n ≤ i ∧ i < t.cursor - 1 ∨ i = 0 ∧ t.cursor - 1 < n then ' '
      else Function.update t.cells (t.cursor - 1) ' ' i, t.cursor - 1 - n⟩ : Terminal) = _
    rw [Terminal.mk.injEq]
    refine ⟨funext fun i => ?_, by omega⟩
    by_cases hi : i = t.cursor - 1
    · subst hi
      rw [Function.update_self, ite_self, if_pos (by omega)]
    · rw [Function.update_of_ne hi]
      congr 1
      apply propext
      omega

theorem puts_glyphs (t : Terminal) (l : List Char) :
    t.puts (l.map .glyph) =
      ⟨fun i => if t.cursor ≤ i ∧ i < t.cursor + l.length then l.getD (i - t.cursor) ' '
        else t.cells i, t.cursor + l.length⟩ := by
  induction l generalizing t with
  | nil =>
    have hnone : ∀ i, ¬ (t.cursor ≤ i ∧ i < t.cursor + ([] : List Char).length) := fun i => by
      rw [List.length_nil]
      omega
    simp only [hnone, if_false]
    rfl
  | cons c l ih =>
    show (t.put (.glyph c)).puts (l.map .glyph) = _
    rw [ih, Terminal.mk.injEq]
    refine ⟨funext fun i => ?_, ?_⟩
    · show (if t.cursor + 1 ≤ i ∧ i < t.cursor + 1 + l.length then l.getD (i - (t.cursor + 1)) ' '
        else Function.update t.cells t.cursor c i) = _
      rw [List.length_cons]
      by_cases hi : i = t.cursor
      · subst hi
        rw [Function.update_self, if_neg (by omega), if_pos (by omega), Nat.sub_self]
        rfl
      · rw [Function.update_of_ne hi]
        split_ifs with h1 h2 h2
        · obtain ⟨k, rfl⟩ : ∃ k, i = t.cursor + 1 + k := ⟨i - (t.cursor + 1), by omega⟩
          rw [Nat.add_sub_cancel_left, show t.cursor + 1 + k - t.cursor = k + 1 by omega]
          rfl
        · omega
        · omega
        · rfl
    · show t.cursor + 1 + l.length = t.cursor + (l.length + 1)
      omega

theorem puts_lefts (t : Terminal) (n : ℕ) :
    t.puts (List.replicate n (.left 1)) = { t with cursor := t.cursor - n } := by
  induction n generalizing t with
  | zero => rfl
  | succ n ih =>
    show (t.put (.left 1)).puts _ = _
    rw [ih, Terminal.mk.injEq]
    exact ⟨rfl, by show t.cursor - 1 - n = t.cursor - (n + 1); omega⟩

theorem puts_rights (t : Terminal) (n : ℕ) :
    t.puts (List.replicate n (.right 1)) = { t with cursor := t.cursor + n } := by
  induction n generalizing t with
  | zero => rfl
  | succ n ih =>
    show (t.put (.right 1)).puts _ = _
    rw [ih, Terminal.mk.injEq]
    exact ⟨rfl, by show t.cursor + 1 + n = t.cursor + (n + 1); omega⟩

/-- **Another text over the one that was shown.** The cursor has gone back to the left end; what stood at
or behind its old place, and is not written over, stays. -/
theorem Shows.replaced (h : t.Shows l p) (hm : p ≤ m) (h0 : m = 0 → l = []) (e : List Char) :
    t.puts (erases m ++ e.map .glyph) =
      ⟨fun i => if i < e.length then e.getD i ' ' else if i < max p 1 then ' ' else l.getD i ' ',
        e.length⟩ := by
  rw [puts_append, puts_glyphs, puts_erases, Terminal.mk.injEq]
  have hzero : t.cursor - m = 0 := by rw [h.cursor]; omega
  refine ⟨funext fun i => ?_, by dsimp only; rw [hzero, Nat.zero_add]⟩
  dsimp only
  rw [hzero, Nat.sub_zero, h.cursor, h.cells]
  simp only [Nat.zero_le, true_and, Nat.zero_add]
  split_ifs with h1 h2 h3 h3
  · rfl
  · rfl
  · omega
  · -- the first cell, where nothing was shown
    obtain rfl : m = 0 := by omega
    rw [h0 rfl]
    rfl
  · rfl

/-- A text that is no shorter takes the place of the other one. -/
theorem Shows.rewritten (h : t.Shows l p) (hp : p ≤ l.length) (he : l.length ≤ e.length) :
    (t.puts (erases l.length ++ e.map .glyph)).Shows e e.length := by
  rw [h.replaced hp List.length_eq_zero_iff.1]
  refine ⟨fun i => ?_, rfl⟩
  dsimp only
  split_ifs with h1 h2
  · rfl
  · exact (List.getD_eq_default _ _ (Nat.le_of_not_lt h1)).symm
  · rw [List.getD_eq_default _ _ (Nat.le_of_not_lt h1), List.getD_eq_default _ _ (by omega)]

/-- What the row shows, said in another way. -/
theorem Shows.iff (h : t.Shows l p) {q : ℕ} :
    t.Shows e q ↔ p = q ∧ ∀ i, l.getD i ' ' = e.getD i ' ' := by
  constructor
  · intro h'
    exact ⟨h.cursor.symm.trans h'.cursor, fun i => (h.cells i).symm.trans (h'.cells i)⟩
  · rintro ⟨rfl, hcells⟩
    exact ⟨fun i => (h.cells i).trans (hcells i), h.cursor⟩

/-- One erasure leaves a gap, and the text behind it where it was. -/
theorem Shows.gap (h : t.Shows (l ++ e) l.length) (hl : l ≠ []) :
    (t.puts (erases 1)).Shows (l.dropLast ++ ' ' :: e) (l.length - 1) := by
  have hpos := List.length_pos_iff.2 hl
  have hdrop : l.dropLast.length = l.length - 1 := List.length_dropLast
  rw [puts_erases]
  refine ⟨fun i => ?_, by dsimp only; rw [h.cursor]⟩
  dsimp only
  rw [h.cursor, h.cells]
  rcases Nat.lt_trichotomy i (l.length - 1) with hi | hi | hi
  · rw [if_neg (by omega), List.getD_append _ _ _ _ (by omega), List.getD_append _ _ _ _ (by omega),
      List.getD_eq_getElem _ _ (by omega), List.getD_eq_getElem _ _ (by omega), List.getElem_dropLast]
  · rw [if_pos (by omega), List.getD_append_right _ _ _ _ (by omega), hi, hdrop, Nat.sub_self]
    rfl
  · obtain ⟨k, rfl⟩ : ∃ k, i = l.length + k := ⟨i - l.length, by omega⟩
    rw [if_neg (by omega), List.getD_append_right _ _ _ _ (by omega),
      List.getD_append_right _ _ _ _ (by omega), hdrop, Nat.add_sub_cancel_left,
      show l.length + k - (l.length - 1) = k + 1 by omega]
    rfl

end Terminal

end OsLab.Lib
