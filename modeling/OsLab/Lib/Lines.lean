import Mathlib.Data.List.Basic
import Mathlib.Data.Nat.Notation

/-!
# Lines

The lines of a text over any alphabet, each ended by the character `nl`; the last one may have no end.
`unlines` puts lines together, each with its end.

* `linesOf_unlines`, `unlines_linesOf`: both ways round.
* `linesOf_append`: lines are added after a text whose last line has an end.
* `length_linesOf`: the number of lines.
* `not_perm_append`: a text that becomes longer by more than a line end has other lines.
-/

namespace OsLab.Lib

variable {α : Type*} {nl : α} {line t u x : List α} {lines : List (List α)}

/-- The text of some lines. -/
def unlines (nl : α) (lines : List (List α)) : List α := lines.flatMap (· ++ [nl])

/-- A text without a line that has no end. -/
def Ended (nl : α) (t : List α) : Prop := t = [] ∨ t.getLast? = some nl

theorem ended_cons {c : α} (h : t ≠ []) : Ended nl (c :: t) ↔ Ended nl t := by
  obtain ⟨b, rest, rfl⟩ := List.exists_cons_of_ne_nil h
  simp [Ended, List.getLast?_cons_cons]

/-- What is decided for each character of a text. -/
theorem forall_of_all {P : α → Prop} [DecidablePred P] (h : t.all fun c => P c) : ∀ c ∈ t, P c :=
  fun c hc => of_decide_eq_true (List.all_eq_true.1 h c hc)

variable [DecidableEq α]

instance : Decidable (Ended nl t) := inferInstanceAs (Decidable (_ ∨ _))

/-- The lines of a text. -/
def linesOf (nl : α) : List α → List (List α)
  | [] => []
  | c :: t =>
    if c = nl then [] :: linesOf nl t
    else
      match linesOf nl t with
      | [] => [[c]]
      | line :: rest => (c :: line) :: rest

theorem linesOf_nl : linesOf nl (nl :: t) = [] :: linesOf nl t := by rw [linesOf, if_pos rfl]

theorem linesOf_line (h : nl ∉ line) : linesOf nl (line ++ nl :: t) = line :: linesOf nl t := by
  induction line with
  | nil => exact linesOf_nl
  | cons c line ih =>
    have hc : c ≠ nl := fun heq => h (heq ▸ List.mem_cons_self)
    rw [List.cons_append, linesOf, if_neg hc, ih fun hmem => h (List.mem_cons_of_mem _ hmem)]

/-- A text without ends is a single line. -/
theorem linesOf_single (h : nl ∉ line) (hne : line ≠ []) : linesOf nl line = [line] := by
  induction line with
  | nil => exact absurd rfl hne
  | cons c line ih =>
    have hc : c ≠ nl := fun heq => h (heq ▸ List.mem_cons_self)
    rw [linesOf, if_neg hc]
    by_cases hline : line = []
    · rw [hline]
      rfl
    · rw [ih (fun hmem => h (List.mem_cons_of_mem _ hmem)) hline]

theorem not_mem_of_mem_linesOf (h : line ∈ linesOf nl t) : nl ∉ line := by
  induction t generalizing line with
  | nil => cases h
  | cons c t ih =>
    rw [linesOf] at h
    split_ifs at h with hc
    · rcases List.mem_cons.1 h with rfl | h
      · exact List.not_mem_nil
      · exact ih h
    · split at h
      · rw [List.mem_singleton.1 h, List.mem_singleton]
        exact Ne.symm hc
      · next first rest hlines =>
        rw [hlines] at ih
        rcases List.mem_cons.1 h with rfl | h
        · rw [List.mem_cons, not_or]
          exact ⟨Ne.symm hc, ih List.mem_cons_self⟩
        · exact ih (List.mem_cons_of_mem _ h)

/-- The characters of the lines are those of the text. -/
theorem mem_of_mem_linesOf {c : α} (h : line ∈ linesOf nl t) (hc : c ∈ line) : c ∈ t := by
  induction t generalizing line with
  | nil => cases h
  | cons b t ih =>
    rw [linesOf] at h
    split_ifs at h
    · rcases List.mem_cons.1 h with rfl | h
      · cases hc
      · exact List.mem_cons_of_mem _ (ih h hc)
    · split at h
      · rw [List.mem_singleton.1 h, List.mem_singleton] at hc
        rw [hc]
        exact List.mem_cons_self
      · next first rest hlines =>
        rw [hlines] at ih
        rcases List.mem_cons.1 h with rfl | h
        · rcases List.mem_cons.1 hc with rfl | hc
          · exact List.mem_cons_self
          · exact List.mem_cons_of_mem _ (ih List.mem_cons_self hc)
        · exact List.mem_cons_of_mem _ (ih (List.mem_cons_of_mem _ h) hc)

/-- **The lines of lines** are these lines. -/
theorem linesOf_unlines (h : ∀ line ∈ lines, nl ∉ line) : linesOf nl (unlines nl lines) = lines := by
  induction lines with
  | nil => rfl
  | cons line lines ih =>
    rw [unlines, List.flatMap_cons, List.append_assoc, List.singleton_append,
      linesOf_line (h line List.mem_cons_self), ← unlines,
      ih fun l hl => h l (List.mem_cons_of_mem _ hl)]

theorem exists_linesOf (h : t ≠ []) (nl : α) : ∃ line rest, linesOf nl t = line :: rest := by
  cases t with
  | nil => exact absurd rfl h
  | cons c t =>
    rw [linesOf]
    split_ifs
    · exact ⟨_, _, rfl⟩
    · split <;> exact ⟨_, _, rfl⟩

/-- **The text of its lines** is the text, with an end of the last line. -/
theorem unlines_linesOf : unlines nl (linesOf nl t) = if Ended nl t then t else t ++ [nl] := by
  induction t with
  | nil => rfl
  | cons c t ih =>
    by_cases ht : t = []
    · subst ht
      by_cases hc : c = nl <;> simp [linesOf, unlines, Ended, hc]
    · have hcons : unlines nl (linesOf nl (c :: t)) = c :: unlines nl (linesOf nl t) := by
        obtain ⟨line, rest, hlines⟩ := exists_linesOf ht nl
        rw [linesOf]
        split_ifs with hc
        · rw [unlines, List.flatMap_cons, hc]
          rfl
        · rw [hlines]
          rfl
      rw [hcons, ih]
      simp only [ended_cons ht]
      split_ifs <;> rfl

theorem count_unlines (h : ∀ line ∈ lines, nl ∉ line) : (unlines nl lines).count nl = lines.length := by
  induction lines with
  | nil => rfl
  | cons line lines ih =>
    rw [unlines, List.flatMap_cons, ← unlines, List.count_append, List.count_append,
      List.count_eq_zero.2 (h line List.mem_cons_self), ih fun l hl => h l (List.mem_cons_of_mem _ hl)]
    simp [Nat.add_comm]

/-- The number of lines. -/
theorem length_linesOf : (linesOf nl t).length = t.count nl + if Ended nl t then 0 else 1 := by
  rw [← count_unlines fun line hline => not_mem_of_mem_linesOf hline, unlines_linesOf]
  split_ifs
  · rfl
  · rw [List.count_append, List.count_singleton_self]

/-- **Appended lines** come after the lines of a text whose last line has an end. -/
theorem linesOf_append (h : Ended nl t) : linesOf nl (t ++ u) = linesOf nl t ++ linesOf nl u := by
  induction t with
  | nil => rfl
  | cons c t ih =>
    by_cases ht : t = []
    · obtain rfl : c = nl := by simpa [ht, Ended] using h
      rw [ht, List.singleton_append, linesOf_nl, linesOf_nl]
      rfl
    · obtain ⟨line, rest, hlines⟩ := exists_linesOf ht nl
      rw [List.cons_append, linesOf, linesOf, ih ((ended_cons ht).1 h), hlines]
      split_ifs <;> rfl

/-- A text that becomes longer by more than a line end has other lines. -/
theorem not_perm_append (hx : x ≠ []) : ¬ (linesOf nl (t ++ (x ++ [nl]))).Perm (linesOf nl t) := by
  intro hperm
  have hlength : (unlines nl (linesOf nl (t ++ (x ++ [nl])))).length =
      (unlines nl (linesOf nl t)).length :=
    (hperm.flatMap_right _).length_eq
  have hended : Ended nl (t ++ (x ++ [nl])) := .inr (by simp)
  have hpos := List.length_pos_of_ne_nil hx
  rw [unlines_linesOf, unlines_linesOf, if_pos hended] at hlength
  split_ifs at hlength <;> simp only [List.length_append, List.length_singleton] at hlength <;> omega

end OsLab.Lib
