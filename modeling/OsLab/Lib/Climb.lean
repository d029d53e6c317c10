import Mathlib.Logic.Relation
import Mathlib.Order.WellFoundedSet

/-!
# Climbing

A relation leads from each place to one place above it at most. Without cycles, and with finitely
many places to come to, every climb ends, and at one place (`exists_top`, `top_unique`). What is
reached on the way is below the end (`below_top`).
-/

namespace OsLab.Lib

open Relation

variable {α : Type*} {R : α → α → Prop} {a b r r' : α}

/-- Nothing is above `a`. -/
def Top (R : α → α → Prop) (a : α) : Prop := ∀ b, ¬ R a b

theorem Top.eq (h : Top R a) (hab : ReflTransGen R a b) : b = a := by
  rcases ReflTransGen.cases_head hab with heq | ⟨c, hc, -⟩
  · exact heq.symm
  · exact absurd hc (h c)

/-- What is reached on the way is below the end. -/
theorem below_top (hR : Relator.RightUnique R) (hr : ReflTransGen R a r) (htop : Top R r)
    (hb : ReflTransGen R a b) : ReflTransGen R b r := by
  rcases ReflTransGen.total_of_right_unique hR hb hr with h | h
  · exact h
  · rw [htop.eq h]

/-- **A climb ends at one place.** -/
theorem top_unique (hR : Relator.RightUnique R) (hr : ReflTransGen R a r) (htop : Top R r)
    (hr' : ReflTransGen R a r') (htop' : Top R r') : r' = r :=
  (htop'.eq (below_top hR hr htop hr')).symm

/-- **A climb ends.** -/
theorem exists_top (hfin : {b | ∃ a, R a b}.Finite) (hacyc : ∀ a, ¬ TransGen R a a) (a : α) :
    ∃ r, ReflTransGen R a r ∧ Top R r := by
  have hreach : {b | ReflTransGen R a b}.Finite := by
    refine (hfin.insert a).subset fun b hb => ?_
    rcases ReflTransGen.cases_tail hb with rfl | ⟨c, -, hc⟩
    · exact Set.mem_insert _ _
    · exact Set.mem_insert_of_mem _ ⟨c, hc⟩
  have horder : IsStrictOrder α (fun x y => TransGen R y x) :=
    { irrefl := hacyc
      trans := fun x y z hxy hyz => hyz.trans hxy }
  obtain ⟨⟨r, hr⟩, -, hmin⟩ := (hreach.wellFoundedOn (r := fun x y => TransGen R y x)).has_min
    Set.univ ⟨⟨a, ReflTransGen.refl⟩, trivial⟩
  exact ⟨r, hr, fun b hb => hmin ⟨b, hr.tail hb⟩ trivial (TransGen.single hb)⟩

end OsLab.Lib
