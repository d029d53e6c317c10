import OsLab.Chaos.Model

/-!
# Updated rows get sorted

A row that the chaos thread has written is announced next, taken later, and sorted after that; until
then one of the threads or the array `A` has it (`Handled`). The chaos thread goes over its loop 30
times, so `A` always has a free slot.

* `updated_handled`: every row written is in order, or will be sorted.
-/

namespace OsLab.Chaos

open Lib

/-! ## The property -/

/-- The rows written so far. -/
def noteUpdate (s : State) (a : Action) (_ : State) (updated : List ℕ) : List ℕ :=
  match a with
  | .chaosWrite x _ _ => draw x s.M.rows :: updated
  | _ => updated

/-- The row is in order, or has an entry in `A`, or has been taken and not yet sorted, or has been
written and not yet announced. -/
def Handled (s : State) (r : ℕ) : Prop :=
  RowSorted s.M r ∨ (∃ i, s.A.at i = some (r : ℤ)) ∨
    (∃ i itr, s.orders.at i = some (.sort itr r)) ∨ ∃ itr, s.chaos = .enter itr r

/-- `M'` is `M` with the row `r` in order. -/
structure SortsRow (M M' : Grid ℤ) (r : ℤ) : Prop where
  rows : M'.rows = M.rows
  cols : M'.cols = M.cols
  sorted : ∀ a : ℕ, (a : ℤ) = r → RowSorted M' a ∧ PermUpTo (M'.val a) (M.val a) M.cols
  others : ∀ a : ℕ, (a : ℤ) ≠ r → M'.val a = M.val a

/-- The rounds that the chaos thread has left. -/
def ChaosPc.left : ChaosPc → ℕ
  | .draw itr => itr
  | .enter itr _ => itr + 1

/-- Every row written is handled, and the slots that the chaos thread has not come to are free. -/
structure Inv (s : State) (updated : List ℕ) : Prop where
  size : s.A.size = 1000
  left : s.chaos.left ≤ 30
  free : ∀ i, i < 1000 → 30 - s.chaos.left ≤ i → s.A.at i = some (-1)
  handled : ∀ r ∈ updated, Handled s r

section

variable {s t : State} {updated : List ℕ} {M : Grid ℤ} {A A' : Vec ℤ} {r r0 : ℤ} {i n : ℕ}

theorem sortRegion_sortsRow {y : SortedRow} (h : sortRegion M r = some y) : SortsRow M y.M r := by
  rw [(sortRegion_some h).1]
  refine ⟨rfl, rfl, ?_, fun a ha => mapRow_other ha⟩
  rintro a rfl
  refine ⟨mapRow_sorted M a, ?_⟩
  have hval : (mapRow M a fun f => exchangeSort f M.cols M.cols).val a =
      exchangeSort (M.val a) M.cols M.cols := if_pos rfl
  rw [hval]
  exact exchangeSort_perm _ _

/-! ## One step -/

theorem inv_start (M : Grid ℤ) (n : ℕ) : Inv (.start M n) [] where
  size := rfl
  left := le_rfl
  free := fun _ hi _ => Vec.at_eq hi
  handled := fun _ hr => absurd hr List.not_mem_nil

/-- The row written is the one to announce. -/
theorem inv_write {x y z : ℕ} (hs : Inv s updated) (h : step s (.chaosWrite x y z) = some t) :
    Inv t (draw x s.M.rows :: updated) := by
  obtain ⟨itr, hpc, hr, hc, rfl⟩ := step_chaosWrite h
  have hleft := hs.left
  have hfree := hs.free
  rw [hpc] at hleft hfree
  refine ⟨hs.size, hleft, hfree, fun a ha => ?_⟩
  by_cases hrow : a = draw x s.M.rows
  · exact .inr (.inr (.inr ⟨itr, by rw [hrow]⟩))
  · rcases hs.handled a (List.mem_of_ne_of_mem hrow ha) with hsorted | hA | htaken | ⟨_, hwritten⟩
    · refine .inl ?_
      have hval : (s.M.put (draw x s.M.rows) (draw y s.M.cols) (draw z 1000)).val a = s.M.val a :=
        funext fun b => Grid.put_other _ _ fun hab => hrow hab.1
      rw [RowSorted, hval]
      exact hsorted
    · exact .inr (.inl hA)
    · exact .inr (.inr (.inl htaken))
    · rw [hpc] at hwritten
      cases hwritten

/-- The row is announced, since there is a free slot. -/
theorem inv_enter (hs : Inv s updated) (h : step s .chaosEnter = some t) : Inv t updated := by
  obtain ⟨itr, randR, A, B, hpc, hA, -, rfl⟩ := step_chaosEnter h
  have hleft := hs.left
  have hfree := hs.free
  simp only [hpc, ChaosPc.left] at hleft hfree
  have hnext := hfree (29 - itr) (by omega) (by omega)
  rcases announce_some hA with ⟨hnone, -⟩ | ⟨i, hi, hset⟩
  · exact absurd (firstSlot_none hnone (by omega) hnext) (by decide)
  have hle := firstSlot_le hi hnext (by decide)
  obtain ⟨-, x, hx, hpx⟩ := firstSlot_some hi
  obtain ⟨hsize, hself, hother⟩ := Vec.set_at hset
  refine ⟨hsize.trans hs.size, by simp only [ChaosPc.left]; omega, fun j hj hge => ?_, fun a ha => ?_⟩
  · simp only [ChaosPc.left] at hge
    rw [hother j (by omega)]
    exact hfree j hj (by omega)
  · by_cases hrow : a = randR
    · exact .inr (.inl ⟨i, by rw [hrow]; exact hself⟩)
    · rcases hs.handled a ha with hsorted | ⟨j, hj⟩ | htaken | ⟨_, hwritten⟩
      · exact .inl hsorted
      · -- an entry is not a free slot
        have hne : j ≠ i := by
          rintro rfl
          rw [hj] at hx
          cases hx
          exact absurd (of_decide_eq_true hpx) (by omega)
        exact .inr (.inl ⟨j, (hother j hne).trans hj⟩)
      · exact .inr (.inr (.inl htaken))
      · rw [hpc] at hwritten
        cases hwritten
        exact absurd rfl hrow

/-- The row is the order thread's to sort. -/
theorem inv_take (hs : Inv s updated) (h : step s (.orderTake i r0) = some t) : Inv t updated := by
  obtain ⟨itr, r, A, B, orders, hpc, htake, -, horders, rfl⟩ := step_orderTake h
  obtain ⟨-, hself, hother⟩ := Vec.set_at horders
  -- an entry stays, or is the one that is taken
  obtain ⟨hsize, hentry⟩ : A.size = s.A.size ∧ ∀ j x, s.A.at j = some x →
      A.at j = some x ∨ (x = r ∧ A.at j = some (-1)) := by
    rcases take_some htake with ⟨-, heq⟩ | ⟨k, -, hk, hset⟩
    · cases heq
      exact ⟨rfl, fun j x hj => .inl hj⟩
    · obtain ⟨hsize, hset, hkeep⟩ := Vec.set_at hset
      refine ⟨hsize, fun j x hj => ?_⟩
      by_cases hjk : j = k
      · subst hjk
        rw [hk] at hj
        exact .inr ⟨(Option.some.inj hj).symm, hset⟩
      · exact .inl ((hkeep j hjk).trans hj)
  refine ⟨hsize.trans hs.size, hs.left, fun j hj hge => ?_, fun a ha => ?_⟩
  · rcases hentry j (-1) (hs.free j hj hge) with hkeep | ⟨-, hfree⟩
    · exact hkeep
    · exact hfree
  · rcases hs.handled a ha with hsorted | ⟨j, hj⟩ | ⟨k, itr', hk⟩ | hwritten
    · exact .inl hsorted
    · rcases hentry j a hj with hkeep | ⟨rfl, -⟩
      · exact .inr (.inl ⟨j, hkeep⟩)
      · exact .inr (.inr (.inl ⟨i, itr, hself⟩))
    · have hne : k ≠ i := by
        rintro rfl
        rw [hpc] at hk
        cases hk
      exact .inr (.inr (.inl ⟨k, itr', (hother k hne).trans hk⟩))
    · exact .inr (.inr (.inr hwritten))

/-- The row is in order. -/
theorem inv_sort (hs : Inv s updated) (h : step s (.orderSort i) = some t) : Inv t updated := by
  obtain ⟨itr, r, orders, sorted, hpc, hsorted, horders, rfl⟩ := step_orderSort h
  obtain ⟨-, -, hother⟩ := Vec.set_at horders
  have hsorts := sortRegion_sortsRow hsorted
  refine ⟨hs.size, hs.left, hs.free, fun a ha => ?_⟩
  by_cases hrow : (a : ℤ) = r
  · exact .inl (hsorts.sorted a hrow).1
  · rcases hs.handled a ha with hold | hA | ⟨k, itr', hk⟩ | hwritten
    · refine .inl ?_
      rw [RowSorted, hsorts.others a hrow, hsorts.cols]
      exact hold
    · exact .inr (.inl hA)
    · have hne : k ≠ i := by
        rintro rfl
        rw [hpc] at hk
        cases hk
        exact hrow rfl
      exact .inr (.inr (.inl ⟨k, itr', (hother k hne).trans hk⟩))
    · exact .inr (.inr (.inr hwritten))

/-! ## Runs -/

theorem inv_step (s : State × List ℕ) (a : Action) (t : State × List ℕ) (hs : Inv s.1 s.2)
    (h : record step noteUpdate s a = some t) : Inv t.1 t.2 := by
  obtain ⟨t, ht, rfl⟩ := Option.map_eq_some_iff.1 h
  cases a with
  | chaosWrite x y z => exact inv_write hs ht
  | chaosEnter => exact inv_enter hs ht
  | orderTake i r0 => exact inv_take hs ht
  | orderSort i => exact inv_sort hs ht

/-- **Updated rows get sorted.** In every state that is reached, every row written is in order, or will
be sorted; and a thread that sorts leaves the row in order with the numbers it had, and the other rows
as they were. -/
theorem updated_handled (M : Grid ℤ) (n : ℕ) (actions : List Action) (s : State) (updated : List ℕ)
    (h : run (record step noteUpdate) (.start M n, []) actions = some (s, updated)) :
    (∀ r ∈ updated, Handled s r) ∧ ∀ i t, step s (.orderSort i) = some t →
      ∃ itr r, s.orders.at i = some (.sort itr r) ∧ SortsRow s.M t.M r := by
  have hinv : Inv s updated := run_inv' (I := fun x : State × List ℕ => Inv x.1 x.2) inv_step
    (inv_start M n) h
  refine ⟨hinv.handled, fun i t ht => ?_⟩
  obtain ⟨itr, r, orders, sorted, hpc, hsorted, -, rfl⟩ := step_orderSort ht
  exact ⟨itr, r, hpc, sortRegion_sortsRow hsorted⟩

/-- Two rows, the first of which the chaos thread does not write to. -/
def twoRows : Grid ℤ := ⟨2, 2, fun i j => if i = 1 ∧ j = 0 then 7 else 9⟩

/-- The number 1 is written to the end of the second row, which is announced and taken. -/
theorem updated_twoRows : ∃ s, run (record step noteUpdate) (.start twoRows 1, [])
    [.chaosWrite 0 0 0, .chaosEnter, .orderTake 0 0] = some (s, [1]) ∧ Handled s 1 := by
  have hrun : (run (record step noteUpdate) (.start twoRows 1, [])
      [.chaosWrite 0 0 0, .chaosEnter, .orderTake 0 0]).map Prod.snd = some [1] := by decide +kernel
  obtain ⟨⟨s, _⟩, hs, rfl⟩ := Option.map_eq_some_iff.1 hrun
  exact ⟨s, hs, (updated_handled twoRows 1 _ s [1] hs).1 1 List.mem_cons_self⟩

end

end OsLab.Chaos
