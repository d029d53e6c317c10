import OsLab.Chaos.Rows
import OsLab.Chaos.Updates
import Mathlib.Algebra.Order.BigOperators.Group.Finset
import Mathlib.Algebra.Order.Group.Multiset
import Mathlib.Tactic.Abel

/-!
# The rows announced and taken

The array `A` is a bag of rows: the chaos thread puts a row into the first free slot, an order thread
takes the first row there is. The chaos thread announces at most 30 rows, so it always finds a free slot.

* `rows_set`: what a write to a slot does to the bag.
* `announced_taken`: no announcement is lost and none is taken twice.
-/

namespace OsLab.Chaos

open Lib

/-- The row in a slot, if there is one. -/
def slotRow (x : Option ℤ) : Multiset ℤ :=
  match x with
  | some r => if 0 ≤ r then {r} else 0
  | none => 0

/-- The rows in the slots that the loops go over. -/
@[irreducible]
def rowsIn (A : Vec ℤ) : Multiset ℤ := ∑ i ∈ Finset.range 1000, slotRow (A.at i)

/-- The rows that the chaos thread has announced, and those that the order threads have taken. -/
structure Tally where
  announced : Multiset ℤ
  taken : Multiset ℤ

/-- The row that the chaos thread is about to announce. -/
def ChaosPc.row : ChaosPc → Multiset ℤ
  | .draw _ => 0
  | .enter _ randR => {(randR : ℤ)}

/-- The row found, if there is one. -/
def foundRow (x : Option ℤ) : Multiset ℤ := x.elim 0 singleton

/-- What a step announces or takes. -/
def noteRows (s : State) (a : Action) (_ : State) (x : Tally) : Tally :=
  match a with
  | .chaosEnter => { x with announced := x.announced + s.chaos.row }
  | .orderTake _ _ => { x with taken := x.taken + foundRow (found s.A) }
  | _ => x

section

variable {s t : State} {A A' : Vec ℤ} {x y r r0 : ℤ} {i n : ℕ} {updated : List ℕ} {w : Tally}

/-! ## The bag -/

theorem slotRow_row (h : 0 ≤ r) : slotRow (some r) = {r} := if_pos h

theorem slotRow_free (h : r < 0) : slotRow (some r) = 0 := if_neg (not_le.2 h)

theorem mem_rowsIn : r ∈ rowsIn A ↔ 0 ≤ r ∧ ∃ i, i < 1000 ∧ A.at i = some r := by
  unfold rowsIn
  rw [Multiset.mem_sum]
  simp only [Finset.mem_range]
  constructor
  · rintro ⟨i, hi, hr⟩
    cases hA : A.at i with
    | none => rw [hA] at hr; exact absurd hr (Multiset.notMem_zero r)
    | some x =>
      rw [hA] at hr
      by_cases hx : 0 ≤ x
      · rw [slotRow_row hx, Multiset.mem_singleton] at hr
        exact ⟨hr ▸ hx, i, hi, by rw [hA, hr]⟩
      · rw [slotRow_free (not_le.1 hx)] at hr
        exact absurd hr (Multiset.notMem_zero r)
  · rintro ⟨hr, i, hi, hA⟩
    exact ⟨i, hi, by rw [hA, slotRow_row hr]; exact Multiset.mem_singleton_self r⟩

/-- **A write to a slot** exchanges the row in it. -/
theorem rows_set (h : A.set i y = some A') (hi : i < 1000) :
    rowsIn A' + slotRow (A.at i) = rowsIn A + slotRow (some y) := by
  obtain ⟨-, hself, hother⟩ := Vec.set_at h
  have hmem : i ∈ Finset.range 1000 := Finset.mem_range.2 hi
  have hrest : ∑ j ∈ (Finset.range 1000).erase i, slotRow (A'.at j) =
      ∑ j ∈ (Finset.range 1000).erase i, slotRow (A.at j) :=
    Finset.sum_congr rfl fun j hj => by rw [hother j (Finset.ne_of_mem_erase hj)]
  unfold rowsIn
  rw [← Finset.add_sum_erase _ _ hmem, ← Finset.add_sum_erase _ (fun j => slotRow (A.at j)) hmem,
    hrest, hself]
  abel

/-- The chaos thread adds a row, if there is a free slot. -/
theorem rows_announce (h : announce A r = some A') (hr : 0 ≤ r) (hi : i < 1000)
    (hfree : A.at i = some (-1)) : rowsIn A' = rowsIn A + {r} := by
  rcases announce_some h with ⟨hnone, -⟩ | ⟨j, hj, hset⟩
  · exact absurd (firstSlot_none hnone hi hfree) (by decide)
  · obtain ⟨hj1000, x, hx, hp⟩ := firstSlot_some hj
    obtain rfl : x = -1 := of_decide_eq_true hp
    have hrows := rows_set hset hj1000
    rwa [hx, slotRow_free (by decide), add_zero, slotRow_row hr] at hrows

/-- An order thread takes the row that it finds, or there is none. -/
theorem rows_take (h : take A r0 = some (r, A')) :
    rowsIn A = foundRow (found A) + rowsIn A' ∧ (found A = none ↔ rowsIn A = 0) := by
  rcases take_some h with ⟨hnone, heq⟩ | ⟨k, hk, hr, hset⟩
  · cases heq
    have hf : found A = none := by unfold found; rw [hnone]; rfl
    have h0 : rowsIn A = 0 := Multiset.eq_zero_of_forall_notMem fun x hx => by
      obtain ⟨hpos, i, hi, hA⟩ := mem_rowsIn.1 hx
      have hfalse := firstSlot_none hnone hi hA
      rw [decide_eq_true hpos] at hfalse
      cases hfalse
    rw [hf]
    exact ⟨(zero_add _).symm, iff_of_true rfl h0⟩
  · have hr : A.at k = some r := hr
    obtain ⟨hk1000, x, hx, hp⟩ := firstSlot_some hk
    rw [hr] at hx
    cases hx
    have hf : found A = some r := by unfold found; rw [hk]; exact hr
    have hrows := rows_set hset hk1000
    rw [hr, slotRow_row (of_decide_eq_true hp), slotRow_free (by decide), add_zero] at hrows
    rw [hf, ← hrows]
    refine ⟨add_comm _ _, iff_of_false nofun fun h0 => ?_⟩
    have hmem : r ∈ rowsIn A' + {r} := Multiset.mem_add.2 (.inr (Multiset.mem_singleton_self r))
    rw [h0] at hmem
    exact Multiset.notMem_zero r hmem

/-! ## Runs -/

/-- Every row announced has been taken, or is still there. -/
structure TallyInv (s : State) (w : Tally) : Prop where
  inv : Inv s []
  rows : w.announced = w.taken + rowsIn s.A

theorem Inv.forget (h : Inv s updated) : Inv s [] :=
  ⟨h.size, h.left, h.free, fun _ hr => absurd hr List.not_mem_nil⟩

theorem tallyInv_start (M : Grid ℤ) (n : ℕ) : TallyInv (.start M n) ⟨0, 0⟩ where
  inv := inv_start M n
  rows := by
    rw [zero_add, eq_comm]
    refine Multiset.eq_zero_of_forall_notMem fun x hx => ?_
    obtain ⟨hpos, i, -, hA⟩ := mem_rowsIn.1 hx
    have hx : x = -1 := (Vec.at_eq_some.1 hA).2
    omega

theorem rows_enter (hI : TallyInv s w) (h : step s .chaosEnter = some t) :
    rowsIn t.A = rowsIn s.A + s.chaos.row := by
  obtain ⟨itr, randR, A, B, hpc, hA, -, ht⟩ := step_chaosEnter h
  have hleft := hI.inv.left
  have hfree := hI.inv.free
  rw [hpc] at hleft hfree
  simp only [ChaosPc.left] at hleft hfree
  -- the slots from the number of rounds on are free
  rw [ht, hpc]
  exact rows_announce hA (Int.natCast_nonneg randR) (by omega) (hfree (29 - itr) (by omega) (by omega))

theorem rows_orderTake (h : step s (.orderTake i r0) = some t) :
    rowsIn s.A = foundRow (found s.A) + rowsIn t.A := by
  obtain ⟨itr, r, A, B, orders, -, htake, -, -, ht⟩ := step_orderTake h
  rw [ht]
  exact (rows_take htake).1

/-- **One step.** -/
theorem tallyInv_step {a : Action} (hI : TallyInv s w) (h : step s a = some t) :
    TallyInv t (noteRows s a t w) := by
  have hrows := hI.rows
  cases a with
  | chaosWrite x y z =>
    obtain ⟨itr, -, -, -, ht⟩ := step_chaosWrite h
    exact ⟨(inv_write hI.inv h).forget, by rw [ht]; exact hrows⟩
  | chaosEnter =>
    refine ⟨inv_enter hI.inv h, ?_⟩
    show w.announced + s.chaos.row = w.taken + rowsIn t.A
    rw [rows_enter hI h, hrows, add_assoc]
  | orderTake i r0 =>
    refine ⟨inv_take hI.inv h, ?_⟩
    show w.announced = w.taken + foundRow (found s.A) + rowsIn t.A
    rw [hrows, rows_orderTake h, add_assoc]
  | orderSort i =>
    obtain ⟨itr, r, orders, sorted, -, -, -, ht⟩ := step_orderSort h
    exact ⟨inv_sort hI.inv h, by rw [ht]; exact hrows⟩

/-- **No announcement is lost, and none is taken twice.** In every state that is reached, the rows that
were announced are those that were taken and those in `A`, each as often as it was announced; and an
order thread finds nothing only if every announcement was taken. -/
theorem announced_taken {M : Grid ℤ} {actions : List Action}
    (h : run (record step noteRows) (.start M n, ⟨0, 0⟩) actions = some (s, w)) :
    w.announced = w.taken + rowsIn s.A ∧ (found s.A = none ↔ w.announced = w.taken) := by
  have hI : TallyInv s w := run_inv' (I := fun u : State × Tally => TallyInv u.1 u.2)
    (fun _ _ _ hI h => by
      obtain ⟨t, ht, rfl⟩ := Option.map_eq_some_iff.1 h
      exact tallyInv_step hI ht) (tallyInv_start M n) h
  have hrows := hI.rows
  refine ⟨hrows, ?_⟩
  obtain ⟨⟨r, A⟩, htake⟩ := take_defined s.A 0
  rw [hrows, add_eq_left]
  exact (rows_take htake).2

/-- The second row is announced twice, and taken once. -/
theorem announced_taken_twoRows : ∃ s w, run (record step noteRows) (.start twoRows 1, ⟨0, 0⟩)
    [.chaosWrite 0 0 0, .chaosEnter, .chaosWrite 0 0 0, .chaosEnter, .orderTake 0 0] = some (s, w) ∧
    w.announced = w.taken + rowsIn s.A ∧ (found s.A = none ↔ w.announced = w.taken) := by
  obtain ⟨⟨s, w⟩, hs⟩ := Option.isSome_iff_exists.1 (show (run (record step noteRows)
    (.start twoRows 1, ⟨0, 0⟩) [.chaosWrite 0 0 0, .chaosEnter, .chaosWrite 0 0 0, .chaosEnter,
      .orderTake 0 0]).isSome by decide +kernel)
  exact ⟨s, w, hs, announced_taken hs⟩

end

end OsLab.Chaos
