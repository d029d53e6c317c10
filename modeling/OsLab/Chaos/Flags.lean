import OsLab.Chaos.Updates

/-!
# The flag `PROCESSED`

An order thread sets the flag when it takes a row, before it sorts it, and the chaos thread clears it
when it announces a row, after it has written to it.

* `processed_iff`: when the flag is right in every state of a run.
* `processed_before_sorted`: a row with the flag, not in order.
-/

namespace OsLab.Chaos

open Lib

/-- A row with the flag is in order, and has no entry in `A`. -/
def FlagRight (s : State) : Prop :=
  ∀ r, r < s.M.rows → s.B.at r = some processed → RowSorted s.M r ∧ ∀ i, s.A.at i ≠ some (r : ℤ)

/-- The row that an order thread takes, where `r` is `r0` before. -/
def takenRow (A : Vec ℤ) (r0 : ℤ) : ℤ := ((firstSlot A (0 ≤ ·)).bind A.at).getD r0

/-- What the flag needs of a step: a number written to a row with the flag leaves it in order, and a
row that is taken is in order and has one entry in `A` at most. -/
def KeepsFlag (s : State) : Action → Prop
  | .chaosWrite x y z => s.B.at (draw x s.M.rows) = some processed →
      RowSorted (s.M.put (draw x s.M.rows) (draw y s.M.cols) (draw z 1000)) (draw x s.M.rows)
  | .orderTake _ r0 => ∀ r : ℕ, r < s.M.rows → takenRow s.A r0 = r →
      RowSorted s.M r ∧ ∀ i j, s.A.at i = some (r : ℤ) → s.A.at j = some (r : ℤ) → i = j
  | _ => True

section

variable {s t : State} {M : Grid ℤ} {A A' : Vec ℤ} {r r0 : ℤ} {i j n : ℕ}

/-! ## Taking a row -/

theorem take_takenRow (h : take A r0 = some (r, A')) : takenRow A r0 = r := by
  rcases take_some h with ⟨hnone, heq⟩ | ⟨k, hk, hr, -⟩
  · cases heq
    rw [takenRow, hnone]
    rfl
  · rw [takenRow, hk, Option.bind_some, hr]
    rfl

/-- The row taken has no entry left if and only if it had one entry at most. -/
theorem take_entries (hsize : A.size = 1000) (h : take A r0 = some (r, A')) (hr : 0 ≤ r) :
    (∀ j, A'.at j ≠ some r) ↔ ∀ i j, A.at i = some r → A.at j = some r → i = j := by
  rcases take_some h with ⟨hnone, heq⟩ | ⟨k, hk, hr', hset⟩
  · cases heq
    have hno : ∀ j, A.at j ≠ some r := by
      intro j hj
      have hlt := (Vec.at_eq_some.1 hj).1
      have hneg := firstSlot_none hnone (by omega) hj
      exact absurd hr (by simpa using hneg)
    exact iff_of_true hno fun i _ hi => absurd hi (hno i)
  · obtain ⟨-, hself, hother⟩ := Vec.set_at hset
    constructor
    · intro hno
      have hall : ∀ j, A.at j = some r → j = k := by
        intro j hj
        by_contra hjk
        exact hno j ((hother j hjk).trans hj)
      exact fun i j hi hj => (hall i hi).trans (hall j hj).symm
    · intro hone j hj
      by_cases hjk : j = k
      · rw [hjk, hself] at hj
        cases hj
        exact absurd hr (by decide)
      · exact hjk (hone j k ((hother j hjk).symm.trans hj) hr')

/-! ## One step -/

theorem size_step (s : State) (a : Action) (t : State) (hs : s.A.size = 1000)
    (h : step s a = some t) : t.A.size = 1000 := by
  cases a with
  | chaosWrite x y z =>
    obtain ⟨_, _, _, _, rfl⟩ := step_chaosWrite h
    exact hs
  | chaosEnter =>
    obtain ⟨_, _, A, _, _, hA, _, rfl⟩ := step_chaosEnter h
    exact (announce_at hA).1.trans hs
  | orderTake i r0 =>
    obtain ⟨_, _, A, _, _, _, htake, _, _, rfl⟩ := step_orderTake h
    exact (take_at htake).1.trans hs
  | orderSort i =>
    obtain ⟨_, _, _, _, _, _, _, rfl⟩ := step_orderSort h
    exact hs

theorem flag_write {x y z : ℕ} (hs : FlagRight s) (h : step s (.chaosWrite x y z) = some t) :
    FlagRight t ↔ KeepsFlag s (.chaosWrite x y z) := by
  obtain ⟨itr, -, hr, hc, rfl⟩ := step_chaosWrite h
  constructor
  · exact fun ht hflag => (ht _ hr hflag).1
  · intro hkeep a ha hflag
    by_cases hrow : a = draw x s.M.rows
    · subst hrow
      exact ⟨hkeep hflag, (hs _ ha hflag).2⟩
    · obtain ⟨hsorted, hA⟩ := hs a ha hflag
      have hval : (s.M.put (draw x s.M.rows) (draw y s.M.cols) (draw z 1000)).val a = s.M.val a :=
        funext fun b => Grid.put_other _ _ fun hab => hrow hab.1
      refine ⟨?_, hA⟩
      rw [RowSorted, hval]
      exact hsorted

/-- The flag of the row announced is cleared. -/
theorem flag_enter (hs : FlagRight s) (h : step s .chaosEnter = some t) : FlagRight t := by
  obtain ⟨itr, randR, A, B, -, hA, hB, rfl⟩ := step_chaosEnter h
  obtain ⟨-, -, hset⟩ := setFlag_some hB
  obtain ⟨-, hself, hother⟩ := Vec.set_at hset
  intro a ha hflag
  have hrow : a ≠ randR := by
    rintro rfl
    rw [Int.toNat_natCast] at hself
    rw [hself] at hflag
    cases hflag
  simp only [Int.toNat_natCast] at hother
  rw [hother a hrow] at hflag
  obtain ⟨hsorted, hno⟩ := hs a ha hflag
  refine ⟨hsorted, fun j hj => ?_⟩
  rcases (announce_at hA).2 j a hj with hcast | hold
  · exact hrow (Int.ofNat_inj.1 hcast)
  · exact hno j hold

theorem flag_take (hsize : s.A.size = 1000) (hs : FlagRight s)
    (h : step s (.orderTake i r0) = some t) : FlagRight t ↔ KeepsFlag s (.orderTake i r0) := by
  obtain ⟨itr, r, A, B, orders, -, htake, hB, -, rfl⟩ := step_orderTake h
  obtain ⟨hr, -, hset⟩ := setFlag_some hB
  obtain ⟨-, hself, hother⟩ := Vec.set_at hset
  obtain ⟨r, rfl⟩ := Int.eq_ofNat_of_zero_le hr
  have htaken := take_takenRow htake
  have hone := take_entries hsize htake hr
  rw [Int.toNat_natCast] at hself
  simp only [Int.toNat_natCast] at hother
  constructor
  · intro ht a ha heq
    have hcast := htaken.symm.trans heq
    obtain rfl : r = a := by omega
    obtain ⟨hsorted, hno⟩ := ht r ha hself
    exact ⟨hsorted, hone.1 hno⟩
  · intro hkeep a ha hflag
    by_cases hrow : a = r
    · subst hrow
      obtain ⟨hsorted, hunique⟩ := hkeep a ha htaken
      exact ⟨hsorted, hone.2 hunique⟩
    · rw [hother a hrow] at hflag
      obtain ⟨hsorted, hno⟩ := hs a ha hflag
      refine ⟨hsorted, fun j hj => ?_⟩
      rcases (take_at htake).2 j a hj with hcast | hold
      · omega
      · exact hno j hold

theorem flag_sort (hs : FlagRight s) (h : step s (.orderSort i) = some t) : FlagRight t := by
  obtain ⟨itr, r, orders, sorted, -, hsorted, -, rfl⟩ := step_orderSort h
  have hsorts := sortRegion_sortsRow hsorted
  intro a ha hflag
  obtain ⟨hold, hno⟩ := hs a (hsorts.rows ▸ ha) hflag
  refine ⟨?_, hno⟩
  by_cases hrow : (a : ℤ) = r
  · exact (hsorts.sorted a hrow).1
  · rw [RowSorted, hsorts.others a hrow, hsorts.cols]
    exact hold

/-- **The flag is right after a step** if and only if the step is one that keeps it. -/
theorem flag_step (s : State) (a : Action) (t : State) (hsize : s.A.size = 1000) (hs : FlagRight s)
    (h : step s a = some t) : FlagRight t ↔ KeepsFlag s a := by
  cases a with
  | chaosWrite x y z => exact flag_write hs h
  | chaosEnter => exact iff_of_true (flag_enter hs h) trivial
  | orderTake i r0 => exact flag_take hsize hs h
  | orderSort i => exact iff_of_true (flag_sort hs h) trivial

/-! ## Runs -/

theorem flag_start (M : Grid ℤ) (n : ℕ) : FlagRight (.start M n) := by
  intro r _ hflag
  have hval : (1 : ℤ) = -1 := (Vec.at_eq_some.1 hflag).2
  exact absurd hval (by decide)

/-- **PROCESSED means processed** in every state of a run if and only if each step of it keeps the
flag. -/
theorem processed_iff (M : Grid ℤ) (n : ℕ) (actions : List Action) :
    Throughout step FlagRight (.start M n) actions ↔ Along step KeepsFlag (.start M n) actions := by
  constructor
  · exact along_of_throughout size_step
      (fun s a t hsize hs ht h => (flag_step s a t hsize hs h).1 ht) rfl
  · refine throughout_of_along (I := fun s => s.A.size = 1000 ∧ FlagRight s) (fun s hs => hs.2) ?_
      ⟨rfl, flag_start M n⟩
    exact fun s a t hs hkeep h => ⟨size_step s a t hs.1 h, (flag_step s a t hs.1 hs.2 h).2 hkeep⟩

end

/-- **A row with the flag, not in order**: the order thread has taken it, and not sorted it yet. -/
theorem processed_before_sorted : ¬ ∀ (M : Grid ℤ) (n : ℕ) (actions : List Action) (s : State),
    run step (.start M n) actions = some s → FlagRight s := by
  intro hclaim
  have hrun : (run step (.start twoRows 1) [.chaosWrite 0 0 0, .chaosEnter, .orderTake 0 0]).map
      (fun s => (s.B.at 1, s.M.at 1 0, s.M.at 1 1)) = some (some processed, some 7, some 1) := by
    decide +kernel
  obtain ⟨s, hs, heq⟩ := Option.map_eq_some_iff.1 hrun
  obtain ⟨hflag, h7, h1⟩ : s.B.at 1 = some processed ∧ s.M.at 1 0 = some 7 ∧ s.M.at 1 1 = some 1 := by
    simpa using heq
  obtain ⟨⟨hrow, -⟩, h7⟩ := Option.ite_none_right_eq_some.1 h7
  obtain ⟨⟨-, hcol⟩, h1⟩ := Option.ite_none_right_eq_some.1 h1
  have hle := (hclaim twoRows 1 _ s hs 1 hrow hflag).1 0 1 (by decide) hcol
  rw [Option.some.inj h7, Option.some.inj h1] at hle
  exact absurd hle (by decide)

end OsLab.Chaos
