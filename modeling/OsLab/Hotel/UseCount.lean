import OsLab.Hotel.Rooms
import OsLab.Hotel.Schedule

/-!
# What `use_count` counts

`use_count` is incremented by the guests and reset by the cleaner that counts the last room, which
is not when the last guest of the cleaning phase is counted: a guest that is past its test of
`use_count` can take a cleaned room, and count its stay, while other rooms are still being
cleaned. `Timely` says that this does not happen, and that no cleaner resets a room late, outside
a phase. `Outside` and `Inside` are what holds between the phases and in one.

* `books_step`: timely steps keep the books.
* `useTruth_iff`: after timely steps `use_count` tells the truth, and the next step keeps it that
  way if and only if it is timely.
* `use_count_exceeds`: a guest that sleeps through the start of a phase.
-/

namespace OsLab.Hotel

open Lib

variable {c : Config} {s t u : State} {g k r : ℕ}

/-- A cleaning phase: `use_count` has reached `2 * num_hotel_rooms` and was not reset since. -/
def cleaning (c : Config) (s : State) : Prop := 0 < c.numHotelRooms ∧ 2 * c.numHotelRooms ≤ s.useCount

/-- 1 for a guest that has set the count of its room and not yet incremented `use_count`. -/
def GuestPc.uncounted : GuestPc → ℕ
  | .countedOne _ | .toTwoOcc _ | .pushedTwo _ => 1
  | _ => 0

/-- The guests whose stay is not yet in `use_count`. -/
def uncounted (c : Config) (s : State) : ℕ := ∑ g ∈ Finset.range c.numGuestThreads, (s.guests g).uncounted

/-- The sum of `count` over all rooms. -/
def sumCount (c : Config) (s : State) : ℕ := ∑ r ∈ Finset.range c.numHotelRooms, (s.rooms r).count

/-- `use_count` tells the truth. -/
structure UseTruth (c : Config) (s : State) : Prop where
  le : s.useCount ≤ 2 * c.numHotelRooms
  eq : ¬ cleaning c s → s.useCount + uncounted c s = sumCount c s

instance (c : Config) (s : State) : Decidable (cleaning c s) := inferInstanceAs (Decidable (_ ∧ _))

/-- The guest is before its `use_count++`. -/
def GuestPc.increments : GuestPc → Bool
  | .countedOne _ | .pushedTwo _ => true
  | _ => false

/-- The cleaner is before its reset of the room attributes. -/
def CleanerPc.resets : CleanerPc → Bool
  | .tookTwo _ => true
  | _ => false

/-- No guest increments `use_count` in a cleaning phase, and no cleaner resets a room outside one. -/
def Timely (c : Config) (s : State) : Thread → Prop
  | .guest g => (s.guests g).increments → ¬ cleaning c s
  | .cleaner k => (s.cleaners k).resets → cleaning c s

instance (c : Config) (s : State) (a : Thread) : Decidable (Timely c s a) :=
  match a with
  | .guest _ => inferInstanceAs (Decidable (_ → _))
  | .cleaner _ => inferInstanceAs (Decidable (_ → _))

/-! ## The books -/

/-- 1 for a room with two guests. -/
def Room.full (x : Room) : ℕ := if x.count = 2 then 1 else 0

/-- The rooms that are not yet reset in the phase. -/
def full (c : Config) (s : State) : ℕ := ∑ r ∈ Finset.range c.numHotelRooms, (s.rooms r).full

/-- 1 for a cleaner that has reset a room and not yet counted it. -/
def CleanerPc.busy : CleanerPc → ℕ
  | .cleaning _ | .cleaned => 1
  | _ => 0

def busy (c : Config) (s : State) : ℕ := ∑ k ∈ Finset.range c.numCleanerThreads, (s.cleaners k).busy

/-- The guest is not on the way of a room from its first guest to its second. -/
def GuestPc.apart : GuestPc → Prop
  | .toOneOcc _ | .freeing _ | .tookFree _ | .evicting _ | .toTwoOcc _ | .pushedTwo _ => False
  | _ => True

/-- Between two phases no cleaner has a room to count, and `num_cleaned_rooms` is 0 or what the
last phase has left. -/
structure Outside (c : Config) (s : State) : Prop where
  counted : s.useCount + uncounted c s = sumCount c s
  clean : busy c s = 0
  num : s.numCleanedRooms = 0 ∨ c.numHotelRooms ≤ s.numCleanedRooms

/-- In a phase a room has two guests, or is being cleaned, or has been taken by a guest that has
still to be counted. `num_cleaned_rooms` counts too few rooms, or so many that it misses the end. -/
structure Inside (c : Config) (s : State) : Prop where
  useCount : s.useCount = 2 * c.numHotelRooms
  counted : sumCount c s = 2 * full c s + uncounted c s
  left : full c s + busy c s ≤ c.numHotelRooms
  num : s.numCleanedRooms + (full c s + busy c s) ≤ c.numHotelRooms ∨
    c.numHotelRooms ≤ s.numCleanedRooms
  oneOccQ : s.oneOccQ = []
  oneFreeQ : s.oneFreeQ = []
  apart : ∀ g < c.numGuestThreads, (s.guests g).apart

structure Books (c : Config) (s : State) : Prop where
  ledger : Ledger c s
  outside : ¬ cleaning c s → Outside c s
  inside : cleaning c s → Inside c s

/-- The books of a state between two phases. -/
theorem Books.of_outside (hl : Ledger c s) (hn : ¬ cleaning c s) (ho : Outside c s) : Books c s where
  ledger := hl
  outside _ := ho
  inside hc := absurd hc hn

/-- The books of a state in a phase. -/
theorem Books.of_inside (hl : Ledger c s) (hc : cleaning c s) (hi : Inside c s) : Books c s where
  ledger := hl
  outside hn := absurd hc hn
  inside _ := hi

theorem books_init (c : Config) : Books c (State.init c) where
  ledger := ledger_init c
  outside _ := by
    refine ⟨?_, ?_, .inl rfl⟩
    · simp [uncounted, sumCount, State.init, GuestPc.uncounted]
    · simp [busy, State.init, CleanerPc.busy]
  inside h := absurd h (by simp [cleaning, State.init]; omega)

/-- **The books tell the truth.** -/
theorem Books.useTruth (h : Books c s) : UseTruth c s := by
  by_cases hc : cleaning c s
  · exact ⟨(h.inside hc).useCount.le, fun hn => absurd hc hn⟩
  · refine ⟨?_, fun hn => (h.outside hn).counted⟩
    rcases Nat.eq_zero_or_pos c.numHotelRooms with h0 | h0
    · -- a hotel without rooms counts nothing
      have := (h.outside hc).counted
      simp only [sumCount, h0, Finset.range_zero, Finset.sum_empty] at this
      omega
    · unfold cleaning at hc
      omega

/-! ## The sums -/

theorem uncounted_guestTo (hg : g < c.numGuestThreads) (pc : GuestPc) :
    uncounted c (s.guestTo g pc) + (s.guests g).uncounted = uncounted c s + pc.uncounted :=
  sum_update s.guests GuestPc.uncounted hg pc

theorem busy_cleanerTo (hk : k < c.numCleanerThreads) (pc : CleanerPc) :
    busy c (s.cleanerTo k pc) + (s.cleaners k).busy = busy c s + pc.busy :=
  sum_update s.cleaners CleanerPc.busy hk pc

theorem sumCount_setRoom (hr : r < c.numHotelRooms) (x : Room) :
    sumCount c (s.setRoom r x) + (s.rooms r).count = sumCount c s + x.count :=
  sum_update s.rooms Room.count hr x

theorem full_setRoom (hr : r < c.numHotelRooms) (x : Room) :
    full c (s.setRoom r x) + (s.rooms r).full = full c s + x.full :=
  sum_update s.rooms Room.full hr x

/-- The step that would make `use_count` reach `2 * num_hotel_rooms` finds two guests counted in
every room, the last of them only now. -/
theorem Books.last (h : Books c s) (hn : ¬ cleaning c s) (hg : g < c.numGuestThreads)
    (hpc : (s.guests g).uncounted = 1) (hlast : s.useCount + 1 = 2 * c.numHotelRooms) :
    (∀ r < c.numHotelRooms, (s.rooms r).count = 2) ∧ uncounted c s = 1 := by
  have hcount := (h.outside hn).counted
  have hone : 1 ≤ uncounted c s := hpc ▸ le_sum s.guests GuestPc.uncounted hg
  have hle : ∀ r ∈ Finset.range c.numHotelRooms, (s.rooms r).count ≤ 2 := by
    intro r hr
    have := h.ledger.count_lt (Finset.mem_range.1 hr)
    omega
  have htwo : ∑ r ∈ Finset.range c.numHotelRooms, 2 = 2 * c.numHotelRooms := by
    simp [Nat.mul_comm]
  have hsum : sumCount c s ≤ 2 * c.numHotelRooms := htwo ▸ Finset.sum_le_sum hle
  have heq : sumCount c s = ∑ r ∈ Finset.range c.numHotelRooms, 2 := by omega
  refine ⟨?_, by omega⟩
  intro r hr
  exact (Finset.sum_eq_sum_iff_of_le hle).1 heq r (Finset.mem_range.2 hr)

/-! ## Steps between two phases -/

theorem Outside.guest (h : Outside c s) (hg : g < c.numGuestThreads) {pc : GuestPc}
    (hgs : u.guests = s.guests) (hcs : u.cleaners = s.cleaners)
    (hn : u.numCleanedRooms = s.numCleanedRooms)
    (hsum : u.useCount + pc.uncounted + sumCount c s =
      s.useCount + (s.guests g).uncounted + sumCount c u) : Outside c (u.guestTo g pc) := by
  have hmove := uncounted_guestTo (s := u) hg pc
  have hunc : uncounted c u = uncounted c s := by unfold uncounted; rw [hgs]
  have hbusy : busy c u = busy c s := by unfold busy; rw [hcs]
  have hcounted := h.counted
  rw [hgs, hunc] at hmove
  refine ⟨?_, hbusy.trans h.clean, by rw [show (u.guestTo g pc).numCleanedRooms = _ from hn]; exact h.num⟩
  show u.useCount + uncounted c (u.guestTo g pc) = sumCount c u
  omega

theorem apart_endSecond {pc : GuestPc} (h : pc.apart) : pc.endSecond.apart := by
  cases pc <;> exact h

/-- A guest with no first stay to hand on and no second stay to count. -/
theorem apart_of {pc : GuestPc} (hu : pc.uncounted = 0) (hh : ∀ r, pc.holds ≠ some (r, 1)) :
    pc.apart := by
  cases pc with
  | toOneOcc r | freeing r | tookFree r | evicting r => exact hh r rfl
  | toTwoOcc r | pushedTwo r => exact absurd hu Nat.one_ne_zero
  | _ => trivial

theorem oneQueues_eq_nil (h : ∀ r, tally c s (r, 1) = 0) : s.oneOccQ = [] ∧ s.oneFreeQ = [] := by
  constructor
  · apply List.eq_nil_iff_forall_not_mem.2
    intro x hx
    have hq := List.count_pos_iff.2 (List.mem_map_of_mem (f := fun x : ℕ × ℤ => (x.1, 1)) hx)
    have := h x.1
    unfold tally inQueues at this
    omega
  · apply List.eq_nil_iff_forall_not_mem.2
    intro x hx
    have hq := List.count_pos_iff.2 (List.mem_map_of_mem (f := fun r : ℕ => (r, 1)) hx)
    have := h x
    unfold tally inQueues at this
    omega

/-- **A phase starts** when all rooms are full, and in `two_occ_q`. -/
theorem Books.start (h : Books c s) (hn : ¬ cleaning c s) (hg : g < c.numGuestThreads)
    (hpc : s.guests g = .pushedTwo r) (hu : s.useCount + 1 = 2 * c.numHotelRooms) :
    Inside c ({ s with
      useCount := s.useCount + 1
      guests := fun j => (s.guests j).endSecond
      cleaners := wake s.cleaners .waiting .woken }.guestTo g .top) := by
  have hg1 : (s.guests g).uncounted = 1 := by rw [hpc]; rfl
  obtain ⟨hall, hone⟩ := h.last hn hg hg1 hu
  have hfull : ∀ r ∈ Finset.range c.numHotelRooms, (s.rooms r).full = 1 := by
    intro r hr
    exact if_pos (hall r (Finset.mem_range.1 hr))
  have hsum : full c s = c.numHotelRooms := by
    unfold full
    rw [Finset.sum_congr rfl hfull]
    simp
  have hnone : ∀ r, tally c s (r, 1) = 0 := by
    intro r
    by_contra hne
    obtain ⟨hr, h1⟩ := h.ledger.count_eq (p := (r, 1)) hne
    have h2 := hall r hr
    dsimp only at h1
    omega
  -- the guest that is counted now is the only one that was not
  obtain ⟨i, -, -, hothers⟩ := eq_one_of_sum s.guests hone
  have hig : i = g := by
    by_contra hne
    have := hothers g hg (Ne.symm hne)
    omega
  subst hig
  have hunc : uncounted c ({ s with
      useCount := s.useCount + 1
      guests := fun j => (s.guests j).endSecond
      cleaners := wake s.cleaners .waiting .woken }.guestTo i .top) = 0 := by
    apply Finset.sum_eq_zero
    intro j hj
    by_cases hji : j = i
    · subst hji
      simp [State.guestTo, GuestPc.uncounted]
    · have h0 := hothers j (Finset.mem_range.1 hj) hji
      simp only [State.guestTo, Function.update_of_ne hji]
      cases hpj : s.guests j <;> rw [hpj] at h0 <;> first | rfl | exact h0
  have hbusy : ∑ k ∈ Finset.range c.numCleanerThreads,
      (wake s.cleaners .waiting .woken k).busy = 0 :=
    (sum_wake s.cleaners CleanerPc.busy (by rfl)).trans (h.outside hn).clean
  refine ⟨hu, ?_, ?_, ?_, ?_, ?_, ?_⟩
  · rw [hunc]
    have hcounted := (h.outside hn).counted
    show sumCount c s = 2 * full c s + 0
    omega
  · show full c s + ∑ k ∈ Finset.range c.numCleanerThreads, (wake s.cleaners .waiting .woken k).busy ≤ _
    omega
  · show s.numCleanedRooms + (full c s + ∑ k ∈ Finset.range c.numCleanerThreads,
        (wake s.cleaners .waiting .woken k).busy) ≤ c.numHotelRooms ∨ _
    rcases (h.outside hn).num with h0 | h0
    · exact .inl (by omega)
    · exact .inr h0
  · exact (oneQueues_eq_nil hnone).1
  · exact (oneQueues_eq_nil hnone).2
  · intro j hj
    by_cases hji : j = i
    · subst hji
      simp [State.guestTo, GuestPc.apart]
    · simp only [State.guestTo, Function.update_of_ne hji]
      apply apart_endSecond
      apply apart_of (hothers j hj hji)
      intro r hr
      have hle := share_guest_le (s := s) hj (r, 1)
      rw [hr, share_some, if_pos rfl, hnone r] at hle
      omega

theorem books_guest_outside (h : Books c s) (hg : g < c.numGuestThreads) (hn : ¬ cleaning c s)
    (hst : GuestStep c g s t) : Books c t := by
  have hl := ledger_guest h.ledger hg hst
  have ho := h.outside hn
  cases hst with
  | park hpc _ | enter hpc _ | endStay hpc =>
    refine .of_outside hl hn ?_
    apply ho.guest hg rfl rfl rfl
    rcases hpc with hpc | hpc <;> rw [hpc] <;> rfl
  | takeEmpty hpc _ | noEmpty hpc _ | pushOneOcc hpc | evicted hpc _ | fullFirst hpc _
  | scanFound hpc _ | scanMissed hpc _ | takeFree hpc _ | noFree hpc _ | evict hpc _ _
  | noEvict hpc _ | pushTwoOcc hpc | startStay hpc =>
    refine .of_outside hl hn ?_
    refine ho.guest hg rfl rfl rfl ?_
    rw [hpc]
    rfl
  | @countOne r time hpc =>
    -- a room of `empty_q` had the count 0
    obtain ⟨hr, h0⟩ := h.ledger.guest_holds hg (r := r) (k := 0) (by rw [hpc]; rfl)
    refine .of_outside hl hn (ho.guest hg rfl rfl rfl ?_)
    have hsum := sumCount_setRoom (s := s) hr ⟨1, 1, g, (s.rooms r).cleanTime + time⟩
    simp only [h0] at hsum
    rw [hpc]
    show s.useCount + 1 + sumCount c s = s.useCount + 0 + sumCount c (s.setRoom r _)
    omega
  | @countTwo r time hpc h1 =>
    have hr : r < c.numHotelRooms :=
      (h.ledger.guest_holds hg (r := r) (k := 1) (by rcases hpc with hpc | hpc <;> rw [hpc] <;> rfl)).1
    refine .of_outside hl hn (ho.guest hg rfl rfl rfl ?_)
    have hsum := sumCount_setRoom (s := s) hr ⟨2, 1, g, (s.rooms r).cleanTime + time⟩
    have hunc : (s.guests g).uncounted = 0 := by rcases hpc with hpc | hpc <;> rw [hpc] <;> rfl
    simp only [h1] at hsum
    rw [hunc]
    show s.useCount + 1 + sumCount c s = s.useCount + 0 + sumCount c (s.setRoom r _)
    omega
  | error hpc hc => exact absurd hl.running (by simp)
  | @pushFree r hpc =>
    obtain ⟨hr, -⟩ := h.ledger.guest_holds hg (r := r) (k := 1) (by rw [hpc]; rfl)
    refine .of_outside hl hn (ho.guest hg rfl rfl rfl ?_)
    have hsum : sumCount c (s.setRoom r { s.rooms r with currOccupied := 0, guestId := -1 }) =
        sumCount c s := Nat.add_right_cancel (sumCount_setRoom hr _)
    rw [hpc]
    exact congrArg (s.useCount + 0 + ·) hsum.symm
  | @useOne r hpc =>
    have hlast : s.useCount + 1 ≠ 2 * c.numHotelRooms := by
      -- the room of this guest has had one guest only
      intro heq
      obtain ⟨hr, h1⟩ := h.ledger.guest_holds hg (r := r) (k := 1) (by rw [hpc]; rfl)
      have h2 := (h.last hn hg (by rw [hpc]; rfl) heq).1 r hr
      omega
    have hn' : ¬ cleaning c ({ s with useCount := s.useCount + 1 }.guestTo g (.toOneOcc r)) := by
      unfold cleaning at hn ⊢
      simp only [State.guestTo]
      omega
    refine .of_outside hl hn' (ho.guest hg rfl rfl rfl ?_)
    rw [hpc]
    rfl
  | @signalNot r hpc hu =>
    have hn' : ¬ cleaning c ({ s with useCount := s.useCount + 1 }.guestTo g (.beforeStay r)) := by
      unfold cleaning at hn ⊢
      simp only [State.guestTo]
      omega
    refine .of_outside hl hn' (ho.guest hg rfl rfl rfl ?_)
    rw [hpc]
    rfl
  | @signalLast r hpc hu =>
    refine ⟨hl, fun hn' => absurd ?_ hn', fun _ => ?_⟩
    · unfold cleaning
      simp only [State.guestTo]
      omega
    · exact h.start hn hg hpc hu

theorem afterWait_eq (s : State) (k : ℕ) : afterWait s k = 0 ∨ afterWait s k = s.numCleanedRooms := by
  unfold afterWait
  split_ifs
  · exact .inl rfl
  · exact .inr rfl

theorem Outside.cleaner (h : Outside c s) (hk : k < c.numCleanerThreads) {pc : CleanerPc}
    (hgs : uncounted c u = uncounted c s) (hcs : u.cleaners = s.cleaners)
    (hu : u.useCount = s.useCount) (hr : sumCount c u = sumCount c s)
    (hn : u.numCleanedRooms = 0 ∨ u.numCleanedRooms = s.numCleanedRooms) (hpc : pc.busy = 0) :
    Outside c (u.cleanerTo k pc) := by
  have hmove := busy_cleanerTo (s := u) hk pc
  have hbusy : busy c u = busy c s := by unfold busy; rw [hcs]
  have hclean := h.clean
  refine ⟨?_, by omega, ?_⟩
  · show u.useCount + uncounted c u = sumCount c u
    rw [hu, hgs, hr, h.counted]
  · show u.numCleanedRooms = 0 ∨ c.numHotelRooms ≤ u.numCleanedRooms
    have := h.num
    omega

theorem books_cleaner_outside (h : Books c s) (hk : k < c.numCleanerThreads)
    (hn : ¬ cleaning c s) (ht : Timely c s (.cleaner k)) (hst : CleanerStep c k s t) : Books c t := by
  have hl := ledger_cleaner h.ledger hk hst
  have ho := h.outside hn
  have hidle : (s.cleaners k).busy = 0 := by
    have := le_sum s.cleaners CleanerPc.busy hk
    have := ho.clean
    unfold busy at this
    omega
  cases hst with
  | park _ _ | enter _ _ =>
    exact .of_outside hl hn (ho.cleaner hk rfl rfl rfl rfl (afterWait_eq s k) rfl)
  | takeTwo _ _ | noTwo _ _ | rest _ _ | endRest _ _ =>
    exact .of_outside hl hn (ho.cleaner hk rfl rfl rfl rfl (.inr rfl) rfl)
  | announce _ =>
    exact .of_outside hl hn
      (ho.cleaner hk (sum_wake s.guests GuestPc.uncounted rfl) rfl rfl rfl (.inr rfl) rfl)
  | reset hpc => exact absurd (ht (by rw [hpc]; rfl)) hn
  | pushEmpty hpc | count hpc _ | countLast hpc _ =>
    rw [hpc] at hidle
    exact absurd hidle Nat.one_ne_zero

/-! ## Steps in a phase -/

theorem Inside.guest (h : Inside c s) (hg : g < c.numGuestThreads) {pc : GuestPc}
    (hgs : u.guests = s.guests) (hcs : u.cleaners = s.cleaners) (hu : u.useCount = s.useCount)
    (hn : u.numCleanedRooms = s.numCleanedRooms) (hone : u.oneOccQ = s.oneOccQ)
    (hfree : u.oneFreeQ = s.oneFreeQ) (hfull : full c u = full c s)
    (hsum : sumCount c u + (s.guests g).uncounted = sumCount c s + pc.uncounted)
    (hpc : pc.apart) : Inside c (u.guestTo g pc) := by
  have hmove := uncounted_guestTo (s := u) hg pc
  have hunc : uncounted c u = uncounted c s := by unfold uncounted; rw [hgs]
  have hbusy : busy c (u.guestTo g pc) = busy c s := by unfold busy State.guestTo; rw [hcs]
  have hfull' : full c (u.guestTo g pc) = full c s := hfull
  have hcounted := h.counted
  rw [hgs, hunc] at hmove
  refine ⟨hu.trans h.useCount, ?_, ?_, ?_, hone.trans h.oneOccQ, hfree.trans h.oneFreeQ, ?_⟩
  · show sumCount c u = _
    omega
  · rw [hfull', hbusy]
    exact h.left
  · rw [hfull', hbusy, show (u.guestTo g pc).numCleanedRooms = _ from hn]
    exact h.num
  · intro j hj
    by_cases hjg : j = g
    · subst hjg
      simpa [State.guestTo] using hpc
    · simp only [State.guestTo, Function.update_of_ne hjg, hgs]
      exact h.apart j hj

theorem books_guest_inside (h : Books c s) (hg : g < c.numGuestThreads) (hc : cleaning c s)
    (ht : Timely c s (.guest g)) (hst : GuestStep c g s t) : Books c t := by
  have hl := ledger_guest h.ledger hg hst
  have hi := h.inside hc
  have hap := hi.apart g hg
  cases hst with
  | park hpc _ | enter hpc _ | endStay hpc =>
    refine .of_inside hl hc ?_
    refine hi.guest hg rfl rfl rfl rfl rfl rfl rfl ?_ (by trivial)
    rcases hpc with hpc | hpc <;> rw [hpc] <;> rfl
  | takeEmpty hpc _ | noEmpty hpc _ | evicted hpc _ | fullFirst hpc _ | scanMissed hpc _
  | noFree hpc _ | noEvict hpc _ | startStay hpc =>
    refine .of_inside hl hc ?_
    refine hi.guest hg rfl rfl rfl rfl rfl rfl rfl ?_ (by trivial)
    rw [hpc]
    rfl
  | @countOne r time hpc =>
    obtain ⟨hr, h0⟩ := h.ledger.guest_holds hg (r := r) (k := 0) (by rw [hpc]; rfl)
    have hsum := sumCount_setRoom (s := s) hr ⟨1, 1, g, (s.rooms r).cleanTime + time⟩
    have hfull := full_setRoom (s := s) hr ⟨1, 1, g, (s.rooms r).cleanTime + time⟩
    simp only [Room.full, h0] at hfull hsum
    refine .of_inside hl hc ?_
    refine hi.guest (u := s.setRoom r _) hg rfl rfl rfl rfl rfl rfl hfull ?_ trivial
    rw [hpc]
    exact hsum
  | useOne hpc | signalLast hpc _ | signalNot hpc _ => exact absurd hc (ht (by rw [hpc]; rfl))
  | scanFound _ hr =>
    rw [hi.oneOccQ] at hr
    exact absurd hr List.not_mem_nil
  | evict _ hp _ =>
    have hp := hp.1
    rw [hi.oneOccQ] at hp
    exact absurd hp List.not_mem_nil
  | takeFree _ hq =>
    rw [hi.oneFreeQ] at hq
    cases hq
  | pushOneOcc hpc | pushFree hpc | pushTwoOcc hpc =>
    rw [hpc] at hap
    exact absurd hap id
  | countTwo _ hpc _ | error hpc _ => rcases hpc with hpc | hpc <;> rw [hpc] at hap <;> exact absurd hap id

theorem Inside.cleaner (h : Inside c s) (hk : k < c.numCleanerThreads) {pc : CleanerPc}
    (hgs : uncounted c u = uncounted c s) (hap : ∀ g < c.numGuestThreads, (u.guests g).apart)
    (hcs : u.cleaners = s.cleaners) (hu : u.useCount = s.useCount) (hone : u.oneOccQ = s.oneOccQ)
    (hfree : u.oneFreeQ = s.oneFreeQ) (hr : sumCount c u + 2 * full c s = sumCount c s + 2 * full c u)
    (hleft : full c u + pc.busy ≤ full c s + (s.cleaners k).busy)
    (hn : u.numCleanedRooms + (full c u + pc.busy) = s.numCleanedRooms + (full c s + (s.cleaners k).busy)
      ∧ s.numCleanedRooms ≤ u.numCleanedRooms ∨ u.numCleanedRooms = 0) :
    Inside c (u.cleanerTo k pc) := by
  have hmove := busy_cleanerTo (s := u) hk pc
  have hbusy : busy c u = busy c s := by unfold busy; rw [hcs]
  have hle := le_sum s.cleaners CleanerPc.busy hk
  have hcounted := h.counted
  have hl := h.left
  rw [hcs, hbusy] at hmove
  have hfull' : full c (u.cleanerTo k pc) = full c u := rfl
  refine ⟨hu.trans h.useCount, ?_, ?_, ?_, hone.trans h.oneOccQ, hfree.trans h.oneFreeQ, hap⟩
  · show sumCount c u = 2 * full c u + uncounted c u
    omega
  · omega
  · show u.numCleanedRooms + _ ≤ _ ∨ _ ≤ u.numCleanedRooms
    have hnum := h.num
    omega

/-- **The phase ends** with the last room: the count is right, so no other one is left. -/
theorem Inside.finish (h : Inside c s) (hk : k < c.numCleanerThreads) (hpc : s.cleaners k = .cleaned)
    (hn : s.numCleanedRooms + 1 = c.numHotelRooms) :
    Outside c ({ s with
      numCleanedRooms := s.numCleanedRooms + 1
      useCount := 0
      cleaners := wake s.cleaners .resting .rested }.cleanerTo k .announcing) := by
  have hle := le_sum s.cleaners CleanerPc.busy hk
  have hmove := busy_cleanerTo (c := c) (s := { s with
    numCleanedRooms := s.numCleanedRooms + 1
    useCount := 0
    cleaners := wake s.cleaners .resting .rested }) hk .announcing
  have hwake : busy c { s with
      numCleanedRooms := s.numCleanedRooms + 1
      useCount := 0
      cleaners := wake s.cleaners .resting .rested } = busy c s :=
    sum_wake s.cleaners CleanerPc.busy (by rfl)
  have hself : (wake s.cleaners .resting .rested k).busy = 1 := by
    rw [wake_of_ne (by rw [hpc]; decide), hpc]
    rfl
  rw [hself] at hmove
  rw [hpc] at hle
  have hnum := h.num
  have hbusy : 1 ≤ busy c s := hle
  have hfull : full c s = 0 := by omega
  have hcounted := h.counted
  refine ⟨?_, ?_, .inr hn.ge⟩
  · show 0 + uncounted c s = sumCount c s
    omega
  · have h0 : CleanerPc.announcing.busy = 0 := rfl
    omega

theorem books_cleaner_inside (h : Books c s) (hk : k < c.numCleanerThreads) (hc : cleaning c s)
    (hst : CleanerStep c k s t) : Books c t := by
  have hl := ledger_cleaner h.ledger hk hst
  have hi := h.inside hc
  cases hst with
  | park _ hu => exact absurd hu (by have := hc.2; omega)
  | enter hpc _ =>
    refine .of_inside hl hc ?_
    have hidle : (s.cleaners k).busy = 0 := by rcases hpc with hpc | hpc <;> rw [hpc] <;> rfl
    refine hi.cleaner (u := { s with numCleanedRooms := afterWait s k }) hk rfl hi.apart rfl rfl rfl
      rfl rfl (Nat.add_le_add_left (Nat.zero_le _) _) ?_
    rw [hidle]
    -- a cleaner that was woken resets the counter, however late
    rcases afterWait_eq s k with h0 | h0
    · exact .inr h0
    · exact .inl ⟨congrArg (· + _) h0, h0.ge⟩
  | takeTwo hpc _ | noTwo hpc _ =>
    refine .of_inside hl hc ?_
    refine hi.cleaner hk rfl hi.apart rfl rfl rfl rfl rfl (by rw [hpc]; exact le_rfl) (.inl ?_)
    rw [hpc]
    exact ⟨rfl, le_rfl⟩
  | rest hpc _ | endRest hpc _ =>
    refine .of_inside hl hc ?_
    have hidle : (s.cleaners k).busy = 0 := by rcases hpc with hpc | hpc <;> rw [hpc] <;> rfl
    refine hi.cleaner hk rfl hi.apart rfl rfl rfl rfl rfl (by rw [hidle]; exact le_rfl) (.inl ?_)
    rw [hidle]
    exact ⟨rfl, le_rfl⟩
  | announce hpc =>
    refine .of_inside hl hc ?_
    refine hi.cleaner hk (sum_wake s.guests GuestPc.uncounted rfl) ?_ rfl rfl rfl rfl rfl
      (by rw [hpc]; exact le_rfl) (.inl ?_)
    · intro j hj
      have happly : (wake s.guests .waiting .woken j).apart = (s.guests j).apart :=
        apply_wake s.guests GuestPc.apart (by rfl) j
      exact happly ▸ hi.apart j hj
    · rw [hpc]
      exact ⟨rfl, le_rfl⟩
  | @reset r hpc =>
    obtain ⟨hr, h2⟩ := h.ledger.cleaner_holds hk (r := r) (j := 2) (by rw [hpc]; rfl)
    have hsum : sumCount c (s.setRoom r ⟨0, 0, -1, 0⟩) + 2 = sumCount c s := by
      simpa [h2] using sumCount_setRoom (s := s) hr ⟨0, 0, -1, 0⟩
    have hfull : full c (s.setRoom r ⟨0, 0, -1, 0⟩) + 1 = full c s := by
      simpa [Room.full, h2] using full_setRoom (s := s) hr ⟨0, 0, -1, 0⟩
    refine .of_inside hl hc ?_
    refine hi.cleaner (u := s.setRoom r _) hk rfl hi.apart rfl rfl rfl rfl ?_ ?_ (.inl ⟨?_, le_rfl⟩)
    · omega
    · rw [hpc]
      exact hfull.le
    · rw [hpc]
      exact congrArg (s.numCleanedRooms + ·) hfull
  | pushEmpty hpc =>
    refine .of_inside hl hc ?_
    refine hi.cleaner hk rfl hi.apart rfl rfl rfl rfl rfl (by rw [hpc]; exact le_rfl) (.inl ?_)
    rw [hpc]
    exact ⟨rfl, le_rfl⟩
  | count hpc _ =>
    refine .of_inside hl hc ?_
    refine hi.cleaner (u := { s with numCleanedRooms := s.numCleanedRooms + 1 }) hk rfl hi.apart rfl
      rfl rfl rfl rfl (by rw [hpc]; exact Nat.le_succ _) (.inl ⟨?_, Nat.le_succ _⟩)
    rw [hpc]
    show s.numCleanedRooms + 1 + (full c s + 0) = s.numCleanedRooms + (full c s + 1)
    omega
  | countLast hpc hn =>
    refine ⟨hl, fun _ => hi.finish hk hpc hn, fun hc' => ?_⟩
    have := hc'.1
    have := hc'.2
    simp only [State.cleanerTo] at this
    omega

/-! ## The truth about `use_count` -/

theorem books_step {a : Thread} (h : Books c s) (ht : Timely c s a) (hst : Step c s a t) :
    Books c t := by
  by_cases hc : cleaning c s
  · cases hst with
    | guest _ hg hst => exact books_guest_inside h hg hc ht hst
    | cleaner _ hk hst => exact books_cleaner_inside h hk hc hst
  · cases hst with
    | guest _ hg hst => exact books_guest_outside h hg hc hst
    | cleaner _ hk hst => exact books_cleaner_outside h hk hc ht hst

theorem books (h : Reaches (Guarded (Timely c) (Step c)) (State.init c) s) : Books c s :=
  reaches_inv (I := Books c) (fun _ _ _ hb hst => books_step hb hst.1 hst.2) (books_init c) h

/-- What a guest does when it has a stay to count. -/
theorem increments (hst : GuestStep c g s t) (hg : (s.guests g).increments) :
    t.useCount = s.useCount + 1 := by
  cases hst with
  | useOne _ | signalLast _ _ | signalNot _ _ => rfl
  | park hpc _ | enter hpc _ | countTwo _ hpc _ | error hpc _ | endStay hpc =>
    rcases hpc with hpc | hpc <;> rw [hpc] at hg <;> cases hg
  | takeEmpty hpc _ | noEmpty hpc _ | countOne _ hpc | pushOneOcc hpc | evicted hpc _
  | fullFirst hpc _ | scanFound hpc _ | scanMissed hpc _ | pushFree hpc | takeFree hpc _
  | noFree hpc _ | evict hpc _ _ | noEvict hpc _ | pushTwoOcc hpc | startStay hpc =>
    rw [hpc] at hg
    cases hg

/-- What a cleaner does with a room that it has popped. -/
theorem resets (hst : CleanerStep c k s t) (hk : (s.cleaners k).resets) :
    ∃ r, s.cleaners k = .tookTwo r ∧ t = (s.setRoom r ⟨0, 0, -1, 0⟩).cleanerTo k (.cleaning r) := by
  cases hst with
  | reset hpc => exact ⟨_, hpc, rfl⟩
  | park hpc _ | enter hpc _ | rest hpc _ | endRest hpc _ =>
    rcases hpc with hpc | hpc <;> rw [hpc] at hk <;> cases hk
  | takeTwo hpc _ | noTwo hpc _ | pushEmpty hpc | countLast hpc _ | count hpc _ | announce hpc =>
    rw [hpc] at hk
    cases hk

/-- A step after which `use_count` tells the truth was timely. -/
theorem timely_of_useTruth {a : Thread} (h : Books c s) (hst : Step c s a t) (ht : UseTruth c t) :
    Timely c s a := by
  cases hst with
  | guest _ hg hst =>
    intro hr hc
    -- an increment in a phase makes `use_count` too large
    have huse := increments hst hr
    have := ht.le
    have := hc.2
    omega
  | cleaner _ hk hst =>
    intro hk'
    by_contra hn
    -- a reset outside a phase takes two stays out of the sum
    obtain ⟨r, hr, rfl⟩ := resets hst hk'
    obtain ⟨hlt, h2⟩ := h.ledger.cleaner_holds hk (r := r) (j := 2) (by rw [hr]; rfl)
    have hsum : sumCount c (s.setRoom r ⟨0, 0, -1, 0⟩) + 2 = sumCount c s := by
      simpa [h2] using sumCount_setRoom (s := s) hlt ⟨0, 0, -1, 0⟩
    have hcounted := (h.outside hn).counted
    have ht' := ht.eq
    have : s.useCount + uncounted c s = sumCount c (s.setRoom r ⟨0, 0, -1, 0⟩) := ht' hn
    omega

/-- **`use_count` tells the truth** after timely steps, and the next step keeps it that way if and
only if it is timely. -/
theorem useTruth_iff (h : Reaches (Guarded (Timely c) (Step c)) (State.init c) s) :
    UseTruth c s ∧ ∀ a t, Step c s a t → (UseTruth c t ↔ Timely c s a) := by
  have hb := books h
  refine ⟨hb.useTruth, ?_⟩
  intro a t hst
  constructor
  · intro ht
    exact timely_of_useTruth hb hst ht
  · intro ht
    exact (books_step hb ht hst).useTruth

/-- When every room has had two guests, and they are counted, it is time to clean. -/
theorem UseTruth.cleaning (h : UseTruth c s) (h0 : 0 < c.numHotelRooms)
    (h2 : ∀ r < c.numHotelRooms, (s.rooms r).count = 2) (hu : uncounted c s = 0) :
    cleaning c s := by
  by_contra hn
  have heq := h.eq hn
  have hsum : sumCount c s = 2 * c.numHotelRooms := by
    unfold sumCount
    rw [Finset.sum_congr rfl fun r hr => h2 r (Finset.mem_range.1 hr)]
    simp [Nat.mul_comm]
  exact hn ⟨h0, by omega⟩

/-- The guest of `smallHotel` has both stays in the room, and the phase starts. -/
theorem useTruth_smallHotel : ∃ s, s.useCount = 2 ∧ s.twoOccQ = [0] ∧ UseTruth smallHotel s := by
  have hrun : (run (check (fun s a _ => Timely smallHotel s a) (next smallHotel)) (State.init smallHotel)
      (List.replicate 14 (.guest 0))).map (fun s => (s.useCount, s.twoOccQ)) = some (2, [0]) := by
    decide
  obtain ⟨s, hs, hobs⟩ := Option.map_eq_some_iff.1 hrun
  have hreach := reaches_of_run (fun _ _ _ => check_checked fun _ _ _ => next_step) hs
  exact ⟨s, congrArg Prod.fst hobs, congrArg Prod.snd hobs, (useTruth_iff hreach).1⟩

/-- One room, two guests, one cleaner. -/
def twoGuests : Config where
  numHotelRooms := 1
  numGuestThreads := 2
  numCleanerThreads := 1
  priority := fun _ => 1

/-- Guest 1 passes the test of `use_count` and sleeps. Guest 0 has both stays in the room, the
cleaner cleans it, and guest 1 takes it before the cleaner has counted it. -/
def lateGuest : List Thread :=
  [.guest 1] ++ List.replicate 14 (.guest 0) ++ List.replicate 4 (.cleaner 0) ++
    List.replicate 3 (.guest 1)

/-- **A stay is counted in the phase**: `use_count` goes past `2 * num_hotel_rooms`. -/
theorem use_count_exceeds : ¬ ∀ (c : Config) (s : State),
    Reaches (Step c) (State.init c) s → UseTruth c s := by
  intro hclaim
  have hrun : (run (next twoGuests) (State.init twoGuests) lateGuest).map State.useCount = some 3 := by
    decide
  obtain ⟨s, hs, h3⟩ := Option.map_eq_some_iff.1 hrun
  have hle := (hclaim twoGuests s (reaches_of_run (fun _ _ _ => next_step) hs)).le
  rw [h3] at hle
  exact absurd hle (by decide)

end OsLab.Hotel
