import OsLab.Hotel.Cleaning
import OsLab.Hotel.Tokens

/-!
# Exclusive use of rooms

A guest stays in a room from the time it takes it until its timed wait ends: a first stay is ended
by a token, a second stay by the broadcast of the last guest. The broadcast reaches only guests that
are already in their timed wait, and a cleaner takes any room it finds in `two_occ_q`.

* `late_step`: in a cleaning phase no guest is left in a second stay.
* `exclusive_use`: what it takes for a room to be used by one guest, or by one cleaner.
* `cleaned_while_staying`: a broadcast that comes before the wait.
-/

namespace OsLab.Hotel

open Lib

variable {c : Config} {s t u : State} {g k r : ℕ}

/-- The room that a guest is staying in, but for a first guest in its timed wait. -/
def GuestPc.room : GuestPc → Option ℕ
  | .tookEmpty r | .countedOne r | .toOneOcc r | .tookFree r | .evicting r | .toTwoOcc r
  | .pushedTwo r | .beforeStay r | .secondStay r => some r
  | _ => none

/-- The guests staying in room `r`. Each token of `room_sem[r]` has ended one of the timed waits. -/
def staying (c : Config) (s : State) (r : ℕ) : ℕ :=
  ((Finset.range c.numGuestThreads).filter fun g => (s.guests g).room = some r).card +
    (waiting c s r - s.roomSem r)

/-- The guest has pushed its room to `two_occ_q`, and its second stay is not ended by the guest that
makes `use_count` reach `2 * num_hotel_rooms`, which broadcasts if it is a second guest itself. -/
def GuestPc.unended (broadcasts : Bool) : GuestPc → Bool
  | .pushedTwo _ | .beforeStay _ => true
  | .secondStay _ => !broadcasts
  | _ => false

/-- The guest is before `signal_cleaners`. -/
def GuestPc.signals : GuestPc → Bool
  | .pushedTwo _ => true
  | _ => false

/-- The guest is before its push to `two_occ_q`. -/
def GuestPc.pushesTwo : GuestPc → Bool
  | .toTwoOcc _ => true
  | _ => false

/-- No room goes to `two_occ_q` in a cleaning phase, every other second stay is ended when a phase
starts, and no cleaner takes a room outside a phase. -/
def Settled (c : Config) (s : State) : Thread → Prop
  | .guest g => ((s.guests g).pushesTwo → ¬ cleaning c s) ∧
      ((s.guests g).increments → s.useCount + 1 = 2 * c.numHotelRooms →
        ∀ j < c.numGuestThreads, j ≠ g → (s.guests j).unended (s.guests g).signals = false)
  | .cleaner k => s.cleaners k = .ready → s.twoOccQ ≠ [] → cleaning c s

instance (c : Config) (s : State) (a : Thread) : Decidable (Settled c s a) :=
  match a with
  | .guest _ => inferInstanceAs (Decidable (_ ∧ _))
  | .cleaner _ => inferInstanceAs (Decidable (_ → _ → _))

/-! ## Second stays -/

/-- 1 for a guest in its second stay in room `r`, which it has pushed to `two_occ_q`. -/
def GuestPc.late (r : ℕ) (pc : GuestPc) : ℕ :=
  if pc = .pushedTwo r ∨ pc = .beforeStay r ∨ pc = .secondStay r then 1 else 0

/-- The guests in their second stay in room `r`, which is in `two_occ_q`. -/
def late (c : Config) (s : State) (r : ℕ) : ℕ :=
  ∑ g ∈ Finset.range c.numGuestThreads, (s.guests g).late r

theorem late_guestTo (hg : g < c.numGuestThreads) (pc : GuestPc) (r : ℕ) :
    late c (s.guestTo g pc) r + (s.guests g).late r = late c s r + pc.late r :=
  sum_update s.guests (GuestPc.late r) hg pc

/-- A room with a second guest is in `two_occ_q`, and no room has one in a phase. -/
structure Late (c : Config) (s : State) : Prop where
  ledger : Ledger c s
  inQueue : ∀ r, late c s r ≤ s.twoOccQ.count r
  phase : cleaning c s → ∀ r, late c s r = 0

theorem late_init (c : Config) : Late c (State.init c) where
  ledger := ledger_init c
  inQueue r := by simp [late, State.init, GuestPc.late]
  phase _ r := by simp [late, State.init, GuestPc.late]

/-- A region of guest `g` that starts no second stay. -/
theorem Late.guest (h : Late c s) (hg : g < c.numGuestThreads) {pc : GuestPc}
    (hst : GuestStep c g s (u.guestTo g pc)) (hgs : u.guests = s.guests)
    (hq : u.twoOccQ = s.twoOccQ) (hu : u.useCount = s.useCount)
    (hpc : ∀ r, pc.late r ≤ (s.guests g).late r) : Late c (u.guestTo g pc) := by
  have hle : ∀ r, late c (u.guestTo g pc) r ≤ late c s r := by
    intro r
    have h1 := late_guestTo (s := u) hg pc r
    have h2 : late c u r = late c s r := by unfold late; rw [hgs]
    have h3 := hpc r
    rw [hgs] at h1
    omega
  refine ⟨ledger_guest h.ledger hg hst, ?_, ?_⟩
  · intro r
    show _ ≤ u.twoOccQ.count r
    rw [hq]
    exact (hle r).trans (h.inQueue r)
  · intro hc r
    have hc' : cleaning c s := (cleaning_congr (t := u.guestTo g pc) hu).1 hc
    exact Nat.le_zero.1 ((hle r).trans (h.phase hc' r).le)

/-- A guest whose second stay is ended. -/
theorem late_of_ended {pc : GuestPc} (h : pc.unended true = false) (r : ℕ) : pc.endSecond.late r = 0 := by
  cases pc <;> first | rfl | cases h

theorem late_of_none {pc : GuestPc} (h : pc.unended false = false) (r : ℕ) : pc.late r = 0 := by
  cases pc <;> first | rfl | cases h

/-- A second stay starts outside a phase, and its room goes to `two_occ_q`. -/
theorem Late.pushTwo (h : Late c s) (hg : g < c.numGuestThreads) {x : ℕ} (hn : ¬ cleaning c s)
    (hst : GuestStep c g s ({ s with twoOccQ := s.twoOccQ ++ [x] }.guestTo g (.pushedTwo x))) :
    Late c ({ s with twoOccQ := s.twoOccQ ++ [x] }.guestTo g (.pushedTwo x)) := by
  refine ⟨ledger_guest h.ledger hg hst, ?_, fun hc => absurd hc hn⟩
  intro r
  have h1 := late_guestTo (s := { s with twoOccQ := s.twoOccQ ++ [x] }) hg (.pushedTwo x) r
  have h2 := h.inQueue r
  have h3 : (GuestPc.pushedTwo x).late r = if x = r then 1 else 0 := by simp [GuestPc.late]
  show _ ≤ (s.twoOccQ ++ [x]).count r
  rw [List.count_append, List.count_singleton]
  simp only [beq_iff_eq]
  rw [h3] at h1
  have h4 : late c { s with twoOccQ := s.twoOccQ ++ [x] } r = late c s r := rfl
  omega

/-- Nobody is in a second stay when a first guest starts a phase, which it does without a
broadcast. -/
theorem Late.useOne (h : Late c s) (hg : g < c.numGuestThreads) {x : ℕ}
    (hpc : s.guests g = .countedOne x)
    (hend : s.useCount + 1 = 2 * c.numHotelRooms →
      ∀ j < c.numGuestThreads, j ≠ g → (s.guests j).unended false = false)
    (hst : GuestStep c g s ({ s with useCount := s.useCount + 1 }.guestTo g (.toOneOcc x))) :
    Late c ({ s with useCount := s.useCount + 1 }.guestTo g (.toOneOcc x)) := by
  have hle : ∀ r, late c ({ s with useCount := s.useCount + 1 }.guestTo g (.toOneOcc x)) r ≤
      late c s r := by
    intro r
    have h1 := late_guestTo (s := { s with useCount := s.useCount + 1 }) hg (.toOneOcc x) r
    have h2 : (GuestPc.toOneOcc x).late r = 0 := rfl
    have h3 : late c { s with useCount := s.useCount + 1 } r = late c s r := rfl
    omega
  refine ⟨ledger_guest h.ledger hg hst, fun r => (hle r).trans (h.inQueue r), ?_⟩
  intro hc r
  apply Nat.le_zero.1
  apply (hle r).trans
  by_cases hcs : cleaning c s
  · exact (h.phase hcs r).le
  · have hu : s.useCount + 1 = 2 * c.numHotelRooms := by
      have h0 := hc.1
      have h2 : 2 * c.numHotelRooms ≤ s.useCount + 1 := hc.2
      unfold cleaning at hcs
      omega
    apply le_of_eq
    apply Finset.sum_eq_zero
    intro j hj
    by_cases hjg : j = g
    · rw [hjg, hpc]
      rfl
    · exact late_of_none (hend hu j (Finset.mem_range.1 hj) hjg) r

/-- The broadcast of the last guest ends the second stays, its own among them. -/
theorem Late.broadcast (h : Late c s) (hg : g < c.numGuestThreads)
    (hend : ∀ j < c.numGuestThreads, j ≠ g → (s.guests j).unended true = false)
    (hst : GuestStep c g s ({ s with
      useCount := s.useCount + 1
      guests := fun j => (s.guests j).endSecond
      cleaners := wake s.cleaners .waiting .woken }.guestTo g .top)) :
    Late c ({ s with
      useCount := s.useCount + 1
      guests := fun j => (s.guests j).endSecond
      cleaners := wake s.cleaners .waiting .woken }.guestTo g .top) := by
  have h0 : ∀ r, late c ({ s with
      useCount := s.useCount + 1
      guests := fun j => (s.guests j).endSecond
      cleaners := wake s.cleaners .waiting .woken }.guestTo g .top) r = 0 := by
    intro r
    apply Finset.sum_eq_zero
    intro j hj
    by_cases hjg : j = g
    · subst hjg
      simp [State.guestTo, GuestPc.late]
    · simp only [State.guestTo, Function.update_of_ne hjg]
      exact late_of_ended (hend j (Finset.mem_range.1 hj) hjg) r
  exact ⟨ledger_guest h.ledger hg hst, fun r => (h0 r).le.trans (Nat.zero_le _), fun _ => h0⟩

theorem late_guest (h : Late c s) (hg : g < c.numGuestThreads) (hs : Settled c s (.guest g))
    (hst : GuestStep c g s t) : Late c t := by
  have hst' := hst
  obtain ⟨hpush, hstart⟩ := hs
  cases hst with
  | park hpc _ | enter hpc _ | countTwo _ hpc _ =>
    exact h.guest hg hst' rfl rfl rfl fun _ => Nat.zero_le _
  | takeEmpty _ _ | noEmpty _ _ | countOne _ _ | pushOneOcc _ | evicted _ _ | fullFirst _ _
  | scanFound _ _ | scanMissed _ _ | pushFree _ | takeFree _ _ | noFree _ _ | evict _ _ _
  | noEvict _ _ | endStay _ =>
    exact h.guest hg hst' rfl rfl rfl fun _ => Nat.zero_le _
  | startStay hpc =>
    refine h.guest hg hst' rfl rfl rfl ?_
    intro r
    rw [hpc]
    simp [GuestPc.late]
  | error _ _ => exact absurd (ledger_guest h.ledger hg hst').running (by simp)
  | pushTwoOcc hpc => exact h.pushTwo hg (hpush (by rw [hpc]; rfl)) hst'
  | useOne hpc =>
    rw [hpc] at hstart
    exact h.useOne hg hpc (hstart rfl) hst'
  | @signalNot x hpc hu =>
    have hle : ∀ r, late c ({ s with useCount := s.useCount + 1 }.guestTo g (.beforeStay x)) r =
        late c s r := by
      intro r
      have h1 := late_guestTo (s := { s with useCount := s.useCount + 1 }) hg (.beforeStay x) r
      have h2 : (GuestPc.beforeStay x).late r = (s.guests g).late r := by rw [hpc]; simp [GuestPc.late]
      have h3 : late c { s with useCount := s.useCount + 1 } r = late c s r := rfl
      have h4 : ({ s with useCount := s.useCount + 1 } : State).guests g = s.guests g := rfl
      rw [h4] at h1
      omega
    refine ⟨ledger_guest h.ledger hg hst', fun r => (hle r).le.trans (h.inQueue r), ?_⟩
    intro hc r
    rw [hle]
    apply h.phase
    have h0 := hc.1
    have h2 : 2 * c.numHotelRooms ≤ s.useCount + 1 := hc.2
    exact ⟨h0, by omega⟩
  | signalLast hpc hu =>
    rw [hpc] at hstart
    exact h.broadcast hg (hstart rfl hu) hst'

theorem late_cleaner (h : Late c s) (hk : k < c.numCleanerThreads) (hs : Settled c s (.cleaner k))
    (hst : CleanerStep c k s t) : Late c t := by
  have hl := ledger_cleaner h.ledger hk hst
  cases hst with
  | @takeTwo x q hpc hq =>
    -- a phase, so nobody is left in a second stay
    have hc : cleaning c s := hs hpc (by rw [hq]; exact List.cons_ne_nil _ _)
    exact ⟨hl, fun r => (h.phase hc r).le.trans (Nat.zero_le _), fun _ => h.phase hc⟩
  | announce _ =>
    have hsame : ∀ r, late c ({ s with guests := wake s.guests .waiting .woken }.cleanerTo k .top) r =
        late c s r := fun r => sum_wake s.guests (GuestPc.late r) (by rfl)
    refine ⟨hl, fun r => (hsame r).le.trans (h.inQueue r), ?_⟩
    intro hc r
    rw [hsame]
    exact h.phase hc r
  | countLast _ _ =>
    refine ⟨hl, h.inQueue, ?_⟩
    intro hc
    have h0 := hc.1
    have h2 : 2 * c.numHotelRooms ≤ 0 := hc.2
    omega
  | _ => exact ⟨hl, h.inQueue, h.phase⟩

theorem late_step {a : Thread} (h : Late c s) (hs : Settled c s a) (hst : Step c s a t) : Late c t := by
  cases hst with
  | guest _ hg hst => exact late_guest h hg hs hst
  | cleaner _ hk hst => exact late_cleaner h hk hs hst

/-! ## Exclusive use -/

/-- A guest that stays in a room has popped it, or has pushed it to `two_occ_q`. -/
theorem stays_le (c : Config) (s : State) (r : ℕ) :
    ((Finset.range c.numGuestThreads).filter fun g => (s.guests g).room = some r).card ≤
      ((Finset.range c.numGuestThreads).filter fun g =>
        (s.guests g).holds.map Prod.fst = some r).card + late c s r := by
  rw [Finset.card_filter, Finset.card_filter, late, ← Finset.sum_add_distrib]
  apply Finset.sum_le_sum
  intro g _
  cases s.guests g <;> simp [GuestPc.room, GuestPc.holds, GuestPc.late]

/-- **Exclusive use of rooms**, in runs of settled steps: at most one guest stays in a room, and none
in a room that a cleaner has taken and not yet pushed to `empty_q`. -/
theorem exclusive_use (h : Reaches (Guarded (Settled c) (Step c)) (State.init c) s) (r : ℕ) :
    staying c s r ≤ 1 ∧
      ∀ k < c.numCleanerThreads, (s.cleaners k).holds.map Prod.fst = some r → staying c s r = 0 := by
  have hlate : Late c s :=
    reaches_inv (I := Late c) (fun _ _ _ hI hst => late_step hI hst.1 hst.2) (late_init c) h
  have hplaces := hlate.ledger.places r
  have hwait := waiting_le h.of_guarded r
  have hstays := stays_le c s r
  have hqueue := hlate.inQueue r
  unfold Hotel.places at hplaces
  unfold staying
  unfold listed at hwait
  constructor
  · split_ifs at hplaces <;> omega
  · intro k hk hr
    -- the one place of the room is with the cleaner
    have hmem : k ∈ (Finset.range c.numCleanerThreads).filter fun k =>
        (s.cleaners k).holds.map Prod.fst = some r :=
      Finset.mem_filter.2 ⟨Finset.mem_range.2 hk, hr⟩
    have hpos := Finset.card_pos.2 ⟨k, hmem⟩
    split_ifs at hplaces <;> omega

/-- The guest of `smallHotel` has both stays in the room, and the cleaner has taken it. -/
theorem exclusive_use_smallHotel :
    ∃ s, s.cleaners 0 = .tookTwo 0 ∧ s.useCount = 2 ∧ staying smallHotel s 0 = 0 := by
  have hrun : (run (check (fun s a _ => Settled smallHotel s a) (next smallHotel))
      (State.init smallHotel) (List.replicate 14 (.guest 0) ++ List.replicate 2 (.cleaner 0))).map
        (fun s => (s.cleaners 0, s.useCount)) = some (.tookTwo 0, 2) := by
    decide
  obtain ⟨s, hs, hobs⟩ := Option.map_eq_some_iff.1 hrun
  simp only [Prod.mk.injEq] at hobs
  have hreach := reaches_of_run (fun _ _ _ => check_checked fun _ _ _ => next_step) hs
  exact ⟨s, hobs.1, hobs.2, (exclusive_use hreach 0).2 0 Nat.zero_lt_one (by rw [hobs.1]; rfl)⟩

/-- Two rooms, two guests, one cleaner. -/
def twoRooms : Config where
  numHotelRooms := 2
  numGuestThreads := 2
  numCleanerThreads := 1
  priority := fun _ => 1

/-- Guest 0 has the first stay in both rooms and starts the second in room 0. Before it waits, guest
1 starts the second stay in room 1, and is the last guest. -/
def earlyBroadcast : List Thread :=
  List.replicate 22 (.guest 0) ++ List.replicate 6 (.guest 1) ++ List.replicate 2 (.cleaner 0)

/-- **A broadcast that comes too early**: the cleaner takes the room that guest 0 stays in. -/
theorem cleaned_while_staying : ¬ ∀ (c : Config) (s : State), Reaches (Step c) (State.init c) s →
    ∀ r, staying c s r ≤ 1 ∧
      ∀ k < c.numCleanerThreads, (s.cleaners k).holds.map Prod.fst = some r → staying c s r = 0 := by
  intro hclaim
  have hrun : (run (next twoRooms) (State.init twoRooms) earlyBroadcast).map
      (fun s => (s.cleaners 0, staying twoRooms s 0)) = some (.tookTwo 0, 1) := by
    decide
  obtain ⟨s, hs, hobs⟩ := Option.map_eq_some_iff.1 hrun
  simp only [Prod.mk.injEq] at hobs
  have hzero := (hclaim twoRooms s (reaches_of_run (fun _ _ _ => next_step) hs) 0).2 0 (by decide)
    (by rw [hobs.1]; rfl)
  omega

end OsLab.Hotel
