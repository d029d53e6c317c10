import OsLab.Hotel.UseCount

/-!
# The end of cleaning

`num_cleaned_rooms` is reset by every cleaner that wakes from `signal_cond`, at any later time, and
not by a cleaner that was not waiting when the phase started. `counted` records how many rooms were
counted in the phase.

* `numCleaned_iff`: after steps that are `InTime` the counter agrees with the record in every phase,
  and the next step keeps it that way if and only if it is in time.
* `cleaning_never_ends`: a cleaner that is still announcing the end of one phase when the next one
  starts counts its rooms past `num_hotel_rooms`.
-/

namespace OsLab.Hotel

open Lib

variable {c : Config} {s t : State} {g k r n : ℕ}

/-- The rooms that the cleaners have pushed to `empty_q` and counted in the phase: none when it
starts, and one more after each region in which a cleaner counts the room it has pushed. -/
def counted (c : Config) (s : State) (a : Thread) (t : State) (n : ℕ) : ℕ :=
  if ¬ cleaning c s ∧ cleaning c t then 0
  else
    match a with
    | .guest _ => n
    | .cleaner k => if s.cleaners k = .cleaned then n + 1 else n

/-- A phase starts, and a cleaner that was woken resets the counter in a phase, only while
`num_cleaned_rooms` is 0. -/
def InTime (c : Config) (s : State) : Thread → Prop
  | .guest g => (s.guests g).increments → s.useCount + 1 = 2 * c.numHotelRooms →
      s.numCleanedRooms = 0
  | .cleaner k => s.cleaners k = .woken → cleaning c s → s.numCleanedRooms = 0

instance (c : Config) (s : State) (a : Thread) : Decidable (InTime c s a) :=
  match a with
  | .guest _ => inferInstanceAs (Decidable (_ → _ → _))
  | .cleaner _ => inferInstanceAs (Decidable (_ → _ → _))

/-- In a phase `num_cleaned_rooms` is the number of rooms that were counted. -/
def CountTruth (c : Config) (x : State × ℕ) : Prop := cleaning c x.1 → x.1.numCleanedRooms = x.2

theorem countTruth_init (c : Config) : CountTruth c (State.init c, 0) := fun _ => rfl

theorem cleaning_congr (hu : t.useCount = s.useCount) : cleaning c t ↔ cleaning c s := by
  unfold cleaning
  rw [hu]

/-- A step does not start a phase when `use_count` stays. -/
theorem counted_guest (hu : cleaning c t → cleaning c s) : counted c s (.guest g) t n = n :=
  if_neg fun h => h.1 (hu h.2)

theorem counted_cleaner (hu : cleaning c t → cleaning c s) : counted c s (.cleaner k) t n =
    if s.cleaners k = .cleaned then n + 1 else n := if_neg fun h => h.1 (hu h.2)

/-- A guest that has nothing to count leaves `use_count` alone. -/
theorem guest_useCount (hst : GuestStep c g s t) (hg : ¬ (s.guests g).increments) :
    t.useCount = s.useCount := by
  cases hst with
  | useOne hpc | signalLast hpc _ | signalNot hpc _ => exact absurd (by rw [hpc]; rfl) hg
  | _ => rfl

theorem guest_numCleanedRooms (hst : GuestStep c g s t) : t.numCleanedRooms = s.numCleanedRooms := by
  cases hst <;> rfl

theorem countTruth_guest (h : CountTruth c (s, n)) (hst : GuestStep c g s t) :
    CountTruth c (t, counted c s (.guest g) t n) ↔ InTime c s (.guest g) := by
  have hn := guest_numCleanedRooms hst
  by_cases hstart : (s.guests g).increments ∧ s.useCount + 1 = 2 * c.numHotelRooms
  · obtain ⟨hg, hlast⟩ := hstart
    have hu := increments hst hg
    -- the phase starts, and no room of it is counted
    have hct : cleaning c t := by unfold cleaning; omega
    have h0 : counted c s (.guest g) t n = 0 := if_pos ⟨by unfold cleaning; omega, hct⟩
    constructor
    · intro ht _ _
      exact hn.symm.trans ((ht hct).trans h0)
    · intro ht _
      exact hn.trans ((ht hg hlast).trans h0.symm)
  · have hcs : cleaning c t → cleaning c s := by
      by_cases hg : (s.guests g).increments
      · have hu := increments hst hg
        have hlast : s.useCount + 1 ≠ 2 * c.numHotelRooms := fun h => hstart ⟨hg, h⟩
        intro ⟨h0, h2⟩
        exact ⟨h0, by omega⟩
      · exact (cleaning_congr (guest_useCount hst hg)).1
    refine iff_of_true ?_ fun hg hlast => absurd ⟨hg, hlast⟩ hstart
    intro hct
    rw [counted_guest hcs]
    exact hn.trans (h (hcs hct))

/-- A cleaner takes the mutex, and resets the counter if it was woken. -/
theorem countTruth_wait (h : CountTruth c (s, n)) (hpc : s.cleaners k = .top ∨ s.cleaners k = .woken)
    (hu : t.useCount = s.useCount) (hn : t.numCleanedRooms = afterWait s k) :
    CountTruth c (t, counted c s (.cleaner k) t n) ↔ InTime c s (.cleaner k) := by
  have hcs : cleaning c t ↔ cleaning c s := cleaning_congr hu
  have hsame : counted c s (.cleaner k) t n = n := by
    rw [counted_cleaner hcs.1, if_neg]
    rcases hpc with hpc | hpc <;> rw [hpc] <;> decide
  unfold CountTruth InTime
  dsimp only
  rw [hsame, hcs, hn]
  unfold afterWait
  rcases hpc with hpc | hpc
  · have hne : s.cleaners k ≠ .woken := by rw [hpc]; decide
    rw [if_neg hne]
    exact iff_of_true h fun hk => absurd hk hne
  · rw [if_pos hpc]
    constructor
    · intro ht _ hc
      exact (h hc).trans (ht hc).symm
    · intro ht hc
      exact (ht hpc hc).symm.trans (h hc)

/-- A cleaner that was not woken, and does not count the last room. -/
theorem countTruth_same (h : CountTruth c (s, n)) (hk : s.cleaners k ≠ .woken)
    (hu : t.useCount = s.useCount)
    (hn : t.numCleanedRooms = if s.cleaners k = .cleaned then s.numCleanedRooms + 1
      else s.numCleanedRooms) :
    CountTruth c (t, counted c s (.cleaner k) t n) ↔ InTime c s (.cleaner k) := by
  have hcs : cleaning c t ↔ cleaning c s := cleaning_congr hu
  refine iff_of_true ?_ fun hw => absurd hw hk
  intro hc
  have hs := h (hcs.1 hc)
  dsimp only at hs ⊢
  rw [counted_cleaner hcs.1, hn, hs]

theorem countTruth_cleaner (h : CountTruth c (s, n)) (hst : CleanerStep c k s t) :
    CountTruth c (t, counted c s (.cleaner k) t n) ↔ InTime c s (.cleaner k) := by
  cases hst with
  | park hpc _ | enter hpc _ => exact countTruth_wait h hpc rfl rfl
  | takeTwo hpc _ | noTwo hpc _ | reset hpc | pushEmpty hpc | announce hpc =>
    refine countTruth_same h (by rw [hpc]; nofun) rfl ?_
    rw [if_neg (by rw [hpc]; nofun)]
    rfl
  | rest hpc _ | endRest hpc _ =>
    refine countTruth_same h (by rcases hpc with hpc | hpc <;> rw [hpc] <;> nofun) rfl ?_
    rw [if_neg (by rcases hpc with hpc | hpc <;> rw [hpc] <;> nofun)]
    rfl
  | count hpc _ =>
    refine countTruth_same h (by rw [hpc]; nofun) rfl ?_
    rw [if_pos hpc]
    rfl
  | countLast hpc _ =>
    -- the phase is over
    refine iff_of_true ?_ fun hw => by rw [hpc] at hw; cases hw
    intro hc
    have h0 := hc.1
    have h2 := hc.2
    simp only [State.cleanerTo] at h2
    omega

theorem countTruth_step {a : Thread} (h : CountTruth c (s, n)) (hst : Step c s a t) :
    CountTruth c (t, counted c s a t n) ↔ InTime c s a := by
  cases hst with
  | guest _ _ hst => exact countTruth_guest h hst
  | cleaner _ _ hst => exact countTruth_cleaner h hst

/-- What the count of a room does. -/
theorem counts (hst : CleanerStep c k s t) (hk : s.cleaners k = .cleaned) :
    t.numCleanedRooms = s.numCleanedRooms + 1 ∧
      (s.numCleanedRooms + 1 = c.numHotelRooms → t.useCount = 0) := by
  cases hst with
  | count _ hn => exact ⟨rfl, fun h => absurd h hn⟩
  | countLast _ _ => exact ⟨rfl, fun _ => rfl⟩
  | park hpc _ | enter hpc _ | rest hpc _ | endRest hpc _ =>
    rw [hk] at hpc
    rcases hpc with hpc | hpc <;> cases hpc
  | takeTwo hpc _ | noTwo hpc _ | reset hpc | pushEmpty hpc | announce hpc =>
    rw [hk] at hpc
    cases hpc

/-- **The end of cleaning is detected** after steps in time: `num_cleaned_rooms` is the number of
rooms counted in the phase, and the count of the last one resets `use_count`. The next step keeps
the counter right if and only if it is in time. -/
theorem numCleaned_iff
    (h : Reaches (Guarded (fun x a => InTime c x.1 a) (Recorded (Step c) (counted c)))
      (State.init c, 0) (s, n)) :
    (cleaning c s → s.numCleanedRooms = n) ∧
      (∀ k t, Step c s (.cleaner k) t → s.cleaners k = .cleaned → cleaning c s →
        n + 1 = c.numHotelRooms → t.numCleanedRooms = c.numHotelRooms ∧ t.useCount = 0) ∧
      ∀ a t, Step c s a t →
        ((cleaning c t → t.numCleanedRooms = counted c s a t n) ↔ InTime c s a) := by
  have htruth : CountTruth c (s, n) := by
    refine reaches_inv (I := CountTruth c) ?_ (countTruth_init c) h
    intro x a y hx hxy
    obtain ⟨y, m⟩ := y
    obtain ⟨hin, hst, hm⟩ := hxy
    dsimp only at hm hst
    subst hm
    exact (countTruth_step hx hst).2 hin
  refine ⟨htruth, ?_, fun a t hst => countTruth_step htruth hst⟩
  intro k t hst hk hc hN
  cases hst with
  | cleaner _ _ hst =>
    obtain ⟨hnum, huse⟩ := counts hst hk
    have hn : s.numCleanedRooms = n := htruth hc
    exact ⟨by omega, huse (by omega)⟩

/-- The guest of `smallHotel` has both stays in the room, and the cleaner is to count it. -/
theorem numCleaned_smallHotel : ∃ s : State, s.useCount = 2 ∧ s.cleaners 0 = .cleaned ∧
    s.numCleanedRooms = 0 ∧ ∀ t, Step smallHotel s (.cleaner 0) t → t.useCount = 0 := by
  have hrun : (run (check (fun x a _ => InTime smallHotel x.1 a) (record (next smallHotel)
      (counted smallHotel))) (State.init smallHotel, 0) (List.replicate 14 (.guest 0) ++
        List.replicate 4 (.cleaner 0))).map (fun x => (x.1.useCount, x.1.cleaners 0, x.2)) =
      some (2, .cleaned, 0) := by
    decide
  obtain ⟨⟨s, n⟩, hs, hobs⟩ := Option.map_eq_some_iff.1 hrun
  simp only [Prod.mk.injEq] at hobs
  obtain ⟨huse, hpc, rfl⟩ := hobs
  have hreach := reaches_of_run (fun _ _ _ => check_checked fun _ _ _ =>
    record_recorded fun _ _ _ => next_step) hs
  obtain ⟨hnum, hlast, -⟩ := numCleaned_iff hreach
  have hc : cleaning smallHotel s := ⟨Nat.zero_lt_one, huse.ge⟩
  exact ⟨s, huse, hpc, hnum hc, fun t hst => (hlast 0 t hst hpc hc rfl).2⟩

/-- The guest has both stays in the room, and the cleaner cleans it. The guest has two more stays
before the cleaner has announced the end of the phase, so that the cleaner does not wait. -/
def busyCleaner : List Thread :=
  List.replicate 14 (.guest 0) ++ List.replicate 5 (.cleaner 0) ++ List.replicate 14 (.guest 0) ++
    List.replicate 6 (.cleaner 0)

/-- **A phase that does not end**: its only room is counted, and the counter is 2. -/
theorem cleaning_never_ends : ¬ ∀ (c : Config) (s : State) (n : ℕ),
    Reaches (Recorded (Step c) (counted c)) (State.init c, 0) (s, n) →
      cleaning c s → s.numCleanedRooms = n := by
  intro hclaim
  have hrun : (run (record (next smallHotel) (counted smallHotel)) (State.init smallHotel, 0)
      busyCleaner).map (fun x => (x.1.useCount, x.1.numCleanedRooms, x.2)) = some (2, 2, 1) := by
    decide
  obtain ⟨⟨s, n⟩, hs, hobs⟩ := Option.map_eq_some_iff.1 hrun
  simp only [Prod.mk.injEq] at hobs
  obtain ⟨huse, hnum, hn⟩ := hobs
  have hreach := reaches_of_run (fun _ _ _ => record_recorded fun _ _ _ => next_step) hs
  have := hclaim smallHotel s n hreach ⟨Nat.zero_lt_one, huse.ge⟩
  omega

end OsLab.Hotel
