import OsLab.Hotel.UseCount

/-!
# The lock of `num_cleaned_rooms` (`cleaner.cpp`)

`cleaner_func` with every lock, unlock and wait on `signal_mutex` and `all_clean_mutex` a step of its
own. An unlock makes a mutex free, whoever holds it. A cleaner that has found all rooms cleaned
unlocks `all_clean_mutex` before it announces this to the guests, and unlocks it again at the end.

* `held_step`: the mutex is locked while one cleaner is inside, if no second unlock frees it.
* `mutual_exclusion`: at most one cleaner is inside.
* `two_cleaners_inside`: a second unlock that lets a third cleaner in.
-/

namespace OsLab.Hotel.CleanMutex

open Lib

/-- Where a cleaner is in `cleaner_func`, one place between any two steps. -/
inductive Place where
  /-- before the lock of `signal_mutex` -/
  | top
  /-- before the test of `use_count` -/
  | testing
  /-- before the wait on `signal_cond` -/
  | parking
  /-- in the wait on `signal_cond` -/
  | parked
  /-- back from it, before the lock of `all_clean_mutex` -/
  | unparked
  /-- before `num_cleaned_rooms = 0` -/
  | resetting
  /-- before the unlock of `all_clean_mutex` -/
  | resetOver
  /-- before the unlock of `signal_mutex` -/
  | leaving
  /-- before the test of `two_occ_q` -/
  | ready
  /-- has popped `r` from `two_occ_q` -/
  | tookTwo (r : ℕ)
  /-- has reset the attributes of `r`, before the push to `empty_q` -/
  | cleaning (r : ℕ)
  /-- before the lock of `all_clean_mutex` -/
  | cleaned
  /-- before `num_cleaned_rooms++` -/
  | counting
  /-- before the test of `num_cleaned_rooms` -/
  | counted
  /-- has found all rooms cleaned, before `use_count = 0` -/
  | allCleaned
  /-- before the broadcast on `all_clean_cond` -/
  | broadcasting
  /-- before the unlock of `all_clean_mutex` inside the `if` -/
  | unlocking
  /-- before the broadcast to the guests -/
  | announcing
  /-- before the unlock after the `if`, when the `if` was taken -/
  | announced
  /-- before the unlock after the `if`, when the `if` was not taken -/
  | countOver
  /-- `two_occ_q` was empty, before the lock of `all_clean_mutex` -/
  | noTwo
  /-- before the test of `num_cleaned_rooms` -/
  | restTest
  /-- before the wait on `all_clean_cond` -/
  | restPark
  /-- in the wait on `all_clean_cond` -/
  | resting
  /-- before the unlock of `all_clean_mutex` -/
  | restOver
  deriving DecidableEq

/-- The cleaner has acquired `all_clean_mutex`, and is before the unlock that belongs to it. -/
def Place.inside : Place → Bool
  | .resetting | .resetOver | .counting | .counted | .allCleaned | .broadcasting | .unlocking
  | .countOver | .restTest | .restPark | .restOver => true
  | _ => false

/-- The hotel, the two mutexes, and the places of the cleaners. Of a cleaner, `hotel` only says
whether it is in a wait on a condition variable, or woken from it. -/
structure State where
  hotel : Hotel.State
  signalMutex : Bool
  allCleanMutex : Bool
  places : ℕ → Place

def State.init (c : Config) : State where
  hotel := Hotel.State.init c
  signalMutex := false
  allCleanMutex := false
  places := fun _ => .top

/-- Cleaner `k` goes to `p`. -/
def State.goTo (s : State) (k : ℕ) (p : Place) : State :=
  { s with places := Function.update s.places k p }

/-- The steps of cleaner `k` in `cleaner_func`. -/
inductive CleanerStep (c : Config) (k : ℕ) : State → State → Prop where
  /-- `pthread_mutex_lock(&signal_mutex)`. -/
  | lockSignal {s} (h : s.places k = .top) (hm : s.signalMutex = false) :
      CleanerStep c k s ({ s with signalMutex := true }.goTo k .testing)
  /-- `while(use_count < 2*num_hotel_rooms)`. -/
  | stay {s} (h : s.places k = .testing) (hu : s.hotel.useCount < 2 * c.numHotelRooms) :
      CleanerStep c k s (s.goTo k .parking)
  | leave {s} (h : s.places k = .testing) (hu : ¬ s.hotel.useCount < 2 * c.numHotelRooms) :
      CleanerStep c k s (s.goTo k .leaving)
  /-- `pthread_cond_wait(&signal_cond, &signal_mutex)`. -/
  | park {s} (h : s.places k = .parking) :
      CleanerStep c k s ({ s with
        hotel := s.hotel.cleanerTo k .waiting
        signalMutex := false }.goTo k .parked)
  /-- It returns. -/
  | unpark {s} (h : s.places k = .parked) (hw : s.hotel.cleaners k = .woken)
      (hm : s.signalMutex = false) :
      CleanerStep c k s ({ s with
        hotel := s.hotel.cleanerTo k .top
        signalMutex := true }.goTo k .unparked)
  | lockReset {s} (h : s.places k = .unparked) (hm : s.allCleanMutex = false) :
      CleanerStep c k s ({ s with allCleanMutex := true }.goTo k .resetting)
  /-- `num_cleaned_rooms = 0`. -/
  | resetCount {s} (h : s.places k = .resetting) :
      CleanerStep c k s ({ s with hotel := { s.hotel with numCleanedRooms := 0 } }.goTo k .resetOver)
  | unlockReset {s} (h : s.places k = .resetOver) :
      CleanerStep c k s ({ s with allCleanMutex := false }.goTo k .testing)
  | unlockSignal {s} (h : s.places k = .leaving) :
      CleanerStep c k s ({ s with signalMutex := false }.goTo k .ready)
  /-- `two_occ_q.pop()`. -/
  | takeTwo {s r q} (h : s.places k = .ready) (hq : s.hotel.twoOccQ = r :: q) :
      CleanerStep c k s ({ s with hotel := { s.hotel with twoOccQ := q } }.goTo k (.tookTwo r))
  | noTwo {s} (h : s.places k = .ready) (hq : s.hotel.twoOccQ = []) :
      CleanerStep c k s (s.goTo k .noTwo)
  /-- The room attributes are reset. -/
  | reset {s r} (h : s.places k = .tookTwo r) :
      CleanerStep c k s ({ s with hotel := s.hotel.setRoom r ⟨0, 0, -1, 0⟩ }.goTo k (.cleaning r))
  /-- `empty_q.push(r)`. -/
  | pushEmpty {s r} (h : s.places k = .cleaning r) :
      CleanerStep c k s ({ s with
        hotel := { s.hotel with emptyQ := s.hotel.emptyQ ++ [r] } }.goTo k .cleaned)
  | lockCount {s} (h : s.places k = .cleaned) (hm : s.allCleanMutex = false) :
      CleanerStep c k s ({ s with allCleanMutex := true }.goTo k .counting)
  /-- `num_cleaned_rooms++`. -/
  | count {s} (h : s.places k = .counting) :
      CleanerStep c k s ({ s with
        hotel := { s.hotel with numCleanedRooms := s.hotel.numCleanedRooms + 1 } }.goTo k .counted)
  /-- `if (num_cleaned_rooms == num_hotel_rooms)`. -/
  | countLast {s} (h : s.places k = .counted) (hn : s.hotel.numCleanedRooms = c.numHotelRooms) :
      CleanerStep c k s (s.goTo k .allCleaned)
  | countNot {s} (h : s.places k = .counted) (hn : s.hotel.numCleanedRooms ≠ c.numHotelRooms) :
      CleanerStep c k s (s.goTo k .countOver)
  /-- `use_count = 0`. -/
  | resetUse {s} (h : s.places k = .allCleaned) :
      CleanerStep c k s ({ s with hotel := { s.hotel with useCount := 0 } }.goTo k .broadcasting)
  /-- `pthread_cond_broadcast(&all_clean_cond)`. -/
  | broadcast {s} (h : s.places k = .broadcasting) :
      CleanerStep c k s ({ s with
        hotel := { s.hotel with cleaners := wake s.hotel.cleaners .resting .rested } }.goTo k
          .unlocking)
  | unlockInner {s} (h : s.places k = .unlocking) :
      CleanerStep c k s ({ s with allCleanMutex := false }.goTo k .announcing)
  /-- `pthread_cond_broadcast(&signal_guests_cond)`. -/
  | announce {s} (h : s.places k = .announcing) :
      CleanerStep c k s ({ s with
        hotel := { s.hotel with guests := wake s.hotel.guests .waiting .woken } }.goTo k .announced)
  /-- The mutex is unlocked again, after the unlock inside the `if`. -/
  | unlockAgain {s} (h : s.places k = .announced) :
      CleanerStep c k s ({ s with allCleanMutex := false }.goTo k .top)
  | unlockCount {s} (h : s.places k = .countOver) :
      CleanerStep c k s ({ s with allCleanMutex := false }.goTo k .top)
  | lockRest {s} (h : s.places k = .noTwo) (hm : s.allCleanMutex = false) :
      CleanerStep c k s ({ s with allCleanMutex := true }.goTo k .restTest)
  /-- `while(num_cleaned_rooms < num_hotel_rooms)`. -/
  | mustRest {s} (h : s.places k = .restTest) (hn : s.hotel.numCleanedRooms < c.numHotelRooms) :
      CleanerStep c k s (s.goTo k .restPark)
  | noRest {s} (h : s.places k = .restTest) (hn : ¬ s.hotel.numCleanedRooms < c.numHotelRooms) :
      CleanerStep c k s (s.goTo k .restOver)
  /-- `pthread_cond_wait(&all_clean_cond, &all_clean_mutex)`. -/
  | rest {s} (h : s.places k = .restPark) :
      CleanerStep c k s ({ s with
        hotel := s.hotel.cleanerTo k .resting
        allCleanMutex := false }.goTo k .resting)
  /-- It returns. -/
  | endRest {s} (h : s.places k = .resting) (hw : s.hotel.cleaners k = .rested)
      (hm : s.allCleanMutex = false) :
      CleanerStep c k s ({ s with
        hotel := s.hotel.cleanerTo k .top
        allCleanMutex := true }.goTo k .restTest)
  | unlockRest {s} (h : s.places k = .restOver) :
      CleanerStep c k s ({ s with allCleanMutex := false }.goTo k .top)

/-- One step of one thread, as long as no thread has called `exit`. A guest takes its regions whole:
it never locks `all_clean_mutex`, and `signal_mutex` for an increment of `use_count`. -/
inductive Step (c : Config) : State → Thread → State → Prop where
  | guest {s u g} (hf : s.hotel.failed = false) (hg : g < c.numGuestThreads)
      (hm : (s.hotel.guests g).increments → s.signalMutex = false)
      (h : GuestStep c g s.hotel u) : Step c s (.guest g) { s with hotel := u }
  | cleaner {s t k} (hf : s.hotel.failed = false) (hk : k < c.numCleanerThreads)
      (h : CleanerStep c k s t) : Step c s (.cleaner k) t

/-- The second unlock is before a cleaner, and no cleaner is inside. -/
def Unlocked (c : Config) (s : State) : Thread → Prop
  | .guest _ => True
  | .cleaner k => s.places k = .announced →
      ∀ j < c.numCleanerThreads, (s.places j).inside = false

variable {c : Config} {s t u : State} {j k : ℕ}

/-! ## One cleaner inside -/

/-- The number of cleaners inside. -/
def numInside (c : Config) (s : State) : ℕ :=
  ∑ k ∈ Finset.range c.numCleanerThreads, (s.places k).inside.toNat

theorem numInside_goTo (hk : k < c.numCleanerThreads) (p : Place) :
    numInside c (s.goTo k p) + (s.places k).inside.toNat = numInside c s + p.inside.toNat :=
  sum_update s.places (fun p => p.inside.toNat) hk p

/-- The mutex is locked exactly while a cleaner is inside, and then only one is. -/
def Held (c : Config) (s : State) : Prop := numInside c s = s.allCleanMutex.toNat

theorem held_init (c : Config) : Held c (State.init c) := by
  simp [Held, numInside, State.init, Place.inside]

/-- A step of cleaner `k` from `p` to `q` that changes the mutex as it enters or leaves. -/
theorem Held.goTo (h : Held c s) (hk : k < c.numCleanerThreads) {p q : Place} (hp : s.places k = p)
    (hu : u.places = s.places)
    (hq : u.allCleanMutex.toNat + p.inside.toNat = s.allCleanMutex.toNat + q.inside.toNat) :
    Held c (u.goTo k q) := by
  have hsum := numInside_goTo (s := u) hk q
  have hsame : numInside c u = numInside c s := by unfold numInside; rw [hu]
  rw [hu, hp] at hsum
  unfold Held at h ⊢
  show _ = u.allCleanMutex.toNat
  omega

/-- A cleaner inside holds the mutex. -/
theorem Held.locked (h : Held c s) (hk : k < c.numCleanerThreads) (hi : (s.places k).inside = true) :
    s.allCleanMutex.toNat = 1 := by
  have hle := le_sum s.places (fun p => p.inside.toNat) hk
  have hone : (s.places k).inside.toNat = 1 := by rw [hi]; rfl
  have hbool := s.allCleanMutex.toNat_le
  unfold Held numInside at h
  omega

theorem held_cleaner (h : Held c s) (hk : k < c.numCleanerThreads) (hc : Unlocked c s (.cleaner k))
    (hst : CleanerStep c k s t) : Held c t := by
  cases hst with
  | lockSignal hp _ | stay hp _ | leave hp _ | park hp | unpark hp _ _ | resetCount hp | unlockSignal hp
  | takeTwo hp _ | noTwo hp _ | reset hp | pushEmpty hp | count hp | countLast hp _ | countNot hp _
  | resetUse hp | broadcast hp | announce hp | mustRest hp _ | noRest hp _ =>
    exact h.goTo hk hp rfl rfl
  | lockReset hp hm | lockCount hp hm | lockRest hp hm | endRest hp _ hm =>
    -- the mutex was free
    refine h.goTo hk hp rfl ?_
    rw [hm]
    rfl
  | unlockReset hp | unlockInner hp | unlockCount hp | rest hp | unlockRest hp =>
    -- the cleaner held the mutex
    have hlocked := h.locked hk (by rw [hp]; rfl)
    refine h.goTo hk hp rfl ?_
    rw [hlocked]
    rfl
  | unlockAgain hp =>
    -- no cleaner is inside, so the mutex is free already
    have hnone : numInside c s = 0 := by
      apply Finset.sum_eq_zero
      intro j hj
      rw [hc hp j (Finset.mem_range.1 hj)]
      rfl
    refine h.goTo hk hp rfl ?_
    unfold Held at h
    rw [← h, hnone]
    rfl

theorem held_step {a : Thread} (h : Held c s) (hc : Unlocked c s a) (hst : Step c s a t) :
    Held c t := by
  cases hst with
  | guest _ _ _ _ => exact h
  | cleaner _ hk hst => exact held_cleaner h hk hc hst

/-- **Mutual exclusion of `all_clean_mutex`**, in runs in which every second unlock comes while no
cleaner is inside. -/
theorem mutual_exclusion (h : Reaches (Guarded (Unlocked c) (Step c)) (State.init c) s) :
    numInside c s ≤ 1 := by
  have hheld : Held c s :=
    reaches_inv (I := Held c) (fun _ _ _ hI hst => held_step hI hst.1 hst.2) (held_init c) h
  rw [hheld]
  exact s.allCleanMutex.toNat_le

/-! ## Runs by schedule -/

/-- The next step of cleaner `k`. -/
def cleanerNext (c : Config) (k : ℕ) (s : State) : Option State :=
  match s.places k with
  | .top => if s.signalMutex then none else some ({ s with signalMutex := true }.goTo k .testing)
  | .testing =>
    if s.hotel.useCount < 2 * c.numHotelRooms then some (s.goTo k .parking)
    else some (s.goTo k .leaving)
  | .parking =>
    some ({ s with hotel := s.hotel.cleanerTo k .waiting, signalMutex := false }.goTo k .parked)
  | .parked =>
    if s.hotel.cleaners k = .woken ∧ s.signalMutex = false then
      some ({ s with hotel := s.hotel.cleanerTo k .top, signalMutex := true }.goTo k .unparked)
    else none
  | .unparked =>
    if s.allCleanMutex then none else some ({ s with allCleanMutex := true }.goTo k .resetting)
  | .resetting => some ({ s with hotel := { s.hotel with numCleanedRooms := 0 } }.goTo k .resetOver)
  | .resetOver => some ({ s with allCleanMutex := false }.goTo k .testing)
  | .leaving => some ({ s with signalMutex := false }.goTo k .ready)
  | .ready =>
    match s.hotel.twoOccQ with
    | [] => some (s.goTo k .noTwo)
    | r :: q => some ({ s with hotel := { s.hotel with twoOccQ := q } }.goTo k (.tookTwo r))
  | .tookTwo r => some ({ s with hotel := s.hotel.setRoom r ⟨0, 0, -1, 0⟩ }.goTo k (.cleaning r))
  | .cleaning r =>
    some ({ s with hotel := { s.hotel with emptyQ := s.hotel.emptyQ ++ [r] } }.goTo k .cleaned)
  | .cleaned =>
    if s.allCleanMutex then none else some ({ s with allCleanMutex := true }.goTo k .counting)
  | .counting =>
    some ({ s with
      hotel := { s.hotel with numCleanedRooms := s.hotel.numCleanedRooms + 1 } }.goTo k .counted)
  | .counted =>
    if s.hotel.numCleanedRooms = c.numHotelRooms then some (s.goTo k .allCleaned)
    else some (s.goTo k .countOver)
  | .allCleaned => some ({ s with hotel := { s.hotel with useCount := 0 } }.goTo k .broadcasting)
  | .broadcasting =>
    some ({ s with
      hotel := { s.hotel with cleaners := wake s.hotel.cleaners .resting .rested } }.goTo k .unlocking)
  | .unlocking => some ({ s with allCleanMutex := false }.goTo k .announcing)
  | .announcing =>
    some ({ s with
      hotel := { s.hotel with guests := wake s.hotel.guests .waiting .woken } }.goTo k .announced)
  | .announced | .countOver | .restOver => some ({ s with allCleanMutex := false }.goTo k .top)
  | .noTwo =>
    if s.allCleanMutex then none else some ({ s with allCleanMutex := true }.goTo k .restTest)
  | .restTest =>
    if s.hotel.numCleanedRooms < c.numHotelRooms then some (s.goTo k .restPark)
    else some (s.goTo k .restOver)
  | .restPark =>
    some ({ s with hotel := s.hotel.cleanerTo k .resting, allCleanMutex := false }.goTo k .resting)
  | .resting =>
    if s.hotel.cleaners k = .rested ∧ s.allCleanMutex = false then
      some ({ s with hotel := s.hotel.cleanerTo k .top, allCleanMutex := true }.goTo k .restTest)
    else none

/-- The next step of thread `a`. -/
def next (c : Config) (s : State) : Thread → Option State
  | .guest g =>
    if s.hotel.failed = false ∧ g < c.numGuestThreads ∧
        ((s.hotel.guests g).increments → s.signalMutex = false) then
      (guestNext c g s.hotel).map fun u => { s with hotel := u }
    else none
  | .cleaner k =>
    if s.hotel.failed = false ∧ k < c.numCleanerThreads then cleanerNext c k s else none

theorem cleanerNext_step (h : cleanerNext c k s = some t) : CleanerStep c k s t := by
  unfold cleanerNext at h
  cases hp : s.places k with
  | top =>
    simp only [hp] at h
    split_ifs at h with hm
    cases h
    exact .lockSignal hp (Bool.eq_false_iff.2 hm)
  | testing =>
    simp only [hp] at h
    split_ifs at h with hu <;> cases h
    · exact .stay hp hu
    · exact .leave hp hu
  | parking => simp only [hp] at h; cases h; exact .park hp
  | parked =>
    simp only [hp] at h
    split_ifs at h with hw
    cases h
    exact .unpark hp hw.1 hw.2
  | unparked =>
    simp only [hp] at h
    split_ifs at h with hm
    cases h
    exact .lockReset hp (Bool.eq_false_iff.2 hm)
  | resetting => simp only [hp] at h; cases h; exact .resetCount hp
  | resetOver => simp only [hp] at h; cases h; exact .unlockReset hp
  | leaving => simp only [hp] at h; cases h; exact .unlockSignal hp
  | ready =>
    cases hq : s.hotel.twoOccQ with
    | nil => simp only [hp, hq] at h; cases h; exact .noTwo hp hq
    | cons r q => simp only [hp, hq] at h; cases h; exact .takeTwo hp hq
  | tookTwo r => simp only [hp] at h; cases h; exact .reset hp
  | cleaning r => simp only [hp] at h; cases h; exact .pushEmpty hp
  | cleaned =>
    simp only [hp] at h
    split_ifs at h with hm
    cases h
    exact .lockCount hp (Bool.eq_false_iff.2 hm)
  | counting => simp only [hp] at h; cases h; exact .count hp
  | counted =>
    simp only [hp] at h
    split_ifs at h with hn <;> cases h
    · exact .countLast hp hn
    · exact .countNot hp hn
  | allCleaned => simp only [hp] at h; cases h; exact .resetUse hp
  | broadcasting => simp only [hp] at h; cases h; exact .broadcast hp
  | unlocking => simp only [hp] at h; cases h; exact .unlockInner hp
  | announcing => simp only [hp] at h; cases h; exact .announce hp
  | announced => simp only [hp] at h; cases h; exact .unlockAgain hp
  | countOver => simp only [hp] at h; cases h; exact .unlockCount hp
  | restOver => simp only [hp] at h; cases h; exact .unlockRest hp
  | noTwo =>
    simp only [hp] at h
    split_ifs at h with hm
    cases h
    exact .lockRest hp (Bool.eq_false_iff.2 hm)
  | restTest =>
    simp only [hp] at h
    split_ifs at h with hn <;> cases h
    · exact .mustRest hp hn
    · exact .noRest hp hn
  | restPark => simp only [hp] at h; cases h; exact .rest hp
  | resting =>
    simp only [hp] at h
    split_ifs at h with hw
    cases h
    exact .endRest hp hw.1 hw.2

theorem next_step {a : Thread} (h : next c s a = some t) : Step c s a t := by
  cases a with
  | guest g =>
    simp only [next] at h
    split_ifs at h with hg
    obtain ⟨u, hu, rfl⟩ := Option.map_eq_some_iff.1 h
    exact .guest hg.1 hg.2.1 hg.2.2 (guestNext_step hu)
  | cleaner k =>
    simp only [next] at h
    split_ifs at h with hk
    exact .cleaner hk.1 hk.2 (cleanerNext_step h)

instance (c : Config) (s : State) (a : Thread) : Decidable (Unlocked c s a) :=
  match a with
  | .guest _ => inferInstanceAs (Decidable True)
  | .cleaner _ => inferInstanceAs (Decidable (_ → _))

/-- One room, one guest, three cleaners. -/
def threeCleaners : Config where
  numHotelRooms := 1
  numGuestThreads := 1
  numCleanerThreads := 3
  priority := fun _ => 1

/-- The guest has both stays, the cleaners find the room used twice, and cleaner 0 counts it and
unlocks inside the `if`. -/
def roomCleaned : List Thread :=
  List.replicate 14 (.guest 0) ++ List.replicate 3 (.cleaner 0) ++ List.replicate 3 (.cleaner 1) ++
    List.replicate 3 (.cleaner 2) ++ List.replicate 9 (.cleaner 0)

/-- Cleaner 1 is inside while cleaner 0 announces. -/
theorem mutual_exclusion_roomCleaned :
    ∃ s, (s.places 0, s.places 1) = (.announcing, .restTest) ∧ numInside threeCleaners s ≤ 1 := by
  have hrun : (run (check (fun s a _ => Unlocked threeCleaners s a) (next threeCleaners))
      (State.init threeCleaners) (roomCleaned ++ List.replicate 2 (.cleaner 1))).map
        (fun s => (s.places 0, s.places 1)) = some (.announcing, .restTest) := by
    decide
  obtain ⟨s, hs, hobs⟩ := Option.map_eq_some_iff.1 hrun
  have hreach := reaches_of_run (fun _ _ _ => check_checked fun _ _ _ => next_step) hs
  exact ⟨s, hobs, mutual_exclusion hreach⟩

/-- **A second unlock that lets a third cleaner in**: cleaner 1 is inside when cleaner 0 unlocks the
mutex again, and cleaner 2 locks it. -/
theorem two_cleaners_inside : ¬ ∀ (c : Config) (s : State),
    Reaches (Step c) (State.init c) s → numInside c s ≤ 1 := by
  intro hclaim
  have hrun : (run (next threeCleaners) (State.init threeCleaners)
      (roomCleaned ++ List.replicate 2 (.cleaner 1) ++ List.replicate 2 (.cleaner 0) ++
        List.replicate 2 (.cleaner 2))).map (numInside threeCleaners) = some 2 := by
    decide
  obtain ⟨s, hs, hobs⟩ := Option.map_eq_some_iff.1 hrun
  have hle := hclaim threeCleaners s (reaches_of_run (fun _ _ _ => next_step) hs)
  omega

end OsLab.Hotel.CleanMutex
