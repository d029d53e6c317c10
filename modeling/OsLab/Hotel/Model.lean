import OsLab.Lib.Machine
import OsLab.Lib.Threads
import Mathlib.Data.List.Basic

/-!
# The hotel (`guest.cpp`, `cleaner.cpp`, `main.cpp`)

Guests and cleaners are threads that move rooms between four queues. Each region under a
semaphore or a mutex is one step, split where the code waits on a condition variable; what
a thread does between two regions to a room it has popped is a step of its own. The local
state of a thread is the place in the code that it has reached, with the room it works on.

A timed wait returns after a `sem_post` or a broadcast, or times out, and `sem_timedwait`
times out only while its semaphore is 0. What is only printed is left out.
-/

namespace OsLab.Hotel

open Lib

/-- `num_hotel_rooms`, the numbers of threads, and the priorities of the guests. -/
structure Config where
  numHotelRooms : ℕ
  numGuestThreads : ℕ
  numCleanerThreads : ℕ
  priority : ℕ → ℤ

/-- `room`, without its number. -/
structure Room where
  count : ℕ
  currOccupied : ℤ
  guestId : ℤ
  cleanTime : ℕ

/-- Where a guest is in `guest_func`. -/
inductive GuestPc where
  /-- before the lock of `signal_guests_mutex` -/
  | top
  /-- waiting on `signal_guests_cond` -/
  | waiting
  /-- woken, before the mutex is taken again -/
  | woken
  /-- after the sleep, before the test of `empty_q` -/
  | awake
  /-- has popped `r` from `empty_q` -/
  | tookEmpty (r : ℕ)
  /-- has set `r->count` to 1, before `use_count++` -/
  | countedOne (r : ℕ)
  /-- before the push to `one_occ_q` -/
  | toOneOcc (r : ℕ)
  /-- in `sem_timedwait` on `room_sem[r]` -/
  | firstStay (r : ℕ)
  /-- the stay has timed out, before the scan of `one_occ_q` -/
  | firstOver (r : ℕ)
  /-- the scan has removed `r` from `one_occ_q`, before the push to `one_free_q` -/
  | freeing (r : ℕ)
  /-- `empty_q` was empty, before the test of `one_free_q` -/
  | noEmpty
  /-- has popped `r` from `one_free_q` -/
  | tookFree (r : ℕ)
  /-- `one_free_q` was empty, before the test of `one_occ_q` -/
  | noFree
  /-- has popped `r` from `one_occ_q` and posted `room_sem[r]` -/
  | evicting (r : ℕ)
  /-- has set `r->count` to 2, before the push to `two_occ_q` -/
  | toTwoOcc (r : ℕ)
  /-- before `signal_cleaners` -/
  | pushedTwo (r : ℕ)
  /-- `signal_cleaners` has returned 0, before the timed wait -/
  | beforeStay (r : ℕ)
  /-- in the timed wait on `temp_two_occ_q_cond` -/
  | secondStay (r : ℕ)
  /-- woken from it by a broadcast -/
  | secondOver (r : ℕ)
  deriving DecidableEq

/-- A broadcast on `temp_two_occ_q_cond`. -/
def GuestPc.endSecond : GuestPc → GuestPc
  | .secondStay r => .secondOver r
  | pc => pc

/-- Where a cleaner is in `cleaner_func`. -/
inductive CleanerPc where
  /-- before the lock of `signal_mutex` -/
  | top
  /-- waiting on `signal_cond` -/
  | waiting
  /-- woken, before the mutex is taken again -/
  | woken
  /-- before the test of `two_occ_q` -/
  | ready
  /-- has popped `r` from `two_occ_q` -/
  | tookTwo (r : ℕ)
  /-- has reset the attributes of `r`, before the push to `empty_q` -/
  | cleaning (r : ℕ)
  /-- before the lock of `all_clean_mutex` -/
  | cleaned
  /-- has found all rooms cleaned, before the broadcast to the guests -/
  | announcing
  /-- `two_occ_q` was empty, before the lock of `all_clean_mutex` -/
  | noTwo
  /-- waiting on `all_clean_cond` -/
  | resting
  /-- woken from it, before the mutex is taken again -/
  | rested
  deriving DecidableEq

/-- The globals and the places of the threads. The priority queue `one_occ_q` is a list in no
order; `failed` is a call of `exit`. -/
structure State where
  rooms : ℕ → Room
  emptyQ : List ℕ
  oneOccQ : List (ℕ × ℤ)
  oneFreeQ : List ℕ
  twoOccQ : List ℕ
  roomSem : ℕ → ℕ
  useCount : ℕ
  numCleanedRooms : ℕ
  guests : ℕ → GuestPc
  cleaners : ℕ → CleanerPc
  failed : Bool

/-- `main` before it creates the threads. -/
def State.init (c : Config) : State where
  rooms := fun _ => ⟨0, 0, -1, 0⟩
  emptyQ := List.range c.numHotelRooms
  oneOccQ := []
  oneFreeQ := []
  twoOccQ := []
  roomSem := fun _ => 0
  useCount := 0
  numCleanedRooms := 0
  guests := fun _ => .top
  cleaners := fun _ => .top
  failed := false

/-- Guest `g` goes to `pc`. -/
def State.guestTo (s : State) (g : ℕ) (pc : GuestPc) : State :=
  { s with guests := Function.update s.guests g pc }

/-- Cleaner `k` goes to `pc`. -/
def State.cleanerTo (s : State) (k : ℕ) (pc : CleanerPc) : State :=
  { s with cleaners := Function.update s.cleaners k pc }

/-- The attributes of room `r` are set. -/
def State.setRoom (s : State) (r : ℕ) (x : Room) : State :=
  { s with rooms := Function.update s.rooms r x }

/-- `use_count == 2*num_hotel_rooms`. -/
def allUsed (c : Config) (s : State) : Prop := s.useCount = 2 * c.numHotelRooms

instance (c : Config) (s : State) : Decidable (allUsed c s) := inferInstanceAs (Decidable (_ = _))

/-- `p` can be on top of `one_occ_q`: no other guest in it has a lower priority. -/
def IsTop (q : List (ℕ × ℤ)) (p : ℕ × ℤ) : Prop := p ∈ q ∧ ∀ x ∈ q, p.2 ≤ x.2

/-- The steps of guest `g` in `guest_func` and `signal_cleaners`. -/
inductive GuestStep (c : Config) (g : ℕ) : State → State → Prop where
  /-- `while(use_count == 2*num_hotel_rooms)`: the guest waits. -/
  | park {s} (h : s.guests g = .top ∨ s.guests g = .woken) (hu : allUsed c s) :
      GuestStep c g s (s.guestTo g .waiting)
  /-- The guest goes on, and sleeps. -/
  | enter {s} (h : s.guests g = .top ∨ s.guests g = .woken) (hu : ¬ allUsed c s) :
      GuestStep c g s (s.guestTo g .awake)
  /-- `empty_q.pop()`. -/
  | takeEmpty {s r q} (h : s.guests g = .awake) (hq : s.emptyQ = r :: q) :
      GuestStep c g s ({ s with emptyQ := q }.guestTo g (.tookEmpty r))
  | noEmpty {s} (h : s.guests g = .awake) (hq : s.emptyQ = []) :
      GuestStep c g s (s.guestTo g .noEmpty)
  /-- The attributes of the first stay, which lasts `time` seconds. -/
  | countOne {s r} (time : ℕ) (h : s.guests g = .tookEmpty r) :
      GuestStep c g s ((s.setRoom r ⟨1, 1, g, (s.rooms r).cleanTime + time⟩).guestTo g
        (.countedOne r))
  /-- `use_count++`. -/
  | useOne {s r} (h : s.guests g = .countedOne r) :
      GuestStep c g s ({ s with useCount := s.useCount + 1 }.guestTo g (.toOneOcc r))
  /-- `one_occ_q.push(make_pair(r, guests[*id].priority))`. -/
  | pushOneOcc {s r} (h : s.guests g = .toOneOcc r) :
      GuestStep c g s ({ s with oneOccQ := (r, c.priority g) :: s.oneOccQ }.guestTo g (.firstStay r))
  /-- `sem_timedwait` returns 0: the guest was evicted. -/
  | evicted {s r} (h : s.guests g = .firstStay r) (hsem : s.roomSem r ≠ 0) :
      GuestStep c g s ({ s with roomSem := Function.update s.roomSem r (s.roomSem r - 1) }.guestTo g
        .top)
  /-- `sem_timedwait` times out. -/
  | fullFirst {s r} (h : s.guests g = .firstStay r) (hsem : s.roomSem r = 0) :
      GuestStep c g s (s.guestTo g (.firstOver r))
  /-- The scan of `one_occ_q` finds the room and removes it. -/
  | scanFound {s r} (h : s.guests g = .firstOver r) (hr : r ∈ s.oneOccQ.map Prod.fst) :
      GuestStep c g s ({ s with oneOccQ := s.oneOccQ.filter fun p => p.1 ≠ r }.guestTo g (.freeing r))
  /-- The scan does not find it. -/
  | scanMissed {s r} (h : s.guests g = .firstOver r) (hr : r ∉ s.oneOccQ.map Prod.fst) :
      GuestStep c g s (s.guestTo g .top)
  /-- `one_free_q.push(r_temp)`. -/
  | pushFree {s r} (h : s.guests g = .freeing r) :
      GuestStep c g s (({ s with oneFreeQ := s.oneFreeQ ++ [r] }.setRoom r
        { s.rooms r with currOccupied := 0, guestId := -1 }).guestTo g .top)
  /-- `one_free_q.pop()`. -/
  | takeFree {s r q} (h : s.guests g = .noEmpty) (hq : s.oneFreeQ = r :: q) :
      GuestStep c g s ({ s with oneFreeQ := q }.guestTo g (.tookFree r))
  | noFree {s} (h : s.guests g = .noEmpty) (hq : s.oneFreeQ = []) :
      GuestStep c g s (s.guestTo g .noFree)
  /-- `one_occ_q.pop()` and `sem_post(&room_sem[p.first->room_no])`. -/
  | evict {s p} (h : s.guests g = .noFree) (hp : IsTop s.oneOccQ p) (hlt : p.2 < c.priority g) :
      GuestStep c g s ({ s with
        oneOccQ := s.oneOccQ.erase p
        roomSem := Function.update s.roomSem p.1 (s.roomSem p.1 + 1) }.guestTo g (.evicting p.1))
  | noEvict {s} (h : s.guests g = .noFree)
      (hp : s.oneOccQ = [] ∨ ∃ p, IsTop s.oneOccQ p ∧ ¬ p.2 < c.priority g) :
      GuestStep c g s (s.guestTo g .top)
  /-- The attributes of the second stay. -/
  | countTwo {s r} (time : ℕ) (h : s.guests g = .tookFree r ∨ s.guests g = .evicting r)
      (hc : (s.rooms r).count = 1) :
      GuestStep c g s ((s.setRoom r ⟨2, 1, g, (s.rooms r).cleanTime + time⟩).guestTo g (.toTwoOcc r))
  /-- "Some error occured!" -/
  | error {s r} (h : s.guests g = .tookFree r ∨ s.guests g = .evicting r)
      (hc : (s.rooms r).count ≠ 1) : GuestStep c g s { s with failed := true }
  /-- `two_occ_q.push(r)`. -/
  | pushTwoOcc {s r} (h : s.guests g = .toTwoOcc r) :
      GuestStep c g s ({ s with twoOccQ := s.twoOccQ ++ [r] }.guestTo g (.pushedTwo r))
  /-- `signal_cleaners` returns 1: the guest is the last one. -/
  | signalLast {s r} (h : s.guests g = .pushedTwo r)
      (hu : s.useCount + 1 = 2 * c.numHotelRooms) :
      GuestStep c g s ({ s with
        useCount := s.useCount + 1
        guests := fun j => (s.guests j).endSecond
        cleaners := wake s.cleaners .waiting .woken }.guestTo g .top)
  /-- `signal_cleaners` returns 0. -/
  | signalNot {s r} (h : s.guests g = .pushedTwo r)
      (hu : s.useCount + 1 ≠ 2 * c.numHotelRooms) :
      GuestStep c g s ({ s with useCount := s.useCount + 1 }.guestTo g (.beforeStay r))
  /-- `pthread_cond_timedwait` starts. -/
  | startStay {s r} (h : s.guests g = .beforeStay r) : GuestStep c g s (s.guestTo g (.secondStay r))
  /-- It returns `ETIMEDOUT` or 0. -/
  | endStay {s r} (h : s.guests g = .secondStay r ∨ s.guests g = .secondOver r) :
      GuestStep c g s (s.guestTo g .top)

/-- The `num_cleaned_rooms = 0` of a cleaner that was woken. -/
def afterWait (s : State) (k : ℕ) : ℕ := if s.cleaners k = .woken then 0 else s.numCleanedRooms

/-- The steps of cleaner `k` in `cleaner_func`. -/
inductive CleanerStep (c : Config) (k : ℕ) : State → State → Prop where
  /-- `while(use_count < 2*num_hotel_rooms)`: the cleaner waits. -/
  | park {s} (h : s.cleaners k = .top ∨ s.cleaners k = .woken)
      (hu : s.useCount < 2 * c.numHotelRooms) :
      CleanerStep c k s ({ s with numCleanedRooms := afterWait s k }.cleanerTo k .waiting)
  /-- The cleaner goes on. -/
  | enter {s} (h : s.cleaners k = .top ∨ s.cleaners k = .woken)
      (hu : ¬ s.useCount < 2 * c.numHotelRooms) :
      CleanerStep c k s ({ s with numCleanedRooms := afterWait s k }.cleanerTo k .ready)
  /-- `two_occ_q.pop()`. -/
  | takeTwo {s r q} (h : s.cleaners k = .ready) (hq : s.twoOccQ = r :: q) :
      CleanerStep c k s ({ s with twoOccQ := q }.cleanerTo k (.tookTwo r))
  | noTwo {s} (h : s.cleaners k = .ready) (hq : s.twoOccQ = []) :
      CleanerStep c k s (s.cleanerTo k .noTwo)
  /-- The room attributes are reset. -/
  | reset {s r} (h : s.cleaners k = .tookTwo r) :
      CleanerStep c k s ((s.setRoom r ⟨0, 0, -1, 0⟩).cleanerTo k (.cleaning r))
  /-- `empty_q.push(r)`. -/
  | pushEmpty {s r} (h : s.cleaners k = .cleaning r) :
      CleanerStep c k s ({ s with emptyQ := s.emptyQ ++ [r] }.cleanerTo k .cleaned)
  /-- `num_cleaned_rooms++`, and all rooms are cleaned. -/
  | countLast {s} (h : s.cleaners k = .cleaned) (hn : s.numCleanedRooms + 1 = c.numHotelRooms) :
      CleanerStep c k s ({ s with
        numCleanedRooms := s.numCleanedRooms + 1
        useCount := 0
        cleaners := wake s.cleaners .resting .rested }.cleanerTo k .announcing)
  | count {s} (h : s.cleaners k = .cleaned) (hn : s.numCleanedRooms + 1 ≠ c.numHotelRooms) :
      CleanerStep c k s ({ s with numCleanedRooms := s.numCleanedRooms + 1 }.cleanerTo k .top)
  /-- `pthread_cond_broadcast(&signal_guests_cond)`. -/
  | announce {s} (h : s.cleaners k = .announcing) :
      CleanerStep c k s ({ s with guests := wake s.guests .waiting .woken }.cleanerTo k .top)
  /-- `while(num_cleaned_rooms < num_hotel_rooms)`: the cleaner waits. -/
  | rest {s} (h : s.cleaners k = .noTwo ∨ s.cleaners k = .rested)
      (hn : s.numCleanedRooms < c.numHotelRooms) : CleanerStep c k s (s.cleanerTo k .resting)
  /-- The wait is over. -/
  | endRest {s} (h : s.cleaners k = .noTwo ∨ s.cleaners k = .rested)
      (hn : ¬ s.numCleanedRooms < c.numHotelRooms) : CleanerStep c k s (s.cleanerTo k .top)

/-- A thread. -/
inductive Thread where
  | guest (g : ℕ)
  | cleaner (k : ℕ)

/-- One step of one thread, as long as no thread has called `exit`. -/
inductive Step (c : Config) : State → Thread → State → Prop where
  | guest {s t g} (hf : s.failed = false) (hg : g < c.numGuestThreads) (h : GuestStep c g s t) :
      Step c s (.guest g) t
  | cleaner {s t k} (hf : s.failed = false) (hk : k < c.numCleanerThreads)
      (h : CleanerStep c k s t) : Step c s (.cleaner k) t

end OsLab.Hotel
