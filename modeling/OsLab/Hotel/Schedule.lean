import OsLab.Hotel.Model

/-!
# Runs by schedule

`next c` lets one thread take its step, with a stay of 10 seconds, and a timed wait that times
out whenever it can. A list of threads is then a run.

* `next_step`: what `next` does is a step, so a schedule that runs reaches its last state.
-/

namespace OsLab.Hotel

open Lib

variable {c : Config} {s t : State} {g k : ℕ}

instance (q : List (ℕ × ℤ)) (p : ℕ × ℤ) : Decidable (IsTop q p) :=
  inferInstanceAs (Decidable (_ ∧ _))

/-- `one_occ_q.top()`. -/
def top (q : List (ℕ × ℤ)) : Option (ℕ × ℤ) := q.find? fun p => decide (IsTop q p)

theorem isTop_of_top {q : List (ℕ × ℤ)} {p : ℕ × ℤ} (h : top q = some p) : IsTop q p :=
  of_decide_eq_true (List.find?_some h :)

/-- The next step of guest `g`. -/
def guestNext (c : Config) (g : ℕ) (s : State) : Option State :=
  match s.guests g with
  | .top | .woken => if allUsed c s then some (s.guestTo g .waiting) else some (s.guestTo g .awake)
  | .waiting => none
  | .awake =>
    match s.emptyQ with
    | [] => some (s.guestTo g .noEmpty)
    | r :: q => some ({ s with emptyQ := q }.guestTo g (.tookEmpty r))
  | .tookEmpty r =>
    some ((s.setRoom r ⟨1, 1, g, (s.rooms r).cleanTime + 10⟩).guestTo g (.countedOne r))
  | .countedOne r => some ({ s with useCount := s.useCount + 1 }.guestTo g (.toOneOcc r))
  | .toOneOcc r => some ({ s with oneOccQ := (r, c.priority g) :: s.oneOccQ }.guestTo g (.firstStay r))
  | .firstStay r =>
    if s.roomSem r = 0 then some (s.guestTo g (.firstOver r))
    else some ({ s with roomSem := Function.update s.roomSem r (s.roomSem r - 1) }.guestTo g .top)
  | .firstOver r =>
    if r ∈ s.oneOccQ.map Prod.fst then
      some ({ s with oneOccQ := s.oneOccQ.filter fun p => p.1 ≠ r }.guestTo g (.freeing r))
    else some (s.guestTo g .top)
  | .freeing r =>
    some (({ s with oneFreeQ := s.oneFreeQ ++ [r] }.setRoom r
      { s.rooms r with currOccupied := 0, guestId := -1 }).guestTo g .top)
  | .noEmpty =>
    match s.oneFreeQ with
    | [] => some (s.guestTo g .noFree)
    | r :: q => some ({ s with oneFreeQ := q }.guestTo g (.tookFree r))
  | .noFree =>
    match top s.oneOccQ with
    | none => if s.oneOccQ = [] then some (s.guestTo g .top) else none
    | some p =>
      if p.2 < c.priority g then
        some ({ s with
          oneOccQ := s.oneOccQ.erase p
          roomSem := Function.update s.roomSem p.1 (s.roomSem p.1 + 1) }.guestTo g (.evicting p.1))
      else some (s.guestTo g .top)
  | .tookFree r | .evicting r =>
    if (s.rooms r).count = 1 then
      some ((s.setRoom r ⟨2, 1, g, (s.rooms r).cleanTime + 10⟩).guestTo g (.toTwoOcc r))
    else some { s with failed := true }
  | .toTwoOcc r => some ({ s with twoOccQ := s.twoOccQ ++ [r] }.guestTo g (.pushedTwo r))
  | .pushedTwo r =>
    if s.useCount + 1 = 2 * c.numHotelRooms then
      some ({ s with
        useCount := s.useCount + 1
        guests := fun j => (s.guests j).endSecond
        cleaners := wake s.cleaners .waiting .woken }.guestTo g .top)
    else some ({ s with useCount := s.useCount + 1 }.guestTo g (.beforeStay r))
  | .beforeStay r => some (s.guestTo g (.secondStay r))
  | .secondStay _ | .secondOver _ => some (s.guestTo g .top)

/-- The next step of cleaner `k`. -/
def cleanerNext (c : Config) (k : ℕ) (s : State) : Option State :=
  match s.cleaners k with
  | .top | .woken =>
    if s.useCount < 2 * c.numHotelRooms then
      some ({ s with numCleanedRooms := afterWait s k }.cleanerTo k .waiting)
    else some ({ s with numCleanedRooms := afterWait s k }.cleanerTo k .ready)
  | .waiting | .resting => none
  | .ready =>
    match s.twoOccQ with
    | [] => some (s.cleanerTo k .noTwo)
    | r :: q => some ({ s with twoOccQ := q }.cleanerTo k (.tookTwo r))
  | .tookTwo r => some ((s.setRoom r ⟨0, 0, -1, 0⟩).cleanerTo k (.cleaning r))
  | .cleaning r => some ({ s with emptyQ := s.emptyQ ++ [r] }.cleanerTo k .cleaned)
  | .cleaned =>
    if s.numCleanedRooms + 1 = c.numHotelRooms then
      some ({ s with
        numCleanedRooms := s.numCleanedRooms + 1
        useCount := 0
        cleaners := wake s.cleaners .resting .rested }.cleanerTo k .announcing)
    else some ({ s with numCleanedRooms := s.numCleanedRooms + 1 }.cleanerTo k .top)
  | .announcing => some ({ s with guests := wake s.guests .waiting .woken }.cleanerTo k .top)
  | .noTwo | .rested =>
    if s.numCleanedRooms < c.numHotelRooms then some (s.cleanerTo k .resting)
    else some (s.cleanerTo k .top)

/-- The next step of a thread. -/
def next (c : Config) (s : State) : Thread → Option State
  | .guest g => if s.failed = false ∧ g < c.numGuestThreads then guestNext c g s else none
  | .cleaner k => if s.failed = false ∧ k < c.numCleanerThreads then cleanerNext c k s else none

theorem guestNext_step (h : guestNext c g s = some t) : GuestStep c g s t := by
  unfold guestNext at h
  cases hpc : s.guests g with
  | top =>
    simp only [hpc] at h
    split_ifs at h with hu <;> cases h
    · exact .park (.inl hpc) hu
    · exact .enter (.inl hpc) hu
  | woken =>
    simp only [hpc] at h
    split_ifs at h with hu <;> cases h
    · exact .park (.inr hpc) hu
    · exact .enter (.inr hpc) hu
  | waiting => simp only [hpc] at h; cases h
  | awake =>
    cases hq : s.emptyQ with
    | nil => simp only [hpc, hq] at h; cases h; exact .noEmpty hpc hq
    | cons r q => simp only [hpc, hq] at h; cases h; exact .takeEmpty hpc hq
  | tookEmpty r => simp only [hpc] at h; cases h; exact .countOne 10 hpc
  | countedOne r => simp only [hpc] at h; cases h; exact .useOne hpc
  | toOneOcc r => simp only [hpc] at h; cases h; exact .pushOneOcc hpc
  | firstStay r =>
    simp only [hpc] at h
    split_ifs at h with hsem <;> cases h
    · exact .fullFirst hpc hsem
    · exact .evicted hpc hsem
  | firstOver r =>
    simp only [hpc] at h
    split_ifs at h with hr <;> cases h
    · exact .scanFound hpc hr
    · exact .scanMissed hpc hr
  | freeing r => simp only [hpc] at h; cases h; exact .pushFree hpc
  | noEmpty =>
    cases hq : s.oneFreeQ with
    | nil => simp only [hpc, hq] at h; cases h; exact .noFree hpc hq
    | cons r q => simp only [hpc, hq] at h; cases h; exact .takeFree hpc hq
  | noFree =>
    cases htop : top s.oneOccQ with
    | none =>
      simp only [hpc, htop] at h
      split_ifs at h with hq
      cases h
      exact .noEvict hpc (.inl hq)
    | some p =>
      simp only [hpc, htop] at h
      split_ifs at h with hlt <;> cases h
      · exact .evict hpc (isTop_of_top htop) hlt
      · exact .noEvict hpc (.inr ⟨p, isTop_of_top htop, hlt⟩)
  | tookFree r =>
    simp only [hpc] at h
    split_ifs at h with hc <;> cases h
    · exact .countTwo 10 (.inl hpc) hc
    · exact .error (.inl hpc) hc
  | evicting r =>
    simp only [hpc] at h
    split_ifs at h with hc <;> cases h
    · exact .countTwo 10 (.inr hpc) hc
    · exact .error (.inr hpc) hc
  | toTwoOcc r => simp only [hpc] at h; cases h; exact .pushTwoOcc hpc
  | pushedTwo r =>
    simp only [hpc] at h
    split_ifs at h with hu <;> cases h
    · exact .signalLast hpc hu
    · exact .signalNot hpc hu
  | beforeStay r => simp only [hpc] at h; cases h; exact .startStay hpc
  | secondStay r => simp only [hpc] at h; cases h; exact .endStay (.inl hpc)
  | secondOver r => simp only [hpc] at h; cases h; exact .endStay (.inr hpc)

theorem cleanerNext_step (h : cleanerNext c k s = some t) : CleanerStep c k s t := by
  unfold cleanerNext at h
  cases hpc : s.cleaners k with
  | top =>
    simp only [hpc] at h
    split_ifs at h with hu <;> cases h
    · exact .park (.inl hpc) hu
    · exact .enter (.inl hpc) hu
  | woken =>
    simp only [hpc] at h
    split_ifs at h with hu <;> cases h
    · exact .park (.inr hpc) hu
    · exact .enter (.inr hpc) hu
  | waiting => simp only [hpc] at h; cases h
  | resting => simp only [hpc] at h; cases h
  | ready =>
    cases hq : s.twoOccQ with
    | nil => simp only [hpc, hq] at h; cases h; exact .noTwo hpc hq
    | cons r q => simp only [hpc, hq] at h; cases h; exact .takeTwo hpc hq
  | tookTwo r => simp only [hpc] at h; cases h; exact .reset hpc
  | cleaning r => simp only [hpc] at h; cases h; exact .pushEmpty hpc
  | cleaned =>
    simp only [hpc] at h
    split_ifs at h with hn <;> cases h
    · exact .countLast hpc hn
    · exact .count hpc hn
  | announcing => simp only [hpc] at h; cases h; exact .announce hpc
  | noTwo =>
    simp only [hpc] at h
    split_ifs at h with hn <;> cases h
    · exact .rest (.inl hpc) hn
    · exact .endRest (.inl hpc) hn
  | rested =>
    simp only [hpc] at h
    split_ifs at h with hn <;> cases h
    · exact .rest (.inr hpc) hn
    · exact .endRest (.inr hpc) hn

theorem next_step {a : Thread} (h : next c s a = some t) : Step c s a t := by
  cases a with
  | guest g =>
    simp only [next] at h
    split_ifs at h with hg
    exact .guest hg.1 hg.2 (guestNext_step h)
  | cleaner k =>
    simp only [next] at h
    split_ifs at h with hk
    exact .cleaner hk.1 hk.2 (cleanerNext_step h)

end OsLab.Hotel
