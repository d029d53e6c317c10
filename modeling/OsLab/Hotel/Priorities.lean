import OsLab.Hotel.Tokens
import OsLab.Hotel.Schedule

/-!
# Priorities

The priority that is stored in `one_occ_q` is the one of the guest that the room records, and only
a thread that has popped a room changes its record. So the guest that is named by an eviction is
the guest whose entry was popped.

* `entitled_step`: every step of every thread keeps the records and the entries together.
* `evicted_lowest`: a guest evicts the lowest priority of `one_occ_q`, which is below its own.
-/

namespace OsLab.Hotel

open Lib

variable {c : Config} {s t u : State} {g j k r : ℕ}

/-! ## Who changes a room -/

/-- Two guests do not hold one room. -/
theorem Ledger.alone (h : Ledger c s) (hg : g < c.numGuestThreads) (hj : j < c.numGuestThreads)
    {k k' : ℕ} (hs : (s.guests g).holds = some (r, k)) (hs' : (s.guests j).holds = some (r, k')) :
    j = g := by
  have hp := h.places r
  have hcard : ((Finset.range c.numGuestThreads).filter
      fun g => (s.guests g).holds.map Prod.fst = some r).card ≤ 1 := by
    unfold Hotel.places at hp
    split_ifs at hp <;> omega
  refine Finset.card_le_one.1 hcard j ?_ g ?_
  · exact Finset.mem_filter.2 ⟨Finset.mem_range.2 hj, by rw [hs']; rfl⟩
  · exact Finset.mem_filter.2 ⟨Finset.mem_range.2 hg, by rw [hs]; rfl⟩

/-- A guest and a cleaner do not hold one room. -/
theorem Ledger.guest_or_cleaner (h : Ledger c s) (hg : g < c.numGuestThreads)
    (hk : k < c.numCleanerThreads) {i i' : ℕ} (hs : (s.guests g).holds = some (r, i))
    (hs' : (s.cleaners k).holds = some (r, i')) : False := by
  have hp := h.places r
  have hg' : g ∈ (Finset.range c.numGuestThreads).filter
      fun g => (s.guests g).holds.map Prod.fst = some r :=
    Finset.mem_filter.2 ⟨Finset.mem_range.2 hg, by rw [hs]; rfl⟩
  have hk' : k ∈ (Finset.range c.numCleanerThreads).filter
      fun k => (s.cleaners k).holds.map Prod.fst = some r :=
    Finset.mem_filter.2 ⟨Finset.mem_range.2 hk, by rw [hs']; rfl⟩
  have hgpos := Finset.card_pos.2 ⟨g, hg'⟩
  have hkpos := Finset.card_pos.2 ⟨k, hk'⟩
  unfold Hotel.places at hp
  split_ifs at hp <;> omega

/-- Guest `j` is recorded in room `r`. -/
def Records (c : Config) (s : State) (r j : ℕ) : Prop :=
  j < c.numGuestThreads ∧ (s.rooms r).guestId = j

/-- What a guest at `pc` knows of the record of its room. -/
def Knows (c : Config) (s : State) (g : ℕ) : GuestPc → Prop
  | .countedOne r | .toOneOcc r => Records c s r g
  | .evicting r => ∃ j, Records c s r j ∧ c.priority j < c.priority g
  | _ => True

/-- The entries of `one_occ_q` have the priorities of the guests that are recorded, and so has the
entry that a guest is to push, or has popped. -/
structure Entitled (c : Config) (s : State) : Prop where
  listed : ∀ p ∈ s.oneOccQ, ∃ j, Records c s p.1 j ∧ p.2 = c.priority j
  knows : ∀ g < c.numGuestThreads, Knows c s g (s.guests g)

theorem entitled_init (c : Config) : Entitled c (State.init c) where
  listed _ h := by cases h
  knows _ _ := trivial

/-- A guest that holds no room knows nothing of it. -/
theorem knows_of_holds {pc : GuestPc} (h : ∀ r k, pc.holds = some (r, k) → t.rooms r = s.rooms r)
    (hs : Knows c s g pc) : Knows c t g pc := by
  cases pc with
  | countedOne r | toOneOcc r => exact ⟨hs.1, (h r 1 rfl).symm ▸ hs.2⟩
  | evicting r =>
    obtain ⟨j, ⟨hj, hr⟩, hlt⟩ := hs
    exact ⟨j, ⟨hj, (h r 1 rfl).symm ▸ hr⟩, hlt⟩
  | _ => trivial

theorem knows_endSecond (pc : GuestPc) : Knows c s g pc.endSecond ↔ Knows c s g pc := by
  cases pc <;> rfl

/-! ## The steps -/

/-- **A region of guest `g`** that changes no room but the one it holds, and pushes nothing. -/
theorem Entitled.guest (h : Entitled c s) (hl : Ledger c s) (hg : g < c.numGuestThreads)
    {pc : GuestPc} (hgs : u.guests = s.guests)
    (hr : ∀ r, u.rooms r = s.rooms r ∨ ∃ k, (s.guests g).holds = some (r, k))
    (hq : ∀ p ∈ u.oneOccQ, p ∈ s.oneOccQ) (hpc : Knows c u g pc) : Entitled c (u.guestTo g pc) where
  listed p hp := by
    obtain ⟨j, ⟨hj, hrec⟩, hprio⟩ := h.listed p (hq p hp)
    have hin : 0 < Hotel.listed s p.1 := (listed_pos s p.1).2 (List.mem_map_of_mem (hq p hp))
    rcases hr p.1 with hsame | ⟨k, hhold⟩
    · exact ⟨j, ⟨hj, (congrArg Room.guestId hsame).trans hrec⟩, hprio⟩
    · -- a room that the guest holds is not listed
      rw [hl.listed_guest hg hhold] at hin
      exact absurd hin (Nat.lt_irrefl 0)
  knows i hi := by
    show Knows c u i (Function.update u.guests g pc i)
    by_cases hig : i = g
    · subst hig
      rw [Function.update_self]
      exact hpc
    · rw [Function.update_of_ne hig, hgs]
      refine knows_of_holds (fun r k hheld => (hr r).resolve_right ?_) (h.knows i hi)
      rintro ⟨k', hhold⟩
      exact hig (hl.alone hg hi hhold hheld)

/-- A region of cleaner `k` that changes no room but the one it holds. -/
theorem Entitled.cleaner (h : Entitled c s) (hl : Ledger c s) (hk : k < c.numCleanerThreads)
    (hgs : t.guests = s.guests)
    (hr : ∀ r, t.rooms r = s.rooms r ∨ ∃ i, (s.cleaners k).holds = some (r, i))
    (hq : t.oneOccQ = s.oneOccQ) : Entitled c t where
  listed p hp := by
    rw [hq] at hp
    obtain ⟨j, ⟨hj, hrec⟩, hprio⟩ := h.listed p hp
    have hin : 0 < Hotel.listed s p.1 := (listed_pos s p.1).2 (List.mem_map_of_mem hp)
    rcases hr p.1 with hsame | ⟨i, hhold⟩
    · exact ⟨j, ⟨hj, (congrArg Room.guestId hsame).trans hrec⟩, hprio⟩
    · rw [hl.listed_cleaner hk hhold] at hin
      exact absurd hin (Nat.lt_irrefl 0)
  knows i hi := by
    rw [hgs]
    refine knows_of_holds (fun r k hheld => (hr r).resolve_right ?_) (h.knows i hi)
    rintro ⟨k', hhold⟩
    exact hl.guest_or_cleaner hi hk hheld hhold

/-- The attributes of a room are set by a guest that holds it. -/
theorem rooms_setRoom (s : State) (x : Room) (h : (s.guests g).holds = some (r, k)) (r' : ℕ) :
    (s.setRoom r x).rooms r' = s.rooms r' ∨ ∃ k, (s.guests g).holds = some (r', k) := by
  by_cases hr : r' = r
  · subst hr; exact .inr ⟨k, h⟩
  · exact .inl (Function.update_of_ne hr ..)

theorem entitled_guest (h : Entitled c s) (hl : Ledger c s) (hg : g < c.numGuestThreads)
    (hst : GuestStep c g s t) : Entitled c t := by
  have hknows := h.knows g hg
  cases hst with
  | park hpc _ | enter hpc _ | endStay hpc | takeEmpty hpc _ | noEmpty hpc _ | evicted hpc _
  | fullFirst hpc _ | scanMissed hpc _ | takeFree hpc _ | noFree hpc _ | noEvict hpc _
  | pushTwoOcc hpc | signalNot hpc _ | startStay hpc =>
    exact h.guest hl hg rfl (fun _ => .inl rfl) (fun _ => id) trivial
  | @countOne r time hpc =>
    refine h.guest hl hg rfl (rooms_setRoom s _ (k := 0) (by rw [hpc]; rfl)) (fun _ => id) ⟨hg, ?_⟩
    simp only [State.setRoom, Function.update_self]
  | useOne hpc =>
    rw [hpc] at hknows
    exact h.guest hl hg rfl (fun _ => .inl rfl) (fun _ => id) hknows
  | @pushOneOcc r hpc =>
    rw [hpc] at hknows
    have hrest : Entitled c (s.guestTo g (.firstStay r)) :=
      h.guest hl hg rfl (fun _ => .inl rfl) (fun _ => id) trivial
    refine ⟨fun p hp => ?_, hrest.knows⟩
    rcases List.mem_cons.1 hp with rfl | hp
    · exact ⟨g, hknows, rfl⟩
    · exact h.listed p hp
  | scanFound hpc _ => exact h.guest hl hg rfl (fun _ => .inl rfl) (fun _ => List.mem_of_mem_filter) trivial
  | pushFree hpc =>
    exact h.guest hl hg rfl (rooms_setRoom _ _ (k := 1) (by rw [hpc]; rfl)) (fun _ => id) trivial
  | @evict p hpc hp hlt =>
    refine h.guest hl hg rfl (fun _ => .inl rfl) (fun _ => List.mem_of_mem_erase) ?_
    obtain ⟨j, hrec, hprio⟩ := h.listed p hp.1
    exact ⟨j, hrec, hprio ▸ hlt⟩
  | countTwo time hpc _ =>
    refine h.guest hl hg rfl (rooms_setRoom s _ (k := 1) ?_) (fun _ => id) trivial
    rcases hpc with hpc | hpc <;> rw [hpc] <;> rfl
  | error hpc _ => exact ⟨h.listed, h.knows⟩
  | signalLast hpc _ =>
    -- the broadcast wakes second guests only, and nobody is to know anything of a second stay
    refine ⟨h.listed, fun i hi => ?_⟩
    show Knows c s i (Function.update (fun j => (s.guests j).endSecond) g .top i)
    by_cases hig : i = g
    · subst hig
      rw [Function.update_self]
      trivial
    · rw [Function.update_of_ne hig]
      exact (knows_endSecond _).2 (h.knows i hi)

theorem entitled_cleaner (h : Entitled c s) (hl : Ledger c s) (hk : k < c.numCleanerThreads)
    (hst : CleanerStep c k s t) : Entitled c t := by
  cases hst with
  | @reset r hpc =>
    refine h.cleaner hl hk rfl (fun r' => ?_) rfl
    by_cases hr : r' = r
    · subst hr; exact .inr ⟨2, by rw [hpc]; rfl⟩
    · exact .inl (Function.update_of_ne hr ..)
  | announce hpc =>
    refine ⟨h.listed, fun i hi => ?_⟩
    have hsame : Knows c s i .woken = Knows c s i .waiting := rfl
    exact (apply_wake s.guests (Knows c s i) hsame i).mpr (h.knows i hi)
  | _ => exact h.cleaner hl hk rfl (fun _ => .inl rfl) rfl

/-- **Every step keeps the records and the entries together.** -/
theorem entitled_step {a : Thread} (h : Ledger c s ∧ Entitled c s) (hst : Step c s a t) :
    Ledger c t ∧ Entitled c t := by
  refine ⟨ledger_step h.1 hst, ?_⟩
  cases hst with
  | guest _ hg hst => exact entitled_guest h.2 h.1 hg hst
  | cleaner _ hk hst => exact entitled_cleaner h.2 h.1 hk hst

/-- The guest that evicts takes the room of the lowest priority. -/
theorem evicts_top (hst : GuestStep c g s t) (he : evicts s t g = some r) :
    ∃ p, IsTop s.oneOccQ p ∧ p.1 = r := by
  cases hst with
  | @evict p hpc hp _ =>
    refine ⟨p, hp, Option.some.inj ?_⟩
    rw [← he]
    simp [evicts, hpc, State.guestTo]
  | park hpc _ | enter hpc _ | countTwo _ hpc _ | endStay hpc | error hpc _ =>
    rcases hpc with hpc | hpc <;> simp [evicts, hpc] at he
  | takeEmpty hpc _ | noEmpty hpc _ | countOne _ hpc | useOne hpc | pushOneOcc hpc | evicted hpc _
  | fullFirst hpc _ | scanFound hpc _ | scanMissed hpc _ | pushFree hpc | takeFree hpc _ | noFree hpc _
  | noEvict hpc _ | pushTwoOcc hpc | signalLast hpc _ | signalNot hpc _ | startStay hpc =>
    simp [evicts, hpc, State.guestTo] at he

/-- **The lowest priority is evicted**, in every interleaving. A room that a guest takes by an
eviction records a guest of a lower priority than its own, up to the change of the record, and this
priority is the lowest of the guests that are recorded in the rooms of `one_occ_q`. -/
theorem evicted_lowest (c : Config) {s : State} (h : Reaches (Step c) (State.init c) s) :
    (∀ g < c.numGuestThreads, ∀ r, s.guests g = .evicting r →
      ∃ j, Records c s r j ∧ c.priority j < c.priority g) ∧
    ∀ g r t, Step c s (.guest g) t → evicts s t g = some r →
      ∃ j, Records c s r j ∧ ∀ p ∈ s.oneOccQ, ∃ i, Records c s p.1 i ∧ c.priority j ≤ c.priority i := by
  have hinv : Ledger c s ∧ Entitled c s :=
    reaches_inv (I := fun s => Ledger c s ∧ Entitled c s) (fun _ _ _ => entitled_step)
      ⟨ledger_init c, entitled_init c⟩ h
  obtain ⟨-, hE⟩ := hinv
  refine ⟨fun g hg r hpc => ?_, fun g r t hst he => ?_⟩
  · have hknows := hE.knows g hg
    rw [hpc] at hknows
    exact hknows
  · cases hst with
    | guest _ hg hst =>
      obtain ⟨p, ⟨hp, htop⟩, rfl⟩ := evicts_top hst he
      obtain ⟨j, hrec, hprio⟩ := hE.listed p hp
      refine ⟨j, hrec, fun x hx => ?_⟩
      obtain ⟨i, hreci, hprioi⟩ := hE.listed x hx
      exact ⟨i, hreci, hprio ▸ hprioi ▸ htop x hx⟩

/-- Two rooms with guests of the priorities 2 and 1, and a guest of the priority 3. -/
def threePriorities : Config where
  numHotelRooms := 2
  numGuestThreads := 3
  numCleanerThreads := 1
  priority := fun g => if g = 0 then 2 else if g = 1 then 1 else 3

/-- Guests 0 and 1 have a room each, and guest 2 takes the one of guest 1. -/
theorem evicted_lowest_three : ∃ s : State, s.guests 2 = .evicting 1 ∧
    ∃ j, Records threePriorities s 1 j ∧ threePriorities.priority j < threePriorities.priority 2 := by
  have hrun : (run (next threePriorities) (State.init threePriorities)
      (List.replicate 5 (.guest 0) ++ List.replicate 5 (.guest 1) ++ List.replicate 4 (.guest 2))).map
        (fun s => s.guests 2) = some (.evicting 1) := by
    decide
  obtain ⟨s, hs, hpc⟩ := Option.map_eq_some_iff.1 hrun
  have hreach := reaches_of_run (fun _ _ _ => next_step) hs
  exact ⟨s, hpc, (evicted_lowest threePriorities hreach).1 2 (by decide) 1 hpc⟩

end OsLab.Hotel
