import OsLab.Hotel.Model
import Mathlib.Algebra.BigOperators.Group.Finset.Piecewise

/-!
# Room ownership

A room that is somewhere is there with the count the place calls for: 0 in `empty_q`, 1 in
`one_occ_q` and `one_free_q`, 2 in `two_occ_q`, and with a thread that has popped it what that
thread has made of it. `tally c s (r, k)` is the number of places that have room `r` and call
for the count `k`. The one invariant is that it is 1 for the room's own count and 0 for any
other (`Ledger`), and each step moves one room from one place to another (`Ledger.move`).

* `ledger_step`: every step of every thread keeps it.
* `room_ownership`: each room is in exactly one place, and the error exits are unreachable.
-/

namespace OsLab.Hotel

open Lib

variable {c : Config} {s t : State} {g k r : ℕ}

/-- The room a guest has popped and not yet pushed, with the count it has there. -/
def GuestPc.holds : GuestPc → Option (ℕ × ℕ)
  | .tookEmpty r => some (r, 0)
  | .countedOne r | .toOneOcc r | .freeing r | .tookFree r | .evicting r => some (r, 1)
  | .toTwoOcc r => some (r, 2)
  | _ => none

/-- The room a cleaner has popped and not yet pushed. -/
def CleanerPc.holds : CleanerPc → Option (ℕ × ℕ)
  | .tookTwo r => some (r, 2)
  | .cleaning r => some (r, 0)
  | _ => none

/-- 1 for what is held, 0 for anything else. -/
def share (p : ℕ × ℕ) (x : Option (ℕ × ℕ)) : ℕ := if x = some p then 1 else 0

@[simp] theorem share_none (p : ℕ × ℕ) : share p none = 0 := rfl

@[simp] theorem share_some (p q : ℕ × ℕ) : share p (some q) = if q = p then 1 else 0 := by
  unfold share; simp only [Option.some.injEq]

/-- The places in the queues that have room `p.1` and call for the count `p.2`. -/
def inQueues (s : State) (p : ℕ × ℕ) : ℕ :=
  (s.emptyQ.map fun r => (r, 0)).count p + (s.oneOccQ.map fun x => (x.1, 1)).count p +
    (s.oneFreeQ.map fun r => (r, 1)).count p + (s.twoOccQ.map fun r => (r, 2)).count p

/-- The places that have room `p.1` and call for the count `p.2`. -/
def tally (c : Config) (s : State) (p : ℕ × ℕ) : ℕ :=
  inQueues s p + (∑ g ∈ Finset.range c.numGuestThreads, share p (s.guests g).holds) +
    ∑ k ∈ Finset.range c.numCleanerThreads, share p (s.cleaners k).holds

/-- Each room is in one place, which calls for the count it has. -/
structure Ledger (c : Config) (s : State) : Prop where
  once : ∀ p : ℕ × ℕ, tally c s p = if p.1 < c.numHotelRooms ∧ (s.rooms p.1).count = p.2 then 1 else 0
  running : s.failed = false

theorem ledger_init (c : Config) : Ledger c (State.init c) where
  once := by
    intro q
    obtain ⟨r, k⟩ := q
    have hnone : tally c (State.init c) (r, k) =
        ((List.range c.numHotelRooms).map fun r => (r, 0)).count (r, k) := by
      simp [tally, inQueues, State.init, GuestPc.holds, CleanerPc.holds]
    have hnodup : ((List.range c.numHotelRooms).map fun r => (r, 0)).Nodup :=
      List.nodup_range.map fun a b h => (Prod.mk.injEq _ _ _ _ ▸ h).1
    rw [hnone, hnodup.count]
    refine if_congr ?_ rfl rfl
    simp [State.init]
  running := rfl

/-! ## Moving a room -/

/-- The tally after guest `g` goes on. -/
theorem tally_guestTo (hg : g < c.numGuestThreads) (pc : GuestPc) (p : ℕ × ℕ) :
    tally c (s.guestTo g pc) p + share p (s.guests g).holds = tally c s p + share p pc.holds := by
  have h := sum_update s.guests (fun x => share p x.holds) hg pc
  unfold tally State.guestTo inQueues
  simp only at h ⊢
  omega

theorem tally_cleanerTo (hk : k < c.numCleanerThreads) (pc : CleanerPc) (p : ℕ × ℕ) :
    tally c (s.cleanerTo k pc) p + share p (s.cleaners k).holds = tally c s p + share p pc.holds := by
  have h := sum_update s.cleaners (fun x => share p x.holds) hk pc
  unfold tally State.cleanerTo inQueues
  simp only at h ⊢
  omega

/-- What a guest holds is in the tally. -/
theorem share_guest_le (hg : g < c.numGuestThreads) (p : ℕ × ℕ) :
    share p (s.guests g).holds ≤ tally c s p := by
  have h := le_sum s.guests (fun x => share p x.holds) hg
  unfold tally
  omega

theorem share_cleaner_le (hk : k < c.numCleanerThreads) (p : ℕ × ℕ) :
    share p (s.cleaners k).holds ≤ tally c s p := by
  have h := le_sum s.cleaners (fun x => share p x.holds) hk
  unfold tally
  omega

theorem Ledger.count_eq (h : Ledger c s) {p : ℕ × ℕ} (hp : tally c s p ≠ 0) :
    p.1 < c.numHotelRooms ∧ (s.rooms p.1).count = p.2 := by
  rw [h.once] at hp
  by_contra hn
  exact hp (if_neg hn)

/-- A guest that has popped a room finds it with the count of the place it is in. -/
theorem Ledger.guest_holds (h : Ledger c s) (hg : g < c.numGuestThreads) {k : ℕ}
    (hs : (s.guests g).holds = some (r, k)) : r < c.numHotelRooms ∧ (s.rooms r).count = k := by
  have hle := share_guest_le (s := s) hg (r, k)
  rw [hs, share_some, if_pos rfl] at hle
  exact h.count_eq (p := (r, k)) (by omega)

theorem Ledger.cleaner_holds (h : Ledger c s) (hk : k < c.numCleanerThreads) {j : ℕ}
    (hs : (s.cleaners k).holds = some (r, j)) : r < c.numHotelRooms ∧ (s.rooms r).count = j := by
  have hle := share_cleaner_le (s := s) hk (r, j)
  rw [hs, share_some, if_pos rfl] at hle
  exact h.count_eq (p := (r, j)) (by omega)

/-- A step that moves no room. -/
theorem Ledger.same (h : Ledger c s) (ht : ∀ p, tally c t p = tally c s p)
    (hr : ∀ x, (t.rooms x).count = (s.rooms x).count) (hf : t.failed = s.failed) : Ledger c t where
  once p := by rw [ht, h.once, hr]
  running := hf.trans h.running

/-- **A step that moves room `r`** from a place that calls for the count `k` to one that
calls for `j`, and gives it this count. -/
theorem Ledger.move (h : Ledger c s) {k j : ℕ} (hs : tally c s (r, k) ≠ 0)
    (ht : ∀ p, tally c t p + share p (some (r, k)) = tally c s p + share p (some (r, j)))
    (hself : (t.rooms r).count = j) (hother : ∀ x, x ≠ r → (t.rooms x).count = (s.rooms x).count)
    (hf : t.failed = s.failed) : Ledger c t where
  once := by
    intro q
    obtain ⟨x, i⟩ := q
    obtain ⟨hlt, hc⟩ := h.count_eq hs
    simp only at hlt hc
    have h1 := ht (x, i)
    rw [h.once] at h1
    simp only [share_some, Prod.mk.injEq] at h1
    by_cases hx : x = r
    · -- the room that moves: its one place is now the one for `j`
      subst hx
      simp only [hlt, true_and, hc, hself] at h1 ⊢
      omega
    · simp only [Ne.symm hx, false_and, if_false, Nat.add_zero] at h1
      rw [h1, hother x hx]
  running := hf.trans h.running

/-! ## The steps -/

/-- The late scan removes at most the one occurrence of `r`. -/
theorem count_scan (q : List (ℕ × ℤ)) (p : ℕ × ℕ) :
    ((q.filter fun x => x.1 ≠ r).map fun x => (x.1, 1)).count p =
      if p = (r, 1) then 0 else (q.map fun x => (x.1, 1)).count p := by
  induction q with
  | nil => simp
  | cons x q ih =>
    obtain ⟨x, z⟩ := x
    by_cases hx : x = r
    · -- an entry that the scan removes
      subst hx
      rw [List.filter_cons_of_neg (by simp), ih, List.map_cons, List.count_cons]
      by_cases hp : p = (x, 1)
      · simp [hp]
      · simp [hp, Ne.symm hp]
    · rw [List.filter_cons_of_pos (by simpa using hx), List.map_cons, List.map_cons,
        List.count_cons, List.count_cons, ih]
      by_cases hp : p = (r, 1)
      · simp [hp, hx]
      · simp [hp]

theorem count_evict (q : List (ℕ × ℤ)) {x : ℕ × ℤ} (hx : x ∈ q) (p : ℕ × ℕ) :
    (q.map fun y => (y.1, 1)).count p =
      ((q.erase x).map fun y => (y.1, 1)).count p + if (x.1, 1) = p then 1 else 0 := by
  rw [((List.perm_cons_erase hx).map _).count_eq, List.map_cons, List.count_cons]
  simp only [beq_iff_eq]

/-- A region of guest `g` that moves a room between a queue and the guest. -/
theorem Ledger.guest (h : Ledger c s) (hg : g < c.numGuestThreads) {u : State} {pc : GuestPc}
    (hgs : u.guests = s.guests) (hcs : u.cleaners = s.cleaners) (hf : u.failed = s.failed)
    (hr : ∀ x, (u.rooms x).count = (s.rooms x).count)
    (hq : ∀ p, inQueues u p + share p pc.holds = inQueues s p + share p (s.guests g).holds) :
    Ledger c (u.guestTo g pc) := by
  refine h.same ?_ hr hf
  intro p
  have hmove := tally_guestTo (s := u) hg pc p
  have hu : tally c u p + inQueues s p = tally c s p + inQueues u p := by
    unfold tally
    rw [hgs, hcs]
    omega
  rw [hgs] at hmove
  have := hq p
  omega

/-- A region of cleaner `k` that moves a room between a queue and the cleaner. -/
theorem Ledger.cleaner (h : Ledger c s) (hk : k < c.numCleanerThreads) {u : State} {pc : CleanerPc}
    (hgs : u.guests = s.guests) (hcs : u.cleaners = s.cleaners) (hf : u.failed = s.failed)
    (hr : ∀ x, (u.rooms x).count = (s.rooms x).count)
    (hq : ∀ p, inQueues u p + share p pc.holds = inQueues s p + share p (s.cleaners k).holds) :
    Ledger c (u.cleanerTo k pc) := by
  refine h.same ?_ hr hf
  intro p
  have hmove := tally_cleanerTo (s := u) hk pc p
  have hu : tally c u p + inQueues s p = tally c s p + inQueues u p := by
    unfold tally
    rw [hgs, hcs]
    omega
  rw [hcs] at hmove
  have := hq p
  omega

/-- A guest that holds `r` gives it the count of its new place. -/
theorem Ledger.guestCount (h : Ledger c s) (hg : g < c.numGuestThreads) {k j : ℕ} {x : Room}
    {pc : GuestPc} (hs : (s.guests g).holds = some (r, k)) (hpc : pc.holds = some (r, j))
    (hx : x.count = j) : Ledger c ((s.setRoom r x).guestTo g pc) := by
  have hheld : share (r, k) (s.guests g).holds = 1 := by rw [hs, share_some, if_pos rfl]
  refine h.move (r := r) (k := k) (j := j) ?_ ?_ ?_ ?_ rfl
  · have := share_guest_le (s := s) hg (r, k)
    omega
  · intro p
    have := tally_guestTo (s := s.setRoom r x) hg pc p
    rw [hpc] at this
    rw [← hs]
    exact this
  · simp [State.guestTo, State.setRoom, hx]
  · intro y hy
    simp [State.guestTo, State.setRoom, Function.update_of_ne hy]

theorem Ledger.cleanerCount (h : Ledger c s) (hk : k < c.numCleanerThreads) {j j' : ℕ} {x : Room}
    {pc : CleanerPc} (hs : (s.cleaners k).holds = some (r, j)) (hpc : pc.holds = some (r, j'))
    (hx : x.count = j') : Ledger c ((s.setRoom r x).cleanerTo k pc) := by
  have hheld : share (r, j) (s.cleaners k).holds = 1 := by rw [hs, share_some, if_pos rfl]
  refine h.move (r := r) (k := j) (j := j') ?_ ?_ ?_ ?_ rfl
  · have := share_cleaner_le (s := s) hk (r, j)
    omega
  · intro p
    have := tally_cleanerTo (s := s.setRoom r x) hk pc p
    rw [hpc] at this
    rw [← hs]
    exact this
  · simp [State.cleanerTo, State.setRoom, hx]
  · intro y hy
    simp [State.cleanerTo, State.setRoom, Function.update_of_ne hy]

/-- A broadcast moves no room. -/
theorem Ledger.broadcast (h : Ledger c s) {u : State}
    (hgs : ∀ j, (u.guests j).holds = (s.guests j).holds)
    (hcs : ∀ j, (u.cleaners j).holds = (s.cleaners j).holds) (hf : u.failed = s.failed)
    (hr : u.rooms = s.rooms) (hq : inQueues u = inQueues s) : Ledger c u := by
  refine h.same ?_ (fun x => by rw [hr]) hf
  intro p
  unfold tally
  simp only [hgs, hcs, hq]

theorem holds_endSecond (pc : GuestPc) : pc.endSecond.holds = pc.holds := by
  cases pc <;> rfl

/-- The late scan finds the room at most once, also when it acts on a later stay. -/
theorem Ledger.scan (h : Ledger c s) (hr : r ∈ s.oneOccQ.map Prod.fst) :
    (s.oneOccQ.map fun x => (x.1, 1)).count (r, 1) = 1 := by
  have hmem : (r, 1) ∈ s.oneOccQ.map fun x => (x.1, 1) := by
    obtain ⟨x, hx, rfl⟩ := List.mem_map.1 hr
    exact List.mem_map.2 ⟨x, hx, rfl⟩
  have hpos := List.count_pos_iff.2 hmem
  have hle : tally c s (r, 1) ≤ 1 := by rw [h.once]; split_ifs <;> omega
  unfold tally inQueues at hle
  omega

theorem ledger_guest (h : Ledger c s) (hg : g < c.numGuestThreads) (hst : GuestStep c g s t) :
    Ledger c t := by
  cases hst with
  | park hpc _ | enter hpc _ =>
    apply h.guest hg rfl rfl rfl (fun _ => rfl)
    intro p
    rcases hpc with hpc | hpc <;> rw [hpc] <;> rfl
  | takeEmpty hpc hq =>
    refine h.guest hg rfl rfl rfl (fun _ => rfl) ?_
    intro p
    simp [inQueues, GuestPc.holds, hpc, hq, List.count_cons]
    omega
  | noEmpty hpc _ | noFree hpc _ | noEvict hpc _ | useOne hpc | evicted hpc _ | fullFirst hpc _
  | scanMissed hpc _ | startStay hpc | signalNot hpc _ =>
    refine h.guest hg rfl rfl rfl (fun _ => rfl) ?_
    intro p
    rw [hpc]
    rfl
  | endStay hpc =>
    apply h.guest hg rfl rfl rfl (fun _ => rfl)
    intro p
    rcases hpc with hpc | hpc <;> rw [hpc] <;> rfl
  | countOne time hpc => exact h.guestCount hg (by rw [hpc]; rfl) rfl rfl
  | countTwo time hpc _ =>
    exact h.guestCount hg (k := 1) (by rcases hpc with hpc | hpc <;> rw [hpc] <;> rfl) rfl rfl
  | pushOneOcc hpc =>
    refine h.guest hg rfl rfl rfl (fun _ => rfl) ?_
    intro p
    simp [inQueues, GuestPc.holds, hpc, List.count_cons]
    omega
  | @scanFound r hpc hr =>
    refine h.guest hg rfl rfl rfl (fun _ => rfl) ?_
    intro p
    have hscan := h.scan hr
    simp only [inQueues, count_scan, hpc, GuestPc.holds, share_some, share_none]
    by_cases hp : p = (r, 1)
    · -- whichever stay it belongs to, there is one entry for the room
      subst hp
      simp only [hscan, if_true]
      omega
    · simp [hp, Ne.symm hp]
  | @pushFree r hpc =>
    refine h.guest hg rfl rfl rfl ?_ ?_
    · intro x
      -- the attributes that are set here are not the count
      by_cases hx : x = r
      · subst hx
        simp [State.setRoom]
      · simp [State.setRoom, Function.update_of_ne hx]
    · intro p
      simp [inQueues, GuestPc.holds, hpc, List.count_cons, State.setRoom]
      omega
  | takeFree hpc hq =>
    refine h.guest hg rfl rfl rfl (fun _ => rfl) ?_
    intro p
    simp [inQueues, GuestPc.holds, hpc, hq, List.count_cons]
    omega
  | evict hpc hp _ =>
    refine h.guest hg rfl rfl rfl (fun _ => rfl) ?_
    intro p
    simp only [inQueues, count_evict s.oneOccQ hp.1 p, hpc, GuestPc.holds, share_some, share_none]
    omega
  | error hpc hc =>
    -- what the guest has popped has the count 1
    obtain ⟨r, hr⟩ : ∃ r, (s.guests g).holds = some (r, 1) ∧ (s.rooms r).count ≠ 1 := by
      rcases hpc with hpc | hpc <;> exact ⟨_, by rw [hpc]; rfl, hc⟩
    exact absurd (h.guest_holds hg hr.1).2 hr.2
  | pushTwoOcc hpc =>
    refine h.guest hg rfl rfl rfl (fun _ => rfl) ?_
    intro p
    simp [inQueues, GuestPc.holds, hpc, List.count_cons]
    omega
  | signalLast hpc _ =>
    have hb := h.broadcast (u := { s with
        useCount := s.useCount + 1
        guests := fun j => (s.guests j).endSecond
        cleaners := wake s.cleaners .waiting .woken })
      (fun j => holds_endSecond _) (apply_wake s.cleaners CleanerPc.holds rfl) rfl rfl rfl
    apply hb.guest hg rfl rfl rfl (fun _ => rfl)
    intro p
    simp only [hpc]
    rfl

theorem ledger_cleaner (h : Ledger c s) (hk : k < c.numCleanerThreads) (hst : CleanerStep c k s t) :
    Ledger c t := by
  cases hst with
  | park hpc _ | enter hpc _ | rest hpc _ | endRest hpc _ =>
    refine h.cleaner hk rfl rfl rfl (fun _ => rfl) ?_
    intro p
    rcases hpc with hpc | hpc <;> rw [hpc] <;> rfl
  | noTwo hpc _ | count hpc _ =>
    refine h.cleaner hk rfl rfl rfl (fun _ => rfl) ?_
    intro p
    rw [hpc]
    rfl
  | takeTwo hpc hq =>
    refine h.cleaner hk rfl rfl rfl (fun _ => rfl) ?_
    intro p
    simp [inQueues, CleanerPc.holds, hpc, hq, List.count_cons]
    omega
  | reset hpc => exact h.cleanerCount hk (by rw [hpc]; rfl) rfl rfl
  | pushEmpty hpc =>
    refine h.cleaner hk rfl rfl rfl (fun _ => rfl) ?_
    intro p
    simp [inQueues, CleanerPc.holds, hpc, List.count_cons]
    omega
  | countLast hpc _ =>
    have hb := h.broadcast (u := { s with
        numCleanedRooms := s.numCleanedRooms + 1
        useCount := 0
        cleaners := wake s.cleaners .resting .rested })
      (fun j => rfl) (apply_wake s.cleaners CleanerPc.holds rfl) rfl rfl rfl
    apply hb.cleaner hk rfl rfl rfl (fun _ => rfl)
    intro p
    simp only [wake, hpc]
    rfl
  | announce hpc =>
    have hb := h.broadcast (u := { s with guests := wake s.guests .waiting .woken })
      (apply_wake s.guests GuestPc.holds rfl) (fun j => rfl) rfl rfl rfl
    apply hb.cleaner hk rfl rfl rfl (fun _ => rfl)
    intro p
    simp only [hpc]
    rfl

/-- **Every step keeps every room in one place**, whoever takes it. -/
theorem ledger_step {a : Thread} (h : Ledger c s) (hst : Step c s a t) : Ledger c t := by
  cases hst with
  | guest _ hg hst => exact ledger_guest h hg hst
  | cleaner _ hk hst => exact ledger_cleaner h hk hst

/-! ## One place for each room -/

/-- `count r` in the four queues, and the threads that have popped `r` and not yet pushed it. -/
def places (c : Config) (s : State) (r : ℕ) : ℕ :=
  s.emptyQ.count r + (s.oneOccQ.map Prod.fst).count r + s.oneFreeQ.count r + s.twoOccQ.count r +
    ((Finset.range c.numGuestThreads).filter fun g => (s.guests g).holds.map Prod.fst = some r).card +
    ((Finset.range c.numCleanerThreads).filter fun k => (s.cleaners k).holds.map Prod.fst = some r).card

theorem count_pair {α : Type} (q : List α) (f : α → ℕ) (j : ℕ) (r k : ℕ) :
    (q.map fun x => (f x, j)).count (r, k) = if k = j then (q.map f).count r else 0 := by
  induction q with
  | nil => simp
  | cons x q ih =>
    simp only [List.map_cons, List.count_cons, ih, beq_iff_eq, Prod.mk.injEq]
    by_cases hk : k = j
    · simp [hk]
    · simp [hk, Ne.symm hk]

/-- A place calls for the count 0, 1 or 2. -/
theorem inQueues_eq (s : State) (r k : ℕ) : inQueues s (r, k) =
    (if k = 0 then s.emptyQ.count r else 0) + (if k = 1 then (s.oneOccQ.map Prod.fst).count r else 0) +
      (if k = 1 then s.oneFreeQ.count r else 0) + if k = 2 then s.twoOccQ.count r else 0 := by
  unfold inQueues
  rw [count_pair _ (fun x => x), count_pair _ Prod.fst, count_pair _ (fun x => x),
    count_pair _ (fun x => x)]
  simp only [List.map_id_fun', id]

theorem guest_holds_lt {pc : GuestPc} {k : ℕ} (h : pc.holds = some (r, k)) : k < 3 := by
  cases pc <;> simp [GuestPc.holds] at h <;> omega

theorem cleaner_holds_lt {pc : CleanerPc} {k : ℕ} (h : pc.holds = some (r, k)) : k < 3 := by
  cases pc <;> simp [CleanerPc.holds] at h <;> omega

theorem share_eq_zero {x : Option (ℕ × ℕ)} {k : ℕ} (hx : ∀ k, x = some (r, k) → k < 3) (hk : 3 ≤ k) :
    share (r, k) x = 0 := by
  unfold share
  rw [if_neg]
  intro h
  have := hx k h
  omega

/-- What a thread holds counts once, whatever the count. -/
theorem share_sum {x : Option (ℕ × ℕ)} (hx : ∀ k, x = some (r, k) → k < 3) :
    share (r, 0) x + share (r, 1) x + share (r, 2) x =
      if x.map Prod.fst = some r then 1 else 0 := by
  cases x with
  | none => simp
  | some q =>
    obtain ⟨y, j⟩ := q
    by_cases hy : y = r
    · subst hy
      have hj := hx j rfl
      obtain rfl | rfl | rfl : j = 0 ∨ j = 1 ∨ j = 2 := by omega
      all_goals simp
    · simp [hy]

theorem card_eq_sum {n : ℕ} (f : ℕ → Option (ℕ × ℕ)) (hf : ∀ i k, f i = some (r, k) → k < 3) :
    ((Finset.range n).filter fun i => (f i).map Prod.fst = some r).card =
      (∑ i ∈ Finset.range n, share (r, 0) (f i)) + (∑ i ∈ Finset.range n, share (r, 1) (f i)) +
        ∑ i ∈ Finset.range n, share (r, 2) (f i) := by
  rw [Finset.card_filter, ← Finset.sum_add_distrib, ← Finset.sum_add_distrib]
  exact Finset.sum_congr rfl fun i _ => (share_sum (hf i)).symm

theorem places_eq (c : Config) (s : State) (r : ℕ) :
    places c s r = tally c s (r, 0) + tally c s (r, 1) + tally c s (r, 2) := by
  unfold places tally
  rw [card_eq_sum (fun g => (s.guests g).holds) fun _ _ h => guest_holds_lt h,
    card_eq_sum (fun k => (s.cleaners k).holds) fun _ _ h => cleaner_holds_lt h]
  have h0 : inQueues s (r, 0) = s.emptyQ.count r := by simp [inQueues_eq]
  have h1 : inQueues s (r, 1) = (s.oneOccQ.map Prod.fst).count r + s.oneFreeQ.count r := by
    simp [inQueues_eq]
  have h2 : inQueues s (r, 2) = s.twoOccQ.count r := by simp [inQueues_eq]
  omega

theorem tally_eq_zero {k : ℕ} (hk : 3 ≤ k) : tally c s (r, k) = 0 := by
  unfold tally
  rw [inQueues_eq, if_neg (by omega), if_neg (by omega), if_neg (by omega), if_neg (by omega),
    Finset.sum_eq_zero fun g _ => share_eq_zero (fun _ h => guest_holds_lt h) hk,
    Finset.sum_eq_zero fun g _ => share_eq_zero (fun _ h => cleaner_holds_lt h) hk]
  rfl

theorem Ledger.count_lt (h : Ledger c s) (hr : r < c.numHotelRooms) : (s.rooms r).count < 3 := by
  by_contra hlt
  have hone := h.once (r, (s.rooms r).count)
  rw [tally_eq_zero (by omega), if_pos ⟨hr, rfl⟩] at hone
  exact absurd hone (by omega)

theorem Ledger.places (h : Ledger c s) (r : ℕ) :
    places c s r = if r < c.numHotelRooms then 1 else 0 := by
  rw [places_eq, h.once, h.once, h.once]
  by_cases hr : r < c.numHotelRooms
  · -- the count is 0, 1 or 2, so one of the three tallies is 1
    have hlt := h.count_lt hr
    simp only [hr, true_and, if_true]
    split_ifs <;> omega
  · simp [hr]

theorem Ledger.count_of_inQueues (h : Ledger c s) {k : ℕ} (hk : 0 < inQueues s (r, k)) :
    (s.rooms r).count = k := by
  refine (h.count_eq (p := (r, k)) ?_).2
  unfold tally
  omega

/-- **Room ownership.** In every reachable state each room is in exactly one place, a room in
a queue has the count of that queue, and no thread has called `exit`. -/
theorem room_ownership (c : Config) {s : State} (h : Reaches (Step c) (State.init c) s) :
    (∀ r, places c s r = if r < c.numHotelRooms then 1 else 0) ∧
      (∀ r ∈ s.emptyQ, (s.rooms r).count = 0) ∧ (∀ x ∈ s.oneOccQ, (s.rooms x.1).count = 1) ∧
      (∀ r ∈ s.oneFreeQ, (s.rooms r).count = 1) ∧ (∀ r ∈ s.twoOccQ, (s.rooms r).count = 2) ∧
      s.failed = false := by
  have hl : Ledger c s :=
    reaches_inv (I := Ledger c) (fun _ _ _ => ledger_step) (ledger_init c) h
  refine ⟨hl.places, ?_, ?_, ?_, ?_, hl.running⟩
  · intro r hr
    apply hl.count_of_inQueues
    have := List.count_pos_iff.2 hr
    rw [inQueues_eq, if_pos rfl]
    omega
  · intro x hx
    apply hl.count_of_inQueues
    have := List.count_pos_iff.2 (List.mem_map_of_mem (f := Prod.fst) hx)
    rw [inQueues_eq, if_neg (by omega), if_pos rfl]
    omega
  · intro r hr
    apply hl.count_of_inQueues
    have := List.count_pos_iff.2 hr
    rw [inQueues_eq, if_neg (by omega), if_pos rfl, if_pos rfl]
    omega
  · intro r hr
    apply hl.count_of_inQueues
    have := List.count_pos_iff.2 hr
    rw [inQueues_eq, if_neg (by omega), if_neg (by omega), if_neg (by omega), if_pos rfl]
    omega

/-- One room, one guest, one cleaner. -/
def smallHotel : Config where
  numHotelRooms := 1
  numGuestThreads := 1
  numCleanerThreads := 1
  priority := fun _ => 1

/-- The guest of `smallHotel` has popped the room: it is in no queue. -/
theorem room_ownership_tookEmpty :
    ∃ s, s.guests 0 = .tookEmpty 0 ∧ s.emptyQ = [] ∧ places smallHotel s 0 = 1 := by
  have h0 : Reaches (Step smallHotel) (State.init smallHotel) _ := Reaches.refl _
  have h1 := h0.snoc (.guest rfl Nat.zero_lt_one (.enter (.inl rfl) (by decide)))
  have h2 := h1.snoc (.guest rfl Nat.zero_lt_one (.takeEmpty (r := 0) (q := []) rfl rfl))
  exact ⟨_, rfl, rfl, (room_ownership smallHotel h2).1 0⟩

end OsLab.Hotel
