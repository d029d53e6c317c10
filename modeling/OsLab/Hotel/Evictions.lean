import OsLab.Hotel.Tokens

/-!
# Evictions

A record of the evictions beside the run: which guest listed a room last, and whose stay was ended
by another guest. With evictions in time the tokens agree with it.

* `marked_guest`: a step of a guest keeps the tokens and the record together.
* `no_stale_token`: each token is taken by the guest that was evicted.
* `stale_token`: a token that nobody takes.
-/

namespace OsLab.Hotel

open Lib

variable {c : Config} {s t u : State} {g k r : ℕ}

/-! ## Whose stay was ended -/

/-- What the run has done to first stays: the guest that has pushed a room to `one_occ_q` last, and
the guests whose last such stay was ended by an eviction. -/
structure Marks where
  owner : ℕ → ℕ
  evicted : ℕ → Bool

/-- The room that a guest is to push to `one_occ_q`. -/
def GuestPc.lists : GuestPc → Option ℕ
  | .toOneOcc r => some r
  | _ => none

/-- The mark of a guest is cleared when it pushes its room, and set when the entry is popped by
another guest. -/
def marks (s : State) (a : Thread) (t : State) (h : Marks) : Marks :=
  match a with
  | .cleaner _ => h
  | .guest g =>
    match (s.guests g).lists, evicts s t g with
    | some r, _ =>
      { owner := Function.update h.owner r g, evicted := Function.update h.evicted g false }
    | none, some r => { h with evicted := Function.update h.evicted (h.owner r) true }
    | none, none => h

/-- A first guest owns the entry of its room, and is marked when the entry is gone. -/
structure Marked (c : Config) (s : State) (h : Marks) : Prop where
  owner : ∀ g < c.numGuestThreads, ∀ r, s.guests g = .firstStay r ∨ s.guests g = .firstOver r →
    h.owner r = g
  evicted : ∀ g < c.numGuestThreads, ∀ r, s.guests g = .firstStay r →
    (h.evicted g = true ↔ listed s r = 0)

/-- The first stay of another guest is left alone. -/
theorem firstStay_other (hst : GuestStep c g s t) {j : ℕ} (hj : j ≠ g) (r : ℕ) :
    (t.guests j = .firstStay r ↔ s.guests j = .firstStay r) ∧
      (t.guests j = .firstOver r ↔ s.guests j = .firstOver r) := by
  cases hst with
  | signalLast _ _ =>
    simp only [State.guestTo, Function.update_of_ne hj]
    cases s.guests j <;> simp [GuestPc.endSecond]
  | error _ _ => exact ⟨.rfl, .rfl⟩
  | _ => simp [State.guestTo, State.setRoom, Function.update_of_ne hj]

/-- How a guest gets to its timed wait, and past it. -/
theorem firstStay_own (hst : GuestStep c g s t) (r : ℕ) :
    (t.guests g = .firstStay r → s.guests g = .toOneOcc r) ∧
      (t.guests g = .firstOver r → s.guests g = .firstStay r) := by
  cases hst with
  | @pushOneOcc x hpc =>
    refine ⟨fun h => ?_, fun h => by simp [State.guestTo] at h⟩
    simp only [State.guestTo, Function.update_self, GuestPc.firstStay.injEq] at h
    rw [hpc, h]
  | @fullFirst x hpc _ =>
    refine ⟨fun h => by simp [State.guestTo] at h, fun h => ?_⟩
    simp only [State.guestTo, Function.update_self, GuestPc.firstOver.injEq] at h
    rw [hpc, h]
  | error hpc _ =>
    constructor <;> intro h <;> dsimp only at h <;> rcases hpc with hpc | hpc <;> rw [hpc] at h <;> cases h
  | _ => constructor <;> intro h <;> simp [State.guestTo] at h

theorem marks_same {h : Marks} (hl : (s.guests g).lists = none) (he : evicts s t g = none) :
    marks s (.guest g) t h = h := by
  unfold marks
  simp only [hl, he]

theorem Marked.same {h : Marks} (hm : Marked c s h) (hst : GuestStep c g s t)
    (hnot : (s.guests g).lists = none)
    (hq : ∀ j < c.numGuestThreads, j ≠ g → ∀ r, s.guests j = .firstStay r → listed t r = listed s r) :
    Marked c t h := by
  have hpush : ∀ r, s.guests g ≠ .toOneOcc r := by
    intro r hr
    rw [hr] at hnot
    cases hnot
  constructor
  · intro j hj r hr
    by_cases hjg : j = g
    · subst hjg
      obtain ⟨hstay, hover⟩ := firstStay_own hst r
      rcases hr with hr | hr
      · exact absurd (hstay hr) (hpush r)
      · exact hm.owner j hj r (.inl (hover hr))
    · obtain ⟨hstay, hover⟩ := firstStay_other hst hjg r
      exact hm.owner j hj r (hr.imp hstay.1 hover.1)
  · intro j hj r hr
    by_cases hjg : j = g
    · subst hjg
      exact absurd ((firstStay_own hst r).1 hr) (hpush r)
    · have hs := (firstStay_other hst hjg r).1.1 hr
      rw [hq j hj hjg r hs]
      exact hm.evicted j hj r hs

/-- Two guests do not wait or scan for one room. -/
theorem Tokens.unique (h : Tokens c s) {j : ℕ} (hg : g < c.numGuestThreads)
    (hj : j < c.numGuestThreads) (hgr : s.guests g = .firstStay r ∨ s.guests g = .firstOver r)
    (hjr : s.guests j = .firstStay r ∨ s.guests j = .firstOver r) : g = j := by
  have hsum : ∑ i ∈ Finset.range c.numGuestThreads, ((s.guests i).waits r + (s.guests i).scans r) ≤ 1 := by
    rw [Finset.sum_add_distrib]
    exact (h.balance r).le.trans (h.single r)
  apply eq_of_sum_le_one s.guests (w := fun pc => pc.waits r + pc.scans r) hsum hg hj
  · rcases hgr with hgr | hgr <;> rw [hgr] <;> simp [GuestPc.waits, GuestPc.scans]
  · rcases hjr with hjr | hjr <;> rw [hjr] <;> simp [GuestPc.waits, GuestPc.scans]

/-- Nobody waits or scans for a room that is not yet in `one_occ_q`. -/
theorem Tokens.nobody (h : Tokens c s) (hsem : s.roomSem r = 0) (hnot : listed s r = 0) {j : ℕ}
    (hj : j < c.numGuestThreads) : ¬ (s.guests j = .firstStay r ∨ s.guests j = .firstOver r) := by
  intro hr
  have hsum : ∑ i ∈ Finset.range c.numGuestThreads, ((s.guests i).waits r + (s.guests i).scans r) = 0 := by
    rw [Finset.sum_add_distrib]
    exact (h.balance r).trans (by omega)
  have hle := le_sum s.guests (fun pc => pc.waits r + pc.scans r) hj
  rw [hsum] at hle
  rcases hr with hr | hr <;> rw [hr] at hle <;> simp [GuestPc.waits, GuestPc.scans] at hle

/-- The guest that pushes a room is its owner, and nobody else has to do with the room. -/
theorem Marked.push {h : Marks} (hm : Marked c s h) (ht : Tokens c s) (hg : g < c.numGuestThreads)
    (hpc : s.guests g = .toOneOcc r)
    (hst : GuestStep c g s
      ({ s with oneOccQ := (r, c.priority g) :: s.oneOccQ }.guestTo g (.firstStay r))) :
    Marked c ({ s with oneOccQ := (r, c.priority g) :: s.oneOccQ }.guestTo g (.firstStay r))
      (marks s (.guest g)
        ({ s with oneOccQ := (r, c.priority g) :: s.oneOccQ }.guestTo g (.firstStay r)) h) := by
  have hfresh : r ∈ (s.guests g).fresh := by rw [hpc]; rfl
  have hmarks : marks s (.guest g)
      ({ s with oneOccQ := (r, c.priority g) :: s.oneOccQ }.guestTo g (.firstStay r)) h =
      { owner := Function.update h.owner r g, evicted := Function.update h.evicted g false } := by
    simp only [marks, hpc, GuestPc.lists]
  have hlisted : ∀ x, listed
      ({ s with oneOccQ := (r, c.priority g) :: s.oneOccQ }.guestTo g (.firstStay r)) x =
      listed s x + if r = x then 1 else 0 := listed_push s.oneOccQ r (c.priority g)
  have hne : ∀ j < c.numGuestThreads, ∀ x, s.guests j = .firstStay x ∨ s.guests j = .firstOver x →
      x ≠ r := by
    rintro j hj x hx rfl
    exact ht.nobody (ht.fresh g hg x hfresh) (ht.fresh_not_listed hg hfresh) hj hx
  rw [hmarks]
  constructor
  · intro j hj x hx
    by_cases hjg : j = g
    · subst hjg
      have hxr : x = r := by
        simp only [State.guestTo, Function.update_self] at hx
        rcases hx with hx | hx <;> cases hx
        rfl
      rw [hxr]
      exact Function.update_self ..
    · obtain ⟨hstay, hover⟩ := firstStay_other hst hjg x
      have hx' := hx.imp hstay.1 hover.1
      exact (Function.update_of_ne (hne j hj x hx') ..).trans (hm.owner j hj x hx')
  · intro j hj x hx
    rw [hlisted]
    by_cases hjg : j = g
    · subst hjg
      simp only [State.guestTo, Function.update_self, GuestPc.firstStay.injEq] at hx
      simp [hx]
    · have hs := (firstStay_other hst hjg x).1.1 hx
      rw [if_neg (Ne.symm (hne j hj x (.inl hs))), Nat.add_zero]
      dsimp only
      rw [Function.update_of_ne hjg]
      exact hm.evicted j hj x hs

/-- A listed room whose guest has not timed out has a guest that waits. -/
theorem Tokens.exists_waiting (h : Tokens c s) (hl : 0 < listed s r)
    (hover : ∀ j < c.numGuestThreads, s.guests j ≠ .firstOver r) :
    ∃ i < c.numGuestThreads, s.guests i = .firstStay r := by
  by_contra hnone
  have h0 : waiting c s r = 0 := waiting_eq_zero fun j hj heq => hnone ⟨j, hj, heq⟩
  have h1 : scanning c s r = 0 := scanning_eq_zero hover
  have := h.balance r
  omega

/-- The guest that is evicted is the owner of the entry that is popped. -/
theorem Marked.evict {h : Marks} (hm : Marked c s h) (ht : Tokens c s) (hpc : s.guests g = .noFree)
    {p : ℕ × ℤ} (hp : p ∈ s.oneOccQ)
    (ha : Awaited c s (.guest g) ({ s with
      oneOccQ := s.oneOccQ.erase p
      roomSem := Function.update s.roomSem p.1 (s.roomSem p.1 + 1) }.guestTo g (.evicting p.1)))
    (hst : GuestStep c g s ({ s with
      oneOccQ := s.oneOccQ.erase p
      roomSem := Function.update s.roomSem p.1 (s.roomSem p.1 + 1) }.guestTo g (.evicting p.1))) :
    Marked c ({ s with
      oneOccQ := s.oneOccQ.erase p
      roomSem := Function.update s.roomSem p.1 (s.roomSem p.1 + 1) }.guestTo g (.evicting p.1))
      (marks s (.guest g) ({ s with
        oneOccQ := s.oneOccQ.erase p
        roomSem := Function.update s.roomSem p.1 (s.roomSem p.1 + 1) }.guestTo g (.evicting p.1)) h) := by
  have hev : evicts s ({ s with
      oneOccQ := s.oneOccQ.erase p
      roomSem := Function.update s.roomSem p.1 (s.roomSem p.1 + 1) }.guestTo g (.evicting p.1)) g =
      some p.1 := by
    simp [evicts, hpc, State.guestTo]
  have hmarks : marks s (.guest g) ({ s with
      oneOccQ := s.oneOccQ.erase p
      roomSem := Function.update s.roomSem p.1 (s.roomSem p.1 + 1) }.guestTo g (.evicting p.1)) h =
      { h with evicted := Function.update h.evicted (h.owner p.1) true } := by
    unfold marks
    simp only [hev]
    rw [hpc]
    rfl
  have hlisted : ∀ r, listed s r = listed { s with oneOccQ := s.oneOccQ.erase p } r +
      if p.1 = r then 1 else 0 := listed_evict s.oneOccQ hp
  have hone := hlisted p.1
  rw [if_pos rfl] at hone
  -- the guest of the room still waits, so it is the owner
  obtain ⟨i, hi, hwi⟩ := ht.exists_waiting (r := p.1) (by omega) (ha p.1 hev)
  have howner := hm.owner i hi p.1 (.inl hwi)
  rw [hmarks]
  constructor
  · intro j hj r hr
    by_cases hjg : j = g
    · subst hjg
      simp only [State.guestTo, Function.update_self] at hr
      rcases hr with hr | hr <;> cases hr
    · obtain ⟨hstay, hover⟩ := firstStay_other hst hjg r
      exact hm.owner j hj r (hr.imp hstay.1 hover.1)
  · intro j hj r hr
    have hjg : j ≠ g := by
      rintro rfl
      simp [State.guestTo] at hr
    have hs := (firstStay_other hst hjg r).1.1 hr
    have hsingle := ht.single r
    have hl := hlisted r
    show _ ↔ listed { s with oneOccQ := s.oneOccQ.erase p } r = 0
    dsimp only
    rw [howner]
    by_cases hji : j = i
    · have hrp : p.1 = r := by
        rw [hji, hwi] at hs
        exact GuestPc.firstStay.inj hs
      rw [if_pos hrp] at hl
      rw [hji, Function.update_self]
      exact iff_of_true rfl (by omega)
    · have hrp : p.1 ≠ r := by
        rintro rfl
        exact hji (ht.unique hj hi (.inl hs) (.inl hwi))
      rw [if_neg hrp, Nat.add_zero] at hl
      rw [Function.update_of_ne hji, ← hl]
      exact hm.evicted j hj r hs

theorem marked_guest {h : Marks} (ht : Tokens c s) (hm : Marked c s h) (hg : g < c.numGuestThreads)
    (ha : Awaited c s (.guest g) t) (hst : GuestStep c g s t) :
    Marked c t (marks s (.guest g) t h) := by
  have hst' := hst
  cases hst with
  | pushOneOcc hpc => exact hm.push ht hg hpc hst'
  | evict hpc hp _ => exact hm.evict ht hpc hp.1 ha hst'
  | @scanFound x hpc hx =>
    rw [marks_same (by rw [hpc]; rfl) (by simp [evicts, hpc])]
    refine hm.same hst' (by rw [hpc]; rfl) ?_
    intro j hj hjg r hr
    -- no other guest waits for the room that the scan removes
    have hne : r ≠ x := by
      rintro rfl
      exact hjg (ht.unique hj hg (.inl hr) (.inr hpc))
    exact (listed_scan s.oneOccQ x r).trans (if_neg hne)
  | park hpc _ | enter hpc _ | countTwo _ hpc _ | endStay hpc | error hpc _ =>
    rw [marks_same (by rcases hpc with hpc | hpc <;> rw [hpc] <;> rfl)
      (by rcases hpc with hpc | hpc <;> simp [evicts, hpc])]
    exact hm.same hst' (by rcases hpc with hpc | hpc <;> rw [hpc] <;> rfl) fun _ _ _ _ _ => rfl
  | takeEmpty hpc _ | noEmpty hpc _ | countOne _ hpc | useOne hpc | evicted hpc _ | fullFirst hpc _
  | scanMissed hpc _ | pushFree hpc | takeFree hpc _ | noFree hpc _ | noEvict hpc _ | pushTwoOcc hpc
  | signalLast hpc _ | signalNot hpc _ | startStay hpc =>
    rw [marks_same (by rw [hpc]; rfl) (by simp [evicts, hpc, State.guestTo])]
    exact hm.same hst' (by rw [hpc]; rfl) fun _ _ _ _ _ => rfl

theorem marked_cleaner {h : Marks} (hm : Marked c s h) (hst : CleanerStep c k s t) : Marked c t h := by
  obtain ⟨-, -, -, hone⟩ := balance_cleaner hst
  have hlisted : ∀ r, listed t r = listed s r := fun r => by unfold listed; rw [hone]
  have hsame : ∀ j r, (t.guests j = .firstStay r ↔ s.guests j = .firstStay r) ∧
      (t.guests j = .firstOver r ↔ s.guests j = .firstOver r) := by
    intro j r
    cases hst with
    | announce _ =>
      exact ⟨⟨fun h => of_wake_eq h (by nofun), fun h => (wake_of_ne (by rw [h]; nofun)).trans h⟩,
        ⟨fun h => of_wake_eq h (by nofun), fun h => (wake_of_ne (by rw [h]; nofun)).trans h⟩⟩
    | _ => exact ⟨.rfl, .rfl⟩
  constructor
  · intro j hj r hr
    exact hm.owner j hj r (hr.imp (hsame j r).1.1 (hsame j r).2.1)
  · intro j hj r hr
    rw [hlisted]
    exact hm.evicted j hj r ((hsame j r).1.1 hr)

/-- How a guest leaves its first stay for the top of the loop. -/
theorem leaves_first (hst : GuestStep c g s t)
    (hr : s.guests g = .firstStay r ∨ s.guests g = .firstOver r) (htop : t.guests g = .top) :
    s.roomSem r ≠ 0 ∧ s.guests g = .firstStay r ∨ r ∉ t.oneOccQ.map Prod.fst := by
  cases hst with
  | @evicted x hpc hsem =>
    rcases hr with hr | hr <;> rw [hpc] at hr <;> cases hr
    exact .inl ⟨hsem, hpc⟩
  | @scanMissed x hpc hx =>
    rcases hr with hr | hr <;> rw [hpc] at hr <;> cases hr
    exact .inr hx
  | fullFirst _ _ | scanFound _ _ => simp [State.guestTo] at htop
  | park hpc _ | enter hpc _ | countTwo _ hpc _ | endStay hpc | error hpc _ =>
    rcases hr with hr | hr <;> rw [hr] at hpc <;> rcases hpc with hpc | hpc <;> cases hpc
  | takeEmpty hpc _ | noEmpty hpc _ | countOne _ hpc | useOne hpc | pushOneOcc hpc | pushFree hpc
  | takeFree hpc _ | noFree hpc _ | evict hpc _ _ | noEvict hpc _ | pushTwoOcc hpc | signalLast hpc _
  | signalNot hpc _ | startStay hpc =>
    rcases hr with hr | hr <;> rw [hr] at hpc <;> cases hpc

/-- No guest has been in a room. -/
def Marks.init : Marks := ⟨fun _ => 0, fun _ => false⟩

theorem marked_init (c : Config) : Marked c (State.init c) Marks.init where
  owner g _ r h := by rcases h with h | h <;> cases h
  evicted g _ r h := by cases h

/-- **No stale token**, when evictions are in time: there is no token for a room in `empty_q`, a
timed wait returns 0 only because this stay was ended by an eviction, and a guest that leaves its
room in `one_occ_q` was evicted. -/
theorem no_stale_token {h : Marks}
    (hr : Reaches (Recorded (Checked (Awaited c) (Step c)) marks) (State.init c, Marks.init) (s, h)) :
    (∀ r ∈ s.emptyQ, s.roomSem r = 0) ∧
      (∀ g < c.numGuestThreads, ∀ r, s.guests g = .firstStay r → s.roomSem r ≠ 0 →
        h.evicted g = true) ∧
      ∀ g t, Step c s (.guest g) t → ∀ r, s.guests g = .firstStay r ∨ s.guests g = .firstOver r →
        t.guests g = .top → r ∈ t.oneOccQ.map Prod.fst → h.evicted g = true := by
  obtain ⟨ht, hm⟩ : Tokens c s ∧ Marked c s h := by
    refine reaches_inv (I := fun x : State × Marks => Tokens c x.1 ∧ Marked c x.1 x.2) ?_
      ⟨tokens_init c, marked_init c⟩ hr
    rintro ⟨s, h⟩ a ⟨t, h'⟩ ⟨ht, hm⟩ ⟨hst, hh⟩
    dsimp only at ht hm hst hh
    subst hh
    refine ⟨tokens_step ht hst, ?_⟩
    obtain ⟨ha, hst⟩ := hst
    cases hst with
    | guest _ hg hst => exact marked_guest ht hm hg ha hst
    | cleaner _ _ hst => exact marked_cleaner hm hst
  have hevicted : ∀ g < c.numGuestThreads, ∀ r, s.guests g = .firstStay r → s.roomSem r ≠ 0 →
      h.evicted g = true := by
    intro g hg r hpc hsem
    have := ht.single r
    exact (hm.evicted g hg r hpc).2 (by omega)
  refine ⟨ht.empty, hevicted, ?_⟩
  intro g t hst r hpc htop hin
  cases hst with
  | guest _ hg hst =>
    rcases leaves_first hst hpc htop with ⟨hsem, hstay⟩ | hnot
    · exact hevicted g hg r hstay hsem
    · exact absurd hin hnot

/-- One room, a guest that can evict the other, one cleaner. -/
def twoPriorities : Config where
  numHotelRooms := 1
  numGuestThreads := 2
  numCleanerThreads := 1
  priority := fun g => g

/-- Guest 1 evicts guest 0 from its timed wait, and guest 0 is to take the token. -/
theorem no_stale_token_evicted : ∃ (s : State) (h : Marks), s.guests 0 = .firstStay 0 ∧
    s.guests 1 = .evicting 0 ∧ s.roomSem 0 = 1 ∧ h.evicted 0 = true := by
  have hrun : (run (record (check (Awaited twoPriorities) (next twoPriorities)) marks)
      (State.init twoPriorities, Marks.init)
      (List.replicate 5 (.guest 0) ++ List.replicate 4 (.guest 1))).map
        (fun x => (x.1.guests 0, x.1.guests 1, x.1.roomSem 0)) =
      some (.firstStay 0, .evicting 0, 1) := by
    decide
  obtain ⟨⟨s, h⟩, hs, hobs⟩ := Option.map_eq_some_iff.1 hrun
  simp only [Prod.mk.injEq] at hobs
  obtain ⟨h0, h1, hsem⟩ := hobs
  have hreach := reaches_of_run (fun _ _ _ => record_recorded fun _ _ _ =>
    check_checked fun _ _ _ => next_step) hs
  exact ⟨s, h, h0, h1, hsem, (no_stale_token hreach).2.1 0 (by decide) 0 h0 (by rw [hsem]; decide)⟩

/-- Guest 0 has the room to the end of its stay. Guest 1 evicts it before the scan, and the cleaner
cleans the room. -/
def lateEviction : List Thread :=
  List.replicate 6 (.guest 0) ++ List.replicate 7 (.guest 1) ++ List.replicate 4 (.cleaner 0)

/-- **A stale token**: the room is empty, and its semaphore is 1. -/
theorem stale_token : ¬ ∀ (c : Config) (s : State), Reaches (Step c) (State.init c) s →
    ∀ r ∈ s.emptyQ, s.roomSem r = 0 := by
  intro hclaim
  have hrun : (run (next twoPriorities) (State.init twoPriorities) lateEviction).map
      (fun s => (s.emptyQ, s.roomSem 0)) = some ([0], 1) := by
    decide
  obtain ⟨s, hs, hobs⟩ := Option.map_eq_some_iff.1 hrun
  simp only [Prod.mk.injEq] at hobs
  have := hclaim twoPriorities s (reaches_of_run (fun _ _ _ => next_step) hs) 0
    (by rw [hobs.1]; exact List.mem_singleton_self 0)
  omega

end OsLab.Hotel
