import OsLab.Hotel.Rooms
import OsLab.Hotel.Schedule

/-!
# Eviction tokens

A guest evicts another with a `sem_post` on `room_sem[r]`, after it has popped the room from
`one_occ_q`. The first guest of the room either takes the token in its timed wait, or has timed out
and finds in its scan that the room is gone: then nobody takes the token, and it ends the stay of
a later guest.

* `balance_guest`: against the tokens and the entries of `one_occ_q` stand the guests that wait and
  those that have still to scan.
* `waiting_le`: what follows in every run.
* `tokens_step`: when no guest is evicted after its wait has timed out, and no cleaned room has a
  guest that still waits, each token has one guest that will take it.
-/

namespace OsLab.Hotel

open Lib

variable {c : Config} {s t u : State} {g k r : ℕ}

/-- 1 for a guest in its timed wait on `room_sem[r]`. -/
def GuestPc.waits (r : ℕ) (pc : GuestPc) : ℕ := if pc = .firstStay r then 1 else 0

/-- 1 for a guest whose timed wait on `room_sem[r]` has timed out, before its scan. -/
def GuestPc.scans (r : ℕ) (pc : GuestPc) : ℕ := if pc = .firstOver r then 1 else 0

/-- The guests in their timed wait on `room_sem[r]`. -/
def waiting (c : Config) (s : State) (r : ℕ) : ℕ :=
  ∑ g ∈ Finset.range c.numGuestThreads, (s.guests g).waits r

/-- The guests that have still to scan for room `r`. -/
def scanning (c : Config) (s : State) (r : ℕ) : ℕ :=
  ∑ g ∈ Finset.range c.numGuestThreads, (s.guests g).scans r

/-- The entries of room `r` in `one_occ_q`. -/
def listed (s : State) (r : ℕ) : ℕ := (s.oneOccQ.map Prod.fst).count r

/-- 1 when the scan of guest `g` for room `r` will not find it. -/
def misses (s : State) (g r : ℕ) : ℕ := if s.guests g = .firstOver r ∧ listed s r = 0 then 1 else 0

theorem waiting_guestTo (hg : g < c.numGuestThreads) (pc : GuestPc) (r : ℕ) :
    waiting c (s.guestTo g pc) r + (s.guests g).waits r = waiting c s r + pc.waits r :=
  sum_update s.guests (GuestPc.waits r) hg pc

theorem scanning_guestTo (hg : g < c.numGuestThreads) (pc : GuestPc) (r : ℕ) :
    scanning c (s.guestTo g pc) r + (s.guests g).scans r = scanning c s r + pc.scans r :=
  sum_update s.guests (GuestPc.scans r) hg pc

theorem waiting_eq_zero (h : ∀ j < c.numGuestThreads, s.guests j ≠ .firstStay r) :
    waiting c s r = 0 := by
  apply Finset.sum_eq_zero
  intro j hj
  exact if_neg (h j (Finset.mem_range.1 hj))

theorem scanning_eq_zero (h : ∀ j < c.numGuestThreads, s.guests j ≠ .firstOver r) :
    scanning c s r = 0 := by
  apply Finset.sum_eq_zero
  intro j hj
  exact if_neg (h j (Finset.mem_range.1 hj))

theorem listed_pos (s : State) (r : ℕ) : 0 < listed s r ↔ r ∈ s.oneOccQ.map Prod.fst := List.count_pos_iff

/-! ## One place for each room -/

theorem Ledger.listed_le (h : Ledger c s) (r : ℕ) : listed s r ≤ 1 := by
  have hp := h.places r
  unfold Hotel.places at hp
  unfold listed
  split_ifs at hp <;> omega

/-- A room that a guest has popped is not in `one_occ_q`. -/
theorem Ledger.listed_guest (h : Ledger c s) (hg : g < c.numGuestThreads) {k : ℕ}
    (hs : (s.guests g).holds = some (r, k)) : listed s r = 0 := by
  have hp := h.places r
  have hmem : g ∈ (Finset.range c.numGuestThreads).filter
      fun g => (s.guests g).holds.map Prod.fst = some r :=
    Finset.mem_filter.2 ⟨Finset.mem_range.2 hg, by rw [hs]; rfl⟩
  have hpos := Finset.card_pos.2 ⟨g, hmem⟩
  unfold Hotel.places at hp
  unfold listed
  split_ifs at hp <;> omega

theorem Ledger.listed_cleaner (h : Ledger c s) (hk : k < c.numCleanerThreads) {j : ℕ}
    (hs : (s.cleaners k).holds = some (r, j)) : listed s r = 0 := by
  have hp := h.places r
  have hmem : k ∈ (Finset.range c.numCleanerThreads).filter
      fun k => (s.cleaners k).holds.map Prod.fst = some r :=
    Finset.mem_filter.2 ⟨Finset.mem_range.2 hk, by rw [hs]; rfl⟩
  have hpos := Finset.card_pos.2 ⟨k, hmem⟩
  unfold Hotel.places at hp
  unfold listed
  split_ifs at hp <;> omega

theorem Ledger.listed_empty (h : Ledger c s) (hr : r ∈ s.emptyQ) : listed s r = 0 := by
  have hp := h.places r
  have hpos := List.count_pos_iff.2 hr
  unfold Hotel.places at hp
  unfold listed
  split_ifs at hp <;> omega

/-! ## Guests against tokens -/

/-- What a region of guest `g` does to the balance is what it does for this guest. -/
theorem balance_move (hg : g < c.numGuestThreads) {pc : GuestPc}
    (hw : ∀ j, (u.guests j).waits r = (s.guests j).waits r)
    (hs : ∀ j, (u.guests j).scans r = (s.guests j).scans r)
    (h : pc.waits r + pc.scans r + (s.roomSem r + listed s r) + misses s g r =
      (s.guests g).waits r + (s.guests g).scans r + (u.roomSem r + listed u r)) :
    waiting c (u.guestTo g pc) r + scanning c (u.guestTo g pc) r + (s.roomSem r + listed s r) +
        misses s g r =
      waiting c s r + scanning c s r + ((u.guestTo g pc).roomSem r + listed (u.guestTo g pc) r) := by
  have h1 := waiting_guestTo (s := u) hg pc r
  have h2 := scanning_guestTo (s := u) hg pc r
  have h3 : waiting c u r = waiting c s r := Finset.sum_congr rfl fun j _ => hw j
  have h4 : scanning c u r = scanning c s r := Finset.sum_congr rfl fun j _ => hs j
  have h5 : (u.guestTo g pc).roomSem r = u.roomSem r := rfl
  have h6 : listed (u.guestTo g pc) r = listed u r := rfl
  rw [hw g] at h1
  rw [hs g] at h2
  omega

theorem waits_endSecond (r : ℕ) (pc : GuestPc) : pc.endSecond.waits r = pc.waits r := by
  cases pc <;> rfl

theorem scans_endSecond (r : ℕ) (pc : GuestPc) : pc.endSecond.scans r = pc.scans r := by
  cases pc <;> rfl

theorem listed_scan (q : List (ℕ × ℤ)) (x r : ℕ) :
    ((q.filter fun p => p.1 ≠ x).map Prod.fst).count r = if r = x then 0 else (q.map Prod.fst).count r := by
  induction q with
  | nil => simp
  | cons p q ih =>
    by_cases hp : p.1 = x
    · rw [List.filter_cons_of_neg (by simp [hp]), ih, List.map_cons, List.count_cons, hp]
      by_cases hr : r = x
      · simp [hr]
      · simp [hr, Ne.symm hr]
    · rw [List.filter_cons_of_pos (by simpa using hp), List.map_cons, List.map_cons, List.count_cons,
        List.count_cons, ih]
      by_cases hr : r = x
      · subst hr
        simp [hp]
      · simp [hr]

theorem listed_push (q : List (ℕ × ℤ)) (x : ℕ) (i : ℤ) (r : ℕ) :
    (((x, i) :: q).map Prod.fst).count r = (q.map Prod.fst).count r + if x = r then 1 else 0 := by
  rw [List.map_cons, List.count_cons]
  simp only [beq_iff_eq]

theorem listed_evict (q : List (ℕ × ℤ)) {p : ℕ × ℤ} (hp : p ∈ q) (r : ℕ) :
    (q.map Prod.fst).count r = ((q.erase p).map Prod.fst).count r + if p.1 = r then 1 else 0 := by
  rw [((List.perm_cons_erase hp).map Prod.fst).count_eq, List.map_cons, List.count_cons]
  simp only [beq_iff_eq]

/-- **Each step of a guest keeps the balance** of waiting guests and guests that have still to scan
against tokens and entries, but for a scan that finds nothing. -/
theorem balance_guest (hl : Ledger c s) (hg : g < c.numGuestThreads) (hst : GuestStep c g s t) (r : ℕ) :
    waiting c t r + scanning c t r + (s.roomSem r + listed s r) + misses s g r =
      waiting c s r + scanning c s r + (t.roomSem r + listed t r) := by
  cases hst with
  | park hpc _ | enter hpc _ | endStay hpc | countTwo _ hpc _ =>
    refine balance_move (s := s) hg (fun _ => by rfl) (fun _ => by rfl) ?_
    rcases hpc with hpc | hpc <;> simp [GuestPc.waits, GuestPc.scans, misses, hpc, listed, State.setRoom]
  | takeEmpty hpc _ | noEmpty hpc _ | countOne _ hpc | useOne hpc | takeFree hpc _ | noFree hpc _
  | noEvict hpc _ | pushTwoOcc hpc | signalNot hpc _ | startStay hpc | pushFree hpc =>
    refine balance_move (s := s) hg (fun _ => by rfl) (fun _ => by rfl) ?_
    simp [GuestPc.waits, GuestPc.scans, misses, hpc, listed, State.setRoom]
  | error hpc _ =>
    have hm : misses s g r = 0 := by rcases hpc with hpc | hpc <;> simp [misses, hpc]
    rw [hm]
    rfl
  | @pushOneOcc x hpc =>
    refine balance_move (s := s) hg (fun _ => by rfl) (fun _ => by rfl) ?_
    simp [GuestPc.waits, GuestPc.scans, misses, hpc, listed, List.count_cons]
    omega
  | @evicted x hpc hsem =>
    refine balance_move (s := s) hg (fun _ => by rfl) (fun _ => by rfl) ?_
    by_cases hx : x = r
    · subst hx
      simp [GuestPc.waits, GuestPc.scans, misses, hpc, listed]
      omega
    · simp [GuestPc.waits, GuestPc.scans, misses, hpc, listed, hx, Ne.symm hx]
  | @fullFirst x hpc _ =>
    refine balance_move (s := s) hg (fun _ => by rfl) (fun _ => by rfl) ?_
    simp [GuestPc.waits, GuestPc.scans, misses, hpc, listed]
  | @scanFound x hpc hx =>
    refine balance_move (s := s) hg (fun _ => by rfl) (fun _ => by rfl) ?_
    have hone : listed s x = 1 := by
      have := hl.listed_le x
      have := (listed_pos s x).2 hx
      omega
    unfold listed at hone ⊢
    dsimp only
    rw [listed_scan]
    by_cases hr : r = x
    · subst hr
      simp [GuestPc.waits, GuestPc.scans, misses, hpc, hone, listed]
      omega
    · simp [GuestPc.waits, GuestPc.scans, misses, hpc, hr, Ne.symm hr]
  | @scanMissed x hpc hx =>
    refine balance_move (s := s) hg (fun _ => by rfl) (fun _ => by rfl) ?_
    have h0 : listed s x = 0 := by
      have := (listed_pos s x).1.mt hx
      omega
    by_cases hr : x = r
    · subst hr
      simp [GuestPc.waits, GuestPc.scans, misses, hpc, h0]
      omega
    · simp [GuestPc.waits, GuestPc.scans, misses, hpc, hr]
  | @evict p hpc hp _ =>
    refine balance_move (s := s) hg (fun _ => by rfl) (fun _ => by rfl) ?_
    have hev := listed_evict s.oneOccQ hp.1 r
    unfold listed
    dsimp only
    by_cases hr : p.1 = r
    · subst hr
      simp [GuestPc.waits, GuestPc.scans, misses, hpc, hev]
      omega
    · simp [GuestPc.waits, GuestPc.scans, misses, hpc, hev, hr, Ne.symm hr]
  | signalLast hpc _ =>
    -- the broadcast wakes guests in their second stay only
    refine balance_move (s := s) hg (fun _ => waits_endSecond r _) (fun _ => scans_endSecond r _) ?_
    simp [GuestPc.waits, GuestPc.scans, misses, hpc, listed]

/-- A cleaner has nothing to do with first stays. -/
theorem balance_cleaner (hst : CleanerStep c k s t) :
    waiting c t = waiting c s ∧ scanning c t = scanning c s ∧ t.roomSem = s.roomSem ∧
      t.oneOccQ = s.oneOccQ := by
  cases hst with
  | announce _ =>
    refine ⟨?_, ?_, rfl, rfl⟩
    · funext r
      exact sum_wake s.guests (GuestPc.waits r) rfl
    · funext r
      exact sum_wake s.guests (GuestPc.scans r) rfl
  | _ => exact ⟨rfl, rfl, rfl, rfl⟩

/-- **No more guests than tokens and entries**, in every run: a guest that waits has an entry or a
token. -/
theorem waiting_le (h : Reaches (Step c) (State.init c) s) (r : ℕ) :
    waiting c s r + scanning c s r ≤ s.roomSem r + listed s r := by
  have hinv : Ledger c s ∧ ∀ r, waiting c s r + scanning c s r ≤ s.roomSem r + listed s r := by
    refine reaches_inv (I := fun s => Ledger c s ∧
      ∀ r, waiting c s r + scanning c s r ≤ s.roomSem r + listed s r) ?_ ⟨ledger_init c, ?_⟩ h
    · intro s a t hI hst
      refine ⟨ledger_step hI.1 hst, ?_⟩
      intro r
      have hr := hI.2 r
      cases hst with
      | guest _ hg hst =>
        have := balance_guest hI.1 hg hst r
        omega
      | cleaner _ _ hst =>
        obtain ⟨hw, hs, hsem, hone⟩ := balance_cleaner hst
        unfold listed at hr ⊢
        rw [hw, hs, hsem, hone]
        exact hr
    · intro r
      simp [waiting, scanning, State.init, GuestPc.waits, GuestPc.scans]
  exact hinv.2 r

/-! ## Evictions in time -/

/-- The room that guest `g` takes by evicting its guest. -/
def evicts (s t : State) (g : ℕ) : Option ℕ :=
  match s.guests g, t.guests g with
  | .noFree, .evicting r => some r
  | _, _ => none

/-- The room that the cleaner is to push to `empty_q`. -/
def CleanerPc.readyRoom : CleanerPc → Option ℕ
  | .cleaning r => some r
  | _ => none

/-- No guest is evicted after its timed wait has timed out, and no room goes to `empty_q` while a
guest is still in its timed wait for it. -/
def Awaited (c : Config) (s : State) (a : Thread) (t : State) : Prop :=
  match a with
  | .guest g => ∀ r ∈ evicts s t g, ∀ j < c.numGuestThreads, s.guests j ≠ .firstOver r
  | .cleaner k => ∀ r ∈ (s.cleaners k).readyRoom, ∀ j < c.numGuestThreads, s.guests j ≠ .firstStay r

instance (c : Config) (s : State) (a : Thread) (t : State) : Decidable (Awaited c s a t) :=
  match a with
  | .guest _ => inferInstanceAs (Decidable (∀ _ ∈ _, _))
  | .cleaner _ => inferInstanceAs (Decidable (∀ _ ∈ _, _))

/-- The room of a first guest that is not yet in `one_occ_q`. -/
def GuestPc.fresh : GuestPc → Option ℕ
  | .tookEmpty r | .countedOne r | .toOneOcc r => some r
  | _ => none

theorem fresh_endSecond (pc : GuestPc) : pc.endSecond.fresh = pc.fresh := by
  cases pc <;> rfl

theorem of_not_fresh {pc : GuestPc} {p : ℕ → Prop} (h : pc.fresh = none) : ∀ r ∈ pc.fresh, p r := by
  intro r hr
  rw [h] at hr
  cases hr

/-- The tokens are those of the guests that were evicted and have not yet noticed. -/
structure Tokens (c : Config) (s : State) : Prop where
  ledger : Ledger c s
  balance : ∀ r, waiting c s r + scanning c s r = s.roomSem r + listed s r
  scans : ∀ r, scanning c s r ≤ listed s r
  single : ∀ r, s.roomSem r + listed s r ≤ 1
  empty : ∀ r ∈ s.emptyQ, s.roomSem r = 0
  fresh : ∀ g < c.numGuestThreads, ∀ r ∈ (s.guests g).fresh, s.roomSem r = 0

theorem tokens_init (c : Config) : Tokens c (State.init c) where
  ledger := ledger_init c
  balance r := by simp [waiting, scanning, State.init, GuestPc.waits, GuestPc.scans, listed]
  scans r := by simp [scanning, State.init, GuestPc.scans]
  single r := by simp [State.init, listed]
  empty r _ := rfl
  fresh g _ r _ := rfl

/-- The scan of a guest finds its room. -/
theorem Tokens.listed_of_scan (h : Tokens c s) (hg : g < c.numGuestThreads)
    (hpc : s.guests g = .firstOver r) : listed s r = 1 := by
  have hle := le_sum s.guests (GuestPc.scans r) hg
  have h1 : (s.guests g).scans r = 1 := if_pos hpc
  have h2 : scanning c s r ≤ listed s r := h.scans r
  have h3 := h.single r
  unfold scanning at h2
  omega

theorem Tokens.misses (h : Tokens c s) (hg : g < c.numGuestThreads) (r : ℕ) : misses s g r = 0 := by
  apply if_neg
  intro hm
  have := h.listed_of_scan hg hm.1
  omega

/-- The parts of `Tokens` that a region of guest `g` has to see to. -/
theorem Tokens.guest (h : Tokens c s) (hg : g < c.numGuestThreads) {pc : GuestPc}
    (hst : GuestStep c g s (u.guestTo g pc))
    (hw : ∀ r, scanning c s r + pc.scans r ≤ listed u r + (s.guests g).scans r)
    (hsc : ∀ r j, (u.guests j).scans r = (s.guests j).scans r)
    (hfr : ∀ j, (u.guests j).fresh = (s.guests j).fresh)
    (hsingle : ∀ r, u.roomSem r + listed u r ≤ 1) (hempty : ∀ r ∈ u.emptyQ, u.roomSem r = 0)
    (hfresh : ∀ j < c.numGuestThreads, ∀ r ∈ (s.guests j).fresh, u.roomSem r = 0)
    (hpc : ∀ r ∈ pc.fresh, u.roomSem r = 0) : Tokens c (u.guestTo g pc) where
  ledger := ledger_guest h.ledger hg hst
  balance r := by
    have hbal := balance_guest h.ledger hg hst r
    rw [h.misses hg r] at hbal
    have := h.balance r
    omega
  scans r := by
    have h1 := scanning_guestTo (s := u) hg pc r
    have h2 : scanning c u r = scanning c s r := Finset.sum_congr rfl fun j _ => hsc r j
    have h3 := hw r
    rw [hsc r g] at h1
    show scanning c (u.guestTo g pc) r ≤ listed u r
    omega
  single := hsingle
  empty := hempty
  fresh := by
    intro j hj r hr
    by_cases hjg : j = g
    · subst hjg
      simp only [State.guestTo, Function.update_self] at hr
      exact hpc r hr
    · simp only [State.guestTo, Function.update_of_ne hjg, hfr] at hr
      exact hfresh j hj r hr

/-- A region of guest `g` that touches neither `one_occ_q` nor a semaphore. -/
theorem Tokens.quiet (h : Tokens c s) (hg : g < c.numGuestThreads) {pc : GuestPc}
    (hst : GuestStep c g s (u.guestTo g pc)) (hsem : u.roomSem = s.roomSem)
    (hone : u.oneOccQ = s.oneOccQ) (hq : ∀ r ∈ u.emptyQ, r ∈ s.emptyQ)
    (hsc : ∀ r j, (u.guests j).scans r = (s.guests j).scans r)
    (hfr : ∀ j, (u.guests j).fresh = (s.guests j).fresh) (hpc : ∀ r, pc.scans r = 0)
    (hfresh : ∀ r ∈ pc.fresh, s.roomSem r = 0) : Tokens c (u.guestTo g pc) := by
  have hlisted : ∀ r, listed u r = listed s r := fun r => by unfold listed; rw [hone]
  refine h.guest hg hst ?_ hsc hfr ?_ ?_ ?_ ?_
  · intro r
    have := h.scans r
    rw [hpc, hlisted]
    omega
  · intro r
    rw [hsem, hlisted]
    exact h.single r
  · intro r hr
    rw [hsem]
    exact h.empty r (hq r hr)
  · intro j hj r hr
    rw [hsem]
    exact h.fresh j hj r hr
  · intro r hr
    rw [hsem]
    exact hfresh r hr

/-- A room that its first guest has still to push has no entry. -/
theorem Tokens.fresh_not_listed (h : Tokens c s) (hg : g < c.numGuestThreads)
    (hr : r ∈ (s.guests g).fresh) : listed s r = 0 := by
  obtain ⟨k, hk⟩ : ∃ k, (s.guests g).holds = some (r, k) := by
    cases hpc : s.guests g <;> rw [hpc] at hr <;> cases hr <;> exact ⟨_, rfl⟩
  exact h.ledger.listed_guest hg hk

/-- A first guest pushes its room, which has neither an entry nor a token. -/
theorem Tokens.push (h : Tokens c s) (hg : g < c.numGuestThreads) (hpc : s.guests g = .toOneOcc r)
    (hst : GuestStep c g s
      ({ s with oneOccQ := (r, c.priority g) :: s.oneOccQ }.guestTo g (.firstStay r))) :
    Tokens c ({ s with oneOccQ := (r, c.priority g) :: s.oneOccQ }.guestTo g (.firstStay r)) := by
  have hfresh : r ∈ (s.guests g).fresh := by rw [hpc]; rfl
  have hsem : s.roomSem r = 0 := h.fresh g hg r hfresh
  have hnot : listed s r = 0 := h.fresh_not_listed hg hfresh
  have hlisted : ∀ x, listed { s with oneOccQ := (r, c.priority g) :: s.oneOccQ } x =
      listed s x + if r = x then 1 else 0 := listed_push s.oneOccQ r (c.priority g)
  refine h.guest hg hst ?_ (fun _ _ => rfl) (fun _ => rfl) ?_ h.empty h.fresh (of_not_fresh rfl)
  · intro x
    have := h.scans x
    rw [hlisted]
    show scanning c s x + 0 ≤ _
    omega
  · intro x
    rw [hlisted]
    have := h.single x
    split_ifs with hx
    · subst hx
      show s.roomSem r + (listed s r + 1) ≤ 1
      omega
    · exact this

/-- An evicted guest takes a token. -/
theorem Tokens.take (h : Tokens c s) (hg : g < c.numGuestThreads)
    (hst : GuestStep c g s
      ({ s with roomSem := Function.update s.roomSem r (s.roomSem r - 1) }.guestTo g .top)) :
    Tokens c ({ s with roomSem := Function.update s.roomSem r (s.roomSem r - 1) }.guestTo g .top) := by
  have hle : ∀ x, Function.update s.roomSem r (s.roomSem r - 1) x ≤ s.roomSem x := by
    intro x
    by_cases hx : x = r
    · subst hx
      simp
    · simp [hx]
  refine h.guest hg hst ?_ (fun _ _ => rfl) (fun _ => rfl) ?_ ?_ ?_ (of_not_fresh rfl)
  · intro x
    have := h.scans x
    show scanning c s x + 0 ≤ listed s x + _
    omega
  · intro x
    have h1 := hle x
    have h2 := h.single x
    show Function.update s.roomSem r (s.roomSem r - 1) x + listed s x ≤ 1
    omega
  · intro x hx
    exact Nat.le_zero.1 ((hle x).trans (h.empty x hx).le)
  · intro j hj x hx
    exact Nat.le_zero.1 ((hle x).trans (h.fresh j hj x hx).le)

/-- The scan of a guest removes the entry of its room. -/
theorem Tokens.scan (h : Tokens c s) (hg : g < c.numGuestThreads) (hpc : s.guests g = .firstOver r)
    {pc : GuestPc} (hpc' : ∀ x, pc.scans x = 0) (hfr : pc.fresh = none)
    (hst : GuestStep c g s ({ s with oneOccQ := s.oneOccQ.filter fun p => p.1 ≠ r }.guestTo g pc)) :
    Tokens c ({ s with oneOccQ := s.oneOccQ.filter fun p => p.1 ≠ r }.guestTo g pc) := by
  have hlisted : ∀ x, listed { s with oneOccQ := s.oneOccQ.filter fun p => p.1 ≠ r } x =
      if x = r then 0 else listed s x := listed_scan s.oneOccQ r
  refine h.guest hg hst ?_ (fun _ _ => rfl) (fun _ => rfl) ?_ h.empty h.fresh (of_not_fresh hfr)
  · intro x
    have hscan := h.scans x
    have hsingle := h.single x
    rw [hlisted, hpc']
    split_ifs with hx
    · subst hx
      have h1 : (s.guests g).scans x = 1 := if_pos hpc
      omega
    · omega
  · intro x
    have hsingle := h.single x
    rw [hlisted]
    show s.roomSem x + _ ≤ 1
    split_ifs <;> omega

/-- An eviction turns the entry of a room into a token for its guest, which has not timed out. -/
theorem Tokens.evict (h : Tokens c s) (hg : g < c.numGuestThreads) {p : ℕ × ℤ} (hp : p ∈ s.oneOccQ)
    (hover : ∀ j < c.numGuestThreads, s.guests j ≠ .firstOver p.1)
    (hst : GuestStep c g s ({ s with
      oneOccQ := s.oneOccQ.erase p
      roomSem := Function.update s.roomSem p.1 (s.roomSem p.1 + 1) }.guestTo g (.evicting p.1))) :
    Tokens c ({ s with
      oneOccQ := s.oneOccQ.erase p
      roomSem := Function.update s.roomSem p.1 (s.roomSem p.1 + 1) }.guestTo g (.evicting p.1)) := by
  have hlisted : ∀ r, listed s r = listed { s with oneOccQ := s.oneOccQ.erase p } r +
      if p.1 = r then 1 else 0 := listed_evict s.oneOccQ hp
  have h0 : scanning c s p.1 = 0 := scanning_eq_zero hover
  have hin : listed s p.1 = 1 := by
    have h1 := hlisted p.1
    have h2 := h.single p.1
    rw [if_pos rfl] at h1
    omega
  have hsem : ∀ r, r ≠ p.1 → Function.update s.roomSem p.1 (s.roomSem p.1 + 1) r = s.roomSem r :=
    fun r hr => Function.update_of_ne hr ..
  refine h.guest hg hst ?_ (fun _ _ => rfl) (fun _ => rfl) ?_ ?_ ?_ (of_not_fresh rfl)
  · intro r
    have h1 := hlisted r
    have h2 := h.scans r
    show scanning c s r + 0 ≤ listed { s with oneOccQ := s.oneOccQ.erase p } r + _
    split_ifs at h1 with hr
    · subst hr
      omega
    · omega
  · intro r
    have h1 := hlisted r
    have h2 := h.single r
    show Function.update s.roomSem p.1 (s.roomSem p.1 + 1) r +
      listed { s with oneOccQ := s.oneOccQ.erase p } r ≤ 1
    by_cases hr : r = p.1
    · subst hr
      rw [if_pos rfl] at h1
      rw [Function.update_self]
      omega
    · rw [hsem r hr]
      omega
  · intro r hr
    have hne : r ≠ p.1 := by
      rintro rfl
      have := h.ledger.listed_empty hr
      omega
    exact (hsem r hne).trans (h.empty r hr)
  · intro j hj r hr
    have hne : r ≠ p.1 := by
      rintro rfl
      have := h.fresh_not_listed hj hr
      omega
    exact (hsem r hne).trans (h.fresh j hj r hr)

theorem tokens_guest (h : Tokens c s) (hg : g < c.numGuestThreads)
    (ha : Awaited c s (.guest g) t) (hst : GuestStep c g s t) : Tokens c t := by
  have hst' := hst
  cases hst with
  | park _ _ | enter _ _ | noEmpty _ _ | takeFree _ _ | noFree _ _ | noEvict _ _ | countTwo _ _ _
  | pushTwoOcc _ | pushFree _ | signalNot _ _ | startStay _ | endStay _ =>
    exact h.quiet hg hst' rfl rfl (fun _ hr => hr) (fun _ _ => rfl) (fun _ => rfl) (fun _ => rfl)
      (of_not_fresh rfl)
  | signalLast _ _ =>
    exact h.quiet hg hst' rfl rfl (fun _ hr => hr) (fun r _ => scans_endSecond r _)
      (fun j => fresh_endSecond _) (fun _ => rfl) (of_not_fresh rfl)
  | error _ _ => exact absurd (ledger_guest h.ledger hg hst').running (by simp)
  | @takeEmpty x q hpc hq =>
    refine h.quiet hg hst' rfl rfl ?_ (fun _ _ => rfl) (fun _ => rfl) (fun _ => rfl) ?_
    · intro r hr
      rw [hq]
      exact List.mem_cons_of_mem _ hr
    · intro r hr
      cases hr
      apply h.empty
      rw [hq]
      exact List.mem_cons_self
  | @countOne x time hpc | @useOne x hpc =>
    refine h.quiet hg hst' rfl rfl (fun _ hr => hr) (fun _ _ => rfl) (fun _ => rfl) (fun _ => rfl) ?_
    intro r hr
    cases hr
    exact h.fresh g hg x (by rw [hpc]; rfl)
  | pushOneOcc hpc => exact h.push hg hpc hst'
  | evicted _ _ => exact h.take hg hst'
  | @fullFirst x hpc hsem =>
    refine h.guest hg hst' ?_ (fun _ _ => rfl) (fun _ => rfl) h.single h.empty h.fresh
      (of_not_fresh rfl)
    intro r
    have hscan := h.scans r
    by_cases hr : x = r
    · -- the guest has waited, and there is no token: its room is in the queue
      subst hr
      have hle := le_sum s.guests (GuestPc.waits x) hg
      have h1 : (s.guests g).waits x = 1 := if_pos hpc
      have hbal := h.balance x
      unfold waiting at hbal
      simp only [GuestPc.scans, if_true]
      omega
    · have h0 : (GuestPc.firstOver x).scans r = 0 := if_neg fun heq => hr (GuestPc.firstOver.inj heq)
      rw [h0]
      omega
  | scanFound hpc _ => exact h.scan hg hpc (fun _ => rfl) rfl hst'
  | @scanMissed x hpc hx =>
    have hone := h.listed_of_scan hg hpc
    exact absurd ((listed_pos s x).1 (by omega)) hx
  | evict hpc hp _ =>
    refine h.evict hg hp.1 ?_ hst'
    apply ha
    simp [evicts, hpc, State.guestTo]

theorem tokens_cleaner (h : Tokens c s) (hk : k < c.numCleanerThreads)
    (ha : Awaited c s (.cleaner k) t) (hst : CleanerStep c k s t) : Tokens c t := by
  obtain ⟨hw, hs, hsem, hone⟩ := balance_cleaner hst
  have hlisted : ∀ r, listed t r = listed s r := fun r => by unfold listed; rw [hone]
  refine ⟨ledger_cleaner h.ledger hk hst, ?_, ?_, ?_, ?_, ?_⟩
  · intro r
    rw [hw, hs, hsem, hlisted]
    exact h.balance r
  · intro r
    rw [hs, hlisted]
    exact h.scans r
  · intro r
    rw [hsem, hlisted]
    exact h.single r
  · intro r hr
    rw [hsem]
    cases hst with
    | @pushEmpty x hpc =>
      rcases List.mem_append.1 hr with hr | hr
      · exact h.empty r hr
      · -- nobody waits for the room, so there is no token
        rw [List.mem_singleton.1 hr]
        have h0 : waiting c s x = 0 := waiting_eq_zero (ha x (by rw [hpc]; rfl))
        have hnot := h.ledger.listed_cleaner hk (r := x) (j := 0) (by rw [hpc]; rfl)
        have := h.balance x
        have := h.scans x
        omega
    | _ => exact h.empty r hr
  · intro j hj r hr
    rw [hsem]
    cases hst with
    | announce _ =>
      have happly : (wake s.guests .waiting .woken j).fresh = (s.guests j).fresh :=
        apply_wake s.guests GuestPc.fresh (by rfl) j
      exact h.fresh j hj r (happly ▸ hr)
    | _ => exact h.fresh j hj r hr

theorem tokens_step {a : Thread} (h : Tokens c s) (hst : Checked (Awaited c) (Step c) s a t) :
    Tokens c t := by
  obtain ⟨ha, hst⟩ := hst
  cases hst with
  | guest _ hg hst => exact tokens_guest h hg ha hst
  | cleaner _ hk hst => exact tokens_cleaner h hk ha hst

end OsLab.Hotel
