import OsLab.Feed.Delivery
import OsLab.Feed.PushRun

/-!
# Delivery exactly once

`action_ctr` numbers the actions of a node and a type, so `userSimulator` never queues an action
twice (`Numbered`). With `Delivery` this gives each copy of a queued action one place, out of the
five kinds of `Place`.

* `numbered_step`: the counters keep the actions apart.
* `exactly_once`: no copy is lost, and no copy is in two places or twice in one.
-/

namespace OsLab.Feed

open Lib

variable {c : Config} {s t : State} {p r i : ℕ} {a : Action} {x : Copy}

/-- The actions that `userSimulator` has generated and not yet queued. -/
def UserPc.ahead : UserPc → List Action
  | .generating _ as | .pushing as => as
  | _ => []

/-- The actions made so far are distinct, and their numbers are not above the counters. -/
structure Numbered (s : State) : Prop where
  nodup : (s.queued ++ s.user.ahead).Nodup
  counted : ∀ a ∈ s.queued ++ s.user.ahead, a.actionId ≤ s.actionCtr a.userId a.actionType

theorem Numbered.same (h : Numbered s) (hq : t.queued ++ t.user.ahead = s.queued ++ s.user.ahead)
    (hc : t.actionCtr = s.actionCtr) : Numbered t := by
  constructor
  · rw [hq]
    exact h.nodup
  · rw [hq, hc]
    exact h.counted

theorem le_addAction (s : State) (v : ℕ) (k : Fin 3) (now : ℤ) (u : ℕ) (j : Fin 3) :
    s.actionCtr u j ≤ (s.addAction (s.newAction v k now)).actionCtr u j := by
  unfold State.addAction State.newAction
  by_cases hu : u = v
  · subst hu
    by_cases hj : j = k
    · subst hj
      simp
    · simp [hj]
  · simp [hu]

theorem numbered_user (h : Numbered s) (hst : UserStep c s t) : Numbered t := by
  cases hst with
  | select hu _ _ _ _ | generated hu _ | pushed hu | finish hu =>
    refine h.same ?_ rfl
    rw [hu]
    rfl
  | endIter hu _ =>
    refine h.same ?_ rfl
    rw [hu]
    dsimp only
    split_ifs <;> rfl
  | @generate v as k now hu hlen hnow =>
    obtain ⟨hnd, hle⟩ := h
    rw [hu] at hnd hle
    -- the number of the new action is above the counter, so above the old ones
    have hnew : s.newAction v k now ∉ s.queued ++ as := by
      intro hmem
      have := hle _ hmem
      simp [State.newAction] at this
    constructor
    · show (s.queued ++ (as ++ [s.newAction v k now])).Nodup
      rw [← List.append_assoc]
      exact List.nodup_append.2 ⟨hnd, List.nodup_singleton _, fun a ha b hb hab => by
        rw [List.mem_singleton.1 hb] at hab
        exact hnew (hab ▸ ha)⟩
    · intro a ha
      have ha' : a ∈ s.queued ++ (as ++ [s.newAction v k now]) := ha
      rw [← List.append_assoc] at ha'
      rcases List.mem_append.1 ha' with ha | ha
      · exact (hle a ha).trans (le_addAction s v k now _ _)
      · rw [List.mem_singleton.1 ha]
        simp [State.addAction, State.newAction]
  | @push a as hu =>
    refine h.same ?_ rfl
    rw [hu]
    exact List.append_assoc s.queued [a] as

theorem numbered_step {th : Thread} (h : Numbered s) (hst : Step c s th t) : Numbered t := by
  cases hst with
  | user hst => exact numbered_user h hst
  | push _ hst =>
    cases hst with
    | feed _ =>
      refine h.same ?_ ?_
      · show (s.pushFeed c _ _).queued ++ (s.pushFeed c _ _).user.ahead = _
        rw [pushFeed_queued, pushFeed_user]
      · show (s.pushFeed c _ _).actionCtr = _
        unfold State.pushFeed
        dsimp only
        split_ifs <;> rfl
    | _ => exact h.same rfl rfl
  | read _ hst => cases hst <;> exact h.same rfl rfl

theorem numbered_init : Numbered State.init := by
  constructor
  · exact List.nodup_nil
  · intro a ha
    exact absurd ha List.not_mem_nil

theorem numbered (h : Reaches (Step c) State.init s) : Numbered s :=
  reaches_inv (I := Numbered) (fun _ _ _ => numbered_step) numbered_init h

/-- `userSimulator` queues no action twice. -/
theorem queued_nodup (h : Reaches (Step c) State.init s) : s.queued.Nodup :=
  ((List.nodup_append.1 (numbered h).nodup).1)

/-! ## The places of a copy -/

/-- Where a copy can be. -/
inductive Place where
  /-- its action is in `new_action_q` -/
  | newActionQ
  /-- thread `p` of `pushUpdate` has its action and has not delivered the copy -/
  | hands (p : ℕ)
  /-- in `feed_queue` of node `v` -/
  | feedQueue (v : ℕ)
  /-- in `priority_feed_queue` of node `v` -/
  | priorityFeedQueue (v : ℕ)
  /-- popped by thread `r` of `readPost` from the feed of node `v` -/
  | popped (r v : ℕ)

/-- How many times the copy is there. -/
def Place.times (c : Config) (s : State) (x : Copy) : Place → ℕ
  | .newActionQ => s.newActionQ.count x.action
  | .hands p => if p < c.numPushUpdateThreads then owes x (s.pushers p) else 0
  | .feedQueue v => (s.feedQueue v).count x
  | .priorityFeedQueue v => ((s.priorityFeedQueue v).map Prod.snd).count x
  | .popped r v => s.reads.count ⟨r, v, x⟩

/-- The place is on the way of the copy: a thread that exists, the feed of the neighbour that
the copy is for, and the container of this feed that `order_by` calls for. -/
def Place.OnTheWay (c : Config) (x : Copy) : Place → Prop
  | .newActionQ => True
  | .hands p => p < c.numPushUpdateThreads
  | .feedQueue v => v = home c x ∧ (c.graph v).orderBy = 1
  | .priorityFeedQueue v => v = home c x ∧ (c.graph v).orderBy = 0
  | .popped r v => r < c.numReadPostThreads ∧ v = home c x

/-- The threads of `readPost` read a copy from the feed of its node. -/
def ReadHome (c : Config) (s : State) : Prop :=
  ∀ y ∈ s.reads, y.reader < c.numReadPostThreads ∧ y.node = home c y.copy

theorem readHome_step {th : Thread} (hd : Delivery c s) (h : ReadHome c s) (hst : Step c s th t) :
    ReadHome c t := by
  cases hst with
  | user hst => cases hst <;> exact h
  | push _ hst =>
    cases hst with
    | feed _ =>
      intro y hy
      have hy' : y ∈ (s.pushFeed c _ _).reads := hy
      rw [pushFeed_reads] at hy'
      exact h y hy'
    | _ => exact h
  | read hr hst =>
    cases hst with
    | @readChrono v _ ho =>
      intro y hy
      rcases List.mem_append.1 hy with hy | hy
      · exact h y hy
      · obtain ⟨x, hx, rfl⟩ := List.mem_map.1 hy
        exact ⟨hr, (hd.placed v x (by rwa [feed_chrono ho])).symm⟩
    | @readPriority v l _ ho hl _ =>
      intro y hy
      rcases List.mem_append.1 hy with hy | hy
      · exact h y hy
      · obtain ⟨z, hz, rfl⟩ := List.mem_map.1 hy
        refine ⟨hr, (hd.placed v z.2 ?_).symm⟩
        rw [feed_priority ho]
        exact List.mem_map_of_mem (hl.subset hz)
    | _ => exact h

theorem readHome (h : Reaches (Step c) State.init s) : ReadHome c s :=
  (reaches_inv (I := fun s => Delivery c s ∧ ReadHome c s)
    (fun _ _ _ hI hst => ⟨delivery_step hI.1 hst, readHome_step hI.1 hI.2 hst⟩)
    ⟨delivery_init c, fun _ hy => absurd hy List.not_mem_nil⟩ h).2

/-! ## One place for each copy -/

/-- What is in the feed of a node other than that of the copy, or in the container that is not in
use, is not the copy. -/
theorem times_feed (hd : Delivery c s) (ho : OneFeed c s) (v : ℕ) :
    (Place.feedQueue v).times c s x =
        (if v = home c x ∧ (c.graph v).orderBy = 1 then (feed c s (home c x)).count x else 0) ∧
      (Place.priorityFeedQueue v).times c s x =
        (if v = home c x ∧ (c.graph v).orderBy = 0 then (feed c s (home c x)).count x else 0) := by
  have hne : v ≠ home c x → (feed c s v).count x = 0 := by
    intro hv
    exact List.count_eq_zero.2 fun hmem => hv (hd.placed v x hmem).symm
  unfold Place.times
  rcases orderBy_cases c v with h | h
  · rw [feed_chrono h] at hne
    by_cases hv : v = home c x
    · subst hv
      simp [h, feed_chrono h, ho.chrono _ h]
    · simp [hv, hne hv, ho.chrono v h]
  · rw [feed_priority h] at hne
    by_cases hv : v = home c x
    · subst hv
      simp [h, feed_priority h, ho.priority _ h]
    · simp [hv, hne hv, ho.priority v h]

/-- The places of the same kind have the copy this many times. -/
def Place.total (c : Config) (s : State) (x : Copy) : Place → ℕ
  | .newActionQ => s.newActionQ.count x.action
  | .hands _ => ∑ p ∈ Finset.range c.numPushUpdateThreads, owes x (s.pushers p)
  | .feedQueue _ | .priorityFeedQueue _ => (feed c s (home c x)).count x
  | .popped _ _ => (s.reads.map Read.copy).count x

theorem times_le_total (hd : Delivery c s) (ho : OneFeed c s) (w : Place) :
    w.times c s x ≤ w.total c s x := by
  cases w with
  | newActionQ => exact le_rfl
  | hands p =>
    simp only [Place.times, Place.total]
    split_ifs with hp
    · exact le_sum s.pushers (owes x) hp
    · exact Nat.zero_le _
  | feedQueue v =>
    rw [(times_feed hd ho v).1]
    simp only [Place.total]
    split_ifs <;> omega
  | priorityFeedQueue v =>
    rw [(times_feed hd ho v).2]
    simp only [Place.total]
    split_ifs <;> omega
  | popped r v => exact List.count_le_count_map (f := Read.copy) (x := (⟨r, v, x⟩ : Read))

/-- A copy in the feed of its node is in one container of one node. -/
theorem place_feed (hd : Delivery c s) (ho : OneFeed c s) (hf : (feed c s (home c x)).count x = 1) :
    ∃ w : Place, w.OnTheWay c x ∧ w.times c s x = 1 ∧
      (∀ v, Place.feedQueue v ≠ w → (Place.feedQueue v).times c s x = 0) ∧
      (∀ v, Place.priorityFeedQueue v ≠ w → (Place.priorityFeedQueue v).times c s x = 0) := by
  have hfeeds := times_feed (x := x) hd ho
  rcases orderBy_cases c (home c x) with hb | hb
  · refine ⟨.feedQueue (home c x), ⟨rfl, hb⟩, ?_, ?_, ?_⟩
    · rw [(hfeeds _).1, if_pos ⟨rfl, hb⟩, hf]
    · intro v hv
      rw [(hfeeds v).1, if_neg]
      rintro ⟨rfl, -⟩
      exact hv rfl
    · intro v _
      rw [(hfeeds v).2, if_neg]
      rintro ⟨rfl, hb'⟩
      omega
  · refine ⟨.priorityFeedQueue (home c x), ⟨rfl, hb⟩, ?_, ?_, ?_⟩
    · rw [(hfeeds _).2, if_pos ⟨rfl, hb⟩, hf]
    · intro v _
      rw [(hfeeds v).1, if_neg]
      rintro ⟨rfl, hb'⟩
      omega
    · intro v hv
      rw [(hfeeds v).2, if_neg]
      rintro ⟨rfl, -⟩
      exact hv rfl

/-- What is read once is read by one thread from one feed. -/
theorem count_map_eq_one {α β : Type} [DecidableEq α] [DecidableEq β] {l : List α} {f : α → β} {b : β}
    (h : (l.map f).count b = 1) :
    ∃ y, f y = b ∧ l.count y = 1 ∧ ∀ z, f z = b → z ≠ y → l.count z = 0 := by
  obtain ⟨y, hy⟩ : ∃ y, l.filter (fun z => f z == b) = [y] := by
    apply List.length_eq_one_iff.1
    rw [← List.countP_eq_length_filter, ← h, List.count, List.countP_map]
    rfl
  have hcount : ∀ z, f z = b → l.count z = [y].count z := by
    intro z hz
    rw [← hy, List.count_filter (by simp [hz])]
  have hfy : f y = b := by
    have hmem : y ∈ l.filter (fun z => f z == b) := by rw [hy]; exact List.mem_singleton_self y
    simpa using (List.mem_filter.1 hmem).2
  refine ⟨y, hfy, ?_, ?_⟩
  · rw [hcount y hfy, List.count_singleton_self]
  · intro z hz hne
    rw [hcount z hz]
    exact List.count_eq_zero.2 fun hmem => hne (List.mem_singleton.1 hmem)

/-- **Delivery exactly once.** Each copy of a queued action is in exactly one place on its way, and
there once: in `new_action_q`, in the hands of one thread of `pushUpdate` that has still to deliver
it, in the feed of its node, or popped by one thread of `readPost`. -/
theorem exactly_once (h : Reaches (Step c) State.init s) {a : Action} (ha : a ∈ s.queued)
    (hi : i < (c.graph a.userId).degree) :
    ∃ w : Place, w.OnTheWay c ⟨a, i⟩ ∧ w.times c s ⟨a, i⟩ = 1 ∧
      ∀ w' : Place, w' ≠ w → w'.times c s ⟨a, i⟩ = 0 := by
  have hd := delivery h
  have hone : tally c s ⟨a, i⟩ = 1 := by
    rw [hd.conserved ⟨a, i⟩ hi]
    exact List.count_eq_one_of_mem (queued_nodup h) ha
  have hle := times_le_total (x := ⟨a, i⟩) hd (oneFeed h)
  -- the four kinds of place have one copy between them
  unfold tally at hone
  dsimp only at hone
  obtain hq | hp | hf | hr : s.newActionQ.count a = 1 ∨
      (∑ p ∈ Finset.range c.numPushUpdateThreads, owes ⟨a, i⟩ (s.pushers p)) = 1 ∨
      (feed c s (home c ⟨a, i⟩)).count ⟨a, i⟩ = 1 ∨ (s.reads.map Read.copy).count ⟨a, i⟩ = 1 := by
    omega
  · refine ⟨.newActionQ, trivial, hq, ?_⟩
    intro w hw
    have hw' := hle w
    cases w with
    | newActionQ => exact absurd rfl hw
    | _ => simp only [Place.total] at hw'; omega
  · obtain ⟨p, hp, hwp, hrest⟩ := eq_one_of_sum s.pushers hp
    refine ⟨.hands p, hp, by simp only [Place.times, if_pos hp, hwp], ?_⟩
    intro w hw
    have hw' := hle w
    cases w with
    | hands q =>
      simp only [Place.times]
      split_ifs with hq
      · exact hrest q hq fun heq => hw (by rw [heq])
      · rfl
    | _ => simp only [Place.total] at hw'; omega
  · obtain ⟨w, hway, htimes, hchrono, hpriority⟩ := place_feed hd (oneFeed h) hf
    refine ⟨w, hway, htimes, ?_⟩
    intro w' hw
    have hw' := hle w'
    cases w' with
    | feedQueue v => exact hchrono v hw
    | priorityFeedQueue v => exact hpriority v hw
    | _ => simp only [Place.total] at hw'; omega
  · obtain ⟨⟨r, v, x⟩, hx, htimes, hrest⟩ := count_map_eq_one hr
    cases hx
    have hmem : (⟨r, v, ⟨a, i⟩⟩ : Read) ∈ s.reads := List.count_pos_iff.1 (by omega)
    refine ⟨.popped r v, readHome h _ hmem, htimes, ?_⟩
    intro w hw
    have hw' := hle w
    cases w with
    | popped r' v' =>
      apply hrest _ rfl
      intro heq
      cases heq
      exact hw rfl
    | _ => simp only [Place.total] at hw'; omega

/-- The first action that is queued in `pairs`. -/
theorem exactly_once_pairs : ∃ (a : Action) (s : State), a ∈ s.newActionQ ∧
    ∃ w : Place, w.times pairs s ⟨a, 0⟩ = 1 ∧ ∀ w' ≠ w, w'.times pairs s ⟨a, 0⟩ = 0 := by
  have hsel : UserStep pairs State.init _ :=
    .select (v := 0) rfl (by decide) (by decide) List.not_mem_nil Nat.zero_lt_one
  obtain ⟨t, as, hgen, ht, hlen, -⟩ := generate_run (c := pairs) (v := 0)
    (s := { State.init with nodeIds := [0], user := .generating 0 [] }) rfl (Nat.zero_le _) nofun
  have hpos : 0 < numActions 1 := numActions_pos Nat.zero_lt_one
  -- the node has a neighbour, so there are actions
  cases as with
  | nil => exact absurd hlen hpos.ne
  | cons a as =>
    have hreach := ((UserRun.of_step hsel (by decide)).trans hgen).reaches.snoc
      (.user (.push (c := pairs) ht))
    obtain ⟨w, -, hw⟩ := exactly_once (i := 0) hreach
      (List.mem_append_right t.queued (List.mem_singleton_self a)) Nat.zero_lt_one
    exact ⟨a, _, List.mem_append_right t.newActionQ (List.mem_singleton_self a), w, hw⟩

end OsLab.Feed
