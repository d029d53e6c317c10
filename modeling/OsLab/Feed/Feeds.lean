import OsLab.Feed.Model
import Mathlib.Data.List.Perm.Basic

/-!
# The feed of a node

A node has two containers and uses the one that its `order_by` calls for: `feed c s v` is what
it holds. A push adds one copy to one feed, a reader empties one feed, and no other step
touches a feed.

* `oneFeed`: the other container is always empty.
* `count_feed_pushFeed`, `feed_pushFeed_ne`: what a push does.
-/

namespace OsLab.Feed

open Lib

variable {c : Config} {s t : State} {p r v w i : ℕ} {a : Action}

/-- The copies in the feed of `v`. -/
def feed (c : Config) (s : State) (v : ℕ) : List Copy :=
  if (c.graph v).orderBy = 1 then s.feedQueue v else (s.priorityFeedQueue v).map Prod.snd

theorem feed_congr (hf : t.feedQueue v = s.feedQueue v)
    (hp : t.priorityFeedQueue v = s.priorityFeedQueue v) : feed c t v = feed c s v := by
  unfold feed
  rw [hf, hp]

theorem orderBy_cases (c : Config) (v : ℕ) : (c.graph v).orderBy = 1 ∨ (c.graph v).orderBy = 0 := by
  have := (c.graph v).orderBy_lt
  omega

theorem feed_chrono (h : (c.graph v).orderBy = 1) : feed c s v = s.feedQueue v := if_pos h

theorem feed_priority (h : (c.graph v).orderBy = 0) :
    feed c s v = (s.priorityFeedQueue v).map Prod.snd := if_neg (by omega)

/-! ## The push to a feed -/

theorem feed_pushFeed_ne (h : v ≠ (c.neighbor a.userId i).1) :
    feed c (s.pushFeed c a i) v = feed c s v := by
  unfold State.pushFeed
  dsimp only
  split_ifs <;> apply feed_congr <;> simp [Function.update_of_ne h]

theorem feed_pushFeed_self : (feed c (s.pushFeed c a i) (c.neighbor a.userId i).1).Perm
    (⟨a, i⟩ :: feed c s (c.neighbor a.userId i).1) := by
  rcases orderBy_cases c (c.neighbor a.userId i).1 with ho | ho
  · rw [feed_chrono ho, feed_chrono ho]
    unfold State.pushFeed
    simp only [ho, if_true, Function.update_self]
    exact List.perm_append_singleton _ _
  · rw [feed_priority ho, feed_priority ho]
    unfold State.pushFeed
    simp [ho]

/-- What a push does to the number of times a copy is in a feed. -/
theorem count_feed_pushFeed (v : ℕ) (x : Copy) : (feed c (s.pushFeed c a i) v).count x =
    (feed c s v).count x + if v = (c.neighbor a.userId i).1 ∧ x = ⟨a, i⟩ then 1 else 0 := by
  by_cases hv : v = (c.neighbor a.userId i).1
  · -- the feed that is pushed to
    subst hv
    rw [feed_pushFeed_self.count_eq, List.count_cons]
    simp only [beq_iff_eq, true_and, eq_comm (a := x)]
  · rw [feed_pushFeed_ne hv, if_neg fun h => hv h.1, Nat.add_zero]

@[simp] theorem pushFeed_newActionQ : (s.pushFeed c a i).newActionQ = s.newActionQ := by
  unfold State.pushFeed; dsimp only; split_ifs <;> rfl

@[simp] theorem pushFeed_feedUpdateQ : (s.pushFeed c a i).feedUpdateQ = s.feedUpdateQ := by
  unfold State.pushFeed; dsimp only; split_ifs <;> rfl

@[simp] theorem pushFeed_threadToJoin : (s.pushFeed c a i).threadToJoin = s.threadToJoin := by
  unfold State.pushFeed; dsimp only; split_ifs <;> rfl

@[simp] theorem pushFeed_user : (s.pushFeed c a i).user = s.user := by
  unfold State.pushFeed; dsimp only; split_ifs <;> rfl

@[simp] theorem pushFeed_pushers : (s.pushFeed c a i).pushers = s.pushers := by
  unfold State.pushFeed; dsimp only; split_ifs <;> rfl

@[simp] theorem pushFeed_readers : (s.pushFeed c a i).readers = s.readers := by
  unfold State.pushFeed; dsimp only; split_ifs <;> rfl

@[simp] theorem pushFeed_queued : (s.pushFeed c a i).queued = s.queued := by
  unfold State.pushFeed; dsimp only; split_ifs <;> rfl

@[simp] theorem pushFeed_reads : (s.pushFeed c a i).reads = s.reads := by
  unfold State.pushFeed; dsimp only; split_ifs <;> rfl

/-! ## What a thread of `pushUpdate` leaves alone -/

theorem push_pushers_ne {q : ℕ} (hst : PushStep c p s t) (hq : q ≠ p) :
    t.pushers q = s.pushers q := by
  cases hst with
  | feed _ => rw [pushTo_ne _ _ hq, pushFeed_pushers]
  | _ => exact pushTo_ne _ _ hq

theorem push_user (hst : PushStep c p s t) : t.user = s.user := by
  cases hst with
  | feed _ => exact pushFeed_user
  | _ => rfl

theorem push_newActionQ (hst : PushStep c p s t) (hq : s.newActionQ = []) : t.newActionQ = [] := by
  cases hst with
  | pop _ hpop => rw [hq] at hpop; cases hpop
  | feed _ => exact pushFeed_newActionQ.trans hq
  | _ => exact hq

/-! ## The reading of a feed -/

theorem feed_readChrono (ho : (c.graph v).orderBy = 1) (l : List Read) (pc : ReadPc) (w : ℕ) :
    feed c ({ s with feedQueue := Function.update s.feedQueue v [], reads := l }.readTo r pc) w =
      if w = v then [] else feed c s w := by
  split_ifs with hw
  · subst hw
    rw [feed_chrono ho]
    exact Function.update_self ..
  · exact feed_congr (Function.update_of_ne hw ..) rfl

theorem feed_readPriority (ho : (c.graph v).orderBy = 0) (l : List Read) (pc : ReadPc) (w : ℕ) :
    feed c ({ s with
      priorityFeedQueue := Function.update s.priorityFeedQueue v [], reads := l }.readTo r pc) w =
      if w = v then [] else feed c s w := by
  split_ifs with hw
  · subst hw
    rw [feed_priority ho, List.map_eq_nil_iff]
    exact Function.update_self ..
  · exact feed_congr rfl (Function.update_of_ne hw ..)

/-! ## One feed for each node -/

/-- The container that `order_by` does not call for is empty. -/
structure OneFeed (c : Config) (s : State) : Prop where
  chrono : ∀ v, (c.graph v).orderBy = 1 → s.priorityFeedQueue v = []
  priority : ∀ v, (c.graph v).orderBy = 0 → s.feedQueue v = []

theorem OneFeed.pushFeed (h : OneFeed c s) : OneFeed c (s.pushFeed c a i) := by
  unfold State.pushFeed
  dsimp only
  split_ifs with h1 h0
  · refine ⟨h.chrono, ?_⟩
    intro v hv
    have hne : v ≠ (c.neighbor a.userId i).1 := by rintro rfl; omega
    exact (Function.update_of_ne hne ..).trans (h.priority v hv)
  · refine ⟨?_, h.priority⟩
    intro v hv
    have hne : v ≠ (c.neighbor a.userId i).1 := by rintro rfl; omega
    exact (Function.update_of_ne hne ..).trans (h.chrono v hv)
  · exact h

theorem oneFeed_step {th : Thread} (h : OneFeed c s) (hst : Step c s th t) : OneFeed c t := by
  -- a push adds to the container that is in use, a reader empties it
  cases hst with
  | user hst => cases hst <;> exact ⟨h.chrono, h.priority⟩
  | push _ hst =>
    cases hst with
    | feed _ => exact ⟨h.pushFeed.chrono, h.pushFeed.priority⟩
    | _ => exact ⟨h.chrono, h.priority⟩
  | read _ hst =>
    cases hst with
    | @readChrono v _ _ =>
      refine ⟨h.chrono, ?_⟩
      intro w hw
      by_cases hvw : w = v
      · subst hvw
        exact Function.update_self ..
      · exact (Function.update_of_ne hvw ..).trans (h.priority w hw)
    | @readPriority v =>
      refine ⟨?_, h.priority⟩
      intro w hw
      by_cases hvw : w = v
      · subst hvw
        exact Function.update_self ..
      · exact (Function.update_of_ne hvw ..).trans (h.chrono w hw)
    | _ => exact ⟨h.chrono, h.priority⟩

/-- **Only one container of a node is ever used.** -/
theorem oneFeed (h : Reaches (Step c) State.init s) : OneFeed c s :=
  reaches_inv (I := OneFeed c) (fun _ _ _ => oneFeed_step) ⟨fun _ _ => rfl, fun _ _ => rfl⟩ h

theorem OneFeed.containers_eq_nil (h : OneFeed c s) (hv : feed c s v = []) :
    s.feedQueue v = [] ∧ s.priorityFeedQueue v = [] := by
  rcases orderBy_cases c v with ho | ho
  · rw [feed_chrono ho] at hv
    exact ⟨hv, h.chrono v ho⟩
  · rw [feed_priority ho, List.map_eq_nil_iff] at hv
    exact ⟨h.priority v ho, hv⟩

end OsLab.Feed
