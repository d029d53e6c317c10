import OsLab.Feed.Delivery
import OsLab.Feed.Joins
import OsLab.Feed.PushRun

/-!
# Actions dropped at shutdown

A thread of `pushUpdate` whose wait returns after `userSimulator` has finished leaves its loop
without a look at `new_action_q`. When all of them are inside `pthread_cond_wait` at the last
broadcast, all of them leave, whatever is queued. One that is not there can leave only after
another broadcast, which never comes.

* `stays_step`: after the last broadcast the queue stays empty, or a thread that was not waiting
  stays in its loop.
* `no_action_dropped`, and a run of `pairs` in which every action is dropped.
-/

namespace OsLab.Feed

open Lib

variable {c : Config} {s t : State} {p i : ℕ} {a : Action}

/-- At the last broadcast of `userSimulator` the queue is empty, or some thread of `pushUpdate` is
not inside its wait. -/
def NoneLeft (c : Config) (s : State) : Thread → Prop
  | .user => s.user = .finishing →
      s.newActionQ = [] ∨ ∃ p < c.numPushUpdateThreads, ¬ (s.pushers p).InWait
  | _ => True

/-- The thread will not leave its loop without another broadcast. -/
def PushPc.Stays (pc : PushPc) : Prop := pc ≠ .woken ∧ ¬ pc.HasLeft

/-- After the last broadcast. -/
def StaysOrEmpty (c : Config) (s : State) : Prop :=
  s.user = .finished → s.newActionQ = [] ∨ ∃ p < c.numPushUpdateThreads, (s.pushers p).Stays

theorem stays_nextNeighbor (c : Config) (a : Action) (i : ℕ) : (nextNeighbor c a i).Stays := by
  unfold nextNeighbor
  split_ifs <;> exact ⟨nofun, by rintro (h | h) <;> cases h⟩

/-- A thread that stays goes on in its loop. -/
theorem stays_push (hs : (s.pushers p).Stays) (hst : PushStep c p s t) : (t.pushers p).Stays := by
  cases hst with
  | wait _ _ | notify _ => rw [pushTo_self]; exact ⟨nofun, by rintro (h | h) <;> cases h⟩
  | pop _ _ | feed _ => rw [pushTo_self]; exact stays_nextNeighbor ..
  | leave hpc _ => exact absurd hpc hs.1
  | finish hpc => exact absurd (.inl hpc) hs.2

/-- A thread that neither waits nor has left stays through the last broadcast. -/
theorem stays_wake {f : ℕ → PushPc} (hw : ¬ (f p).InWait) (hl : ¬ (f p).HasLeft) :
    (wake f .waiting .woken p).Stays := by
  rw [wake_of_ne fun h => hw (.inl h)]
  exact ⟨fun h => hw (.inr h), hl⟩

/-- **After the last broadcast the queue stays empty, or a thread stays in its loop.** -/
theorem stays_step {th : Thread} (hj : Joins c s) (h : StaysOrEmpty c s) (hc : NoneLeft c s th)
    (hst : Step c s th t) : StaysOrEmpty c t := by
  cases hst with
  | user hst =>
    intro hf
    cases hst with
    | finish hpc =>
      -- the last broadcast
      rcases hc hpc with hq | ⟨p, hp, hw⟩
      · exact .inl hq
      · exact .inr ⟨p, hp, stays_wake hw (hj.not_left (by rw [hpc]; nofun) hp)⟩
    | endIter _ _ =>
      dsimp only at hf
      split_ifs at hf
    | _ => cases hf
  | @push _ p _ hst =>
    intro hf
    rcases h ((push_user hst).symm.trans hf) with hq | ⟨q, hq, hs⟩
    · exact .inl (push_newActionQ hst hq)
    · by_cases hqp : q = p
      · subst hqp
        exact .inr ⟨q, hq, stays_push hs hst⟩
      · exact .inr ⟨q, hq, by rwa [push_pushers_ne hst hqp]⟩
  | read _ hst => cases hst <;> exact h

/-- A thread that has left its loop has nothing in its hands. -/
theorem holds_of_hasLeft {pc : PushPc} (h : pc.HasLeft) : pc.holds = none := by
  rcases h with rfl | rfl <;> rfl

/-- **No action dropped at shutdown.** When at the last broadcast of `userSimulator` the queue
is empty or some thread of `pushUpdate` is not inside its wait, then once all of these threads
have left their loop the queue is empty, and every action has been delivered to every neighbour
of its poster. -/
theorem no_action_dropped (hP : 0 < c.numPushUpdateThreads)
    (h : Reaches (Guarded (NoneLeft c) (Step c)) State.init s)
    (hl : ∀ p < c.numPushUpdateThreads, (s.pushers p).HasLeft) :
    s.newActionQ = [] ∧
      ∀ a ∈ s.queued, ∀ i < (c.graph a.userId).degree, Delivered c s ⟨a, i⟩ := by
  have hinv : Joins c s ∧ StaysOrEmpty c s :=
    reaches_inv (I := fun s => Joins c s ∧ StaysOrEmpty c s)
      (fun _ _ _ hI hst => ⟨joins_step hI.1 hst.2, stays_step hI.1 hI.2 hst.1 hst.2⟩)
      ⟨joins_init c, nofun⟩ h
  have hq : s.newActionQ = [] := by
    -- the first thread has left, so the last broadcast was made; one that stays has not left
    rcases hinv.2 (hinv.1.left 0 hP (hl 0 hP)) with hq | ⟨p, hp, hs⟩
    · exact hq
    · exact absurd (hl p hp) hs.2
  refine ⟨hq, ?_⟩
  intro a ha i hi
  exact delivered h.of_guarded hq (fun p hp => holds_of_hasLeft (hl p hp)) ha hi

/-! ## In `pairs` -/

/-- The thread of `pushUpdate` has delivered every action when `userSimulator` finishes. -/
theorem no_action_dropped_pairs : ∃ s, (s.pushers 0).HasLeft ∧ s.newActionQ = [] ∧
    ∀ a ∈ s.queued, ∀ i < (pairs.graph a.userId).degree, Delivered pairs s ⟨a, i⟩ := by
  obtain ⟨s, hgen, hfin, -⟩ := pairs_generated (s := State.init) rfl rfl rfl
  -- the broadcasts of `userSimulator` do not move a thread that has not begun
  have htop : s.pushers 0 = .top :=
    of_wake_eq ((congrFun hgen.only.pushers 0).trans rfl) (by decide)
  obtain ⟨t, hdrain, htop', hq⟩ := drain_run (c := pairs) htop
  obtain ⟨u, v, hfinish, hleave, hpc, -, hq', -, -⟩ := pairs_leaves (s := t.pushTo 0 .waiting)
    (hdrain.only.user.trans hfin) (if_pos (pushTo_self ..))
  have h0 := (hgen.guarded (C := NoneLeft pairs) fun s hs hf => absurd hf hs).trans
    (hdrain.guarded (by decide) fun _ _ => trivial)
  have h1 := h0.snoc (a := Thread.push 0) ⟨trivial, .push (by decide) (.wait (.inl htop') hq)⟩
  have h2 := (h1.snoc (a := Thread.user) ⟨fun _ => .inl hq, hfinish⟩).snoc (a := Thread.push 0)
    ⟨trivial, hleave⟩
  have hl : ∀ p < pairs.numPushUpdateThreads, (v.pushers p).HasLeft := by
    intro p hp
    obtain rfl : p = 0 := Nat.lt_one_iff.1 hp
    exact .inl hpc
  exact ⟨v, .inl hpc, no_action_dropped (by decide) h2 hl⟩

/-- **Every action is dropped**: the thread of `pushUpdate` waits before the first action comes,
and takes the mutex again only when `userSimulator` has finished. -/
theorem actions_dropped : ¬ ∀ s, Reaches (Step pairs) State.init s →
    (∀ p < pairs.numPushUpdateThreads, (s.pushers p).HasLeft) → s.newActionQ = [] := by
  intro hclaim
  have h0 : Reaches (Step pairs) State.init (State.init.pushTo 0 .waiting) :=
    (Reaches.refl _).snoc (.push (by decide) (.wait (.inl rfl) rfl))
  obtain ⟨s, hgen, hfin, hne⟩ := pairs_generated (s := State.init.pushTo 0 .waiting) rfl rfl rfl
  have hw : wake s.pushers .waiting .woken 0 = .woken := congrFun hgen.only.pushers 0
  obtain ⟨t, u, hfinish, hleave, hpc, -, hq, -, -⟩ := pairs_leaves hfin hw
  have h1 := ((h0.trans hgen.reaches).snoc hfinish).snoc hleave
  have hl : ∀ p < pairs.numPushUpdateThreads, (u.pushers p).HasLeft := by
    intro p hp
    obtain rfl : p = 0 := Nat.lt_one_iff.1 hp
    exact .inl hpc
  exact hne (hq.symm.trans (hclaim u h1 hl))

end OsLab.Feed
