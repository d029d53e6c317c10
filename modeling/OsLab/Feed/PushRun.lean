import OsLab.Feed.UserRun

/-!
# A thread of `pushUpdate` by itself

Between two waits a thread of `pushUpdate` needs no other thread: it takes every action there
is, and pushes each to all the neighbours of its poster.

* `deliver_run`, `drain_run`: its two loops.
* `pairs`: a small system, and how far its first actions get.
-/

namespace OsLab.Feed

open Lib

variable {c : Config} {s t u : State} {p i : ℕ} {a : Action}

/-- Only thread `p` of `pushUpdate` has moved from `s` to `t`, and it has not left its loop. -/
structure OnlyPush (p : ℕ) (s t : State) : Prop where
  user : t.user = s.user
  threadToJoin : t.threadToJoin = s.threadToJoin
  pushers : ∀ q ≠ p, t.pushers q = s.pushers q
  readers : wake t.readers .waiting .woken = wake s.readers .waiting .woken

theorem OnlyPush.refl (s : State) : OnlyPush p s s := ⟨rfl, rfl, fun _ _ => rfl, rfl⟩

theorem OnlyPush.trans (h : OnlyPush p s t) (h' : OnlyPush p t u) : OnlyPush p s u where
  user := h'.user.trans h.user
  threadToJoin := h'.threadToJoin.trans h.threadToJoin
  pushers q hq := (h'.pushers q hq).trans (h.pushers q hq)
  readers := h'.readers.trans h.readers

/-- A step of thread `p` before its last one. -/
theorem only_push (h : PushStep c p s t) (hf : s.pushers p ≠ .leaving) : OnlyPush p s t := by
  refine ⟨push_user h, ?_, fun q hq => push_pushers_ne h hq, ?_⟩ <;> cases h with
  | notify _ => first | rfl | exact wake_wake _ (by decide)
  | feed _ => first | exact pushFeed_threadToJoin | exact congrArg (wake · _ _) pushFeed_readers
  | finish h => exact absurd h hf
  | _ => rfl

/-- `t` is reached from `s` by steps of thread `p` alone, without its last one. -/
def PushRun (c : Config) (p : ℕ) : State → State → Prop :=
  Relation.ReflTransGen fun s t => PushStep c p s t ∧ s.pushers p ≠ .leaving

theorem PushRun.refl (s : State) : PushRun c p s s := Relation.ReflTransGen.refl

theorem PushRun.trans (h : PushRun c p s t) (h' : PushRun c p t u) : PushRun c p s u :=
  Relation.ReflTransGen.trans h h'

theorem PushRun.of_step (h : PushStep c p s t) (hf : s.pushers p ≠ .leaving) : PushRun c p s t :=
  Relation.ReflTransGen.single ⟨h, hf⟩

theorem PushRun.only (h : PushRun c p s t) : OnlyPush p s t := by
  induction h with
  | refl => exact .refl s
  | tail _ hst ih => exact ih.trans (only_push hst.1 hst.2)

theorem PushRun.guarded {C : State → Thread → Prop} (hp : p < c.numPushUpdateThreads)
    (hC : ∀ s, s.pushers p ≠ .leaving → C s (.push p)) (h : PushRun c p s t) :
    Reaches (Guarded C (Step c)) s t := by
  refine Relation.ReflTransGen.mono ?_ _ _ h
  intro u v hst
  exact ⟨.push p, hC u hst.2, .push hp hst.1⟩

/-- The loop over the neighbours. -/
theorem deliver_run (h : s.pushers p = nextNeighbor c a i) :
    ∃ t, PushRun c p s t ∧ t.pushers p = .top ∧ t.newActionQ = s.newActionQ := by
  obtain ⟨k, hk⟩ : ∃ k, (c.graph a.userId).degree ≤ i + k := ⟨(c.graph a.userId).degree, by omega⟩
  induction k generalizing s i with
  | zero =>
    unfold nextNeighbor at h
    rw [if_neg (by omega)] at h
    exact ⟨s, .refl s, h, rfl⟩
  | succ k ih =>
    unfold nextNeighbor at h
    split_ifs at h
    · -- the announcement of the neighbour, and the push to its feed
      have h1 : PushStep c p s _ := .notify h
      have h2 : PushStep c p _ _ := .feed (pushTo_self { s.wakeReaders with
        feedUpdateQ := s.feedUpdateQ ++ [(c.neighbor a.userId i).1] } p (.feeding a i))
      obtain ⟨t, hrun, htop, hq⟩ := ih (i := i + 1) (pushTo_self (State.pushFeed c _ a i) p _)
        (by omega)
      refine ⟨t, ((PushRun.of_step h1 (by rw [h]; nofun)).trans
        (.of_step h2 (by rw [pushTo_self]; nofun))).trans hrun, htop, hq.trans ?_⟩
      exact pushFeed_newActionQ
    · exact ⟨s, .refl s, h, rfl⟩

/-- The thread takes every action there is. -/
theorem drain_run (h : s.pushers p = .top) :
    ∃ t, PushRun c p s t ∧ t.pushers p = .top ∧ t.newActionQ = [] := by
  obtain ⟨q, hq⟩ : ∃ q, s.newActionQ = q := ⟨_, rfl⟩
  induction q generalizing s with
  | nil => exact ⟨s, .refl s, h, hq⟩
  | cons a q ih =>
    have h1 : PushStep c p s _ := .pop (.inl h) hq
    obtain ⟨t, hrun, htop, hq'⟩ := deliver_run (pushTo_self { s with newActionQ := q } p
      (nextNeighbor c a 0))
    obtain ⟨u, hrun', hu⟩ := ih htop hq'
    exact ⟨u, ((PushRun.of_step h1 (by rw [h]; nofun)).trans hrun).trans hrun', hu⟩

/-! ## Pairs -/

/-- 100 nodes, of which `2k` and `2k + 1` are joined, with one thread of each kind; all feeds
are chronological. -/
def pairs : Config where
  numNodes := 100
  numPushUpdateThreads := 1
  numReadPostThreads := 1
  graph := fun v => ⟨1, 1, [(if v % 2 = 0 then v + 1 else v - 1, 0)], rfl, by omega⟩

/-- `userSimulator` has queued all its actions, and no other thread has moved since. -/
theorem pairs_generated (h : s.user = .selecting) (hids : s.nodeIds = []) (hitr : s.itr = 0) :
    ∃ t, UserRun pairs s t ∧ t.user = .finishing ∧ t.newActionQ ≠ [] :=
  userSimulator_finishes (c := pairs) (by decide) (fun _ _ => Nat.zero_lt_one) h hids
    (by rw [hitr]; decide)

/-- `userSimulator` finishes, and a thread of `pushUpdate` that was waiting leaves. -/
theorem pairs_leaves (hu : s.user = .finishing) (hw : wake s.pushers .waiting .woken 0 = .woken) :
    ∃ t u, Step pairs s .user t ∧ Step pairs t (.push 0) u ∧ u.pushers 0 = .leaving ∧
      u.user = .finished ∧ u.newActionQ = s.newActionQ ∧ u.feedUpdateQ = s.feedUpdateQ ∧
        u.readers = s.readers :=
  ⟨_, _, .user (.finish hu), .push (by decide) (.leave hw (Nat.le_add_left ..)), pushTo_self .., rfl,
    rfl, rfl, rfl⟩

end OsLab.Feed
