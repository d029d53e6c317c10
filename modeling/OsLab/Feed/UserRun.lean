import OsLab.Feed.Feeds
import Mathlib.Data.Finset.Card

/-!
# `userSimulator` by itself

No step of `userSimulator` waits for another thread: when there are enough nodes to select
from, it reaches its last region by its own steps, from any state and whatever the others do.

* `only_user`: a step of `userSimulator` other than the last moves nothing of the other threads
  but those waiting on `action_q_cond`.
* `generate_run`, `push_run`, `node_run`, `iteration_run`: its loops, from the inside out.
* `userSimulator_finishes`: the whole thread.
-/

namespace OsLab.Feed

open Lib

variable {c : Config} {s t u : State} {v : ℕ} {as : List Action}

/-- Only `userSimulator` has moved from `s` to `t`, and it has not finished. -/
structure OnlyUser (s t : State) : Prop where
  newActionQ : s.newActionQ <+: t.newActionQ
  pushers : wake t.pushers .waiting .woken = wake s.pushers .waiting .woken
  readers : t.readers = s.readers
  feedUpdateQ : t.feedUpdateQ = s.feedUpdateQ
  feedQueue : t.feedQueue = s.feedQueue
  priorityFeedQueue : t.priorityFeedQueue = s.priorityFeedQueue
  threadToJoin : t.threadToJoin = s.threadToJoin

theorem OnlyUser.refl (s : State) : OnlyUser s s :=
  ⟨List.prefix_rfl, rfl, rfl, rfl, rfl, rfl, rfl⟩

theorem OnlyUser.trans (h : OnlyUser s t) (h' : OnlyUser t u) : OnlyUser s u where
  newActionQ := h.newActionQ.trans h'.newActionQ
  pushers := h'.pushers.trans h.pushers
  readers := h'.readers.trans h.readers
  feedUpdateQ := h'.feedUpdateQ.trans h.feedUpdateQ
  feedQueue := h'.feedQueue.trans h.feedQueue
  priorityFeedQueue := h'.priorityFeedQueue.trans h.priorityFeedQueue
  threadToJoin := h'.threadToJoin.trans h.threadToJoin

/-- A step of `userSimulator` before its last one. -/
theorem only_user (h : UserStep c s t) (hf : s.user ≠ .finishing) : OnlyUser s t := by
  cases h with
  | push _ =>
    exact ⟨List.prefix_append _ _, wake_wake _ (by decide), rfl, rfl, rfl, rfl, rfl⟩
  | finish h => exact absurd h hf
  | _ => exact ⟨List.prefix_rfl, rfl, rfl, rfl, rfl, rfl, rfl⟩

/-- `t` is reached from `s` by steps of `userSimulator` alone, without its last one. -/
def UserRun (c : Config) : State → State → Prop :=
  Relation.ReflTransGen fun s t => UserStep c s t ∧ s.user ≠ .finishing

theorem UserRun.refl (s : State) : UserRun c s s := Relation.ReflTransGen.refl

theorem UserRun.trans (h : UserRun c s t) (h' : UserRun c t u) : UserRun c s u :=
  Relation.ReflTransGen.trans h h'

theorem UserRun.of_step (h : UserStep c s t) (hf : s.user ≠ .finishing) : UserRun c s t :=
  Relation.ReflTransGen.single ⟨h, hf⟩

theorem UserRun.only (h : UserRun c s t) : OnlyUser s t := by
  induction h with
  | refl => exact .refl s
  | tail _ hst ih => exact ih.trans (only_user hst.1 hst.2)

/-- These steps meet a condition that says nothing about `userSimulator` before its last step. -/
theorem UserRun.guarded {C : State → Thread → Prop} (hC : ∀ s, s.user ≠ .finishing → C s .user)
    (h : UserRun c s t) : Reaches (Guarded C (Step c)) s t := by
  refine Relation.ReflTransGen.mono ?_ _ _ h
  intro u v hst
  exact ⟨.user, hC u hst.2, .user hst.1⟩

theorem UserRun.reaches (h : UserRun c s t) : Reaches (Step c) s t :=
  (h.guarded (C := fun _ _ => True) fun _ _ => trivial).of_guarded

/-- The loop that generates the actions of a node. -/
theorem generate_run (h : s.user = .generating v as)
    (hlen : as.length ≤ numActions (c.graph v).degree) (hv : ∀ a ∈ as, a.userId = v) :
    ∃ t as', UserRun c s t ∧ t.user = .pushing as' ∧
      as'.length = numActions (c.graph v).degree ∧ (∀ a ∈ as', a.userId = v) ∧
      t.newActionQ = s.newActionQ ∧ t.pushers = s.pushers ∧ t.nodeIds = s.nodeIds ∧
      t.itr = s.itr := by
  -- by induction on the number of actions that are missing
  obtain ⟨k, hk⟩ : ∃ k, numActions (c.graph v).degree = as.length + k :=
    ⟨_, (Nat.add_sub_cancel' hlen).symm⟩
  induction k generalizing s as with
  | zero =>
    have hst : UserStep c s _ := .generated h (by omega)
    exact ⟨_, as, .of_step hst (by rw [h]; nofun), rfl, by omega, hv, rfl, rfl, rfl, rfl⟩
  | succ k ih =>
    have hst : UserStep c s _ := .generate 0 s.clock h (by omega) le_rfl
    have hlen' : (as ++ [s.newAction v 0 s.clock]).length = as.length + 1 := by simp
    have hv' : ∀ a ∈ as ++ [s.newAction v 0 s.clock], a.userId = v := by
      intro a ha
      rcases List.mem_append.1 ha with ha | ha
      · exact hv a ha
      · rw [List.mem_singleton.1 ha]; rfl
    obtain ⟨t, as', hrun, hrest⟩ := ih (s := { s.addAction (s.newAction v 0 s.clock) with
      user := .generating v (as ++ [s.newAction v 0 s.clock]) }) rfl (by omega) hv' (by omega)
    exact ⟨t, as', (UserRun.of_step hst (by rw [h]; nofun)).trans hrun, hrest⟩

/-- The loop that queues them. -/
theorem push_run (h : s.user = .pushing as) :
    ∃ t, UserRun c s t ∧ t.user = .selecting ∧ t.newActionQ = s.newActionQ ++ as ∧
      t.nodeIds = s.nodeIds ∧ t.itr = s.itr := by
  induction as generalizing s with
  | nil => exact ⟨_, .of_step (.pushed h) (by rw [h]; nofun), rfl, by simp, rfl, rfl⟩
  | cons a as ih =>
    have hst := UserStep.push (c := c) h
    obtain ⟨t, hrun, hu, hq, hn⟩ := ih (s := { s.wakePushers with
      newActionQ := s.newActionQ ++ [a], queued := s.queued ++ [a], user := .pushing as }) rfl
    exact ⟨t, (UserRun.of_step hst (by rw [h]; nofun)).trans hrun, hu, by rw [hq]; simp, hn⟩

theorem numActions_pos {d : ℕ} (hd : 0 < d) : 0 < numActions d := by
  have hpow : 2 * d ≤ (2 * d) ^ 10 := Nat.le_self_pow (by omega) _
  exact Nat.log_pos (by omega) (by omega)

/-- A number below `n` that is not in a shorter list. -/
theorem exists_fresh {l : List ℕ} {n : ℕ} (h : l.length < n) : ∃ v < n, v ∉ l := by
  have hcard : l.toFinset.card < (Finset.range n).card := by
    have := l.toFinset_card_le
    rw [Finset.card_range]
    omega
  obtain ⟨v, hv, hl⟩ := Finset.exists_mem_notMem_of_card_lt_card hcard
  exact ⟨v, Finset.mem_range.1 hv, fun h => hl (List.mem_toFinset.2 h)⟩

/-- One round of the loop over the selected nodes. -/
theorem node_run (hn : nodesPerIter ≤ c.numNodes) (hd : ∀ v < c.numNodes, 0 < (c.graph v).degree)
    (h : s.user = .selecting) (hlen : s.nodeIds.length < nodesPerIter) :
    ∃ t, UserRun c s t ∧ t.user = .selecting ∧ t.nodeIds.length = s.nodeIds.length + 1 ∧
      t.newActionQ ≠ [] ∧ t.itr = s.itr := by
  obtain ⟨v, hv, hnew⟩ := exists_fresh (show s.nodeIds.length < c.numNodes by omega)
  have hsel := UserStep.select h hlen hv hnew (hd v hv)
  obtain ⟨t, as, hgen, ht, has, -, -, -, hids, hitr⟩ := generate_run (c := c)
    (s := { s with nodeIds := v :: s.nodeIds, user := .generating v [] })
    (show _ = UserPc.generating v [] from rfl) (Nat.zero_le _) nofun
  obtain ⟨u, hpush, hu, hq, hids', hitr'⟩ := push_run (c := c) ht
  refine ⟨u, ((UserRun.of_step hsel (by rw [h]; nofun)).trans hgen).trans hpush, hu, ?_, ?_,
    hitr'.trans hitr⟩
  · rw [hids', hids]
    rfl
  · -- a node with a neighbour has actions
    have := numActions_pos (hd v hv)
    rw [hq]
    intro hnil
    have := congrArg List.length hnil
    rw [List.length_append, List.length_nil] at this
    omega

/-- An iteration, up to the test against `MAX_ITERS`. -/
theorem iteration_run (hn : nodesPerIter ≤ c.numNodes)
    (hd : ∀ v < c.numNodes, 0 < (c.graph v).degree) (h : s.user = .selecting) :
    ∃ t, UserRun c s t ∧ t.user = .selecting ∧ ¬ t.nodeIds.length < nodesPerIter ∧
      (s.nodeIds.length < nodesPerIter → t.newActionQ ≠ []) ∧ t.itr = s.itr := by
  obtain ⟨k, hk⟩ : ∃ k, nodesPerIter ≤ s.nodeIds.length + k := ⟨nodesPerIter, by omega⟩
  induction k generalizing s with
  | zero => exact ⟨s, .refl s, h, by omega, fun hlt => by omega, rfl⟩
  | succ k ih =>
    by_cases hlen : s.nodeIds.length < nodesPerIter
    · obtain ⟨t, hrun, ht, hids, hne, hitr⟩ := node_run hn hd h hlen
      obtain ⟨u, hrun', hu, hulen, -, hitr'⟩ := ih ht (by omega)
      refine ⟨u, hrun.trans hrun', hu, hulen, ?_, hitr'.trans hitr⟩
      intro _ hnil
      apply hne
      -- what the first node has queued is still there
      have := hrun'.only.newActionQ
      rw [hnil] at this
      exact List.prefix_nil.1 this
    · exact ⟨s, .refl s, h, hlen, fun hlt => absurd hlt hlen, rfl⟩

/-- **`userSimulator` reaches its last region by its own steps**, and queues actions on the way. -/
theorem userSimulator_finishes (hn : nodesPerIter ≤ c.numNodes)
    (hd : ∀ v < c.numNodes, 0 < (c.graph v).degree) (h : s.user = .selecting)
    (hids : s.nodeIds = []) (hitr : s.itr < maxIters) :
    ∃ t, UserRun c s t ∧ t.user = .finishing ∧ t.newActionQ ≠ [] := by
  -- by induction on the iterations that are left after this one
  obtain ⟨k, hk⟩ : ∃ k, maxIters = s.itr + 1 + k := ⟨maxIters - s.itr - 1, by omega⟩
  induction k generalizing s with
  | zero =>
    obtain ⟨t, hrun, ht, hlen, hne, hitr'⟩ := iteration_run hn hd h
    have hst := UserStep.endIter (c := c) ht hlen
    exact ⟨_, hrun.trans (.of_step hst (by rw [ht]; nofun)), if_pos (by omega),
      hne (by rw [hids]; decide)⟩
  | succ k ih =>
    obtain ⟨t, hrun, ht, hlen, -, hitr'⟩ := iteration_run hn hd h
    have hst := UserStep.endIter (c := c) ht hlen
    obtain ⟨u, hrun', hfin, hne⟩ := ih (s := { t with
      itr := t.itr + 1
      nodeIds := []
      user := if t.itr + 1 = maxIters then .finishing else .selecting })
      (if_neg (by omega)) rfl (show t.itr + 1 < maxIters by omega)
      (show maxIters = t.itr + 1 + 1 + k by omega)
    exact ⟨u, (hrun.trans (.of_step hst (by rw [ht]; nofun))).trans hrun', hfin, hne⟩

end OsLab.Feed
