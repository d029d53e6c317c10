import OsLab.Feed.Feeds

/-!
# `thread_to_join`

`userSimulator` adds one to `thread_to_join` in its last region, and so does each thread of
`pushUpdate`. A thread of `pushUpdate` leaves its loop only when `thread_to_join` is positive,
so `userSimulator` is the first: the test for `NUM_USER_SIM_THREADS` means that it has
finished (`Joins.user_iff`), and the one for the sum of both that all of them have
(`Joins.all_iff`).
-/

namespace OsLab.Feed

open Lib

variable {c : Config} {s t : State} {p r : ℕ}

/-- 1 for a thread that has finished. -/
def finishedOne (pc : PushPc) : ℕ := if pc = .finished then 1 else 0

/-- The thread of `pushUpdate` has left its loop. -/
def PushPc.HasLeft (pc : PushPc) : Prop := pc = .leaving ∨ pc = .finished

/-- Inside `pthread_cond_wait` on `action_q_cond`. -/
def PushPc.InWait (pc : PushPc) : Prop := pc = .waiting ∨ pc = .woken

/-- Inside `pthread_cond_wait` on `feed_update_q_cond`. -/
def ReadPc.InWait (pc : ReadPc) : Prop := pc = .waiting ∨ pc = .woken

/-- What `thread_to_join` counts. -/
structure Joins (c : Config) (s : State) : Prop where
  count : s.threadToJoin = (if s.user = .finished then 1 else 0) +
    ∑ p ∈ Finset.range c.numPushUpdateThreads, finishedOne (s.pushers p)
  left : ∀ p < c.numPushUpdateThreads, (s.pushers p).HasLeft → s.user = .finished

theorem joins_init (c : Config) : Joins c State.init where
  count := by
    rw [Finset.sum_eq_zero fun p _ => (rfl : finishedOne (State.init.pushers p) = 0)]
    rfl
  left p _ h := by rcases h with h | h <;> cases h

/-- `thread_to_join >= NUM_USER_SIM_THREADS` when `userSimulator` has finished, and only then. -/
theorem Joins.user_iff (h : Joins c s) : numUserSimThreads ≤ s.threadToJoin ↔ s.user = .finished := by
  constructor
  · intro hj
    by_contra hu
    -- without `userSimulator` no thread of `pushUpdate` has left its loop
    have hzero : ∑ p ∈ Finset.range c.numPushUpdateThreads, finishedOne (s.pushers p) = 0 := by
      apply Finset.sum_eq_zero
      intro p hp
      apply if_neg
      intro hf
      exact hu (h.left p (Finset.mem_range.1 hp) (.inr hf))
    rw [h.count, if_neg hu, hzero] at hj
    exact absurd hj (by decide)
  · intro hu
    rw [h.count, if_pos hu]
    exact Nat.le_add_right ..

/-- All threads that count have finished when `thread_to_join` says so, and only then. -/
theorem Joins.all_iff (h : Joins c s) : allJoined c s ↔
    s.user = .finished ∧ ∀ p < c.numPushUpdateThreads, s.pushers p = .finished := by
  have hone : ∀ pc, finishedOne pc ≤ 1 := by
    intro pc
    unfold finishedOne
    split_ifs <;> omega
  have hiff := threads_le_sum_iff s.pushers hone c.numPushUpdateThreads
  have heq : ∀ p, finishedOne (s.pushers p) = 1 ↔ s.pushers p = .finished := by
    intro p
    unfold finishedOne
    split_ifs with hp <;> simp [hp]
  simp only [heq] at hiff
  unfold allJoined numUserSimThreads
  constructor
  · intro hall
    -- the rest of the count is that of `pushUpdate`, and it is at its most
    have hu : s.user = .finished := h.user_iff.1 (Nat.le_of_add_right_le hall)
    rw [h.count, if_pos hu] at hall
    exact ⟨hu, hiff.1 (by omega)⟩
  · intro h'
    obtain ⟨hu, hp⟩ := h'
    rw [h.count, if_pos hu]
    have := hiff.2 hp
    omega

/-! ## The steps -/

/-- A thread of `pushUpdate` goes on, without its last step. -/
theorem Joins.pushTo (h : Joins c s) (hp : p < c.numPushUpdateThreads) {pc : PushPc}
    (hs : s.pushers p ≠ .finished) (hpc : pc ≠ .finished)
    (hleft : pc.HasLeft → s.user = .finished) : Joins c (s.pushTo p pc) where
  count := by
    have hmove := sum_update s.pushers finishedOne hp pc
    rw [finishedOne, if_neg hs, finishedOne, if_neg hpc] at hmove
    exact h.count.trans (congrArg _ hmove.symm)
  left q hq hl := by
    by_cases hqp : q = p
    · subst hqp
      rw [pushTo_self] at hl
      exact hleft hl
    · rw [pushTo_ne _ _ hqp] at hl
      exact h.left q hq hl

theorem joins_push (h : Joins c s) (hp : p < c.numPushUpdateThreads) (hst : PushStep c p s t) :
    Joins c t := by
  -- the loop over the neighbours ends at the top, not outside the loop
  have hnext : ∀ a i, nextNeighbor c a i ≠ .leaving ∧ nextNeighbor c a i ≠ .finished := by
    intro a i
    unfold nextNeighbor
    split_ifs <;> exact ⟨nofun, nofun⟩
  cases hst with
  | wait hpc _ =>
    exact h.pushTo hp (by rcases hpc with hpc | ⟨hpc, -⟩ <;> rw [hpc] <;> nofun) nofun
      (by rintro (hl | hl) <;> cases hl)
  | @pop a q hpc _ =>
    have hu : Joins c { s with newActionQ := q } := ⟨h.count, h.left⟩
    exact hu.pushTo hp (by rcases hpc with hpc | ⟨hpc, -⟩ <;> simp [hpc]) (hnext a 0).2
      (by rintro (hl | hl); exacts [absurd hl (hnext a 0).1, absurd hl (hnext a 0).2])
  | leave hpc hj => exact h.pushTo hp (by rw [hpc]; nofun) nofun fun _ => h.user_iff.1 hj
  | @notify a i hpc =>
    have hu : Joins c { s.wakeReaders with
      feedUpdateQ := s.feedUpdateQ ++ [(c.neighbor a.userId i).1] } := ⟨h.count, h.left⟩
    exact hu.pushTo hp (hpc ▸ nofun) nofun (by rintro (hl | hl) <;> cases hl)
  | @feed a i hpc =>
    have hu : Joins c (s.pushFeed c a i) := by
      constructor
      · rw [pushFeed_threadToJoin, pushFeed_user, pushFeed_pushers]
        exact h.count
      · rw [pushFeed_user, pushFeed_pushers]
        exact h.left
    exact hu.pushTo hp (by rw [pushFeed_pushers, hpc]; nofun) (hnext a (i + 1)).2
      (by rintro (hl | hl); exacts [absurd hl (hnext a _).1, absurd hl (hnext a _).2])
  | finish hpc =>
    constructor
    · -- the thread and `thread_to_join` go up together
      have hmove := sum_update s.pushers finishedOne hp .finished
      have hs : finishedOne (s.pushers p) = 0 := by rw [hpc]; rfl
      have hone : finishedOne .finished = 1 := rfl
      have hc := h.count
      show s.threadToJoin + 1 = (if s.user = .finished then 1 else 0) +
        ∑ q ∈ Finset.range c.numPushUpdateThreads,
          finishedOne (Function.update s.pushers p .finished q)
      omega
    · intro q hq hl
      by_cases hqp : q = p
      · exact h.left p hp (.inl hpc)
      · exact h.left q hq (by rwa [pushTo_ne _ _ hqp] at hl)

theorem finishedOne_wake (f : ℕ → PushPc) (n : ℕ) :
    ∑ p ∈ Finset.range n, finishedOne (wake f .waiting .woken p) =
      ∑ p ∈ Finset.range n, finishedOne (f p) := sum_wake f finishedOne rfl

theorem hasLeft_wake {f : ℕ → PushPc} (h : (wake f .waiting .woken p).HasLeft) : (f p).HasLeft := by
  unfold wake at h
  split_ifs at h
  · rcases h with h | h <;> cases h
  · exact h

/-- No thread of `pushUpdate` has left its loop before `userSimulator` has finished. -/
theorem Joins.not_left (h : Joins c s) (hu : s.user ≠ .finished)
    (hp : p < c.numPushUpdateThreads) : ¬ (s.pushers p).HasLeft := fun hl => hu (h.left p hp hl)

theorem joins_user (h : Joins c s) (hst : UserStep c s t) : Joins c t := by
  -- a step before the last one: nobody has left, so the threads that are woken stay
  have hcount : s.user ≠ .finished → t.threadToJoin = s.threadToJoin → t.user ≠ .finished →
      (∀ p, finishedOne (t.pushers p) = finishedOne (s.pushers p)) →
      (∀ p, (t.pushers p).HasLeft → (s.pushers p).HasLeft) → Joins c t := by
    intro hu hj ht hone hl
    refine ⟨?_, fun p hp hleft => absurd (hl p hleft) (h.not_left hu hp)⟩
    rw [hj, h.count, if_neg hu, if_neg ht]
    exact congrArg _ (Finset.sum_congr rfl fun p _ => (hone p).symm)
  cases hst with
  | push hpc =>
    exact hcount (by rw [hpc]; nofun) rfl nofun (apply_wake s.pushers finishedOne rfl)
      fun p hl => hasLeft_wake hl
  | finish hpc =>
    refine ⟨?_, fun _ _ _ => rfl⟩
    have hc := h.count
    rw [if_neg (by rw [hpc]; nofun)] at hc
    show s.threadToJoin + 1 = 1 + ∑ p ∈ Finset.range c.numPushUpdateThreads,
      finishedOne (wake s.pushers .waiting .woken p)
    rw [finishedOne_wake]
    omega
  | endIter hpc _ =>
    refine hcount (by rw [hpc]; nofun) rfl ?_ (fun _ => rfl) fun _ hl => hl
    dsimp only
    split_ifs <;> nofun
  | select hpc _ _ _ _ | generate _ _ hpc _ _ | generated hpc _ | pushed hpc =>
    exact hcount (by rw [hpc]; nofun) rfl nofun (fun _ => rfl) fun _ hl => hl

theorem joins_step {th : Thread} (h : Joins c s) (hst : Step c s th t) : Joins c t := by
  cases hst with
  | user hst => exact joins_user h hst
  | push hp hst => exact joins_push h hp hst
  | read _ hst => cases hst <;> exact ⟨h.count, h.left⟩

/-- **`thread_to_join` counts the threads that have finished**, and `userSimulator` is the
first of them. -/
theorem joins (h : Reaches (Step c) State.init s) : Joins c s :=
  reaches_inv (I := Joins c) (fun _ _ _ => joins_step) (joins_init c) h

end OsLab.Feed
