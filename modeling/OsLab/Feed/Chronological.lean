import OsLab.Feed.Once

/-!
# The order of a chronological feed

The actions of a node leave `new_action_q` in the order in which they were generated, but each is
then pushed to the feeds by a thread of its own, outside `action_q_mutex`, and a later action may get
to a feed first. If no push to a chronological feed overtakes an earlier action of the same poster
(`InTurn`), the actions of each neighbour are read from it in order (`feeds_chronological`).

* `Walls`: the wall queue of a node lists its actions in the order of their timestamps.
* `Popped`: `new_action_q` is the rest of what was queued.
* `InOrder`: what has reached a feed is in order, and nothing that is still to come should be earlier.
-/

namespace OsLab.Feed

open Lib List

variable {c : Config} {s t : State} {p q r i j u v : ℕ} {a b : Action} {x : Copy}

/-- The actions of `u` that were read from the feed of `v`. -/
def readFrom (s : State) (v u : ℕ) : List Action :=
  (s.reads.filter fun y => y.node = v ∧ y.copy.action.userId = u).map fun y => y.copy.action

/-- `b` was not generated before `a` by the same node. -/
def NotAfter (s : State) (a b : Action) : Prop := a = b ∨ [a, b] <+ s.wallQueue a.userId

/-- **Chronological feeds are chronological**: the actions of each poster are read in the order in
which they were generated, and their timestamps do not go backwards. -/
def Chronological (c : Config) (s : State) : Prop :=
  ∀ v, (c.graph v).orderBy = 1 → ∀ u,
    (readFrom s v u).Pairwise fun a b => NotAfter s a b ∧ a.timestamp ≤ b.timestamp

/-- Thread `q` of `pushUpdate` has `b` in its hands and has not pushed every copy for `v`. -/
def StillOwes (c : Config) (s : State) (q : ℕ) (b : Action) (v : ℕ) : Prop :=
  ∃ j, (s.pushers q).holds = some (b, j) ∧
    ∃ k, j ≤ k ∧ k < (c.graph b.userId).degree ∧ (c.neighbor b.userId k).1 = v

/-- A push to a chronological feed overtakes no earlier action of the poster. -/
def InTurn (c : Config) (s : State) : Thread → Prop
  | .push p => ∀ a i, s.pushers p = .feeding a i → (c.graph (c.neighbor a.userId i).1).orderBy = 1 →
      ∀ q < c.numPushUpdateThreads, ∀ b, StillOwes c s q b (c.neighbor a.userId i).1 →
        b.userId = a.userId → ¬ [b, a] <+ s.wallQueue a.userId
  | _ => True

/-! ## Wall queues -/

/-- The wall queue of a node lists what was generated for it, in the order of the timestamps. -/
structure Walls (s : State) : Prop where
  wall : ∀ u, s.wallQueue u = (s.queued ++ s.user.ahead).filter fun a => a.userId = u
  stamps : ∀ u, (s.wallQueue u).Pairwise fun a b => a.timestamp ≤ b.timestamp
  clock : ∀ u, ∀ a ∈ s.wallQueue u, a.timestamp ≤ s.clock

theorem walls_init : Walls State.init where
  wall _ := rfl
  stamps _ := Pairwise.nil
  clock _ _ ha := absurd ha not_mem_nil

theorem Walls.same (h : Walls s) (hw : t.wallQueue = s.wallQueue) (hc : t.clock = s.clock)
    (hq : t.queued ++ t.user.ahead = s.queued ++ s.user.ahead) : Walls t := by
  refine ⟨fun u => ?_, fun u => ?_, fun u => ?_⟩
  · rw [hw, hq, h.wall]
  · rw [hw]; exact h.stamps u
  · rw [hw, hc]; exact h.clock u

@[simp] theorem pushFeed_wallQueue : (s.pushFeed c a i).wallQueue = s.wallQueue := by
  unfold State.pushFeed; dsimp only; split_ifs <;> rfl

@[simp] theorem pushFeed_clock : (s.pushFeed c a i).clock = s.clock := by
  unfold State.pushFeed; dsimp only; split_ifs <;> rfl

theorem walls_user (h : Walls s) (hst : UserStep c s t) : Walls t := by
  cases hst with
  | select hu _ _ _ _ | generated hu _ | pushed hu | finish hu =>
    refine h.same rfl rfl ?_
    rw [hu]
    rfl
  | endIter hu _ =>
    refine h.same rfl rfl ?_
    rw [hu]
    dsimp only
    split_ifs <;> rfl
  | @push a as hu =>
    refine h.same rfl rfl ?_
    rw [hu]
    exact append_assoc s.queued [a] as
  | @generate v as k now hu hlen hnow =>
    have hwall := h.wall
    rw [hu] at hwall
    have hnew : ∀ u, Function.update s.wallQueue v (s.wallQueue v ++ [s.newAction v k now]) u =
        if u = v then s.wallQueue u ++ [s.newAction v k now] else s.wallQueue u := by
      intro u
      split_ifs with huv
      · rw [huv, Function.update_self]
      · rw [Function.update_of_ne huv]
    refine ⟨fun u => ?_, fun u => ?_, fun u => ?_⟩
    · show Function.update s.wallQueue v (s.wallQueue v ++ [s.newAction v k now]) u =
        (s.queued ++ (as ++ [s.newAction v k now])).filter _
      rw [hnew, ← append_assoc, filter_append, hwall]
      split_ifs with huv
      · subst huv
        simp [UserPc.ahead, State.newAction]
      · simp [UserPc.ahead, State.newAction, Ne.symm huv]
    · show (Function.update s.wallQueue v (s.wallQueue v ++ [s.newAction v k now]) u).Pairwise _
      rw [hnew]
      split_ifs
      · refine pairwise_append.2 ⟨h.stamps u, pairwise_singleton _ _, fun a ha b hb => ?_⟩
        rw [mem_singleton.1 hb]
        exact (h.clock u a ha).trans hnow
      · exact h.stamps u
    · show ∀ a ∈ Function.update s.wallQueue v (s.wallQueue v ++ [s.newAction v k now]) u, _
      rw [hnew]
      intro a ha
      split_ifs at ha
      · rcases mem_append.1 ha with ha | ha
        · exact (h.clock u a ha).trans hnow
        · rw [mem_singleton.1 ha]
          exact le_rfl
      · exact (h.clock u a ha).trans hnow

theorem walls_step {th : Thread} (h : Walls s) (hst : Step c s th t) : Walls t := by
  cases hst with
  | user hst => exact walls_user h hst
  | push _ hst =>
    cases hst with
    | @feed a i _ =>
      refine h.same ?_ ?_ ?_
      · show (s.pushFeed c a i).wallQueue = _
        exact pushFeed_wallQueue
      · show (s.pushFeed c a i).clock = _
        exact pushFeed_clock
      · show (s.pushFeed c a i).queued ++ (s.pushFeed c a i).user.ahead = _
        rw [pushFeed_queued, pushFeed_user]
    | _ => exact h.same rfl rfl rfl
  | read _ hst => cases hst <;> exact h.same rfl rfl rfl

theorem Walls.mem (h : Walls s) (ha : a ∈ s.queued) : a ∈ s.wallQueue a.userId := by
  rw [h.wall]
  exact mem_filter.2 ⟨mem_append_left _ ha, decide_eq_true rfl⟩

/-- What was queued before is earlier. -/
theorem Walls.before (h : Walls s) (hq : [a, b] <+ s.queued) (hu : b.userId = a.userId) :
    [a, b] <+ s.wallQueue a.userId := by
  rw [h.wall]
  have := (hq.trans (sublist_append_left s.queued s.user.ahead)).filter fun x => x.userId = a.userId
  simpa [filter_cons, hu] using this

theorem Walls.stamps_le (h : Walls s) (hab : NotAfter s a b) : a.timestamp ≤ b.timestamp := by
  rcases hab with rfl | hab
  · exact le_rfl
  · exact rel_of_pairwise_cons ((h.stamps _).sublist hab) (mem_singleton_self b)

/-- Two elements of a list have an order. -/
theorem sublist_total {l : List Action} (ha : a ∈ l) (hb : b ∈ l) : a = b ∨ [a, b] <+ l ∨ [b, a] <+ l := by
  induction l with
  | nil => exact absurd ha not_mem_nil
  | cons x l ih =>
    rcases mem_cons.1 ha with rfl | ha'
    · rcases mem_cons.1 hb with rfl | hb'
      · exact Or.inl rfl
      · exact Or.inr (Or.inl ((singleton_sublist.2 hb').cons_cons a))
    · rcases mem_cons.1 hb with rfl | hb'
      · exact Or.inr (Or.inr ((singleton_sublist.2 ha').cons_cons b))
      · rcases ih ha' hb' with h | h | h
        · exact Or.inl h
        · exact Or.inr (Or.inl (h.cons x))
        · exact Or.inr (Or.inr (h.cons x))

/-! ## What a step moves -/

/-- What has reached the feed of `v`, if it is chronological: what was read, and what is there. -/
def trail (s : State) (v : ℕ) : List Copy :=
  (s.reads.filter fun y => y.node = v).map Read.copy ++ s.feedQueue v

theorem trail_pushFeed (hv : (c.graph v).orderBy = 1) :
    trail (s.pushFeed c a i) v =
      if v = (c.neighbor a.userId i).1 then trail s v ++ [⟨a, i⟩] else trail s v := by
  unfold trail
  rw [pushFeed_reads]
  split_ifs with h
  · subst h
    simp [State.pushFeed, hv]
  · congr 1
    unfold State.pushFeed
    dsimp only
    split_ifs <;> simp [Function.update_of_ne h]

theorem trail_push (hst : PushStep c p s t) (hv : (c.graph v).orderBy = 1) :
    trail t v = trail s v ∨ ∃ a i, s.pushers p = .feeding a i ∧ v = (c.neighbor a.userId i).1 ∧
      trail t v = trail s v ++ [⟨a, i⟩] := by
  cases hst with
  | @feed a i hpc =>
    have htrail : trail ((s.pushFeed c a i).pushTo p (nextNeighbor c a (i + 1))) v =
      trail (s.pushFeed c a i) v := rfl
    rw [htrail, trail_pushFeed hv]
    split_ifs with h
    · exact Or.inr ⟨a, i, hpc, h, rfl⟩
    · exact Or.inl rfl
  | _ => exact Or.inl rfl

theorem trail_read (hst : ReadStep c r s t) (hv : (c.graph v).orderBy = 1) : trail t v = trail s v := by
  cases hst with
  | @readChrono w _ _ =>
    show ((s.reads ++ (s.feedQueue w).map (Read.mk r w)).filter fun y => y.node = v).map Read.copy ++
      Function.update s.feedQueue w [] v = trail s v
    rw [filter_append, map_append, append_assoc, trail]
    congr 1
    rcases eq_or_ne v w with rfl | hvw
    · simp [filter_map, Function.comp_def]
    · simp [filter_map, Function.comp_def, Function.update_of_ne hvw, Ne.symm hvw]
  | @readPriority w l _ ho _ _ =>
    show ((s.reads ++ l.map fun y => Read.mk r w y.2).filter fun y => y.node = v).map Read.copy ++
      s.feedQueue v = trail s v
    have hvw : w ≠ v := by rintro rfl; omega
    rw [filter_append, map_append, append_assoc, trail]
    congr 1
    simp [filter_map, Function.comp_def, hvw]
  | _ => rfl

theorem trail_user (hst : UserStep c s t) (v : ℕ) : trail t v = trail s v := by
  cases hst <;> rfl

theorem holds_user (hst : UserStep c s t) (q : ℕ) : (t.pushers q).holds = (s.pushers q).holds := by
  cases hst with
  | push _ | finish _ =>
    exact apply_wake s.pushers PushPc.holds (show PushPc.holds .woken = PushPc.holds .waiting from rfl) q
  | _ => rfl

theorem holds_read (hst : ReadStep c r s t) (q : ℕ) : (t.pushers q).holds = (s.pushers q).holds := by
  cases hst <;> rfl

theorem holds_nextNeighbor (h : (nextNeighbor c a i).holds = some (b, j)) :
    a = b ∧ i = j ∧ i < (c.graph a.userId).degree := by
  unfold nextNeighbor at h
  split_ifs at h with hi
  · cases h
    exact ⟨rfl, rfl, hi⟩
  · cases h

/-- An action in the hands of a thread was there before, at the same position or the one before it,
or has just been popped. -/
theorem holds_push (hst : PushStep c p s t) (h : (t.pushers q).holds = some (b, j)) :
    (s.pushers q).holds = some (b, j) ∨
      q = p ∧ j < (c.graph b.userId).degree ∧
        ((∃ i < j, (s.pushers q).holds = some (b, i)) ∨ s.newActionQ = b :: t.newActionQ) := by
  rcases eq_or_ne q p with rfl | hq
  · cases hst with
    | wait _ _ | leave _ _ | finish _ => rw [pushTo_self] at h; cases h
    | @pop a l _ hl =>
      rw [pushTo_self] at h
      obtain ⟨rfl, rfl, hj⟩ := holds_nextNeighbor h
      exact Or.inr ⟨rfl, hj, Or.inr hl⟩
    | @notify a i hpc =>
      rw [pushTo_self] at h
      exact Or.inl (hpc ▸ h)
    | @feed a i hpc =>
      rw [pushTo_self] at h
      obtain ⟨rfl, rfl, hj⟩ := holds_nextNeighbor h
      exact Or.inr ⟨rfl, hj, Or.inl ⟨i, Nat.lt_succ_self i, by rw [hpc]; rfl⟩⟩
  · rw [push_pushers_ne hst hq] at h
    exact Or.inl h

theorem queued_push (hst : PushStep c p s t) : t.queued = s.queued := by
  cases hst with
  | feed _ => exact pushFeed_queued
  | _ => rfl

/-- A thread pops at most the first action. -/
theorem newActionQ_push (hst : PushStep c p s t) :
    t.newActionQ = s.newActionQ ∨ ∃ a, s.newActionQ = a :: t.newActionQ := by
  cases hst with
  | @pop a _ _ hl => exact Or.inr ⟨a, hl⟩
  | feed _ => exact Or.inl pushFeed_newActionQ
  | _ => exact Or.inl rfl

/-! ## Popped actions -/

/-- `new_action_q` is what is left of the actions queued once those in `done` are popped; the others
are in the hands of threads, or in feeds. -/
structure Popped (c : Config) (s : State) (done : List Action) : Prop where
  queued : s.queued = done ++ s.newActionQ
  held : ∀ p < c.numPushUpdateThreads, ∀ a i, (s.pushers p).holds = some (a, i) →
    a ∈ done ∧ i < (c.graph a.userId).degree
  trail : ∀ v, (c.graph v).orderBy = 1 → ∀ x ∈ trail s v, x.action ∈ done

variable {done : List Action}

theorem popped_init (c : Config) : Popped c State.init [] where
  queued := rfl
  held _ _ _ _ h := by cases h
  trail _ _ _ hx := by cases hx

theorem popped_user (h : Popped c s done) (hst : UserStep c s t) : Popped c t done where
  queued := by
    cases hst with
    | @push a _ _ =>
      show s.queued ++ [a] = done ++ (s.newActionQ ++ [a])
      rw [h.queued, append_assoc]
    | _ => exact h.queued
  held q hq a i hh := h.held q hq a i ((holds_user hst q).symm.trans hh)
  trail v hv x hx := h.trail v hv x (trail_user hst v ▸ hx)

theorem popped_push (h : Popped c s done) (hp : p < c.numPushUpdateThreads) (hst : PushStep c p s t) :
    ∃ done', Popped c t done' := by
  obtain ⟨done', hsub, hqueued, hnew⟩ : ∃ done', done ⊆ done' ∧ t.queued = done' ++ t.newActionQ ∧
      ∀ b, s.newActionQ = b :: t.newActionQ → b ∈ done' := by
    rw [queued_push hst, h.queued]
    rcases newActionQ_push hst with hq | ⟨a, ha⟩
    · refine ⟨done, Subset.refl _, by rw [hq], fun b hb => ?_⟩
      rw [hq] at hb
      exact absurd hb.symm (cons_ne_self b _)
    · refine ⟨done ++ [a], subset_append_left _ _, by rw [ha, append_assoc]; rfl, fun b hb => ?_⟩
      rw [ha] at hb
      rw [(cons.inj hb).1]
      exact mem_append_right _ (mem_singleton_self b)
  refine ⟨done', hqueued, fun q hq a i hh => ?_, fun v hv x hx => ?_⟩
  · rcases holds_push hst hh with hs | ⟨-, hi, ⟨j, -, hs⟩ | hb⟩
    · exact ⟨hsub (h.held q hq a i hs).1, (h.held q hq a i hs).2⟩
    · exact ⟨hsub (h.held q hq a j hs).1, hi⟩
    · exact ⟨hnew a hb, hi⟩
  · rcases trail_push hst hv with ht | ⟨a, i, hpc, -, ht⟩
    · exact hsub (h.trail v hv x (ht ▸ hx))
    · rw [ht] at hx
      rcases mem_append.1 hx with hx | hx
      · exact hsub (h.trail v hv x hx)
      · rw [mem_singleton.1 hx]
        exact hsub (h.held p hp a i (by rw [hpc]; rfl)).1

theorem popped_read (h : Popped c s done) (hst : ReadStep c r s t) : Popped c t done where
  queued := by cases hst <;> exact h.queued
  held q hq a i hh := h.held q hq a i ((holds_read hst q).symm.trans hh)
  trail v hv x hx := h.trail v hv x (trail_read hst hv ▸ hx)

theorem popped_step {th : Thread} (h : ∃ done, Popped c s done) (hst : Step c s th t) :
    ∃ done, Popped c t done := by
  obtain ⟨done, hpop⟩ := h
  cases hst with
  | user hst => exact ⟨done, popped_user hpop hst⟩
  | push hp hst => exact popped_push hpop hp hst
  | read _ hst => exact ⟨done, popped_read hpop hst⟩

/-- What was popped before is earlier than the next action of the poster. -/
theorem Popped.before (h : Popped c s done) (hw : Walls s) {l : List Action} (ha : a ∈ done)
    (hb : s.newActionQ = b :: l) (hu : b.userId = a.userId) : NotAfter s a b := by
  refine Or.inr (hw.before ?_ hu)
  rw [h.queued, hb]
  exact (singleton_sublist.2 ha).append (singleton_sublist.2 mem_cons_self)

/-! ## In order -/

/-- What has reached a chronological feed is in order, and so is what is still to come. -/
structure InOrder (c : Config) (s : State) : Prop where
  sorted : ∀ v, (c.graph v).orderBy = 1 → (trail s v).Pairwise fun x y =>
    x.action.userId = y.action.userId → NotAfter s x.action y.action
  ahead : ∀ v, (c.graph v).orderBy = 1 → ∀ x ∈ trail s v, ∀ q < c.numPushUpdateThreads, ∀ b,
    StillOwes c s q b v → b.userId = x.action.userId → NotAfter s x.action b

theorem inOrder_init (c : Config) : InOrder c State.init where
  sorted _ _ := Pairwise.nil
  ahead _ _ _ hx := by cases hx

theorem NotAfter.mono (hw : ∀ u, s.wallQueue u <+ t.wallQueue u) (h : NotAfter s a b) : NotAfter t a b :=
  h.imp id fun h => h.trans (hw a.userId)

/-- A step that only generates. -/
theorem InOrder.same (h : InOrder c s) (hw : ∀ u, s.wallQueue u <+ t.wallQueue u)
    (ht : ∀ v, (c.graph v).orderBy = 1 → trail t v = trail s v)
    (hh : ∀ q, (t.pushers q).holds = (s.pushers q).holds) : InOrder c t where
  sorted v hv := by
    rw [ht v hv]
    exact (h.sorted v hv).imp fun hxy hu => (hxy hu).mono hw
  ahead v hv x hx q hq b hb hu := by
    rw [ht v hv] at hx
    unfold StillOwes at hb
    rw [hh q] at hb
    exact (h.ahead v hv x hx q hq b hb hu).mono hw

theorem wallQueue_user (hst : UserStep c s t) (u : ℕ) : s.wallQueue u <+ t.wallQueue u := by
  cases hst with
  | @generate v as k now _ _ _ =>
    show s.wallQueue u <+ Function.update s.wallQueue v (s.wallQueue v ++ [s.newAction v k now]) u
    rcases eq_or_ne u v with rfl | huv
    · rw [Function.update_self]
      exact sublist_append_left _ _
    · rw [Function.update_of_ne huv]
  | _ => exact Sublist.refl _

theorem wallQueue_push (hst : PushStep c p s t) : t.wallQueue = s.wallQueue := by
  cases hst with
  | feed _ => exact pushFeed_wallQueue
  | _ => rfl

theorem wallQueue_read (hst : ReadStep c r s t) : t.wallQueue = s.wallQueue := by
  cases hst <;> rfl

/-- Wall queues only grow. -/
theorem wallQueue_step {th : Thread} (hst : Step c s th t) (u : ℕ) : s.wallQueue u <+ t.wallQueue u := by
  cases hst with
  | user hst => exact wallQueue_user hst u
  | push _ hst => rw [wallQueue_push hst]
  | read _ hst => rw [wallQueue_read hst]

/-- What a thread still owes it owed before, or it has just popped it. -/
theorem stillOwes_push (hst : PushStep c p s t) (h : StillOwes c t q b v) :
    StillOwes c s q b v ∨ s.newActionQ = b :: t.newActionQ := by
  obtain ⟨j, hj, k, hjk, hk, hv⟩ := h
  rcases holds_push hst hj with hs | ⟨-, -, ⟨i, hi, hs⟩ | hnew⟩
  · exact Or.inl ⟨j, hs, k, hjk, hk, hv⟩
  · exact Or.inl ⟨i, hs, k, by omega, hk, hv⟩
  · exact Or.inr hnew

/-- **A push in turn** keeps the feeds in order. -/
theorem inOrder_push (h : InOrder c s) (hp : p < c.numPushUpdateThreads) (hw : Walls s)
    (hpop : Popped c s done) (hturn : InTurn c s (.push p)) (hst : PushStep c p s t) : InOrder c t := by
  have hmono : ∀ u, s.wallQueue u <+ t.wallQueue u := fun u => by rw [wallQueue_push hst]
  -- what was in the trail before is not after anything that is still to come
  have hold : ∀ v, (c.graph v).orderBy = 1 → ∀ x ∈ trail s v, ∀ q < c.numPushUpdateThreads, ∀ b,
      StillOwes c t q b v → b.userId = x.action.userId → NotAfter t x.action b := by
    intro v hv x hx q hq b hb hu
    rcases stillOwes_push hst hb with hb | hnew
    · exact (h.ahead v hv x hx q hq b hb hu).mono hmono
    · exact (hpop.before hw (hpop.trail v hv x hx) hnew hu).mono hmono
  have hsorted : ∀ v, (c.graph v).orderBy = 1 → (trail s v).Pairwise fun x y =>
      x.action.userId = y.action.userId → NotAfter t x.action y.action := fun v hv =>
    (h.sorted v hv).imp fun hxy hu => (hxy hu).mono hmono
  refine ⟨fun v hv => ?_, fun v hv x hx q hq b hb hu => ?_⟩
  · rcases trail_push hst hv with ht | ⟨a, i, hpc, hva, ht⟩
    · rw [ht]
      exact hsorted v hv
    · rw [ht]
      refine pairwise_append.2 ⟨hsorted v hv, pairwise_singleton _ _, fun x hx y hy hu => ?_⟩
      rw [mem_singleton.1 hy] at hu ⊢
      have hholds : (s.pushers p).holds = some (a, i) := by rw [hpc]; rfl
      have howes : StillOwes c s p a v :=
        ⟨i, hholds, i, le_rfl, (hpop.held p hp a i hholds).2, hva.symm⟩
      exact (h.ahead v hv x hx p hp a howes hu.symm).mono hmono
  · rcases trail_push hst hv with ht | ⟨a, i, hpc, hva, ht⟩
    · exact hold v hv x (ht ▸ hx) q hq b hb hu
    · rw [ht] at hx
      rcases mem_append.1 hx with hx | hx
      · exact hold v hv x hx q hq b hb hu
      · -- the copy that was pushed
        rw [mem_singleton.1 hx] at hu ⊢
        have hholds : (s.pushers p).holds = some (a, i) := by rw [hpc]; rfl
        have ha : a ∈ s.queued := hpop.queued ▸ mem_append_left _ (hpop.held p hp a i hholds).1
        rcases stillOwes_push hst hb with hb | hnew
        · obtain ⟨j, hj, -⟩ := id hb
          have hbq : b ∈ s.queued := hpop.queued ▸ mem_append_left _ (hpop.held q hq b j hj).1
          have hbw : b ∈ s.wallQueue a.userId := by rw [← hu]; exact hw.mem hbq
          have hlate := hturn a i hpc (hva ▸ hv) q hq b (hva ▸ hb) hu
          refine NotAfter.mono hmono ?_
          rcases sublist_total (hw.mem ha) hbw with hab | hab | hba
          · exact Or.inl hab
          · exact Or.inr hab
          · exact absurd hba hlate
        · exact (hpop.before hw (hpop.held p hp a i hholds).1 hnew hu).mono hmono

/-- What holds in every state of a run in turn. -/
structure Orderly (c : Config) (s : State) : Prop where
  walls : Walls s
  popped : ∃ done, Popped c s done
  inOrder : InOrder c s

theorem orderly_step {th : Thread} (h : Orderly c s) (hturn : InTurn c s th) (hst : Step c s th t) :
    Orderly c t := by
  obtain ⟨done, hpop⟩ := h.popped
  have hwall := wallQueue_step hst
  refine ⟨walls_step h.walls hst, popped_step h.popped hst, ?_⟩
  cases hst with
  | user hst => exact h.inOrder.same hwall (fun v _ => trail_user hst v) (holds_user hst)
  | push hp hst => exact inOrder_push h.inOrder hp h.walls hpop hturn hst
  | read _ hst => exact h.inOrder.same hwall (fun v hv => trail_read hst hv) (holds_read hst)

theorem Orderly.chronological (h : Orderly c s) : Chronological c s := by
  intro v hv u
  have hreads := (pairwise_append.1 (h.inOrder.sorted v hv)).1
  rw [pairwise_map] at hreads
  have hsub : (s.reads.filter fun y => y.node = v ∧ y.copy.action.userId = u) <+
      s.reads.filter fun y => y.node = v :=
    monotone_filter_right _ fun y hy => by simp_all
  unfold readFrom
  rw [pairwise_map]
  refine (hreads.sublist hsub).imp_of_mem fun {y z} hy hz hyz => ?_
  have hyu : y.copy.action.userId = u := (of_decide_eq_true (mem_filter.1 hy).2).2
  have hzu : z.copy.action.userId = u := (of_decide_eq_true (mem_filter.1 hz).2).2
  have hab := hyz (hyu.trans hzu.symm)
  exact ⟨hab, h.walls.stamps_le hab⟩

theorem walls (h : Reaches (Step c) State.init s) : Walls s :=
  reaches_inv (I := Walls) (fun _ _ _ => walls_step) walls_init h

theorem wall_nodup (h : Reaches (Step c) State.init s) (u : ℕ) : (s.wallQueue u).Nodup := by
  rw [(walls h).wall]
  exact (numbered h).nodup.filter _

/-- Two actions have one order. -/
theorem sublist_asymm {l : List Action} (hl : l.Nodup) (hab : [a, b] <+ l) : ¬ [b, a] <+ l := by
  induction l with
  | nil => exact absurd hab.length_le (by simp)
  | cons x l ih =>
    obtain ⟨hx, hl⟩ := nodup_cons.1 hl
    intro hba
    rcases sublist_cons_iff.1 hab with hab' | ⟨l₁, h₁, hb⟩
    · rcases sublist_cons_iff.1 hba with hba' | ⟨l₂, h₂, -⟩
      · exact ih hl hab' hba'
      · cases h₂
        exact hx (hab'.subset (mem_cons_of_mem a (mem_singleton_self b)))
    · cases h₁
      rcases sublist_cons_iff.1 hba with hba' | ⟨l₂, h₂, ha⟩
      · exact hx (hba'.subset (mem_cons_of_mem b (mem_singleton_self a)))
      · cases h₂
        exact hx (ha.subset (mem_singleton_self a))

theorem wallQueue_reaches (h : Reaches (Step c) s t) (u : ℕ) : s.wallQueue u <+ t.wallQueue u := by
  induction h with
  | refl => exact Sublist.refl _
  | tail _ hst ih => obtain ⟨th, hst⟩ := hst; exact ih.trans (wallQueue_step hst u)

/-- What is next in `new_action_q` was generated in this order. -/
theorem next_before (h : Reaches (Step c) State.init s) {l : List Action} (hq : s.newActionQ = a :: b :: l)
    (hu : b.userId = a.userId) : [a, b] <+ s.wallQueue a.userId := by
  obtain ⟨done, hpop⟩ : ∃ done, Popped c s done :=
    reaches_inv (I := fun s => ∃ done, Popped c s done) (fun _ _ _ => popped_step)
      ⟨[], popped_init c⟩ h
  refine (walls h).before ?_ hu
  rw [hpop.queued, hq]
  exact ((sublist_append_left [a, b] l)).trans (sublist_append_right done _)

theorem reads_userRun (h : UserRun c s t) : t.reads = s.reads := by
  induction h with
  | refl => rfl
  | tail _ hst ih => rw [← ih]; obtain ⟨hst, -⟩ := hst; cases hst <;> rfl

/-- The first two actions of node 0 are queued, and no other thread has moved. -/
theorem two_queued (hn : 0 < c.numNodes) (hd : (c.graph 0).degree = 1) :
    ∃ t a b, UserRun c State.init t ∧ t.newActionQ = [a, b] ∧ (a.userId = 0 ∧ b.userId = 0) ∧
      t.pushers = (fun _ => .top) ∧ t.readers = (fun _ => .top) ∧ t.feedUpdateQ = [] ∧
      t.feedQueue = (fun _ => []) ∧ t.reads = [] := by
  have hsel : UserStep c State.init _ :=
    .select (v := 0) rfl (by decide) hn not_mem_nil (by omega)
  obtain ⟨t, as, hgen, ht, hlen, hv, hq, hp, -⟩ := generate_run (c := c) (v := 0)
    (s := { State.init with nodeIds := [0], user := .generating 0 [] }) rfl (Nat.zero_le _) nofun
  have h10 : as.length = 10 := by rw [hlen, hd]; decide
  obtain ⟨a, b, rest, rfl⟩ : ∃ a b rest, as = a :: b :: rest := by
    rcases as with _ | ⟨a, _ | ⟨b, rest⟩⟩
    · cases h10
    · cases h10
    · exact ⟨a, b, rest, rfl⟩
  have h₁ := UserStep.push (c := c) ht
  have h₂ : UserStep c _ _ := .push (s := { t.wakePushers with
    newActionQ := t.newActionQ ++ [a], queued := t.queued ++ [a], user := .pushing (b :: rest) }) rfl
  have hrun := (((UserRun.of_step hsel (by decide)).trans hgen).trans
    (.of_step h₁ (by rw [ht]; nofun))).trans (.of_step h₂ (by nofun))
  have honly := hrun.only
  refine ⟨_, a, b, hrun, ?_, ⟨hv a (by simp), hv b (by simp)⟩, ?_, honly.readers, honly.feedUpdateQ,
    honly.feedQueue, reads_userRun hrun⟩
  · show (t.newActionQ ++ [a]) ++ [b] = [a, b]
    rw [hq]
    rfl
  · show wake (wake t.pushers .waiting .woken) .waiting .woken = fun _ => .top
    rw [hp]
    rfl

/-- A thread that has the only copy of `a` in its hands pushes it. -/
theorem notify_feed (hp : p < c.numPushUpdateThreads) (hpc : s.pushers p = .notifying a 0)
    (ho : (c.graph (c.neighbor a.userId 0).1).orderBy = 1) :
    ∃ s₁ t, Step c s (.push p) s₁ ∧ s₁.pushers p = .feeding a 0 ∧ Step c s₁ (.push p) t ∧
      (∀ q ≠ p, t.pushers q = s.pushers q) ∧ (∀ r, s.readers r = .top → t.readers r = .top) ∧
      t.feedUpdateQ = s.feedUpdateQ ++ [(c.neighbor a.userId 0).1] ∧ t.reads = s.reads ∧
      t.feedQueue (c.neighbor a.userId 0).1 = s.feedQueue (c.neighbor a.userId 0).1 ++ [⟨a, 0⟩] := by
  have h₁ : PushStep c p s _ := .notify hpc
  have h₂ : PushStep c p _ _ := .feed (pushTo_self { s.wakeReaders with
    feedUpdateQ := s.feedUpdateQ ++ [(c.neighbor a.userId 0).1] } p (.feeding a 0))
  refine ⟨_, _, .push hp h₁, pushTo_self .., .push hp h₂, fun q hq => ?_, fun r hr => ?_, ?_, ?_, ?_⟩
  · rw [push_pushers_ne h₂ hq, push_pushers_ne h₁ hq]
  · show (State.pushFeed c _ a 0).readers r = .top
    rw [pushFeed_readers]
    exact (wake_of_ne (by rw [hr]; decide)).trans hr
  · show (State.pushFeed c _ a 0).feedUpdateQ = _
    rw [pushFeed_feedUpdateQ]
    rfl
  · show (State.pushFeed c _ a 0).reads = _
    rw [pushFeed_reads]
    rfl
  · simp [State.pushTo, State.pushFeed, ho, State.wakeReaders]

/-- A reader that finds `v` in the queue reads its feed. -/
theorem pop_read (hr : r < c.numReadPostThreads) (hpc : s.readers r = .top) {l : List ℕ}
    (hq : s.feedUpdateQ = v :: l) (ho : (c.graph v).orderBy = 1) :
    ∃ s₁ t, Step c s (.read r) s₁ ∧ Step c s₁ (.read r) t ∧
      t.reads = s.reads ++ (s.feedQueue v).map (Read.mk r v) :=
  ⟨_, _, .read hr (.pop (.inl hpc) hq), .read hr (.readChrono (readTo_self ..) ho), rfl⟩

/-- The graph of `pairs`, and two threads of `pushUpdate`. -/
def twoThreads : Config := { pairs with numPushUpdateThreads := 2 }

end OsLab.Feed
