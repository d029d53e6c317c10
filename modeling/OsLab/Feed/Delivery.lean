import OsLab.Feed.Feeds

/-!
# Every copy of an action is somewhere

`userSimulator` queues an action once, and each neighbour of its poster is to get a copy. A copy
is still to come while the action is in `new_action_q` or a thread of `pushUpdate` has not got
to its position, then it is in the feed of its node, and then it has been read. `tally c s x`
counts the places of the copy `x`.

* `delivery_step`: each step moves a copy from one place to another, or leaves it.
* `delivered`: when nothing is under way, every copy of every queued action has reached a feed.
-/

namespace OsLab.Feed

open Lib

variable {c : Config} {s t : State} {p r i : ℕ} {a : Action} {x : Copy}

/-- The node that the copy is for. -/
def home (c : Config) (x : Copy) : ℕ := (c.neighbor x.action.userId x.position).1

/-- The action in the hands of a thread of `pushUpdate`, with the position it has got to. -/
def PushPc.holds : PushPc → Option (Action × ℕ)
  | .notifying a i | .feeding a i => some (a, i)
  | _ => none

/-- 1 for a thread that has still to push the copy `x`. -/
def owes (x : Copy) (pc : PushPc) : ℕ :=
  match pc.holds with
  | some (a, i) => if a = x.action ∧ i ≤ x.position then 1 else 0
  | none => 0

/-- The places of the copy `x`. -/
def tally (c : Config) (s : State) (x : Copy) : ℕ :=
  s.newActionQ.count x.action + (∑ p ∈ Finset.range c.numPushUpdateThreads, owes x (s.pushers p)) +
    (feed c s (home c x)).count x + (s.reads.map Read.copy).count x

/-- `x` is for a neighbour of the poster. -/
def IsCopy (c : Config) (x : Copy) : Prop := x.position < (c.graph x.action.userId).degree

/-- A copy is in no feed but that of its node, and it has as many places as its action was
queued times. -/
structure Delivery (c : Config) (s : State) : Prop where
  placed : ∀ v, ∀ x ∈ feed c s v, home c x = v
  conserved : ∀ x, IsCopy c x → tally c s x = s.queued.count x.action

theorem delivery_init (c : Config) : Delivery c State.init where
  placed v x hx := by
    rcases orderBy_cases c v with ho | ho
    · rw [feed_chrono ho] at hx
      exact absurd hx List.not_mem_nil
    · rw [feed_priority ho] at hx
      exact absurd hx List.not_mem_nil
  conserved x _ := by
    unfold tally feed
    split_ifs <;> simp [State.init, owes, PushPc.holds]

/-! ## The steps -/

theorem tally_pushTo (hp : p < c.numPushUpdateThreads) (pc : PushPc) (x : Copy) :
    tally c (s.pushTo p pc) x + owes x (s.pushers p) = tally c s x + owes x pc := by
  have h := sum_update s.pushers (owes x) hp pc
  have hfeed : feed c (s.pushTo p pc) (home c x) = feed c s (home c x) := rfl
  unfold tally
  rw [hfeed]
  unfold State.pushTo
  dsimp only
  omega

theorem sum_wake_owes (n : ℕ) (f : ℕ → PushPc) (x : Copy) :
    ∑ p ∈ Finset.range n, owes x (wake f .waiting .woken p) = ∑ p ∈ Finset.range n, owes x (f p) :=
  sum_wake f (owes x) rfl

/-- The loop goes on at position `i`: what comes before it is no longer owed. -/
theorem owes_nextNeighbor (hx : IsCopy c x) :
    owes x (nextNeighbor c a i) = if a = x.action ∧ i ≤ x.position then 1 else 0 := by
  unfold nextNeighbor
  split_ifs with hi h h
  · exact if_pos h
  · exact if_neg h
  · obtain ⟨rfl, hle⟩ := h
    exact absurd (Nat.lt_of_le_of_lt hle hx) hi
  · rfl

/-- What is owed from position `i` on is the copy for it, and what is owed from `i + 1` on. -/
theorem owed_succ (a : Action) (i : ℕ) (x : Copy) :
    (if a = x.action ∧ i ≤ x.position then 1 else 0) =
      (if x = ⟨a, i⟩ then 1 else 0) + if a = x.action ∧ i + 1 ≤ x.position then 1 else 0 := by
  obtain ⟨b, j⟩ := x
  simp only [Copy.mk.injEq]
  by_cases ha : a = b
  · subst ha
    simp only [true_and]
    split_ifs <;> omega
  · simp [ha, Ne.symm ha]

/-- A step that moves no copy. -/
theorem Delivery.same (h : Delivery c s) (hf : ∀ v, feed c t v = feed c s v)
    (ht : ∀ x, IsCopy c x → tally c t x = tally c s x) (hq : t.queued = s.queued) :
    Delivery c t where
  placed v x hx := h.placed v x (by rwa [hf] at hx)
  conserved x hx := by rw [ht x hx, h.conserved x hx, hq]

theorem delivery_user (h : Delivery c s) (hst : UserStep c s t) : Delivery c t := by
  cases hst with
  | @push a as _ =>
    refine ⟨h.placed, ?_⟩
    intro x hx
    -- queued once more, and once more in `new_action_q`
    show (s.newActionQ ++ [a]).count x.action +
        (∑ p ∈ Finset.range c.numPushUpdateThreads, owes x (wake s.pushers .waiting .woken p)) +
        (feed c s (home c x)).count x + (s.reads.map Read.copy).count x =
      (s.queued ++ [a]).count x.action
    rw [sum_wake_owes, List.count_append, List.count_append, ← h.conserved x hx]
    unfold tally
    omega
  | finish _ =>
    refine h.same (fun _ => rfl) ?_ rfl
    intro x _
    unfold tally
    rw [← sum_wake_owes _ s.pushers]
    rfl
  | _ => exact h.same (fun _ => rfl) (fun _ _ => rfl) rfl

/-- An action that is popped. -/
theorem tally_pop {q : List Action} (hq : s.newActionQ = a :: q) (x : Copy) :
    tally c { s with newActionQ := q } x + (if a = x.action then 1 else 0) = tally c s x := by
  show q.count x.action +
      (∑ p ∈ Finset.range c.numPushUpdateThreads, owes x (s.pushers p)) +
      (feed c s (home c x)).count x + (s.reads.map Read.copy).count x + _ = _
  unfold tally
  rw [hq, List.count_cons]
  simp only [beq_iff_eq]
  omega

/-- The copy for position `i` that is pushed to a feed. -/
theorem tally_pushFeed (a : Action) (i : ℕ) (x : Copy) :
    tally c (s.pushFeed c a i) x = tally c s x + if x = ⟨a, i⟩ then 1 else 0 := by
  have hcount := count_feed_pushFeed (c := c) (s := s) (a := a) (i := i) (home c x) x
  have hif : (if home c x = (c.neighbor a.userId i).1 ∧ x = ⟨a, i⟩ then 1 else 0) =
      if x = ⟨a, i⟩ then 1 else 0 := by
    apply if_congr _ rfl rfl
    constructor
    · intro hx
      exact hx.2
    · intro hx
      subst hx
      exact ⟨rfl, rfl⟩
  unfold tally
  simp only [pushFeed_newActionQ, pushFeed_pushers, pushFeed_reads]
  omega

/-- The copy for position `i` goes from the thread to the feed of its node. -/
theorem Delivery.pushed (h : Delivery c s) (hp : p < c.numPushUpdateThreads)
    (hpc : s.pushers p = .feeding a i) :
    Delivery c ((s.pushFeed c a i).pushTo p (nextNeighbor c a (i + 1))) := by
  constructor
  · intro v x hx
    have hcount := count_feed_pushFeed (c := c) (s := s) (a := a) (i := i) v x
    by_cases hnew : v = (c.neighbor a.userId i).1 ∧ x = ⟨a, i⟩
    · obtain ⟨rfl, rfl⟩ := hnew
      rfl
    · rw [if_neg hnew] at hcount
      apply h.placed v x
      apply List.count_pos_iff.1
      have hpos : 0 < (feed c (s.pushFeed c a i) v).count x := List.count_pos_iff.2 hx
      omega
  · intro x hx
    have hmove := tally_pushTo (s := s.pushFeed c a i) hp (nextNeighbor c a (i + 1)) x
    have howes : owes x (s.pushers p) = if a = x.action ∧ i ≤ x.position then 1 else 0 := by
      rw [hpc]
      rfl
    have hq : (s.pushFeed c a i).queued = s.queued := pushFeed_queued
    have hc := h.conserved x hx
    rw [pushFeed_pushers, howes, owes_nextNeighbor hx, tally_pushFeed, owed_succ] at hmove
    show tally c ((s.pushFeed c a i).pushTo p (nextNeighbor c a (i + 1))) x =
      (s.pushFeed c a i).queued.count x.action
    rw [hq]
    omega

theorem delivery_push (h : Delivery c s) (hp : p < c.numPushUpdateThreads)
    (hst : PushStep c p s t) : Delivery c t := by
  cases hst with
  | wait hpc _ =>
    refine h.same (fun _ => rfl) ?_ rfl
    intro x _
    have hmove := tally_pushTo (s := s) hp .waiting x
    have : owes x (s.pushers p) = 0 := by rcases hpc with hpc | ⟨hpc, -⟩ <;> rw [hpc] <;> rfl
    have : owes x .waiting = 0 := rfl
    omega
  | @pop a q hpc hq =>
    refine h.same (fun _ => rfl) ?_ rfl
    intro x hx
    have hmove := tally_pushTo (s := { s with newActionQ := q }) hp (nextNeighbor c a 0) x
    have h0 : owes x (s.pushers p) = 0 := by rcases hpc with hpc | ⟨hpc, -⟩ <;> rw [hpc] <;> rfl
    -- what the queue loses, the thread owes from position 0 on
    have hpop := tally_pop (c := c) hq x
    rw [owes_nextNeighbor hx] at hmove
    simp only [Nat.zero_le, and_true] at hmove
    omega
  | leave hpc _ =>
    refine h.same (fun _ => rfl) ?_ rfl
    intro x _
    have hmove := tally_pushTo (s := s) hp .leaving x
    rw [hpc] at hmove
    exact hmove
  | @notify a i hpc =>
    refine h.same (fun _ => rfl) ?_ rfl
    intro x _
    have hmove := tally_pushTo (s := { s.wakeReaders with
      feedUpdateQ := s.feedUpdateQ ++ [(c.neighbor a.userId i).1] }) hp (.feeding a i) x
    have hsame : owes x (s.pushers p) = owes x (.feeding a i) := by rw [hpc]; rfl
    have hu : tally c { s.wakeReaders with
      feedUpdateQ := s.feedUpdateQ ++ [(c.neighbor a.userId i).1] } x = tally c s x := rfl
    have hpush : ({ s.wakeReaders with
      feedUpdateQ := s.feedUpdateQ ++ [(c.neighbor a.userId i).1] } : State).pushers = s.pushers := rfl
    rw [hpush] at hmove
    omega
  | feed hpc => exact h.pushed hp hpc
  | finish hpc =>
    refine h.same (fun _ => rfl) ?_ rfl
    intro x _
    have hmove := tally_pushTo (s := { s.wakeReaders with
      threadToJoin := s.threadToJoin + 1 }) hp .finished x
    have h0 : owes x (s.pushers p) = 0 := by rw [hpc]; rfl
    have hpush : ({ s.wakeReaders with threadToJoin := s.threadToJoin + 1 } : State).pushers =
      s.pushers := rfl
    rw [hpush, h0] at hmove
    exact hmove

/-- A reader empties the feed of `v` and has read what was there. -/
theorem Delivery.read (h : Delivery c s) {v : ℕ} {l : List Copy} (hl : l.Perm (feed c s v))
    (hf : ∀ w, feed c t w = if w = v then [] else feed c s w)
    (hr : t.reads.map Read.copy = s.reads.map Read.copy ++ l)
    (hn : t.newActionQ = s.newActionQ) (hp : t.pushers = s.pushers) (hq : t.queued = s.queued) :
    Delivery c t where
  placed w x hx := by
    rw [hf] at hx
    split_ifs at hx with hw
    · exact absurd hx List.not_mem_nil
    · exact h.placed w x hx
  conserved x hx := by
    have hc := h.conserved x hx
    unfold tally at hc ⊢
    rw [hq, ← hc, hn, hp, hr, hf, List.count_append, hl.count_eq]
    by_cases hv : home c x = v
    · -- the copies in the feed have become copies that were read
      rw [if_pos hv, List.count_nil, hv]
      omega
    · -- a copy for another node is not in this feed
      have hnot : x ∉ feed c s v := fun hmem => hv (h.placed v x hmem)
      rw [if_neg hv, List.count_eq_zero.2 hnot]
      omega

theorem delivery_read (h : Delivery c s) (hst : ReadStep c r s t) : Delivery c t := by
  cases hst with
  | readChrono _ ho =>
    refine h.read (.of_eq (feed_chrono ho).symm) (feed_readChrono ho _ _) ?_ rfl rfl rfl
    simp [State.readTo, Function.comp_def]
  | @readPriority v l _ ho hl _ =>
    refine h.read (l := l.map Prod.snd) ?_ (feed_readPriority ho _ _) ?_ rfl rfl rfl
    · rw [feed_priority ho]
      exact hl.map _
    · simp [State.readTo, Function.comp_def]
  | _ => exact h.same (fun _ => rfl) (fun _ _ => rfl) rfl

theorem delivery_step {th : Thread} (h : Delivery c s) (hst : Step c s th t) : Delivery c t := by
  cases hst with
  | user hst => exact delivery_user h hst
  | push hp hst => exact delivery_push h hp hst
  | read _ hst => exact delivery_read h hst

/-- **Every copy of every queued action is somewhere**, in as many places as the action was
queued times. -/
theorem delivery (h : Reaches (Step c) State.init s) : Delivery c s :=
  reaches_inv (I := Delivery c) (fun _ _ _ => delivery_step) (delivery_init c) h

/-- The copy is in the feed of its node, or has been read. -/
def Delivered (c : Config) (s : State) (x : Copy) : Prop :=
  x ∈ feed c s (home c x) ∨ x ∈ s.reads.map Read.copy

/-- When nothing is queued and no thread has an action in its hands, every copy has been
delivered. -/
theorem delivered (h : Reaches (Step c) State.init s) (hq : s.newActionQ = [])
    (hp : ∀ p < c.numPushUpdateThreads, (s.pushers p).holds = none) {a : Action}
    (ha : a ∈ s.queued) (hi : i < (c.graph a.userId).degree) : Delivered c s ⟨a, i⟩ := by
  have hc := (delivery h).conserved ⟨a, i⟩ hi
  have hpos := List.count_pos_iff.2 ha
  have hsum : ∑ p ∈ Finset.range c.numPushUpdateThreads, owes ⟨a, i⟩ (s.pushers p) = 0 := by
    apply Finset.sum_eq_zero
    intro p hmem
    unfold owes
    rw [hp p (Finset.mem_range.1 hmem)]
  -- only the feed and the readings are left to hold the copy
  unfold tally at hc
  rw [hq, hsum, List.count_nil] at hc
  dsimp only at hc
  rcases Nat.eq_zero_or_pos ((feed c s (home c ⟨a, i⟩)).count ⟨a, i⟩) with h0 | h0
  · exact .inr (List.count_pos_iff.1 (by omega))
  · exact .inl (List.count_pos_iff.1 h0)

end OsLab.Feed
