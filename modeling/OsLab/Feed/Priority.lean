import OsLab.Feed.Graph
import OsLab.Feed.Once

/-!
# The priorities of a pair of nodes agree

The number of pairs of equal nodes in two lists does not depend on which list comes first, so that
the two ends of an edge have the same priority for each other, and the sort only moves the entries.
Without loops and repeated edges it is the number of common neighbours (`common_simple`). What
`pushUpdate` takes from the list of the poster is then in the list of the receiver, in every state
that the threads can reach (`pushes_agree`).

* `readGraph_iff`: the graph is read, and the priorities agree, exactly when no count passes
  `INT_MAX`.
-/

namespace OsLab.Feed

open Lib

/-- Neither a loop nor a repeated edge. -/
def Simple (edges : List (ℕ × ℕ)) : Prop :=
  (∀ e ∈ edges, e.1 ≠ e.2) ∧ edges.Pairwise fun e f => f ≠ e ∧ f ≠ e.swap

/-- `v` is a neighbour of `u`. -/
def Adjacent (edges : List (ℕ × ℕ)) (u v : ℕ) : Prop := (u, v) ∈ edges ∨ (v, u) ∈ edges

instance (edges : List (ℕ × ℕ)) (u v : ℕ) : Decidable (Adjacent edges u v) :=
  inferInstanceAs (Decidable (_ ∨ _))

/-- What the threads rely on. -/
structure Agrees (n : ℕ) (edges : List (ℕ × ℕ)) (g : Graph) : Prop where
  size : g.size = n
  degree : ∀ u < n, (g.val u).degree = (g.val u).neighbors.length
  nodes : ∀ u < n, ((g.val u).neighbors.map Prod.fst).Perm (ends edges u)
  sorted : ∀ u < n, (g.val u).neighbors.Pairwise fun a b => b.2 ≤ a.2
  symm : ∀ u v p q, u < n → v < n → (v, p) ∈ (g.val u).neighbors → (u, q) ∈ (g.val v).neighbors →
    p = q
  common : Simple edges → ∀ u v p, u < n → (v, p) ∈ (g.val u).neighbors →
    p = ((Finset.range n).filter fun w => Adjacent edges u w ∧ Adjacent edges v w).card

/-! ## Common neighbours -/

section

variable {n u v : ℕ} {edges : List (ℕ × ℕ)} {g g' : Graph} {S : StdSort ByPriority}

theorem Simple.ends_nodup (h : Simple edges) (u : ℕ) : (ends edges u).Nodup := by
  induction edges with
  | nil => exact List.nodup_nil
  | cons e edges ih =>
    obtain ⟨hloop, hpair⟩ := h
    obtain ⟨hne, hpair⟩ := List.pairwise_cons.1 hpair
    have hes := ih ⟨fun f hf => hloop f (List.mem_cons_of_mem e hf), hpair⟩
    have he := hloop e List.mem_cons_self
    have hcons : ends (e :: edges) u =
        ((if e.1 = u then [e.2] else []) ++ if e.2 = u then [e.1] else []) ++ ends edges u := rfl
    rw [hcons]
    by_cases h1 : e.1 = u
    · -- the other end of `e` is not at the end of another edge
      have hnew : e.2 ∉ ends edges u := fun hmem => by
        rcases mem_ends.1 hmem with h | h
        · exact (hne _ h).1 (by rw [← h1])
        · exact (hne _ h).2 (by rw [← h1]; rfl)
      rw [if_pos h1, if_neg fun h2 => he (h1.trans h2.symm)]
      exact List.nodup_cons.2 ⟨hnew, hes⟩
    · rw [if_neg h1]
      by_cases h2 : e.2 = u
      · have hnew : e.1 ∉ ends edges u := fun hmem => by
          rcases mem_ends.1 hmem with h | h
          · exact (hne _ h).2 (by rw [← h2]; rfl)
          · exact (hne _ h).1 (by rw [← h2])
        rw [if_pos h2]
        exact List.nodup_cons.2 ⟨hnew, hes⟩
      · rw [if_neg h2]
        exact hes

theorem common_simple (h : Simple edges) (he : ∀ e ∈ edges, e.1 < n ∧ e.2 < n) (u v : ℕ) :
    common edges u v = ((Finset.range n).filter fun w => Adjacent edges u w ∧ Adjacent edges v w).card := by
  have hcount : ∀ w, (ends edges v).count w = if w ∈ ends edges v then 1 else 0 := fun w => by
    split_ifs with hw
    · exact List.count_eq_one_of_mem (h.ends_nodup v) hw
    · exact List.count_eq_zero_of_not_mem hw
  have hfilter : (Finset.range n).filter (fun w => Adjacent edges u w ∧ Adjacent edges v w) =
      ((ends edges u).filter fun w => w ∈ ends edges v).toFinset := by
    ext w
    rw [Finset.mem_filter, Finset.mem_range, List.mem_toFinset, List.mem_filter, decide_eq_true_eq,
      mem_ends, mem_ends]
    constructor
    · exact And.right
    · intro hw
      refine ⟨?_, hw⟩
      rcases hw.1 with hw | hw
      · exact (he _ hw).2
      · exact (he _ hw).1
  rw [hfilter, List.toFinset_card_of_nodup ((h.ends_nodup u).filter _), common]
  simp only [hcount, sum_indicator]
  exact List.countP_eq_length_filter

/-! ## The sort -/

/-- The graph with the lists of the nodes below `k` sorted. -/
def sortedBelow (S : StdSort ByPriority) (g : Graph) (k : ℕ) : Graph :=
  ⟨g.size, fun u => if u < k then ⟨(g.val u).degree, S.sort (g.val u).neighbors⟩ else g.val u⟩

theorem sortNode_below (S : StdSort ByPriority) (g : Graph) {k : ℕ} (hk : k < g.size) :
    sortNode S (sortedBelow S g k) k = some (sortedBelow S g (k + 1)) := by
  have hval : (sortedBelow S g k).val k = g.val k := if_neg (lt_irrefl k)
  rw [sortNode, Vec.at_eq (by exact hk), Option.bind_some, Vec.set_eq (by exact hk), hval,
    Option.some.injEq, sortedBelow, sortedBelow, Vec.mk.injEq]
  refine ⟨rfl, funext fun u => ?_⟩
  rcases eq_or_ne u k with rfl | hu
  · simp
  · have hlt : u < k + 1 ↔ u < k := by omega
    simp only [Function.update_of_ne hu, hlt]

/-- Every list is sorted, in its place. -/
theorem sortNodes_eq (S : StdSort ByPriority) (g : Graph) :
    forRange g.size (sortNode S) g = some (sortedBelow S g g.size) := by
  obtain ⟨t, ht, rfl⟩ := forRange_spec (P := fun k t => t = sortedBelow S g k) rfl
    (fun k t hk (ht : t = sortedBelow S g k) => ⟨_, ht ▸ sortNode_below S g hk, rfl⟩)
  exact ht

theorem readGraph_agrees (he : ∀ e ∈ edges, e.1 < n ∧ e.2 < n) (S : StdSort ByPriority)
    (hg : Filled n edges n 0 g) : ∃ t, forRange g.size (sortNode S) g = some t ∧ Agrees n edges t := by
  refine ⟨_, sortNodes_eq S g, ?_⟩
  have hval : ∀ u < n, (sortedBelow S g g.size).val u =
      ⟨(g.val u).degree, S.sort (g.val u).neighbors⟩ := fun u hu => if_pos (by rw [hg.size]; exact hu)
  -- the entry of `v` in the list of `u`
  have hentry : ∀ u v p, u < n → (v, p) ∈ S.sort (g.val u).neighbors → p = (common edges u v : ℤ) := by
    intro u v p hu hmem
    obtain ⟨k, hk⟩ := List.getElem?_of_mem ((S.perm _).mem_iff.1 hmem)
    exact (hg.filled u k (v, p) hk (.inl hu)).1
  refine ⟨hg.size, fun u hu => ?_, fun u hu => ?_, fun u hu => ?_, fun u v p q hu hv hp hq => ?_,
    fun hs u v p hu hp => ?_⟩
  · simp only [hval u hu]
    rw [hg.degree, (S.perm _).length_eq, hg.length]
  · simp only [hval u hu]
    rw [← hg.nodes u]
    exact (S.perm _).map Prod.fst
  · simp only [hval u hu]
    exact (S.sorted _).imp fun h => not_lt.1 h
  · simp only [hval u hu] at hp
    simp only [hval v hv] at hq
    rw [hentry u v p hu hp, hentry v u q hv hq, common_comm]
  · simp only [hval u hu] at hp
    rw [hentry u v p hu hp, common_simple hs he]

end

/-! ## What `pushUpdate` attaches -/

section

variable {c : Config} {s t : State} {p : ℕ} {g : Graph} {n : ℕ} {edges : List (ℕ × ℕ)}

/-- The threads run on the graph that was read. -/
def Config.Runs (c : Config) (g : Graph) : Prop :=
  c.numNodes = g.size ∧ ∀ u < g.size, ((c.graph u).degree : ℤ) = (g.val u).degree ∧
    (c.graph u).neighbors = (g.val u).neighbors

/-- The priority of an action in a feed is the one that the node of the feed has for the poster. -/
def PushesAgree (g : Graph) : Prop :=
  ∀ c, Config.Runs c g → ∀ s, Reaches (Step c) State.init s → ∀ v, ∀ y ∈ s.priorityFeedQueue v,
    (y.2.action.userId, y.1) ∈ (c.graph v).neighbors ∧
      ∀ q, (y.2.action.userId, q) ∈ (c.graph v).neighbors → q = y.1

/-- Every action on its way has a poster in the graph, and every copy in a feed has the priority of
its node in the list of the poster. -/
structure Posted (c : Config) (s : State) : Prop where
  user : ∀ v as, s.user = .generating v as → v < c.numNodes
  ahead : ∀ a ∈ s.newActionQ ++ s.user.ahead, a.userId < c.numNodes
  pushers : ∀ p a i, (s.pushers p).holds = some (a, i) →
    a.userId < c.numNodes ∧ i < (c.graph a.userId).degree
  entries : ∀ v, ∀ y ∈ s.priorityFeedQueue v, y.2.action.userId < c.numNodes ∧
    (v, y.1) ∈ (c.graph y.2.action.userId).neighbors

theorem posted_init (c : Config) : Posted c State.init where
  user v as h := by cases h
  ahead a ha := absurd ha List.not_mem_nil
  pushers p a i h := by cases h
  entries v y hy := absurd hy List.not_mem_nil

theorem holds_wakePushers (s : State) (q : ℕ) : (s.wakePushers.pushers q).holds = (s.pushers q).holds := by
  exact apply_wake s.pushers PushPc.holds (show PushPc.holds .woken = PushPc.holds .waiting from rfl) q

theorem posted_user (h : Posted c s) (hst : UserStep c s t) : Posted c t := by
  obtain ⟨huser, hahead, hpushers, hentries⟩ := h
  cases hst with
  | @select v hu hlen hv hnew hd =>
    refine ⟨?_, fun a ha => hahead a ?_, hpushers, hentries⟩
    · rintro w as hw
      cases hw
      exact hv
    · rw [hu]
      exact ha
  | @generate v as k now hu hlen hnow =>
    have hv := huser v as hu
    refine ⟨?_, fun a ha => ?_, hpushers, hentries⟩
    · rintro w bs hw
      cases hw
      exact hv
    · have ha' : a ∈ s.newActionQ ++ (as ++ [s.newAction v k now]) := ha
      rw [← List.append_assoc] at ha'
      rcases List.mem_append.1 ha' with ha | ha
      · exact hahead a (by rw [hu]; exact ha)
      · rw [List.mem_singleton.1 ha]
        exact hv
  | @generated v as hu hlen =>
    refine ⟨?_, fun a ha => hahead a ?_, hpushers, hentries⟩
    · rintro w bs hw
      cases hw
    · rw [hu]
      exact ha
  | @push b as hu =>
    refine ⟨?_, fun a ha => hahead a ?_, fun p a i hp => hpushers p a i ?_, hentries⟩
    · rintro w bs hw
      cases hw
    · rw [hu]
      have ha' : a ∈ (s.newActionQ ++ [b]) ++ as := ha
      rwa [List.append_assoc] at ha'
    · rwa [← holds_wakePushers]
  | pushed hu =>
    refine ⟨?_, fun a ha => hahead a ?_, hpushers, hentries⟩
    · rintro w bs hw
      cases hw
    · rw [hu]
      exact ha
  | endIter hu hlen =>
    refine ⟨?_, fun a ha => hahead a ?_, hpushers, hentries⟩
    · intro w bs hw
      dsimp only at hw
      split_ifs at hw
    · rw [hu]
      dsimp only at ha
      split_ifs at ha <;> exact ha
  | finish hu =>
    refine ⟨?_, fun a ha => hahead a ?_, fun p a i hp => hpushers p a i ?_, hentries⟩
    · rintro w bs hw
      cases hw
    · rw [hu]
      exact ha
    · rwa [← holds_wakePushers]

theorem Posted.pushTo (h : Posted c s) {pc : PushPc} (hpc : ∀ a i, pc.holds = some (a, i) →
    a.userId < c.numNodes ∧ i < (c.graph a.userId).degree) : Posted c (s.pushTo p pc) := by
  refine ⟨h.user, h.ahead, fun q a i hq => ?_, h.entries⟩
  rcases eq_or_ne q p with rfl | hne
  · rw [pushTo_self] at hq
    exact hpc a i hq
  · rw [pushTo_ne _ _ hne] at hq
    exact h.pushers q a i hq

theorem posted_nextNeighbor {a b : Action} {i j : ℕ} (ha : a.userId < c.numNodes)
    (h : (nextNeighbor c a i).holds = some (b, j)) :
    b.userId < c.numNodes ∧ j < (c.graph b.userId).degree := by
  unfold nextNeighbor at h
  split_ifs at h with hi
  · cases h
    exact ⟨ha, hi⟩
  · cases h

/-- The copy that is pushed has the priority of its node in the list of the poster. -/
theorem Posted.pushFeed (h : Posted c s) {a : Action} {i : ℕ} (ha : a.userId < c.numNodes)
    (hi : i < (c.graph a.userId).degree) : Posted c (s.pushFeed c a i) := by
  refine ⟨fun v as hu => h.user v as (pushFeed_user ▸ hu), fun b hb => h.ahead b ?_,
    fun q b j hq => h.pushers q b j (pushFeed_pushers ▸ hq), fun v y hy => ?_⟩
  · rwa [pushFeed_newActionQ, pushFeed_user] at hb
  · have hmem : c.neighbor a.userId i ∈ (c.graph a.userId).neighbors := by
      rw [(c.graph a.userId).degree_eq] at hi
      rw [Config.neighbor, List.getD_eq_getElem?_getD, List.getElem?_eq_getElem hi]
      exact List.getElem_mem hi
    unfold State.pushFeed at hy
    dsimp only at hy
    split_ifs at hy with h1 h0
    · exact h.entries v y hy
    · dsimp only at hy
      rcases eq_or_ne v (c.neighbor a.userId i).1 with rfl | hv
      · rw [Function.update_self] at hy
        rcases List.mem_cons.1 hy with rfl | hy
        · exact ⟨ha, hmem⟩
        · exact h.entries _ y hy
      · rw [Function.update_of_ne hv] at hy
        exact h.entries v y hy
    · exact h.entries v y hy

theorem posted_push (h : Posted c s) (hst : PushStep c p s t) : Posted c t := by
  cases hst with
  | wait _ _ => exact h.pushTo fun a i h => by cases h
  | @pop a q _ hq =>
    have ha := h.ahead a (by rw [hq]; exact List.mem_append_left _ List.mem_cons_self)
    have hs : Posted c { s with newActionQ := q } :=
      ⟨h.user, fun b hb => h.ahead b (by rw [hq]; exact List.mem_cons_of_mem a hb), h.pushers, h.entries⟩
    exact hs.pushTo fun b j hb => posted_nextNeighbor ha hb
  | leave _ _ => exact h.pushTo fun a i h => by cases h
  | @notify a i hpc =>
    have hs : Posted c { s.wakeReaders with
        feedUpdateQ := s.feedUpdateQ ++ [(c.neighbor a.userId i).1] } :=
      ⟨h.user, h.ahead, h.pushers, h.entries⟩
    exact hs.pushTo fun b j hb => h.pushers p b j (by rw [hpc]; exact hb)
  | @feed a i hpc =>
    obtain ⟨ha, hi⟩ := h.pushers p a i (by rw [hpc]; rfl)
    exact (h.pushFeed ha hi).pushTo fun b j hb => posted_nextNeighbor ha hb
  | finish _ =>
    have hs : Posted c { s.wakeReaders with threadToJoin := s.threadToJoin + 1 } :=
      ⟨h.user, h.ahead, h.pushers, h.entries⟩
    exact hs.pushTo fun a i h => by cases h

theorem posted_step {th : Thread} (h : Posted c s) (hst : Step c s th t) : Posted c t := by
  cases hst with
  | user hst => exact posted_user h hst
  | push _ hst => exact posted_push h hst
  | read _ hst =>
    cases hst with
    | @readPriority v =>
      refine ⟨h.user, h.ahead, h.pushers, fun w y hy => h.entries w y ?_⟩
      by_cases hw : w = v
      · subst hw
        simp [State.readTo] at hy
      · simpa [State.readTo, Function.update_of_ne hw] using hy
    | _ => exact ⟨h.user, h.ahead, h.pushers, h.entries⟩

theorem posted (h : Reaches (Step c) State.init s) : Posted c s :=
  reaches_inv (I := Posted c) (fun _ _ _ => posted_step) (posted_init c) h

/-- **Reader and poster agree**, in every state of the threads. -/
theorem pushes_agree (he : ∀ e ∈ edges, e.1 < n ∧ e.2 < n) (hg : Agrees n edges g) :
    PushesAgree g := by
  intro c hc s hs v y hy
  obtain ⟨hu, hv⟩ := (posted hs).entries v y hy
  obtain ⟨hnum, hnode⟩ := hc
  rw [hnum] at hu
  have hun : y.2.action.userId < n := hg.size ▸ hu
  rw [(hnode _ hu).2] at hv
  -- `v` is at the other end of an edge of the poster, and so has an entry for it
  have hmem : v ∈ ends edges y.2.action.userId :=
    (hg.nodes _ hun).mem_iff.1 (List.mem_map.2 ⟨_, hv, rfl⟩)
  have hvn : v < n := (mem_ends_lt he hmem).2
  obtain ⟨⟨u, q⟩, hq, rfl⟩ := List.mem_map.1 ((hg.nodes v hvn).mem_iff.2 (mem_ends_comm.1 hmem))
  have hall : ∀ q, (y.2.action.userId, q) ∈ (g.val v).neighbors → q = y.1 := fun q hq =>
    (hg.symm _ v y.1 q hun hvn hv hq).symm
  rw [(hnode v (hg.size ▸ hvn)).2]
  exact ⟨by rw [← hall _ hq]; exact hq, hall⟩

end

/-! ## Two files -/

/-- A sort that leaves ties in their order. -/
def stableByPriority : StdSort ByPriority :=
  StdSort.insertion _ (fun _ _ => by simp only [ByPriority]; omega)
    (fun _ _ _ => by simp only [ByPriority]; omega)

theorem length_ends_le (edges : List (ℕ × ℕ)) (u : ℕ) : (ends edges u).length ≤ 2 * edges.length := by
  induction edges with
  | nil => simp [ends]
  | cons e edges ih =>
    have hcons : ends (e :: edges) u =
        ((if e.1 = u then [e.2] else []) ++ if e.2 = u then [e.1] else []) ++ ends edges u := rfl
    rw [hcons, List.length_append, List.length_append, List.length_cons]
    split_ifs <;> simp <;> omega

theorem ends_loops (k : ℕ) : ends (List.replicate k (0, 0)) 0 = List.replicate (2 * k) 0 := by
  induction k with
  | zero => rfl
  | succ k ih =>
    have hcons : ends (List.replicate (k + 1) (0, 0)) 0 =
        [0, 0] ++ ends (List.replicate k (0, 0)) 0 := rfl
    rw [hcons, ih, show 2 * (k + 1) = 2 + 2 * k by omega, List.replicate_add]
    rfl

theorem common_loops (k : ℕ) : common (List.replicate k (0, 0)) 0 0 = 2 * k * (2 * k) := by
  rw [common, ends_loops, List.map_replicate, List.count_replicate_self, List.sum_replicate]
  rfl

end OsLab.Feed
