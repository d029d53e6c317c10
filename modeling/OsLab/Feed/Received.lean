import OsLab.Feed.Priority
import Mathlib.Algebra.BigOperators.Group.Finset.Piecewise
import Mathlib.Algebra.BigOperators.Ring.Finset

/-!
# From the file to the feeds

What the threads do on the graph that `readGraph` has read, in terms of the edges of the file. An
action of `u` is `received` by `v` when it is in a feed of `v` or has been read from it, and is
`underway` to `v` while it is in `new_action_q`, or a thread of `pushUpdate` has still to get to an
entry for `v` in the list of `u`. No step loses or makes one (`Delivery`), here without the positions
that tell the copies apart: those of `u` are summed over the entries for `v`, and the entries are the
edges between the two nodes.

* `copied_step`: every copy is for an entry of its poster, who is a node of the graph.
* `feed_system_delivers`: an action is received and underway as often as there are edges.
-/

namespace OsLab.Feed

open Lib

variable {c : Config} {s t : State} {p i v : ℕ} {a : Action}

/-- The copies of `a` in the two containers of `v`, and those read from them. -/
def received (s : State) (a : Action) (v : ℕ) : ℕ :=
  ((s.feedQueue v).map Copy.action).count a +
    ((s.priorityFeedQueue v).map fun y => y.2.action).count a +
    (((s.reads.filter fun y => y.node = v).map Read.copy).map Copy.action).count a

/-- The entries for `v` in the list of `u`, from position `i` on. -/
def entriesFrom (c : Config) (u v i : ℕ) : ℕ := (((c.graph u).neighbors.drop i).map Prod.fst).count v

/-- How often the thread has still to push `a` to `v`. -/
def toPush (c : Config) (a : Action) (v : ℕ) (pc : PushPc) : ℕ :=
  match pc.holds with
  | some (b, i) => if b = a then entriesFrom c a.userId v i else 0
  | none => 0

/-- How often `a` is still to come to `v`. -/
def underway (c : Config) (s : State) (a : Action) (v : ℕ) : ℕ :=
  s.newActionQ.count a * entriesFrom c a.userId v 0 +
    ∑ p ∈ Finset.range c.numPushUpdateThreads, toPush c a v (s.pushers p)

/-! ## Every copy is for an entry of its poster -/

/-- The posters are nodes of the graph, and the copies are for their neighbours. -/
structure Copied (c : Config) (s : State) : Prop where
  posters : ∀ a ∈ s.queued, a.userId < c.numNodes
  feeds : ∀ v, ∀ x ∈ feed c s v, IsCopy c x
  reads : ∀ y ∈ s.reads, IsCopy c y.copy

theorem copied_init (c : Config) : Copied c State.init where
  posters a ha := absurd ha List.not_mem_nil
  feeds v x hx := by
    rcases orderBy_cases c v with ho | ho
    · rw [feed_chrono ho] at hx
      exact absurd hx List.not_mem_nil
    · rw [feed_priority ho] at hx
      exact absurd hx List.not_mem_nil
  reads y hy := absurd hy List.not_mem_nil

theorem copied_user (hp : Posted c s) (h : Copied c s) (hst : UserStep c s t) : Copied c t := by
  cases hst with
  | @push b as hu =>
    refine ⟨fun a ha => ?_, h.feeds, h.reads⟩
    rcases List.mem_append.1 ha with ha | ha
    · exact h.posters a ha
    · refine hp.ahead a (List.mem_append_right _ ?_)
      rw [hu, List.mem_singleton.1 ha]
      exact List.mem_cons_self
  | _ => exact ⟨h.posters, h.feeds, h.reads⟩

theorem Copied.pushFeed (h : Copied c s) (hi : i < (c.graph a.userId).degree) :
    Copied c (s.pushFeed c a i) := by
  refine ⟨by simpa using h.posters, fun w x hx => ?_, by simpa using h.reads⟩
  have hcount := List.count_pos_iff.2 hx
  rw [count_feed_pushFeed] at hcount
  split_ifs at hcount with hnew
  · rw [hnew.2]
    exact hi
  · exact h.feeds w x (List.count_pos_iff.1 hcount)

theorem copied_step {th : Thread} (hp : Posted c s) (h : Copied c s) (hst : Step c s th t) :
    Copied c t := by
  cases hst with
  | user hst => exact copied_user hp h hst
  | push _ hst =>
    cases hst with
    | @feed a i hpc =>
      have hpush := h.pushFeed (hp.pushers _ a i (by rw [hpc]; rfl)).2
      exact ⟨hpush.posters, hpush.feeds, hpush.reads⟩
    | _ => exact ⟨h.posters, h.feeds, h.reads⟩
  | read _ hst =>
    cases hst with
    | @readChrono v _ ho =>
      refine ⟨h.posters, fun w x hx => ?_, fun y hy => ?_⟩
      · rw [feed_readChrono ho] at hx
        split_ifs at hx
        · exact absurd hx List.not_mem_nil
        · exact h.feeds w x hx
      · rcases List.mem_append.1 hy with hy | hy
        · exact h.reads y hy
        · obtain ⟨x, hx, rfl⟩ := List.mem_map.1 hy
          exact h.feeds v x (by rwa [feed_chrono ho])
    | @readPriority v l _ ho hl _ =>
      refine ⟨h.posters, fun w x hx => ?_, fun y hy => ?_⟩
      · rw [feed_readPriority ho] at hx
        split_ifs at hx
        · exact absurd hx List.not_mem_nil
        · exact h.feeds w x hx
      · rcases List.mem_append.1 hy with hy | hy
        · exact h.reads y hy
        · obtain ⟨x, hx, rfl⟩ := List.mem_map.1 hy
          refine h.feeds v x.2 ?_
          rw [feed_priority ho]
          exact List.mem_map_of_mem (hl.mem_iff.1 hx)
    | _ => exact ⟨h.posters, h.feeds, h.reads⟩

theorem copied (h : Reaches (Step c) State.init s) : Copied c s :=
  (reaches_inv (I := fun s => Posted c s ∧ Copied c s)
    (fun _ _ _ hI hst => ⟨posted_step hI.1 hst, copied_step hI.1 hI.2 hst⟩)
    ⟨posted_init c, copied_init c⟩ h).2

/-! ## The copies of an action by position -/

/-- The copies of `a` are those for the positions below `d`. -/
theorem count_by_position {l : List Copy} {d : ℕ} (h : ∀ x ∈ l, x.action = a → x.position < d) :
    (l.map Copy.action).count a = ∑ i ∈ Finset.range d, l.count ⟨a, i⟩ := by
  induction l with
  | nil => simp
  | cons x l ih =>
    obtain ⟨b, j⟩ := x
    have hl := ih fun x hx => h x (List.mem_cons_of_mem _ hx)
    simp only [List.map_cons, List.count_cons, hl, Finset.sum_add_distrib, beq_iff_eq, Copy.mk.injEq]
    by_cases hb : b = a
    · have hj : j ∈ Finset.range d := Finset.mem_range.2 (h _ List.mem_cons_self hb)
      simp only [hb, true_and, if_true, Finset.sum_ite_eq, if_pos hj]
    · simp only [hb, false_and, if_false, Finset.sum_const_zero]

/-- The entries of a list from position `k` on, by position. -/
theorem count_drop_eq {β : Type} [DecidableEq β] (l : List β) (d v : β) (k : ℕ) :
    (l.drop k).count v = ∑ i ∈ Finset.range l.length, if l.getD i d = v ∧ k ≤ i then 1 else 0 := by
  induction l generalizing k with
  | nil => simp
  | cons b l ih =>
    rw [List.length_cons, Finset.sum_range_succ']
    cases k with
    | zero =>
      have h0 := ih 0
      simp only [Nat.zero_le, and_true, List.drop_zero] at h0
      simp only [List.drop_zero, List.count_cons, List.getD_cons_succ, List.getD_cons_zero, Nat.zero_le,
        and_true, beq_iff_eq, h0]
    | succ k =>
      have hnone : ¬ (b = v ∧ k + 1 ≤ 0) := fun h => Nat.not_succ_le_zero k h.2
      simp only [List.drop_succ_cons, List.getD_cons_succ, List.getD_cons_zero, Nat.add_le_add_iff_right,
        if_neg hnone, Nat.add_zero]
      exact ih k

/-- The copies of `a` that are for `v`, by position. -/
def forNode (c : Config) (a : Action) (v : ℕ) (f : Copy → ℕ) : ℕ :=
  ∑ i ∈ Finset.range (c.graph a.userId).degree, if home c ⟨a, i⟩ = v then f ⟨a, i⟩ else 0

theorem forNode_add (f g : Copy → ℕ) :
    forNode c a v (fun x => f x + g x) = forNode c a v f + forNode c a v g := by
  unfold forNode
  rw [← Finset.sum_add_distrib]
  refine Finset.sum_congr rfl fun i _ => ?_
  split_ifs <;> rfl

theorem forNode_congr {f g : Copy → ℕ}
    (h : ∀ i < (c.graph a.userId).degree, home c ⟨a, i⟩ = v → f ⟨a, i⟩ = g ⟨a, i⟩) :
    forNode c a v f = forNode c a v g := by
  refine Finset.sum_congr rfl fun i hi => ?_
  split_ifs with hv
  · exact h i (Finset.mem_range.1 hi) hv
  · rfl

theorem entriesFrom_eq (c : Config) (a : Action) (v k : ℕ) :
    entriesFrom c a.userId v k = forNode c a v fun x => if k ≤ x.position then 1 else 0 := by
  have hlen : ((c.graph a.userId).neighbors.map Prod.fst).length = (c.graph a.userId).degree := by
    rw [List.length_map, (c.graph a.userId).degree_eq]
  unfold entriesFrom
  rw [List.map_drop, count_drop_eq _ 0, hlen]
  refine Finset.sum_congr rfl fun i _ => ?_
  have hget : ((c.graph a.userId).neighbors.map Prod.fst).getD i 0 = home c ⟨a, i⟩ := by
    simp only [home, Config.neighbor, List.getD_eq_getElem?_getD, List.getElem?_map]
    cases (c.graph a.userId).neighbors[i]? <;> rfl
  rw [hget]
  by_cases hv : home c ⟨a, i⟩ = v
  · simp only [hv, true_and, if_true]
  · simp only [hv, false_and, if_false]

theorem forNode_const (n : ℕ) : forNode c a v (fun _ => n) = n * entriesFrom c a.userId v 0 := by
  rw [entriesFrom_eq, forNode, forNode, Finset.mul_sum]
  refine Finset.sum_congr rfl fun i _ => ?_
  split_ifs <;> simp_all

theorem toPush_eq (pc : PushPc) : toPush c a v pc = forNode c a v fun x => owes x pc := by
  unfold toPush owes
  rcases pc.holds with _ | ⟨b, k⟩
  · rw [forNode_const, Nat.zero_mul]
  · dsimp only
    by_cases hb : b = a
    · subst hb
      rw [if_pos rfl, entriesFrom_eq]
      exact forNode_congr fun i _ _ => by simp only [true_and]
    · have hnone : forNode c a v (fun _ => 0) = 0 := by rw [forNode_const, Nat.zero_mul]
      rw [if_neg hb]
      exact hnone.symm.trans (forNode_congr fun i _ _ => (if_neg fun h => hb h.1).symm)

theorem underway_eq (s : State) : underway c s a v = forNode c a v fun x =>
    s.newActionQ.count x.action + ∑ p ∈ Finset.range c.numPushUpdateThreads, owes x (s.pushers p) := by
  rw [forNode_add, underway]
  congr 1
  · exact (forNode_const _).symm
  · unfold forNode
    simp only [toPush_eq, forNode]
    rw [Finset.sum_comm]
    refine Finset.sum_congr rfl fun i _ => ?_
    split_ifs
    · rfl
    · exact Finset.sum_const_zero

/-- Of what is in the feed of `v`, the copies for `v`. -/
theorem count_feed_eq (hd : Delivery c s) (hc : Copied c s) :
    ((feed c s v).map Copy.action).count a =
      forNode c a v fun x => (feed c s (home c x)).count x := by
  rw [count_by_position (d := (c.graph a.userId).degree) fun x hx hxa => by
    subst hxa; exact hc.feeds v x hx]
  refine Finset.sum_congr rfl fun i _ => ?_
  split_ifs with hv
  · subst hv
    rfl
  · exact List.count_eq_zero.2 fun hmem => hv (hd.placed v _ hmem)

theorem count_reads_eq (hr : ReadHome c s) (hc : Copied c s) :
    (((s.reads.filter fun y => y.node = v).map Read.copy).map Copy.action).count a =
      forNode c a v fun x => (s.reads.map Read.copy).count x := by
  rw [count_by_position (d := (c.graph a.userId).degree)]
  · refine Finset.sum_congr rfl fun i _ => ?_
    split_ifs with hv
    · -- what is read of the copy is read from its node
      dsimp only
      rw [List.count_eq_countP, List.count_eq_countP, List.countP_map, List.countP_map,
        List.countP_filter]
      refine List.countP_congr fun y hy => ?_
      have hnode := (hr y hy).2
      simp only [Function.comp_apply, beq_iff_eq, Bool.and_eq_true, decide_eq_true_eq,
        and_iff_left_iff_imp]
      intro hcopy
      rw [hnode, hcopy, hv]
    · refine List.count_eq_zero.2 fun hmem => hv ?_
      obtain ⟨y, hy, hcopy⟩ := List.mem_map.1 hmem
      obtain ⟨hy, hnode⟩ := List.mem_filter.1 hy
      rw [← hcopy, ← (hr y hy).2]
      exact of_decide_eq_true hnode
  · intro x hx hxa
    obtain ⟨y, hy, rfl⟩ := List.mem_map.1 hx
    subst hxa
    exact hc.reads y (List.mem_filter.1 hy).1

theorem received_eq (ho : OneFeed c s) (hd : Delivery c s) (hr : ReadHome c s) (hc : Copied c s) :
    received s a v = forNode c a v fun x =>
      (feed c s (home c x)).count x + (s.reads.map Read.copy).count x := by
  rw [forNode_add, ← count_feed_eq hd hc, ← count_reads_eq hr hc, received]
  congr 1
  rcases orderBy_cases c v with hv | hv
  · rw [feed_chrono hv, ho.chrono v hv]
    rfl
  · rw [feed_priority hv, ho.priority v hv, List.map_map]
    exact Nat.zero_add _

/-- What is received and underway is what the list of the poster asks for. -/
theorem received_add_underway (h : Reaches (Step c) State.init s) (a : Action) (v : ℕ) :
    received s a v + underway c s a v =
      if a ∈ s.queued then entriesFrom c a.userId v 0 else 0 := by
  have hd := delivery h
  have hall : received s a v + underway c s a v = forNode c a v fun _ => s.queued.count a := by
    rw [received_eq (oneFeed h) hd (readHome h) (copied h), underway_eq, ← forNode_add]
    refine forNode_congr fun i hi _ => ?_
    rw [← hd.conserved ⟨a, i⟩ hi]
    unfold tally
    dsimp only
    omega
  rw [hall, forNode_const]
  split_ifs with ha
  · rw [List.count_eq_one_of_mem (queued_nodup h) ha, Nat.one_mul]
  · rw [List.count_eq_zero_of_not_mem ha, Nat.zero_mul]

/-- The graph is read when the counts fit. -/
theorem readGraph_reads {n : ℕ} {edges : List (ℕ × ℕ)} (he : ∀ e ∈ edges, e.1 < n ∧ e.2 < n)
    (S : StdSort ByPriority) (hfit : CountsFit edges) :
    ∃ g, readGraph S n edges = some g ∧ Agrees n edges g := by
  obtain ⟨g, hg, hfilled⟩ := calcPriority_some he hfit.pairs
  obtain ⟨t, ht, hagrees⟩ := readGraph_agrees he S hfilled
  have hst := (readLines_eq_some he).2 ⟨⟨hfit.lines, hfit.degree⟩, rfl⟩
  refine ⟨t, ?_, hagrees⟩
  simp only [readGraph, hst, hg, ht, Option.bind_eq_bind, Option.bind_some]

/-- **The feed system delivers.** On the graph of a file whose counts fit, an action that
`userSimulator` has queued is received by a node and underway to it as often as there are edges
between its poster and the node, whatever the threads do, and no other action is. -/
theorem feed_system_delivers (S : StdSort ByPriority) {n : ℕ} {edges : List (ℕ × ℕ)}
    (he : ∀ e ∈ edges, e.1 < n ∧ e.2 < n) (hfit : CountsFit edges) :
    ∃ g, readGraph S n edges = some g ∧ ∀ c, Config.Runs c g → ∀ s, Reaches (Step c) State.init s →
      ∀ a v, received s a v + underway c s a v =
        if a ∈ s.queued then (ends edges a.userId).count v else 0 := by
  obtain ⟨g, hg, hagrees⟩ := readGraph_reads he S hfit
  refine ⟨g, hg, fun c hc s hs a v => ?_⟩
  rw [received_add_underway hs]
  split_ifs with ha
  · obtain ⟨hnum, hnode⟩ := hc
    have hu : a.userId < g.size := hnum ▸ (copied hs).posters a ha
    rw [entriesFrom, List.drop_zero, (hnode _ hu).2]
    exact (hagrees.nodes _ (hagrees.size ▸ hu)).count_eq v
  · rfl

/-! ## A run on a file -/

/-- The graph with threads, all feeds chronological. -/
def Graph.config (g : Graph) (pushers readers : ℕ) : Config where
  numNodes := g.size
  numPushUpdateThreads := pushers
  numReadPostThreads := readers
  graph u := ⟨(g.val u).neighbors.length, 1, (g.val u).neighbors, rfl, Nat.one_lt_two⟩

theorem Agrees.runs {n : ℕ} {edges : List (ℕ × ℕ)} {g : Graph} (h : Agrees n edges g)
    (pushers readers : ℕ) : (g.config pushers readers).Runs g :=
  ⟨rfl, fun u hu => ⟨(h.degree u (h.size ▸ hu)).symm, rfl⟩⟩

/-- Node 0 is selected, and its first action queued. -/
theorem first_queued (hn : 0 < c.numNodes) (hd : 0 < (c.graph 0).degree) :
    ∃ s a, Reaches (Step c) State.init s ∧ a ∈ s.queued ∧ a.userId = 0 := by
  have hsel : UserStep c State.init _ :=
    .select (v := 0) rfl (by decide) hn List.not_mem_nil hd
  obtain ⟨t, as, hgen, ht, hlen, hv, -⟩ := generate_run (c := c) (v := 0)
    (s := { State.init with nodeIds := [0], user := .generating 0 [] }) rfl (Nat.zero_le _) nofun
  have hpos := numActions_pos hd
  cases as with
  | nil => exact absurd hlen hpos.ne
  | cons a as =>
    refine ⟨_, a, ((UserRun.of_step hsel (by decide)).trans hgen).reaches.snoc (.user (.push ht)), ?_,
      hv a List.mem_cons_self⟩
    exact List.mem_append_right t.queued (List.mem_singleton_self a)

/-- In a triangle, the first action of node 0 is received by node 1 or underway to it. -/
theorem feed_system_delivers_triangle : ∃ (c : Config) (s : State) (a : Action),
    Reaches (Step c) State.init s ∧ a ∈ s.queued ∧ received s a 1 + underway c s a 1 = 1 := by
  have he : ∀ e ∈ [((0 : ℕ), (1 : ℕ)), (1, 2), (2, 0)], e.1 < 3 ∧ e.2 < 3 := by decide
  have hfit : CountsFit [(0, 1), (1, 2), (2, 0)] := by
    refine ⟨by decide, fun u => ?_, by decide⟩
    have hle := length_ends_le [(0, 1), (1, 2), (2, 0)] u
    have hmax : (6 : ℤ) ≤ intMax := by decide
    simp only [List.length_cons, List.length_nil] at hle
    omega
  obtain ⟨g, hg, hagrees⟩ := readGraph_reads he stableByPriority hfit
  obtain ⟨g', hg', hall⟩ := feed_system_delivers stableByPriority he hfit
  obtain rfl : g = g' := Option.some.inj (hg.symm.trans hg')
  have hdeg : (g.val 0).neighbors.length = 2 := by
    rw [← List.length_map Prod.fst, (hagrees.nodes 0 (by decide)).length_eq]
    rfl
  obtain ⟨s, a, hs, ha, hu⟩ := first_queued (c := g.config 25 10)
    (by show 0 < g.size; rw [hagrees.size]; decide) (by show 0 < (g.val 0).neighbors.length; omega)
  refine ⟨g.config 25 10, s, a, hs, ha, ?_⟩
  rw [hall _ (hagrees.runs 25 10) s hs a 1, if_pos ha, hu]
  rfl

end OsLab.Feed
