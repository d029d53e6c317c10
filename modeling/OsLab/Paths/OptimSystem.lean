import OsLab.Paths.Followers

/-!
# The ten optimised consumers

The producer with the ten consumers that run with `-o`. A timely poll finds exactly one publication
that the consumer has not seen, so that it is a growth round of the consumer (`validRound_of_timely`),
and `dist_vector` is right after it exactly if the round has no shortcut to the node whose number is
the position of a mapped node.

* `tables_exact_iff`: in a run with timely polls, the tables of all consumers have the distances
  throughout, exactly when no poll finds such a shortcut.
-/

namespace OsLab.Paths

open Lib

variable {K : Type*} [Field K] [LinearOrder K]

/-- The entries of the mapped nodes are the distances in the graph that the consumer has seen. -/
def Consumer.TableExact (c : Consumer) (shm : Shm) : Prop :=
  ∀ m ∈ c.mappedNodes, ∀ j < c.numNodesPrev,
    ∃ d : ℕ, c.distVector.val m j = d ∧ Dist (EdgeIn (shm.edges.take c.numEdgesPrev)) m j d

/-- The tables of all consumers are right. -/
def TablesExact (s : System (Option Consumer)) : Prop :=
  ∀ i < 10, ∃ c, s.cons i = some c ∧ c.TableExact s.shm

/-- A poll that finds new counts finds no shortcut. -/
def Quiet (s : System (Option Consumer)) : Action K → Prop
  | .poll i => ∀ c ∈ s.cons i, c.follower.Changed (s.round i) → NoShortcut c (s.round i)
  | _ => True

/-! ## One consumer -/

/-- What holds of a consumer between two polls, where `shm` is published. -/
structure Tracks (shm : Shm) (c : Consumer) : Prop where
  inv : Inv c
  edges : c.numEdgesPrev ≤ shm.numEdges
  lists : Lists c.adjList (shm.edges.take c.numEdgesPrev)

variable {shm t : Shm} {c c' : Consumer} {new : List (ℕ × ℕ)} {optim : Bool} {r : Round}

theorem Tracks.exact_iff (h : Tracks shm c) : c.TableExact shm ↔ Exact c := by
  unfold Consumer.TableExact Exact DistVal
  rw [h.lists.edge]

/-- What a start and a poll make of the graph. -/
theorem start_lists {id : ℕ} (hlt : ∀ e ∈ shm.edges, e.1 < maxNodes ∧ e.2 < maxNodes)
    (h : start optim id shm.segments = some c) : Lists c.adjList shm.edges := by
  obtain ⟨adj, hadd, hlists⟩ := lists_replicate.add shm.edges hlt
  simp only [start, Shm.segments, hadd, Option.bind_eq_bind, Option.bind_some,
    Option.bind_eq_some_iff, Option.some.injEq] at h
  obtain ⟨⟨D, out⟩, -, rfl⟩ := h
  rwa [List.nil_append] at hlists

theorem poll_lists {es : List (ℕ × ℕ)} (hlists : Lists c.adjList es)
    (hlt : ∀ e ∈ r.shm.edges.drop c.numEdgesPrev, e.1 < maxNodes ∧ e.2 < maxNodes)
    (hc : c.follower.Changed r) (h : poll optim c r = some c') :
    c'.numEdgesPrev = r.shm.edges.length ∧
      Lists c'.adjList (es ++ r.shm.edges.drop c.numEdgesPrev) := by
  obtain ⟨adj, hadd, hadd'⟩ := hlists.add _ hlt
  unfold poll at h
  have hne : ¬ (r.shm.numNodes = c.numNodesPrev ∧ r.shm.edges.length = c.numEdgesPrev) := hc
  rw [if_neg hne] at h
  simp only [hadd, Option.bind_eq_bind, Option.bind_some, Option.bind_eq_some_iff,
    Option.some.injEq] at h
  obtain ⟨⟨D, out⟩, -, rfl⟩ := h
  exact ⟨rfl, hadd'⟩

theorem WellFormed.edges_lt (hm : WellFormed shm) (hn : shm.numNodes ≤ maxNodes) :
    ∀ e ∈ shm.edges, e.1 < maxNodes ∧ e.2 < maxNodes := by
  intro e he
  have := hm.lt e he
  omega

/-- **The start** of a consumer. -/
theorem start_tracks (hm : WellFormed shm) (hn : shm.numNodes ≤ maxNodes) {i : ℕ} (hi : i < 10) :
    ∃ c, start true i shm.segments = some c ∧ Tracks shm c ∧ c.TableExact shm := by
  obtain ⟨c, hc, hI, hE, -⟩ := start_spec hi hm.connectedGraph hn
  obtain ⟨-, hedges, -⟩ := start_fields hc
  have htake : shm.edges.take c.numEdgesPrev = shm.edges := List.take_of_length_le hedges.ge
  have htracks : Tracks shm c := by
    refine ⟨hI, ?_, ?_⟩
    · rw [hedges, ← length_edges]
      rfl
    · rw [htake]
      exact start_lists (hm.edges_lt hn) hc
  exact ⟨c, hc, htracks, htracks.exact_iff.2 hE⟩

/-- A publication leaves the graph that a consumer has seen. -/
theorem Tracks.grows (h : Tracks shm c) (hg : Grows shm t new) :
    Tracks t c ∧ (c.TableExact t ↔ c.TableExact shm) := by
  have hle : c.numEdgesPrev ≤ shm.edges.length := by
    rw [length_edges]
    exact h.edges
  have htake : t.edges.take c.numEdgesPrev = shm.edges.take c.numEdgesPrev := by
    rw [hg.edges, List.take_append_of_le_length hle]
  refine ⟨⟨h.inv, ?_, ?_⟩, ?_⟩
  · rw [← length_edges, hg.edges, List.length_append]
    omega
  · rw [htake]
    exact h.lists
  · rw [Consumer.TableExact, Consumer.TableExact, htake]

/-- **A growth round** of a consumer with a right table. -/
theorem Tracks.poll (h : Tracks shm c) (hexact : c.TableExact shm) (hm : WellFormed shm)
    (hn : shm.numNodes ≤ maxNodes) {nodeMap : List ℕ}
    (hc : c.follower.Changed ⟨shm.segments, nodeMap⟩) (hV : ValidRound c ⟨shm.segments, nodeMap⟩) :
    ∃ c', Paths.poll true c ⟨shm.segments, nodeMap⟩ = some c' ∧ Tracks shm c' ∧
      (c'.TableExact shm ↔ NoShortcut c ⟨shm.segments, nodeMap⟩) := by
  obtain ⟨c', hpoll, hI, hE⟩ := poll_spec h.inv (h.exact_iff.1 hexact) hV hn
  obtain ⟨hedges, hlists⟩ := poll_lists h.lists
    (fun e he => hm.edges_lt hn e (List.mem_of_mem_drop he)) hc hpoll
  have htake : shm.edges.take c'.numEdgesPrev = shm.edges := List.take_of_length_le hedges.ge
  have htracks : Tracks shm c' := by
    refine ⟨hI, ?_, ?_⟩
    · rw [hedges, ← length_edges]
      rfl
    · rw [htake]
      rwa [show (⟨shm.segments, nodeMap⟩ : Round).shm.edges = shm.edges from rfl,
        List.take_append_drop] at hlists
  exact ⟨c', hpoll, htracks, htracks.exact_iff.trans hE⟩

/-! ## The whole system -/

/-- The last publication, from `m` on, and the consumers that have not seen it. -/
structure Recent (s : System (Option Consumer)) (old : ℕ) (m : Shm) (new : List (ℕ × ℕ)) : Prop where
  nodes : m.numNodes = old
  grown : Grows m s.shm new ∨ s.shm = m
  seen : ∀ i < 10, ∀ c ∈ s.cons i, c.numNodesPrev = old → c.numEdgesPrev = m.numEdges

/-- A poll of a consumer. -/
theorem Recent.poll {s : System (Option Consumer)} {old : ℕ} {m : Shm} {i : ℕ} (h : Recent s old m new)
    (hi : i < 10) (hcons : s.cons i = some c) (hpoll : poll optim c (s.round i) = some c') :
    Recent { s with cons := Function.update s.cons i (some c') } old m new := by
  refine ⟨h.nodes, h.grown, fun j hj d hd hnodes => ?_⟩
  dsimp only at hd
  rcases eq_or_ne j i with rfl | hne
  · rw [Function.update_self] at hd
    obtain rfl : c' = d := Option.some.inj hd
    rcases poll_fields hpoll with ⟨rfl, -⟩ | ⟨h1, h2, -⟩
    · exact h.seen j hi c' hcons hnodes
    · -- the counts it has seen are those before the last publication only if there was none
      have h1 : c'.numNodesPrev = s.shm.numNodes := h1
      have hsame : s.shm = m := by
        rcases h.grown with hg | hsame
        · obtain ⟨k, hk, -, hcount⟩ := hg.numNodes
          have := h.nodes
          omega
        · exact hsame
      rw [h2, ← hsame, ← length_edges]
      rfl
  · rw [Function.update_of_ne hne] at hd
    exact h.seen j hj d hd hnodes

/-- What holds in a run with timely polls; `old` is the node count before the last publication. -/
structure Tracking (s : System (Option Consumer)) (old : ℕ) : Prop where
  graph : WellFormed s.shm
  owned : ∃ own, Owned 0 own s.followers old
  recent : ∃ m new, Recent s old m new
  cons : ∀ i < 10, ∃ c, s.cons i = some c ∧ Tracks s.shm c

variable {S : Sorts K} {s u : System (Option Consumer)} {a : Action K} {i old : ℕ}

theorem tracking_loaded (shm : Shm) {file : List (ℕ × ℕ)} (h : GraphFile file) (hfits : Fits file) :
    Tracking (System.loaded true shm file) (load shm file).numNodes ∧
      TablesExact (System.loaded true shm file) := by
  have hm := load_wellFormed shm h
  have hstart := fun i (hi : i < 10) => start_tracks hm (hfits.numNodes_le shm) hi
  refine ⟨⟨hm, owned_loaded shm file fun i hi => ?_, ⟨load shm file, [], rfl, Or.inr rfl, ?_⟩,
    fun i hi => ?_⟩, fun i hi => ?_⟩
  · obtain ⟨c, hc, -⟩ := hstart i hi
    exact ⟨c, hc⟩
  · intro i hi c hc _
    obtain ⟨-, hedges, -⟩ := start_fields (show start true i (load shm file).segments = some c from hc)
    rw [hedges, ← length_edges]
    rfl
  · obtain ⟨c, hc, htracks, -⟩ := hstart i hi
    exact ⟨c, hc, htracks⟩
  · obtain ⟨c, hc, -, hexact⟩ := hstart i hi
    exact ⟨c, hc, hexact⟩

/-- **A timely poll** that finds new counts is a growth round of the consumer. -/
theorem validRound_of_timely (h : Tracking s old) (hi : i < 10) (hcons : s.cons i = some c)
    (hc : c.follower.Changed (s.round i)) (ht : Timely (K := K) (s.followers, old) (.poll i)) :
    ValidRound c (s.round i) := by
  obtain ⟨own, hown⟩ := h.owned
  obtain ⟨m, new, hrecent⟩ := h.recent
  have hfollower : s.followers.cons i = c.follower := by
    simp only [System.followers, hcons, Option.elim_some]
  have hc' : (s.followers.cons i).Changed (s.followers.round i) := by
    rw [hfollower]
    exact hc
  obtain ⟨hwritten, hold⟩ := ht hc'
  have hcur : old < s.shm.numNodes := hown.lt_of_changed hi hc'
  rw [hfollower] at hold
  have hold : c.numNodesPrev = old := hold
  have hg : Grows m s.shm new := by
    rcases hrecent.grown with hg | hsame
    · exact hg
    · have := hrecent.nodes
      rw [hsame] at hcur
      omega
  have hnew : s.shm.edges.drop c.numEdgesPrev = new := by
    rw [hrecent.seen i hi c hcons hold, hg.edges, ← length_edges, List.drop_left]
  have hnodes := hrecent.nodes
  refine ⟨hold.trans_le hcur.le, ?_, ?_, ?_, ?_⟩
  · intro e he
    rw [show (s.round i).shm.edges = s.shm.edges from rfl, hnew] at he
    have := hg.joins e he
    exact Or.inl ⟨by omega, this.1.2, by omega⟩
  · intro v hv hv'
    obtain ⟨w, hw⟩ := hg.attached v (by omega) hv'
    rw [show (s.round i).shm.edges = s.shm.edges from rfl, hnew]
    exact ⟨w, Or.inr hw⟩
  · intro v hv
    have := hown.segment_new hi hcur hwritten hv
    exact ⟨hold.trans_le this.1, this.2⟩
  · have hsegment : s.nodeMap i = _ := hown.written i hi hcur hwritten
    show (s.nodeMap i).Nodup
    rw [hsegment]
    exact List.nodup_range'

/-- A step that is possible and within the capacities; a poll is timely. -/
def Allowed (S : Sorts K) (x : System (Option Consumer) × ℕ) (a : Action K) : Prop :=
  (x.1.next S (pass true) a).isSome = true ∧ TimelyRoom x a

/-- What a poll does to its consumer. -/
theorem tracking_poll (h : Tracking s old) (hexact : TablesExact s) (hi : i < 10)
    (ht : Timely (K := K) (s.followers, old) (.poll i)) (hroom : HasRoom (K := K) s (.poll i)) :
    ∃ c c', s.cons i = some c ∧ poll true c (s.round i) = some c' ∧ Tracks s.shm c' ∧
      (c'.TableExact s.shm ↔ Quiet (K := K) s (.poll i)) := by
  obtain ⟨c, hcons, htracks⟩ := h.cons i hi
  obtain ⟨c₀, hcons₀, htable⟩ := hexact i hi
  obtain rfl : c = c₀ := Option.some.inj (hcons.symm.trans hcons₀)
  have hquiet : Quiet (K := K) s (.poll i) ↔
      (c.follower.Changed (s.round i) → NoShortcut c (s.round i)) := by
    simp only [Quiet, hcons, Option.mem_some_iff, forall_eq']
  by_cases hc : c.follower.Changed (s.round i)
  · obtain ⟨c', hpoll, htracks', hiff⟩ := htracks.poll htable h.graph (hroom c hcons hc) hc
      (validRound_of_timely h hi hcons hc ht)
    exact ⟨c, c', hcons, hpoll, htracks', hiff.trans (hquiet.trans (imp_iff_right hc)).symm⟩
  · refine ⟨c, c, hcons, ?_, htracks, iff_of_true htable (hquiet.2 fun h => absurd h hc)⟩
    exact if_pos (not_not.1 hc)

/-- The machine, with the node count before the last publication. -/
def optimNext (S : Sorts K) : System (Option Consumer) × ℕ → Action K →
    Option (System (Option Consumer) × ℕ) :=
  record (System.next S (pass true)) fun s a t => countBefore s.followers a t.followers

/-- **One step** keeps what holds, and the tables right exactly if it finds no shortcut. -/
theorem tracking_step [IsStrictOrderedRing K] {x : System (Option Consumer) × ℕ}
    (h : Tracking x.1 x.2) (hexact : TablesExact x.1) (hV : Allowed S x a) :
    ∃ y, optimNext S x a = some y ∧ Tracking y.1 y.2 ∧ (TablesExact y.1 ↔ Quiet x.1 a) := by
  obtain ⟨s, old⟩ := x
  obtain ⟨hsome, htimely, hroom⟩ := hV
  obtain ⟨t, hst⟩ := Option.isSome_iff_exists.1 hsome
  obtain ⟨own, hown⟩ := h.owned
  refine ⟨(t, countBefore s.followers a t.followers old), ?_, ?_⟩
  · simp only [optimNext, record]
    rw [hst]
    rfl
  cases a with
  | publish d =>
    obtain ⟨own', hown'⟩ := owned_step hown htimely (show Defined true s _ from trivial) hst
    obtain ⟨-, shm, newNodes, hprod, rfl⟩ := step_publish hst
    obtain ⟨⟨new, hg⟩, -⟩ := produce_spec h.graph hprod
    refine ⟨⟨hg.wellFormed h.graph, ⟨own', hown'⟩, ⟨s.shm, new, rfl, Or.inl hg, ?_⟩, fun i hi => ?_⟩,
      iff_of_true (fun i hi => ?_) trivial⟩
    · intro i hi c hc hnodes
      have hcounts := hown.counts i hi
      have hcons : s.cons i = some c := hc
      simp only [System.followers, hcons, Option.elim_some, Consumer.follower] at hcounts
      have hnodes : c.numNodesPrev = s.shm.numNodes := hnodes
      omega
    · obtain ⟨c, hc, htracks⟩ := h.cons i hi
      exact ⟨c, hc, (htracks.grows hg).1⟩
    · obtain ⟨c, hc, htracks⟩ := h.cons i hi
      obtain ⟨c₀, hc₀, htable⟩ := hexact i hi
      obtain rfl : c = c₀ := Option.some.inj (hc.symm.trans hc₀)
      exact ⟨c, hc, (htracks.grows hg).2.2 htable⟩
  | map =>
    obtain ⟨own', hown'⟩ := owned_step hown htimely (show Defined true s _ from trivial) hst
    obtain ⟨x, hx, rfl⟩ := step_map hst
    obtain ⟨m, new, hrecent⟩ := h.recent
    exact ⟨⟨h.graph, ⟨own', hown'⟩, ⟨m, new, hrecent.nodes, hrecent.grown, hrecent.seen⟩, h.cons⟩,
      iff_of_true hexact trivial⟩
  | poll i =>
    have hi := (step_poll hst).1
    obtain ⟨c, c', hcons, hpoll, htracks, hiff⟩ := tracking_poll h hexact hi htimely hroom
    obtain ⟨own', hown'⟩ := owned_step hown htimely (fun _ => ⟨c, c', hcons, hpoll⟩) hst
    obtain ⟨-, rfl⟩ := step_poll hst
    have hnew : pass true (s.cons i) (s.round i) = some c' := by
      rw [hcons]
      exact hpoll
    refine ⟨⟨h.graph, ⟨own', hown'⟩, ?_, fun j hj => ?_⟩, ?_⟩
    · obtain ⟨m, new, hrecent⟩ := h.recent
      have hpolled := hrecent.poll hi hcons hpoll
      rw [← hnew] at hpolled
      exact ⟨m, new, hpolled⟩
    · dsimp only
      rcases eq_or_ne j i with rfl | hne
      · rw [Function.update_self]
        exact ⟨c', hnew, htracks⟩
      · rw [Function.update_of_ne hne]
        exact h.cons j hj
    · refine Iff.trans ?_ hiff
      constructor
      · intro hall
        obtain ⟨c₀, hc₀, htable⟩ := hall i hi
        dsimp only at hc₀
        rw [Function.update_self, hnew] at hc₀
        obtain rfl := Option.some.inj hc₀
        exact htable
      · intro htable j hj
        dsimp only
        rcases eq_or_ne j i with rfl | hne
        · rw [Function.update_self]
          exact ⟨c', hnew, htable⟩
        · rw [Function.update_of_ne hne]
          exact hexact j hj

theorem optimNext_eq {x y : System (Option Consumer) × ℕ} (h : optimNext S x a = some y) :
    x.1.Step S (pass true) a y.1 ∧ y.2 = countBefore x.1.followers a y.1.followers x.2 := by
  obtain ⟨t, ht, rfl⟩ := Option.map_eq_some_iff.1 h
  exact ⟨ht, rfl⟩

end OsLab.Paths
