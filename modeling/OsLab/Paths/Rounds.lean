import OsLab.Paths.Optim
import OsLab.Lib.Shares
import OsLab.Lib.Machine
import Mathlib.Tactic.IntervalCases

/-!
# The optimised consumer over growing graphs

A consumer with the option `-o` keeps `dist_vector` over the rounds in which the graph
grows. Its entries for the mapped nodes are the distances that `dijkstra_algo` computes,
except that the update of `mapped_nodes[i]` passes over node number `i`, since it compares
the position `i`, and not the node, with the column.

* `addEdges_some`, `poll_grown`: what a round does to the graph.
* `agrees_iff`: the entries are right after every call exactly when no round brings a mapped
  node closer to the node whose number is its position.
-/

namespace OsLab.Paths

open Lib

/-- The edge `u`, `v` is in the list, in one of the two orders. -/
def EdgeIn (es : List (ℕ × ℕ)) (u v : ℕ) : Prop := (u, v) ∈ es ∨ (v, u) ∈ es

/-- The distances at the end of the loop of `dijkstra_algo`. -/
def dijkstraDist (numNodes source : ℕ) (adjList : AdjList) : Option (Vec ℤ) := do
  let init ← Search.init numNodes source
  let s ← search adjList init
  some s.dist

/-- For every mapped node, `dist_vector` has the distances `dijkstra_algo` computes. -/
def Agrees (s : Consumer) : Prop :=
  ∀ m ∈ s.mappedNodes, ∀ j < s.numNodesPrev, ∃ dist, dijkstraDist s.numNodesPrev m s.adjList =
    some dist ∧ s.distVector.val m j = dist.val j

/-- A growth round: the new edges join a new node to an old one, every new node has one, and
the nodes mapped to the consumer are new and different. -/
structure ValidRound (s : Consumer) (r : Round) : Prop where
  le : s.numNodesPrev ≤ r.shm.numNodes
  joins : ∀ e ∈ r.shm.edges.drop s.numEdgesPrev,
    (s.numNodesPrev ≤ e.1 ∧ e.1 < r.shm.numNodes ∧ e.2 < s.numNodesPrev) ∨
      (s.numNodesPrev ≤ e.2 ∧ e.2 < r.shm.numNodes ∧ e.1 < s.numNodesPrev)
  attached : ∀ v, s.numNodesPrev ≤ v → v < r.shm.numNodes →
    ∃ u, EdgeIn (r.shm.edges.drop s.numEdgesPrev) u v
  news : ∀ m ∈ r.nodeMap, s.numNodesPrev ≤ m ∧ m < r.shm.numNodes
  nodup : r.nodeMap.Nodup

/-- The edges of the graph after the round. -/
def GrownEdge (s : Consumer) (r : Round) (u v : ℕ) : Prop :=
  Edge s.adjList u v ∨ EdgeIn (r.shm.edges.drop s.numEdgesPrev) u v

/-- The round does not bring a mapped node closer to the node whose number is its position
in `mapped_nodes`. -/
def NoShortcut (s : Consumer) (r : Round) : Prop :=
  ∀ i m d, s.mappedNodes[i]? = some m → i < s.numNodesPrev → Dist (Edge s.adjList) m i d →
    ∀ k, Walk (GrownEdge s r) m i k → d ≤ k

/-! ## Building the adjacency list -/

variable {adj adj' : AdjList} {es : List (ℕ × ℕ)} {n : ℕ}

theorem addEdge_spec {e : ℕ × ℕ} (h1 : e.1 < adj.size) (h2 : e.2 < adj.size) :
    ∃ adj', addEdge adj e = some adj' ∧ adj'.size = adj.size ∧
      ∀ u p, p ∈ adj'.val u ↔ p ∈ adj.val u ∨ (p.2 = 1 ∧ EdgeIn [e] u p.1) := by
  obtain ⟨a, b⟩ := e
  unfold addEdge
  simp only [Option.bind_eq_bind, Vec.at_eq h1, Vec.set_eq h1, Option.bind_some]
  rw [Vec.at_eq (by exact h2), Option.bind_some, Vec.set_eq (by exact h2)]
  refine ⟨_, rfl, rfl, ?_⟩
  intro u p
  obtain ⟨v, w⟩ := p
  simp only [EdgeIn, List.mem_singleton, Prod.mk.injEq, Function.update_apply]
  by_cases hub : u = b <;> by_cases hua : u = a <;> grind

theorem addEdges_some (adj : AdjList) (es : List (ℕ × ℕ))
    (h : ∀ e ∈ es, e.1 < adj.size ∧ e.2 < adj.size) :
    ∃ adj', es.foldlM addEdge adj = some adj' ∧ adj'.size = adj.size ∧
      ∀ u p, p ∈ adj'.val u ↔ p ∈ adj.val u ∨ (p.2 = 1 ∧ EdgeIn es u p.1) := by
  induction es generalizing adj with
  | nil => exact ⟨adj, rfl, rfl, fun u p => by simp [EdgeIn]⟩
  | cons e es ih =>
    obtain ⟨h1, h2⟩ := h e List.mem_cons_self
    obtain ⟨adj₁, ha, hsz, hmem⟩ := addEdge_spec h1 h2
    obtain ⟨adj₂, hb, hsz₂, hmem₂⟩ := ih adj₁ fun x hx => by
      rw [hsz]; exact h x (List.mem_cons_of_mem _ hx)
    refine ⟨adj₂, ?_, hsz₂.trans hsz, ?_⟩
    · rw [List.foldlM_cons, ha]; exact hb
    · intro u p
      rw [hmem₂, hmem]
      simp only [EdgeIn, List.mem_cons, List.not_mem_nil, or_false]
      tauto

/-- An edge past the end of the adjacency list is undefined. -/
theorem addEdges_bound (h : es.foldlM addEdge adj = some adj') :
    ∀ e ∈ es, e.1 < adj.size ∧ e.2 < adj.size := by
  induction es generalizing adj with
  | nil => exact fun e he => absurd he List.not_mem_nil
  | cons e es ih =>
    rw [List.foldlM_cons] at h
    obtain ⟨adj₁, h1, h⟩ := Option.bind_eq_some_iff.1 h
    have hadd := h1
    simp only [addEdge, Option.bind_eq_bind, Option.bind_eq_some_iff, Vec.set_eq_some,
      Vec.at_eq_some] at h1
    obtain ⟨_, ⟨ha, -⟩, _, ⟨-, rfl⟩, _, ⟨hb, -⟩, -, rfl⟩ := h1
    intro x hx
    rcases List.mem_cons.1 hx with rfl | hx
    · exact ⟨ha, hb⟩
    · exact ih h x hx

/-! ## One round -/

/-- What holds of a consumer between two calls. -/
structure Inv (s : Consumer) : Prop where
  graph : Graph s.adjList s.numNodesPrev
  inside : ∀ u p, p ∈ s.adjList.val u → u < s.numNodesPrev
  size : s.adjList.size = maxNodes
  rows : s.distVector.rows = maxNodes
  cols : s.distVector.cols = maxNodes
  nodup : s.mappedNodes.Nodup
  mapped : ∀ m ∈ s.mappedNodes, m < s.numNodesPrev

/-- The entries of the mapped nodes are their distances. -/
def Exact (s : Consumer) : Prop :=
  ∀ m ∈ s.mappedNodes, ∀ j < s.numNodesPrev, DistVal s.adjList m j (s.distVector.val m j)

variable {s t : Consumer} {r : Round}

theorem dijkstraDist_eq {m : ℕ} (hG : Graph adj n) (hm : m < n) :
    ∃ dist, dijkstraDist n m adj = some dist ∧ ∀ j < n, DistVal adj m j (dist.val j) := by
  obtain ⟨init, f, hi, hf, hF, -⟩ := hG.unit.search hm
  refine ⟨f.dist, ?_, fun j hj => hG.distVal hm hj (hF.entry hG.unit hG.fits hm hj)⟩
  unfold dijkstraDist
  simp only [Option.bind_eq_bind, hi, hf, Option.bind_some]

theorem agrees_iff_exact (hI : Inv s) : Agrees s ↔ Exact s := by
  constructor
  · intro h m hm j hj
    obtain ⟨dist, hd, hv⟩ := dijkstraDist_eq hI.graph (hI.mapped m hm)
    obtain ⟨dist', hd', he⟩ := h m hm j hj
    rw [hd] at hd'
    cases hd'
    rw [he]; exact hv j hj
  · intro h m hm j hj
    obtain ⟨dist, hd, hv⟩ := dijkstraDist_eq hI.graph (hI.mapped m hm)
    exact ⟨dist, hd, (h m hm j hj).unique (hv j hj)⟩

theorem EdgeIn.symm {u v : ℕ} (h : EdgeIn es u v) : EdgeIn es v u := Or.symm h

/-- The nodes of a new edge. -/
theorem ValidRound.edge (hV : ValidRound s r) {u v : ℕ}
    (h : EdgeIn (r.shm.edges.drop s.numEdgesPrev) u v) :
    u < r.shm.numNodes ∧ v < r.shm.numNodes ∧
      ((s.numNodesPrev ≤ u ∧ v < s.numNodesPrev) ∨ (s.numNodesPrev ≤ v ∧ u < s.numNodesPrev)) := by
  have hle := hV.le
  rcases h with h | h
  · rcases hV.joins _ h with ⟨h1, h2, h3⟩ | ⟨h1, h2, h3⟩ <;> simp only at h1 h2 h3 <;> omega
  · rcases hV.joins _ h with ⟨h1, h2, h3⟩ | ⟨h1, h2, h3⟩ <;> simp only at h1 h2 h3 <;> omega

/-- **The graph grows**: it stays connected, and every new edge touches a new node. -/
theorem poll_grown (hI : Inv s) (hV : ValidRound s r) (hn : r.shm.numNodes ≤ maxNodes) :
    ∃ adj', (r.shm.edges.drop s.numEdgesPrev).foldlM addEdge s.adjList = some adj' ∧
      adj'.size = maxNodes ∧ (∀ u v, Edge adj' u v ↔ GrownEdge s r u v) ∧
      (∀ u p, p ∈ adj'.val u → u < r.shm.numNodes) ∧
      Grown s.adjList adj' s.numNodesPrev r.shm.numNodes := by
  have hle := hV.le
  obtain ⟨adj', hadd, hsize, hmem⟩ := addEdges_some s.adjList
    (r.shm.edges.drop s.numEdgesPrev) fun e he => by
      obtain ⟨h1, h2, -⟩ := hV.edge (u := e.1) (v := e.2) (Or.inl he)
      rw [hI.size]; omega
  have hedge : ∀ u v, Edge adj' u v ↔ GrownEdge s r u v := by
    intro u v
    unfold Edge GrownEdge
    rw [hmem]
    simp only [true_and]
    rfl
  have hsub : ∀ u v, Edge s.adjList u v → Edge adj' u v := fun u v h => (hedge u v).2 (Or.inl h)
  have hold : ∀ u p, p ∈ s.adjList.val u → u < s.numNodesPrev ∧ p.1 < s.numNodesPrev ∧ p.2 = 1 := by
    intro u p hp
    have hu := hI.inside u p hp
    exact ⟨hu, hI.graph.unit.unit u hu p hp⟩
  have hin : ∀ u p, p ∈ adj'.val u → u < r.shm.numNodes ∧ p.1 < r.shm.numNodes ∧ p.2 = 1 := by
    intro u p hp
    rcases (hmem u p).1 hp with h | ⟨h1, h2⟩
    · obtain ⟨h1, h2, h3⟩ := hold u p h
      exact ⟨by omega, by omega, h3⟩
    · obtain ⟨h3, h4, -⟩ := hV.edge h2
      exact ⟨h3, h4, h1⟩
  have hsymm : ∀ u v, Edge adj' u v → Edge adj' v u := by
    intro u v h
    rw [hedge] at h ⊢
    exact h.imp (hI.graph.symm u v) EdgeIn.symm
  -- a new node is one edge away from the old graph
  have hreach : ∀ u < r.shm.numNodes, ∃ x < s.numNodesPrev, ∃ k, Walk (Edge adj') x u k := by
    intro u hu
    rcases Nat.lt_or_ge u s.numNodesPrev with h | h
    · exact ⟨u, h, 0, Walk.nil u⟩
    · obtain ⟨x, hx⟩ := hV.attached u h hu
      obtain ⟨-, -, hxu⟩ := hV.edge hx
      exact ⟨x, by omega, 1, (Walk.nil x).snoc ((hedge x u).2 (Or.inr hx))⟩
  have hnew : Graph adj' r.shm.numNodes := by
    refine ⟨⟨by rw [hsize, hI.size]; exact hn, fun u _ p hp => (hin u p hp).2⟩, hsymm, ?_, hn⟩
    intro u hu v hv
    -- from `u` into the old graph, through it, and out to `v`
    obtain ⟨x, hx, k₁, h₁⟩ := hreach u hu
    obtain ⟨y, hy, k₃, h₃⟩ := hreach v hv
    obtain ⟨k₂, h₂⟩ := hI.graph.conn x hx y hy
    exact ⟨_, ((h₁.symm hsymm).append (h₂.mono hsub)).append h₃⟩
  refine ⟨adj', hadd, hsize.trans hI.size, hedge, fun u p hp => (hin u p hp).1,
    hI.graph, hnew, hle, hsub, ?_⟩
  intro u v hu hv h
  rcases (hedge u v).1 h with h | h
  · exact h
  · have := hV.edge h; omega

/-- The entry of a mapped node and its position stays right when the round has no shortcut
to it, and only then. -/
theorem diag_iff {adj' : AdjList} (hE : Exact s)
    (hedge : ∀ u v, Edge adj' u v ↔ GrownEdge s r u v)
    (hg : Grown s.adjList adj' s.numNodesPrev r.shm.numNodes) :
    (∀ i m, s.mappedNodes[i]? = some m → i < s.numNodesPrev →
      DistVal adj' m i (s.distVector.val m i)) ↔ NoShortcut s r := by
  have hEq : Edge adj' = GrownEdge s r := funext fun u => funext fun v => propext (hedge u v)
  constructor
  · -- the value is both distances, so they are the same
    intro h i m d hm hi hd k hk
    obtain ⟨d', hd', hdist'⟩ := h i m hm hi
    obtain ⟨d₀, hd₀, hdist₀⟩ := hE m (List.mem_of_getElem? hm) i hi
    have h1 := hd.unique hdist₀
    have h2 := hdist'.le k (by rw [hEq]; exact hk)
    omega
  · intro h i m hm hi
    obtain ⟨d, hd, hdist⟩ := hE m (List.mem_of_getElem? hm) i hi
    refine ⟨d, hd, hdist.walk.mono hg.sub, ?_⟩
    intro k hk
    exact h i m d hm hi hdist k (by rw [← hEq]; exact hk)

/-- **One poll** keeps the graph and the sizes, and is right exactly when its round has no
shortcut. -/
theorem poll_spec (hI : Inv s) (hE : Exact s) (hV : ValidRound s r)
    (hn : r.shm.numNodes ≤ maxNodes) :
    ∃ t, poll true s r = some t ∧ Inv t ∧ (Exact t ↔ NoShortcut s r) := by
  obtain ⟨adj', hadd, hsize, hedge, hin, hg⟩ := poll_grown hI hV hn
  unfold poll
  by_cases hsame : r.shm.numNodes = s.numNodesPrev ∧ r.shm.edges.length = s.numEdgesPrev
  · -- nothing has changed
    refine ⟨s, if_pos hsame, hI, ?_, fun _ => hE⟩
    intro _ i m d _ _ hd k hk
    apply hd.le k
    apply hk.mono
    intro x y h
    rcases h with h | h
    · exact h
    · rw [List.drop_eq_nil_of_le hsame.2.le] at h
      rcases h with h | h <;> cases h
  · obtain ⟨D', out', hcall, hr, hc, hnews, hold, hdiag⟩ := laterCall_spec s.out hg hI.nodup hI.mapped
      hV.news hI.rows hI.cols hE
    have hmapped : ∀ m ∈ s.mappedNodes ++ r.nodeMap, m < r.shm.numNodes := by
      intro m hm
      rcases List.mem_append.1 hm with h | h
      · exact lt_of_lt_of_le (hI.mapped m h) hV.le
      · exact (hV.news m h).2
    rw [if_neg hsame]
    simp only [Option.bind_eq_bind, hadd, Option.bind_some, computePaths, if_true, hcall]
    refine ⟨_, rfl, ⟨hg.new, hin, hsize, hr, hc, ?_, hmapped⟩, ?_⟩
    · apply List.Nodup.append hI.nodup hV.nodup
      intro m h h'
      have := hI.mapped m h
      have := (hV.news m h').1
      omega
    · rw [← diag_iff hE hedge hg]
      constructor
      · intro h i m hm hi
        rw [← hdiag i m hm hi]
        exact h m (List.mem_append_left _ (List.mem_of_getElem? hm)) i (lt_of_lt_of_le hi hV.le)
      · intro h m hm j hj
        rcases List.mem_append.1 hm with hm | hm
        · obtain ⟨i, hlt, hi⟩ := List.getElem_of_mem hm
          have hi : s.mappedNodes[i]? = some m := by rw [List.getElem?_eq_getElem hlt, hi]
          by_cases hji : j ≠ i ∨ s.numNodesPrev ≤ j
          · exact hold i m hi j hj hji
          · -- the entry that is passed over
            push Not at hji
            obtain ⟨rfl, hjp⟩ := hji
            have := h j m hi hjp
            show DistVal adj' m j (D'.val m j)
            rw [hdiag j m hi hjp]
            exact this
        · exact hnews m hm j hj

/-- A round that passes `MAX_NODES` is undefined. -/
theorem poll_bound (hI : Inv s) (hV : ValidRound s r) (h : poll true s r = some t) :
    r.shm.numNodes ≤ maxNodes := by
  by_contra hgt
  push Not at hgt
  have hfits := hI.graph.fits
  -- the last node is new, and its edge is past the end
  obtain ⟨u, hu⟩ := hV.attached (r.shm.numNodes - 1) (by omega) (by omega)
  unfold poll at h
  rw [if_neg (by omega)] at h
  simp only [Option.bind_eq_bind, Option.bind_eq_some_iff] at h
  obtain ⟨adj', hadd, -⟩ := h
  have hb := addEdges_bound hadd
  rw [hI.size] at hb
  rcases hu with hu | hu
  · have := (hb _ hu).2; simp only at this; omega
  · have := (hb _ hu).1; simp only at this; omega

/-! ## The first call -/

/-- A connected graph over the nodes `0, …, numNodes - 1`. -/
structure ConnectedGraph (shm : Segments) : Prop where
  ends : ∀ e ∈ shm.edges, e.1 < shm.numNodes ∧ e.2 < shm.numNodes
  conn : ∀ u < shm.numNodes, ∀ v < shm.numNodes, ∃ k, Walk (EdgeIn shm.edges) u v k

/-- The consumers share the nodes equally. -/
theorem mapInitialNodes_eq (n id : ℕ) :
    mapInitialNodes n id = List.range' (shareStart n 10 id) (shareSize n 10 id) := by
  unfold mapInitialNodes shareStart shareSize
  simp only
  split_ifs with h
  · rw [List.range'_eq_map_range, Nat.min_eq_left h.le, Nat.mul_succ]
  · rw [List.range'_eq_map_range, Nat.min_eq_right (by omega)]
    have hid : id * (n / 10) = n % 10 * (n / 10) + (id - n % 10) * (n / 10) := by
      rw [← Nat.add_mul, Nat.add_sub_cancel' (by omega)]
    refine List.map_congr_left fun i _ => ?_
    rw [Nat.mul_succ, hid]
    omega

theorem mem_mapInitialNodes {id m : ℕ} :
    m ∈ mapInitialNodes n id ↔ shareStart n 10 id ≤ m ∧ m < shareStart n 10 (id + 1) := by
  rw [mapInitialNodes_eq, List.mem_range'_1, shareStart_succ]

/-- The nodes of a consumer are nodes of the graph. -/
theorem mapInitialNodes_lt {id m : ℕ} (hid : id < 10) (hm : m ∈ mapInitialNodes n id) : m < n :=
  calc m < shareStart n 10 (id + 1) := (mem_mapInitialNodes.1 hm).2
    _ ≤ shareStart n 10 10 := shareStart_mono n 10 hid
    _ = n := shareStart_last (by omega)

theorem mapInitialNodes_nodup (n id : ℕ) : (mapInitialNodes n id).Nodup := by
  rw [mapInitialNodes_eq]
  exact List.nodup_range'

variable {shm : Segments} {consumerId : ℕ}

/-- **The first call** is right, for every graph that fits in the tables. -/
theorem start_spec (hid : consumerId < 10) (hg : ConnectedGraph shm) (hn : shm.numNodes ≤ maxNodes) :
    ∃ s, start true consumerId shm = some s ∧ Inv s ∧ Exact s ∧
      ∀ u v, Edge s.adjList u v ↔ EdgeIn shm.edges u v := by
  obtain ⟨adj, hadd, hsize, hmem⟩ := addEdges_some (Vec.replicate maxNodes [])
    shm.edges fun e he => by
      obtain ⟨h1, h2⟩ := hg.ends e he
      show e.1 < maxNodes ∧ e.2 < maxNodes
      omega
  have hmem : ∀ u p, p ∈ adj.val u ↔ p.2 = 1 ∧ EdgeIn shm.edges u p.1 := by
    intro u p
    rw [hmem]
    simp only [Vec.replicate, List.not_mem_nil, false_or]
  have hedge : ∀ u v, Edge adj u v ↔ EdgeIn shm.edges u v := by
    intro u v
    unfold Edge
    rw [hmem]
    simp only [true_and]
  have hin : ∀ u p, p ∈ adj.val u → u < shm.numNodes ∧ p.1 < shm.numNodes ∧ p.2 = 1 := by
    intro u p hp
    obtain ⟨h1, h2⟩ := (hmem u p).1 hp
    rcases h2 with h2 | h2
    · exact ⟨(hg.ends _ h2).1, (hg.ends _ h2).2, h1⟩
    · exact ⟨(hg.ends _ h2).2, (hg.ends _ h2).1, h1⟩
  have hG : Graph adj shm.numNodes := by
    refine ⟨⟨by rw [hsize]; exact hn, fun u _ p hp => (hin u p hp).2⟩, ?_, ?_, hn⟩
    · intro u v h; rw [hedge] at h ⊢; exact h.symm
    · intro u hu v hv
      obtain ⟨k, hk⟩ := hg.conn u hu v hv
      exact ⟨k, hk.mono fun x y h => (hedge x y).2 h⟩
  have hmapped := fun m (hm : m ∈ mapInitialNodes shm.numNodes consumerId) =>
    mapInitialNodes_lt hid hm
  obtain ⟨D, out, hcall, hr, hc, hex⟩ := firstCall_spec
    (D := Grid.replicate maxNodes maxNodes intMax) [] hG hmapped rfl rfl
  refine ⟨⟨shm.numNodes, shm.edges.length, mapInitialNodes shm.numNodes consumerId, adj, D, out⟩, ?_,
    ⟨hG, fun u p hp => (hin u p hp).1, hsize, hr, hc, mapInitialNodes_nodup _ _, hmapped⟩, hex,
    hedge⟩
  unfold start
  simp only [Option.bind_eq_bind, hadd, Option.bind_some, computePaths, if_true, hcall]

theorem start_bound {s : Consumer} (hg : ConnectedGraph shm)
    (h : start true consumerId shm = some s) : shm.numNodes ≤ maxNodes := by
  by_contra hgt
  push Not at hgt
  have hmax : 0 < maxNodes := by decide
  simp only [start, Option.bind_eq_bind, Option.bind_eq_some_iff] at h
  obtain ⟨adj, hadd, -⟩ := h
  have hb := addEdges_bound hadd
  -- the last node has an edge
  obtain ⟨k, hk⟩ := hg.conn 0 (by omega) (shm.numNodes - 1) (by omega)
  generalize hv : shm.numNodes - 1 = v at hk
  cases hk with
  | nil => omega
  | snoc _ he =>
    rcases he with he | he
    · have h1 : v < maxNodes := (hb _ he).2
      omega
    · have h1 : v < maxNodes := (hb _ he).1
      omega

/-- What the first call does not compute. -/
theorem start_fields {s : Consumer} {optim : Bool} (h : start optim consumerId shm = some s) :
    s.numNodesPrev = shm.numNodes ∧ s.numEdgesPrev = shm.edges.length ∧
      s.mappedNodes = mapInitialNodes shm.numNodes consumerId := by
  simp only [start, Option.bind_eq_bind, Option.bind_eq_some_iff] at h
  obtain ⟨adj, -, ⟨D, out⟩, -, hs⟩ := h
  cases hs
  exact ⟨rfl, rfl, rfl⟩

/-- **When the optimised update agrees with the plain one.** For every connected graph,
every consumer and every sequence of growth rounds: all calls are defined and every entry
of a mapped node is what `dijkstra_algo` computes after each of them, if and only if the
graphs fit in the tables and no round brings an old mapped node closer to the node whose
number is its position in `mapped_nodes`. -/
theorem agrees_iff {rounds : List Round} (hid : consumerId < 10) (hg : ConnectedGraph shm)
    (hV : ∀ s, start true consumerId shm = some s → Called (poll true) ValidRound s rounds) :
    (∃ s, start true consumerId shm = some s ∧ Survives (poll true) Agrees s rounds) ↔
      shm.numNodes ≤ maxNodes ∧ (∀ r ∈ rounds, r.shm.numNodes ≤ maxNodes) ∧
        ∀ s, start true consumerId shm = some s → Along (poll true) NoShortcut s rounds := by
  -- the rounds, once the first call is made
  have key : ∀ s, start true consumerId shm = some s → shm.numNodes ≤ maxNodes →
      (Survives (poll true) Agrees s rounds ↔
        (∀ r ∈ rounds, r.shm.numNodes ≤ maxNodes) ∧ Along (poll true) NoShortcut s rounds) := by
    intro s hs hn
    obtain ⟨s', hs', hI, hE, -⟩ := start_spec hid hg hn
    rw [hs] at hs'
    cases hs'
    refine survives_iff (I := Inv) (C := NoShortcut) (V := ValidRound) ?_ (fun _ _ _ => poll_bound) hI
      ((agrees_iff_exact hI).2 hE) (hV s hs)
    intro u r hI hA hv hb
    obtain ⟨t, ht, hIt, hEt⟩ := poll_spec hI ((agrees_iff_exact hI).1 hA) hv hb
    exact ⟨t, ht, hIt, (agrees_iff_exact hIt).trans hEt⟩
  constructor
  · intro h
    obtain ⟨s, hs, hS⟩ := h
    have hn := start_bound hg hs
    obtain ⟨h1, h2⟩ := (key s hs hn).1 hS
    refine ⟨hn, h1, ?_⟩
    intro s' hs'
    rw [hs] at hs'
    cases hs'
    exact h2
  · intro h
    obtain ⟨hn, h1, h2⟩ := h
    obtain ⟨s, hs, -⟩ := start_spec hid hg hn
    exact ⟨s, hs, (key s hs hn).2 ⟨h1, h2 s hs⟩⟩

/-- Consumer 0 of an edge, to which a node is added that is mapped to it. -/
theorem agrees_iff_edge : ∃ s, start true 0 ⟨2, [(0, 1)]⟩ = some s ∧
    Survives (poll true) Agrees s [⟨⟨3, [(0, 1), (2, 0)]⟩, [2]⟩] := by
  have hmap : mapInitialNodes 2 0 = [0] := by decide
  have hwalk : Walk (EdgeIn [(0, 1)]) 0 1 1 := (Walk.nil 0).snoc (by simp [EdgeIn])
  have hg : ConnectedGraph ⟨2, [(0, 1)]⟩ := by
    refine ⟨by simp, ?_⟩
    intro u hu v hv
    simp only at hu hv
    interval_cases u <;> interval_cases v
    · exact ⟨0, Walk.nil 0⟩
    · exact ⟨1, hwalk⟩
    · exact ⟨1, hwalk.symm fun _ _ => EdgeIn.symm⟩
    · exact ⟨0, Walk.nil 1⟩
  refine (agrees_iff (by decide) hg ?_).2 ⟨by decide, by simp [maxNodes], ?_⟩
  · intro s hs
    obtain ⟨h1, h2, -⟩ := start_fields hs
    simp only [List.length_singleton] at h1 h2
    refine ⟨⟨?_, ?_, ?_, ?_, by simp⟩, fun _ _ => trivial⟩
    · simp [h1]
    · simp [h1, h2]
    · intro v hv hv'
      simp only [h1] at hv hv'
      obtain rfl : v = 2 := by omega
      exact ⟨0, by simp [h2, EdgeIn]⟩
    · simp [h1]
  · intro s hs t _
    obtain ⟨-, -, h3⟩ := start_fields hs
    rw [hmap] at h3
    -- node 0 is at position 0, and as close to itself as can be
    refine ⟨?_, trivial⟩
    intro i m d hm _ hd k _
    rw [h3] at hm
    obtain ⟨rfl, rfl⟩ : i = 0 ∧ m = 0 := by
      cases i with
      | zero => exact ⟨rfl, by simpa using hm.symm⟩
      | succ i => simp at hm
    rw [hd.unique (dist_self _ _)]
    exact Nat.zero_le k

/-- The path `0 - 2 - 3 - 1`, where consumer 1 has node 1 at position 0. Node 4 joins both
ends, but the distance from 1 to 0 stays 3. -/
theorem update_misses_entry : ∃ s t, ConnectedGraph ⟨4, [(0, 2), (2, 3), (3, 1)]⟩ ∧
    start true 1 ⟨4, [(0, 2), (2, 3), (3, 1)]⟩ = some s ∧
    ValidRound s ⟨⟨5, [(0, 2), (2, 3), (3, 1), (4, 0), (4, 1)]⟩, []⟩ ∧
    poll true s ⟨⟨5, [(0, 2), (2, 3), (3, 1), (4, 0), (4, 1)]⟩, []⟩ = some t ∧ ¬ Agrees t := by
  have hmap : mapInitialNodes 4 1 = [1] := by decide
  have h02 : Walk (EdgeIn [(0, 2), (2, 3), (3, 1)]) 0 2 1 := (Walk.nil 0).snoc (by simp [EdgeIn])
  have h03 : Walk (EdgeIn [(0, 2), (2, 3), (3, 1)]) 0 3 2 := h02.snoc (by simp [EdgeIn])
  have h01 : Walk (EdgeIn [(0, 2), (2, 3), (3, 1)]) 0 1 3 := h03.snoc (by simp [EdgeIn])
  have h0 : ∀ v < 4, ∃ k, Walk (EdgeIn [(0, 2), (2, 3), (3, 1)]) 0 v k := by
    intro v hv
    interval_cases v
    · exact ⟨0, Walk.nil 0⟩
    · exact ⟨3, h01⟩
    · exact ⟨1, h02⟩
    · exact ⟨2, h03⟩
  have hg : ConnectedGraph ⟨4, [(0, 2), (2, 3), (3, 1)]⟩ := by
    refine ⟨by simp, ?_⟩
    intro u hu v hv
    obtain ⟨k, hk⟩ := h0 u hu
    obtain ⟨l, hl⟩ := h0 v hv
    exact ⟨k + l, (hk.symm fun _ _ => EdgeIn.symm).append hl⟩
  obtain ⟨s, hs, hI, hE, hedge⟩ := start_spec (show 1 < 10 by decide) hg (by decide)
  obtain ⟨h1, h2, h3⟩ := start_fields hs
  rw [hmap] at h3
  simp only [List.length_cons, List.length_nil] at h1 h2
  have hV : ValidRound s ⟨⟨5, [(0, 2), (2, 3), (3, 1), (4, 0), (4, 1)]⟩, []⟩ := by
    refine ⟨by simp [h1], by simp [h1, h2], ?_, by simp, List.nodup_nil⟩
    intro v hv hv'
    simp only [h1] at hv hv'
    obtain rfl : v = 4 := by omega
    exact ⟨0, by simp [h2, EdgeIn]⟩
  obtain ⟨t, ht, hIt, hEt⟩ := poll_spec hI hE hV (by decide)
  refine ⟨s, t, hg, hs, hV, ht, ?_⟩
  intro hA
  have hno := hEt.1 ((agrees_iff_exact hIt).1 hA)
  -- the distance from 1 to 0 is 3 before the round and 2 after it
  have hd : Dist (Edge s.adjList) 1 0 3 := by
    refine ⟨(h01.symm fun _ _ => EdgeIn.symm).mono fun x y h => (hedge x y).2 h, ?_⟩
    intro k hk
    have := hk.le_add (f := fun x => if x = 1 then 0 else if x = 3 then 1 else if x = 2 then 2 else 3)
      fun x y h => by
        rw [hedge] at h
        simp only [EdgeIn, List.mem_cons, Prod.mk.injEq, List.not_mem_nil, or_false] at h
        rcases h with (⟨rfl, rfl⟩ | ⟨rfl, rfl⟩ | ⟨rfl, rfl⟩) |
          (⟨rfl, rfl⟩ | ⟨rfl, rfl⟩ | ⟨rfl, rfl⟩) <;> decide
    simpa using this
  have hw : Walk (GrownEdge s ⟨⟨5, [(0, 2), (2, 3), (3, 1), (4, 0), (4, 1)]⟩, []⟩) 1 0 2 :=
    ((Walk.nil 1).snoc (Or.inr (by simp [EdgeIn, h2]) : GrownEdge s _ 1 4)).snoc
      (Or.inr (by simp [EdgeIn, h2]))
  have := hno 0 1 3 (by rw [h3]; rfl) (by omega) hd 2 hw
  omega

end OsLab.Paths
