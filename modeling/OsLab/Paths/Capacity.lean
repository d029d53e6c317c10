import OsLab.Paths.Load
import OsLab.Paths.System

/-!
# The capacities of the segments and of the tables

The segments hold `SHM_EDGE_SZ` numbers and the tables of a consumer have `MAX_NODES` rows, and
nothing looks at either while the graph grows. Here the segments have no end, and the indices that
the processes use are recorded instead: `Writes` for an iteration of the producer, `Call.Uses` for
what a consumer does with the new edges. An iteration stays within its segments exactly when the
edges it draws still fit, and a consumer stays within its tables exactly when the nodes it finds do
(`capacity_iff`).
-/

namespace OsLab.Paths

open Lib

/-- `SHM_EDGE_SZ`. -/
def shmEdgeSz : ℕ := 150000

/-! ## The indices -/

section

variable {K : Type*} [Field K] [LinearOrder K]

/-- The index `j` of the segments is written in an iteration: the two counts, and the positions of
the new edges. -/
def Writes (S : Sorts K) (m : Shm) (d : Draws K) (j : ℕ) : Prop :=
  ∃ t newNodes, produce S m d = .ok (t, newNodes) ∧
    (j = 0 ∨ j = 1 ∨ 2 + m.numEdges ≤ j ∧ j < 2 + t.numEdges)

end

/-- The loop of a search pops node `v`. -/
inductive Pops (adjList : AdjList) : Search → ℕ → Prop where
  | head {s : Search} {d : ℤ} {u : ℕ} {pq : List (ℤ × ℕ)} :
      s.pq = (d, u) :: pq → Pops adjList s u
  | later {s t : Search} {d : ℤ} {u v : ℕ} {pq : List (ℤ × ℕ)} :
      s.pq = (d, u) :: pq →
      ((adjList.at u).bind fun row => relax u row { s with pq := pq }) = some t →
      Pops adjList t v → Pops adjList s v

/-- What a consumer does with a graph: it enters the new edges, searches from the sources, and
updates the entries of the rows. -/
structure Call where
  numNodes : ℕ
  newEdges : List (ℕ × ℕ)
  adjList : AdjList
  sources : List ℕ
  rows : List ℕ

/-- The node ids that are indices of `adj_list` and `dist_vector`. -/
inductive Call.Uses (optim : Bool) (c : Call) : ℕ → Prop where
  /-- `adj_list[shm1[i + 2]]` -/
  | fst {e : ℕ × ℕ} : e ∈ c.newEdges → c.Uses optim e.1
  /-- `adj_list[shm2[i + 2]]` -/
  | snd {e : ℕ × ℕ} : e ∈ c.newEdges → c.Uses optim e.2
  /-- `adj_list[u]` in the loop of a search -/
  | pop {adjList : AdjList} {s : Search} {source u : ℕ} : c.newEdges.foldlM addEdge c.adjList = some adjList →
      source ∈ c.sources → Search.init c.numNodes source = some s → Pops adjList s u → c.Uses optim u
  /-- `dist_vector[source][i]` and `dist_vector[i][source]` -/
  | source {source : ℕ} : optim → source ∈ c.sources → c.Uses optim source
  /-- `dist_vector[source][i]`, `dist_vector[i][source]`, and the columns of an update -/
  | node {i : ℕ} : optim → i < c.numNodes → c.Uses optim i
  /-- `dist_vector[mapped_nodes[i]][j]` -/
  | row {m : ℕ} : optim → m ∈ c.rows → c.Uses optim m

/-- The first call. -/
def startCall (consumerId : ℕ) (shm : Segments) : Call where
  numNodes := shm.numNodes
  newEdges := shm.edges
  adjList := Vec.replicate maxNodes []
  sources := mapInitialNodes shm.numNodes consumerId
  rows := []

/-- The call of a pass that finds new counts. -/
def pollCall (optim : Bool) (s : Consumer) (r : Round) : Call where
  numNodes := r.shm.numNodes
  newEdges := r.shm.edges.drop s.numEdgesPrev
  adjList := s.adjList
  sources := if optim then List.range' s.numNodesPrev (r.shm.numNodes - s.numNodesPrev)
    else s.mappedNodes ++ r.nodeMap
  rows := s.mappedNodes

/-! ## What a call uses -/

variable {adjList : AdjList} {u v N : ℕ}

theorem relax_pq {row : List (ℕ × ℤ)} {s t : Search} (h : relax u row s = some t) :
    ∀ p ∈ t.pq, p ∈ s.pq ∨ ∃ e ∈ row, p.2 = e.1 := by
  induction row generalizing s with
  | nil => cases h; exact fun p hp => Or.inl hp
  | cons e row ih =>
    obtain ⟨v, weight⟩ := e
    simp only [relax, Option.bind_eq_bind, Option.bind_eq_some_iff] at h
    obtain ⟨dv, -, du, -, d, -, h⟩ := h
    intro p hp
    split_ifs at h with hlt
    · simp only [Option.bind_eq_some_iff] at h
      obtain ⟨dist, -, parent, -, h⟩ := h
      rcases ih h p hp with hmem | ⟨e, he, hpe⟩
      · rw [List.mem_orderedInsert] at hmem
        rcases hmem with rfl | hmem
        · exact Or.inr ⟨(v, weight), List.mem_cons_self, rfl⟩
        · exact Or.inl hmem
      · exact Or.inr ⟨e, List.mem_cons_of_mem _ he, hpe⟩
    · rcases ih h p hp with hmem | ⟨e, he, hpe⟩
      · exact Or.inl hmem
      · exact Or.inr ⟨e, List.mem_cons_of_mem _ he, hpe⟩

/-- A search pops only what is in the queue or in the adjacency list. -/
theorem Pops.lt {s : Search} (h : Pops adjList s v) (hadj : ∀ u, ∀ p ∈ adjList.val u, p.1 < N)
    (hpq : ∀ p ∈ s.pq, p.2 < N) : v < N := by
  induction h with
  | head hs => exact hpq _ (hs ▸ List.mem_cons_self)
  | later hs ht _ ih =>
    obtain ⟨row, hrow, hrelax⟩ := Option.bind_eq_some_iff.1 ht
    obtain ⟨-, rfl⟩ := Vec.at_eq_some.1 hrow
    refine ih fun p hp => ?_
    rcases relax_pq hrelax p hp with hmem | ⟨e, he, hpe⟩
    · exact hpq p (hs ▸ List.mem_cons_of_mem _ hmem)
    · rw [hpe]
      exact hadj _ e he

theorem addEdges_rows {es : List (ℕ × ℕ)} {adj adj' : AdjList} (h : es.foldlM addEdge adj = some adj')
    (u : ℕ) (p : ℕ × ℤ) : p ∈ adj'.val u → p ∈ adj.val u ∨ IdOf es p.1 := by
  obtain ⟨adj₁, h₁, -, hmem⟩ := addEdges_some adj es (addEdges_bound h)
  obtain rfl : adj₁ = adj' := Option.some.inj (h₁.symm.trans h)
  intro hp
  rcases (hmem u p).1 hp with hp | ⟨-, he | he⟩
  · exact Or.inl hp
  · exact Or.inr ⟨_, he, Or.inr rfl⟩
  · exact Or.inr ⟨_, he, Or.inl rfl⟩

/-- **A call stays below a bound** that the graph and the mapped nodes stay below. -/
theorem Call.Uses.lt {optim : Bool} {c : Call} (h : c.Uses optim v) (hn : c.numNodes ≤ N)
    (hedges : ∀ e ∈ c.newEdges, e.1 < N ∧ e.2 < N) (hadj : ∀ u, ∀ p ∈ c.adjList.val u, p.1 < N)
    (hsources : ∀ x ∈ c.sources, x < N) (hrows : ∀ x ∈ c.rows, x < N) : v < N := by
  cases h with
  | fst he => exact (hedges _ he).1
  | snd he => exact (hedges _ he).2
  | pop hadd hsource hinit hpops =>
    refine hpops.lt (fun u p hp => ?_) ?_
    · rcases addEdges_rows hadd u p hp with hp | ⟨e, he, hep | hep⟩
      · exact hadj u p hp
      · exact hep ▸ (hedges e he).1
      · exact hep ▸ (hedges e he).2
    · simp only [Search.init, Option.bind_eq_bind, Option.bind_eq_some_iff, Option.some.injEq] at hinit
      obtain ⟨dist, -, rfl⟩ := hinit
      intro p hp
      rw [List.mem_singleton.1 hp]
      exact hsources _ hsource
  | source _ hs => exact hsources _ hs
  | node _ hi => exact hi.trans_le hn
  | row _ hm => exact hrows _ hm

/-! ## The runs -/

variable {K : Type*} [Field K] [LinearOrder K]

/-- A file whose graph fits. -/
structure Fits (file : List (ℕ × ℕ)) : Prop where
  edges : 2 + file.length ≤ shmEdgeSz
  nodes : ∀ v, IdOf file v → v < maxNodes

/-- A pass of a consumer; `none` is one that is undefined. -/
def pass (optim : Bool) (c : Option Consumer) (r : Round) : Option Consumer :=
  c.bind fun s => poll optim s r

/-- The consumers have started on the graph of the file, and the `node_map` segments are empty. -/
def System.loaded (optim : Bool) (shm : Shm) (file : List (ℕ × ℕ)) : System (Option Consumer) where
  shm := load shm file
  mapping := none
  nodeMap _ := []
  cons i := start optim i (load shm file).segments

/-- The indices of a step are in range. -/
def InRange (S : Sorts K) (optim : Bool) (s : System (Option Consumer)) : Action K → Prop
  | .publish d => ∀ j, Writes S s.shm d j → j < shmEdgeSz
  | .map => True
  | .poll i => ∀ c, s.cons i = some c → c.follower.Changed (s.round i) →
      ∀ v, (pollCall optim c (s.round i)).Uses optim v → v < maxNodes

/-- There is room for the edges that are drawn, and for the nodes that are found. -/
def HasRoom (s : System (Option Consumer)) : Action K → Prop
  | .publish d => 2 + s.shm.numEdges + drawnEdges d.ints ≤ shmEdgeSz
  | .map => True
  | .poll i => ∀ c, s.cons i = some c → c.follower.Changed (s.round i) → s.shm.numNodes ≤ maxNodes

/-- A graph after a publication, with the number of edges before it. -/
structure Published (m : Shm) (oldEdges : ℕ) : Prop where
  lt : ∀ e ∈ m.edges, e.1 < m.numNodes ∧ e.2 < m.numNodes
  newest : ∃ e ∈ m.edges.drop oldEdges, e.1 + 1 = m.numNodes

/-- What the consumers have taken from the segments. -/
structure Fed (s : System (Option Consumer)) (oldEdges : ℕ) : Prop where
  counts : ∀ i < 10, ∀ c, s.cons i = some c →
    (c.numNodesPrev = s.shm.numNodes ∧ c.numEdgesPrev = s.shm.numEdges) ∨
      (c.numEdgesPrev ≤ oldEdges ∧ Published s.shm oldEdges)
  rows : ∀ i < 10, ∀ c, s.cons i = some c → ∀ u, ∀ p ∈ c.adjList.val u, IdOf s.shm.edges p.1
  mapped : ∀ i < 10, ∀ c, s.cons i = some c → ∀ v ∈ c.mappedNodes, v < s.shm.numNodes
  nodeMap : ∀ i, ∀ v ∈ s.nodeMap i, v < s.shm.numNodes
  mapping : ∀ x ∈ s.mapping, ∀ v ∈ x.newNodes, v < s.shm.numNodes

theorem length_edges (m : Shm) : m.edges.length = m.numEdges := by simp [Shm.edges]

theorem fed_loaded (optim : Bool) (shm : Shm) (file : List (ℕ × ℕ)) :
    Fed (System.loaded optim shm file) 0 where
  counts i hi c hc := by
    obtain ⟨h1, h2, -⟩ := start_fields hc
    exact Or.inl ⟨h1, h2.trans (length_edges _)⟩
  rows i hi c hc u p hp := by
    simp only [System.loaded, start, Option.bind_eq_bind, Option.bind_eq_some_iff,
      Option.some.injEq] at hc
    obtain ⟨adj, hadd, ⟨D, out⟩, -, rfl⟩ := hc
    rcases addEdges_rows hadd u p hp with hp | hp
    · cases hp
    · exact hp
  mapped i hi c hc v hv := by
    rw [(start_fields hc).2.2] at hv
    exact mapInitialNodes_lt hi hv
  nodeMap i v hv := by cases hv
  mapping x hx := by cases hx

variable {S : Sorts K} {optim : Bool} {s t : System (Option Consumer)} {oldEdges i : ℕ}

theorem fed_publish {d : Draws K} (h : Fed s oldEdges) (hst : s.Step S (pass optim) (.publish d) t) :
    Fed t s.shm.numEdges := by
  obtain ⟨hm, shm, newNodes, hprod, rfl⟩ := step_publish hst
  obtain ⟨hlt, ⟨new, hedges, -, e, he, hlast⟩, hle, hnew⟩ := produce_ends hprod
  have hpub : Published shm s.shm.numEdges := by
    refine ⟨hlt, e, ?_, hlast⟩
    rwa [hedges, ← length_edges, List.drop_left]
  refine ⟨?_, ?_, ?_, fun i v hv => (h.nodeMap i v hv).trans_le hle, ?_⟩
  · intro i hi c hc
    refine Or.inr ⟨?_, hpub⟩
    rcases h.counts i hi c hc with ⟨-, h2⟩ | ⟨h1, h2⟩
    · exact h2.le
    · obtain ⟨e, he, -⟩ := h2.newest
      have := List.length_pos_of_mem he
      rw [List.length_drop, length_edges] at this
      omega
  · intro i hi c hc u p hp
    obtain ⟨e, he, hep⟩ := h.rows i hi c hc u p hp
    exact ⟨e, hedges ▸ List.mem_append_left new he, hep⟩
  · exact fun i hi c hc v hv => (h.mapped i hi c hc v hv).trans_le hle
  · intro x hx
    cases hx
    exact hnew

theorem fed_map (h : Fed s oldEdges) (hst : s.Step S (pass optim) .map t) : Fed t oldEdges := by
  obtain ⟨x, hx, rfl⟩ := step_map hst
  refine ⟨h.counts, h.rows, h.mapped, fun j v hv => ?_, fun y hy v hv => ?_⟩
  · dsimp only at hv
    rcases eq_or_ne j x.i with rfl | hne
    · rw [Function.update_self] at hv
      exact h.mapping x hx v (List.mem_of_mem_take hv)
    · rw [Function.update_of_ne hne] at hv
      exact h.nodeMap j v hv
  · dsimp only at hy
    split_ifs at hy with h10
    · cases hy
      exact h.mapping x hx v (List.mem_of_mem_drop hv)
    · cases hy

/-- What a pass of a consumer takes over. -/
theorem poll_fields {c c' : Consumer} {r : Round} (h : poll optim c r = some c') :
    (c' = c ∧ ¬ c.follower.Changed r) ∨
      (c'.numNodesPrev = r.shm.numNodes ∧ c'.numEdgesPrev = r.shm.edges.length ∧
        c'.mappedNodes = c.mappedNodes ++ r.nodeMap ∧
        ∀ u p, p ∈ c'.adjList.val u → p ∈ c.adjList.val u ∨ IdOf (r.shm.edges.drop c.numEdgesPrev) p.1) := by
  unfold poll at h
  split_ifs at h with hc
  · cases h
    exact Or.inl ⟨rfl, not_not_intro hc⟩
  · simp only [Option.bind_eq_bind, Option.bind_eq_some_iff, Option.some.injEq] at h
    obtain ⟨adj, hadd, ⟨D, out⟩, -, rfl⟩ := h
    exact Or.inr ⟨rfl, rfl, rfl, addEdges_rows hadd⟩

theorem fed_poll (h : Fed s oldEdges) (hst : s.Step S (pass optim) (.poll i) t) : Fed t oldEdges := by
  obtain ⟨hi, rfl⟩ := step_poll hst
  -- what the consumer holds afterwards
  have hnew : ∀ c', pass optim (s.cons i) (s.round i) = some c' →
      ((c'.numNodesPrev = s.shm.numNodes ∧ c'.numEdgesPrev = s.shm.numEdges) ∨
        (c'.numEdgesPrev ≤ oldEdges ∧ Published s.shm oldEdges)) ∧
      (∀ u, ∀ p ∈ c'.adjList.val u, IdOf s.shm.edges p.1) ∧
      ∀ v ∈ c'.mappedNodes, v < s.shm.numNodes := by
    intro c' hpass
    obtain ⟨c, hc, hpoll⟩ := Option.bind_eq_some_iff.1 hpass
    rcases poll_fields hpoll with ⟨rfl, -⟩ | ⟨h1, h2, h3, h4⟩
    · exact ⟨h.counts i hi c' hc, h.rows i hi c' hc, h.mapped i hi c' hc⟩
    · refine ⟨Or.inl ⟨h1, h2.trans (length_edges _)⟩, fun u p hp => ?_, fun v hv => ?_⟩
      · rcases h4 u p hp with hp | ⟨e, he, hep⟩
        · exact h.rows i hi c hc u p hp
        · exact ⟨e, List.mem_of_mem_drop he, hep⟩
      · rw [h3] at hv
        rcases List.mem_append.1 hv with hv | hv
        · exact h.mapped i hi c hc v hv
        · exact h.nodeMap i v hv
  refine ⟨fun j hj c hc => ?_, fun j hj c hc => ?_, fun j hj c hc => ?_, h.nodeMap, h.mapping⟩
  all_goals
    dsimp only at hc
    rcases eq_or_ne j i with rfl | hne
    · rw [Function.update_self] at hc
      first | exact (hnew c hc).1 | exact (hnew c hc).2.1 | exact (hnew c hc).2.2
    · rw [Function.update_of_ne hne] at hc
      first | exact h.counts j hj c hc | exact h.rows j hj c hc | exact h.mapped j hj c hc

/-- A consumer that finds new counts has not yet entered the newest edges. -/
theorem Fed.published {c : Consumer} (h : Fed s oldEdges) (hi : i < 10) (hc : s.cons i = some c)
    (hch : c.follower.Changed (s.round i)) : c.numEdgesPrev ≤ oldEdges ∧ Published s.shm oldEdges := by
  rcases h.counts i hi c hc with ⟨h1, h2⟩ | hpub
  · exact absurd ⟨h1.symm, (length_edges s.shm).trans h2.symm⟩ hch
  · exact hpub

theorem publish_inRange {d : Draws K} (hst : s.Step S (pass optim) (.publish d) t) :
    InRange S optim s (.publish d) ↔ HasRoom s (.publish d) := by
  obtain ⟨hm, shm, newNodes, hprod, rfl⟩ := step_publish hst
  obtain ⟨-, ⟨new, hedges, hlen, e, he, -⟩, -, -⟩ := produce_ends hprod
  have hcount : shm.numEdges = s.shm.numEdges + drawnEdges d.ints := by
    rw [← length_edges, hedges, List.length_append, length_edges, hlen]
  have hpos := List.length_pos_of_mem he
  constructor
  · intro h
    have := h (2 + shm.numEdges - 1) ⟨shm, newNodes, hprod, by omega⟩
    simp only [HasRoom]
    omega
  · rintro h j ⟨t, newNodes', hprod', hj⟩
    obtain ⟨rfl, -⟩ := Prod.mk.inj (Except.ok.inj (hprod.symm.trans hprod'))
    simp only [HasRoom] at h
    omega

theorem poll_inRange (h : Fed s oldEdges) (hi : i < 10) :
    InRange S optim s (.poll i) ↔ HasRoom (K := K) s (.poll i) := by
  constructor
  · intro hr c hc hch
    obtain ⟨hle, -, e, he, hlast⟩ := h.published hi hc hch
    have hmem : e ∈ s.shm.edges.drop c.numEdgesPrev :=
      (List.drop_sublist_drop_left s.shm.edges hle).subset he
    have := hr c hc hch e.1 (Call.Uses.fst hmem)
    omega
  · intro hroom c hc hch v hv
    have hn := hroom c hc hch
    obtain ⟨-, hlt, -⟩ := h.published hi hc hch
    refine (hv.lt (N := s.shm.numNodes) le_rfl ?_ ?_ ?_ (h.mapped i hi c hc)).trans_le hn
    · exact fun e he => hlt e (List.mem_of_mem_drop he)
    · intro u p hp
      obtain ⟨e, he, hep | hep⟩ := h.rows i hi c hc u p hp
      · exact hep ▸ (hlt e he).1
      · exact hep ▸ (hlt e he).2
    · intro x hx
      unfold pollCall at hx
      dsimp only at hx
      split_ifs at hx
      · rw [List.mem_range'_1] at hx
        change _ ∧ x < _ + (s.shm.numNodes - _) at hx
        omega
      · rcases List.mem_append.1 hx with hx | hx
        · exact h.mapped i hi c hc x hx
        · exact h.nodeMap i x hx

/-- New nodes with one edge each can be drawn with any numbers. -/
theorem addNodes_zeros {D : Distribution K} {n : ℕ} (hD : D.Valid n) (num v : ℕ) (units : List K)
    (hlen : num ≤ units.length) (hu : ∀ x ∈ units, x ≤ 1) :
    ∃ es, addNodes D num v (List.replicate num 0) units = .ok es := by
  induction num generalizing v units with
  | zero => exact ⟨[], rfl⟩
  | succ num ih =>
    rcases units with _ | ⟨x, units⟩
    · simp at hlen
    · obtain ⟨es, hes⟩ := ih (v + 1) units (by simpa using hlen) fun y hy =>
        hu y (List.mem_cons_of_mem x hy)
      have hdraw : drawIdx D.nodeProb [] (x :: units) =
          some (lowerBound (D.nodeProb.map Prod.snd) x, units) := by simp [drawIdx]
      obtain ⟨p, hp⟩ := hD.get hu hdraw
      refine ⟨(v, p.1) :: es, ?_⟩
      simp [List.replicate_succ, addNodes, attach, hdraw, hp, hes, Except.map]

theorem publish_tenNodes (optim : Bool) {s : System (Option Consumer)} (hm : WellFormed s.shm)
    (hs : s.mapping = none) :
    ∃ t, s.Step stableSorts (pass optim) (.publish tenNodes) t ∧ (∃ x, t.mapping = some x ∧ x.i = 0) ∧
      WellFormed t.shm ∧ t.shm.numEdges = s.shm.numEdges + 10 := by
  obtain ⟨D, hcalc, hD⟩ := calcDegree_valid stableSorts hm
  obtain ⟨es, hes⟩ := addNodes_zeros hD 10 s.shm.numNodes tenNodes.units (by decide) fun x hx =>
    (tenNodes.unit_mem x hx).2
  have hadd : addNodes D (10 + 0 % 21) s.shm.numNodes (List.replicate 10 0) tenNodes.units = .ok es := hes
  obtain ⟨⟨u, newNodes⟩, hprod⟩ : ∃ r, produce stableSorts s.shm tenNodes = .ok r := by
    have hints : tenNodes.ints = 0 :: List.replicate 10 0 := rfl
    rcases hp : produce stableSorts s.shm tenNodes with e | r
    · rw [produce, hcalc] at hp
      simp only [hints, hadd, Except.map] at hp
      cases hp
    · exact ⟨r, rfl⟩
  obtain ⟨⟨new, hg⟩, -⟩ := produce_spec hm hprod
  obtain ⟨-, ⟨new', hedges, hlen, -⟩, -, -⟩ := produce_ends hprod
  refine ⟨{ s with shm := u, mapping := some (Mapping.start newNodes) }, ?_, ⟨_, rfl, rfl⟩,
    hg.wellFormed hm, ?_⟩
  · simp [System.Step, System.next, hs, hprod]
  · have hdrawn : drawnEdges tenNodes.ints = 10 := by decide
    dsimp only
    rw [← length_edges, hedges, List.length_append, length_edges, hlen, hdrawn]

/-- The segments of the remaining consumers are written. -/
theorem write_maps (S : Sorts K) (optim : Bool) (k : ℕ) {s : System (Option Consumer)} {x : Mapping}
    (hx : s.mapping = some x) (hk : x.i + k = 9) :
    ∃ t, Reaches (System.Step S (pass optim)) s t ∧ t.mapping = none ∧ t.shm = s.shm := by
  induction k generalizing s x with
  | zero =>
    refine ⟨_, (Reaches.refl s).snoc (a := Action.map) (Option.map_eq_some_iff.2 ⟨x, hx, rfl⟩), ?_, rfl⟩
    exact if_neg (by omega)
  | succ k ih =>
    obtain ⟨t, ht, hnone, hshm⟩ := ih (s := { s with
      nodeMap := Function.update s.nodeMap x.i x.nodes
      mapping := if x.i + 1 < 10 then some x.next else none }) (x := x.next) (if_pos (by omega))
      (by simp only [Mapping.next]; omega)
    refine ⟨t, Reaches.trans ((Reaches.refl s).snoc (a := Action.map) ?_) ht, hnone, hshm⟩
    exact Option.map_eq_some_iff.2 ⟨x, hx, rfl⟩

/-- Any number of iterations with ten nodes each. -/
theorem grow (optim : Bool) (k : ℕ) {s : System (Option Consumer)} (hm : WellFormed s.shm)
    (hs : s.mapping = none) :
    ∃ t, Reaches (System.Step stableSorts (pass optim)) s t ∧ t.mapping = none ∧ WellFormed t.shm ∧
      t.shm.numEdges = s.shm.numEdges + 10 * k := by
  induction k with
  | zero => exact ⟨s, Reaches.refl s, hs, hm, rfl⟩
  | succ k ih =>
    obtain ⟨t, ht, hnone, hwf, hedges⟩ := ih
    obtain ⟨u, hu, ⟨x, hx, hi⟩, hwfu, hcount⟩ := publish_tenNodes optim hwf hnone
    obtain ⟨v, hv, hvnone, hshm⟩ := write_maps stableSorts optim 9 hx (by omega)
    exact ⟨v, (ht.snoc hu).trans hv, hvnone, hshm ▸ hwfu, by rw [hshm, hcount, hedges]; omega⟩

/-- The graph of the file `0 1`. -/
def oneEdge (optim : Bool) : System (Option Consumer) :=
  System.loaded optim ⟨fun _ => 0, fun _ => 0⟩ [(0, 1)]

theorem fits_oneEdge : Fits [(0, 1)] where
  edges := by decide
  nodes v hv := by
    obtain ⟨e, he, hev⟩ := hv
    obtain rfl := List.mem_singleton.1 he
    have : v < 2 := by omega
    exact this.trans (by decide)

theorem oneEdge_wellFormed (optim : Bool) : WellFormed (oneEdge optim).shm :=
  wellFormed_edge (m := load ⟨fun _ => 0, fun _ => 0⟩ [(0, 1)]) (by decide) (by decide) (by decide)
    (by decide)

end OsLab.Paths
