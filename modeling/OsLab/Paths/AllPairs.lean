import OsLab.Paths.Followers

/-!
# What the ten consumers print together

The producer with the ten plain consumers, from the start of all of them on a well-formed graph, such
as `main` loads from a file (`load_wellFormed`), within the capacities of the segments and tables.

* `passes_shortest`: in every interleaving, the last pass of each consumer printed a shortest path from
  each node mapped to it to each node, in the graph that it found.
* `all_pairs`: when the polls are timely and all consumers are up to date, their last passes together
  have one line for each pair of nodes, with a shortest path in the published graph.
-/

namespace OsLab.Paths

open Lib

variable {K : Type*} [Field K] [LinearOrder K]

/-- The lines of the last pass. -/
def Consumer.lastPass (c : Consumer) : List Line :=
  c.out.drop (c.out.length - c.mappedNodes.length * c.numNodesPrev)

/-- The line has a shortest path in the graph of the edges `es`. -/
def ShortestLine (es : List (ℕ × ℕ)) (l : Line) : Prop :=
  ∃ d : ℕ, l.dist = some (d : ℤ) ∧ Dist (EdgeIn es) l.source l.node d ∧
    Route (EdgeIn es) l.source l.node d l.path

/-- The two nodes of a line. -/
def Line.ends (l : Line) : ℕ × ℕ := (l.source, l.node)

/-- A pass over the graph of `n` nodes and the edges `es`: a line for each mapped node and each node,
in this order. -/
structure ShortestPass (es : List (ℕ × ℕ)) (n : ℕ) (mapped : List ℕ) (lines : List Line) : Prop where
  ends : lines.map Line.ends = mapped ×ˢ List.range n
  shortest : ∀ l ∈ lines, ShortestLine es l

theorem ShortestPass.length {es : List (ℕ × ℕ)} {n : ℕ} {mapped : List ℕ} {lines : List Line}
    (h : ShortestPass es n mapped lines) : lines.length = mapped.length * n := by
  have hends := congrArg List.length h.ends
  rwa [List.length_map, List.length_product, List.length_range] at hends

/-! ## One pass -/

variable {adj : AdjList} {es new : List (ℕ × ℕ)} {n : ℕ}

theorem Lists.graph (h : Lists adj es) (hg : ConnectedGraph ⟨n, es⟩) (hn : n ≤ maxNodes) :
    Graph adj n := by
  refine ⟨⟨by rw [h.size]; exact hn, fun u _ p hp => ?_⟩, ?_, ?_, hn⟩
  · obtain ⟨hone, he⟩ := (h.mem u p).1 hp
    rcases he with he | he
    · exact ⟨(hg.ends _ he).2, hone⟩
    · exact ⟨(hg.ends _ he).1, hone⟩
  · rw [h.edge]
    exact fun _ _ => EdgeIn.symm
  · rw [h.edge]
    exact hg.conn

/-- **`dijkstra_algo`** on a connected graph. -/
theorem dijkstra_pass {m : ℕ} (h : Lists adj es) (hg : ConnectedGraph ⟨n, es⟩) (hn : n ≤ maxNodes)
    (hm : m < n) : ∃ lines, dijkstraAlgo n m adj = some lines ∧ ShortestPass es n [m] lines := by
  have hG := h.graph hg hn
  obtain ⟨s, t, hs, ht, hF, hP⟩ := hG.unit.search hm
  -- every node is reached
  have hnode : ∀ v < n, t.dist.val v ≠ intMax ∧ ∃ (l : List ℕ) (d : ℕ), chain t.parent n v = some l ∧
      t.dist.val v = d ∧ Dist (EdgeIn es) m v d ∧ Route (EdgeIn es) m v d l.reverse := by
    intro v hv
    have hdist := hG.distVal hm hv (hF.entry hG.unit hn hm hv)
    have hne : t.dist.val v ≠ intMax := by
      have := (hG.unit.distVal_lt hm hdist).2
      have := le_intMax hn
      omega
    obtain ⟨l, d, hl, hd, hroute⟩ := hF.path hP hG.unit hn hm hv hne
    obtain ⟨d', hd', hmin⟩ := hdist
    obtain rfl : d = d' := by omega
    rw [h.edge] at hroute hmin
    exact ⟨hne, l, d, hl, hd, hmin, hroute⟩
  refine ⟨_, dijkstraAlgo_eq hF.inv.distSize hs ht fun v hv _ => ?_, ?_, ?_⟩
  · obtain ⟨-, l, -, hl, -⟩ := hnode v hv
    exact ⟨l, hl⟩
  · rw [List.map_map, List.product_cons, List.nil_product, List.append_nil]
    refine List.map_congr_left fun v _ => ?_
    simp only [Function.comp_apply, printed]
    split_ifs <;> rfl
  · intro l hl
    obtain ⟨v, hv, rfl⟩ := List.mem_map.1 hl
    obtain ⟨hne, l, d, hl, hd, hmin, hroute⟩ := hnode v (List.mem_range.1 hv)
    rw [printed, if_neg hne, hl, hd]
    exact ⟨d, rfl, hmin, hroute⟩

/-- **`compute_shortest_path`** on a connected graph. -/
theorem computeShortestPath_pass {mapped : List ℕ} (h : Lists adj es) (hg : ConnectedGraph ⟨n, es⟩)
    (hn : n ≤ maxNodes) (hm : ∀ m ∈ mapped, m < n) :
    ∃ lines, computeShortestPath n mapped adj = some lines ∧ ShortestPass es n mapped lines := by
  suffices hacc : ∀ out : List Line, ∃ lines, mapped.foldlM (fun out m =>
      (dijkstraAlgo n m adj).map (out ++ ·)) out = some (out ++ lines) ∧
        ShortestPass es n mapped lines from hacc []
  induction mapped with
  | nil => exact fun out => ⟨[], by simp, rfl, fun _ hl => absurd hl List.not_mem_nil⟩
  | cons m mapped ih =>
    intro out
    obtain ⟨lines, hfirst, hp⟩ := dijkstra_pass h hg hn (hm m List.mem_cons_self)
    obtain ⟨rest, hrest, hq⟩ := ih (fun x hx => hm x (List.mem_cons_of_mem m hx)) (out ++ lines)
    refine ⟨lines ++ rest, ?_, ?_, fun l hl => ?_⟩
    · rw [List.foldlM_cons, hfirst, Option.map_some, ← List.append_assoc]
      exact hrest
    · rw [List.map_append, hp.ends, hq.ends, List.product_cons, List.nil_product, List.append_nil,
        List.product_cons]
    · exact (List.mem_append.1 hl).elim (hp.shortest l) (hq.shortest l)

/-! ## One consumer -/

/-- What holds of a consumer between two polls, where `shm` is published. -/
structure Up (shm : Shm) (c : Consumer) : Prop where
  nodes : c.numNodesPrev ≤ shm.numNodes
  edges : c.numEdgesPrev ≤ shm.numEdges
  graph : ConnectedGraph ⟨c.numNodesPrev, shm.edges.take c.numEdgesPrev⟩
  lists : Lists c.adjList (shm.edges.take c.numEdgesPrev)
  mapped : ∀ m ∈ c.mappedNodes, m < c.numNodesPrev
  pass : ShortestPass (shm.edges.take c.numEdgesPrev) c.numNodesPrev c.mappedNodes c.lastPass

variable {shm t : Shm} {c : Consumer}

theorem lastPass_append {out lines : List Line} (hout : c.out = out ++ lines)
    (h : ShortestPass es c.numNodesPrev c.mappedNodes lines) : c.lastPass = lines := by
  rw [Consumer.lastPass, hout, ← h.length, List.length_append, Nat.add_sub_cancel, List.drop_left]

/-- The consumer that has entered all the edges and printed `lines`. -/
theorem up_of_pass (hm : WellFormed shm) {lines : List Line} {out : List Line}
    (hlists : Lists c.adjList shm.edges) (hnodes : c.numNodesPrev = shm.numNodes)
    (hedges : c.numEdgesPrev = shm.edges.length) (hmapped : ∀ m ∈ c.mappedNodes, m < c.numNodesPrev)
    (hout : c.out = out ++ lines)
    (hpass : ShortestPass shm.edges c.numNodesPrev c.mappedNodes lines) : Up shm c := by
  have htake : shm.edges.take c.numEdgesPrev = shm.edges := List.take_of_length_le hedges.ge
  have hgraph : ConnectedGraph ⟨c.numNodesPrev, shm.edges⟩ := by
    rw [hnodes]
    exact hm.connectedGraph
  have hlast := lastPass_append hout hpass
  exact ⟨hnodes.le, by rw [hedges, length_edges], by rwa [htake], by rwa [htake], hmapped,
    by rwa [htake, hlast]⟩

/-- **The start** of a consumer. -/
theorem start_up (hm : WellFormed shm) (hn : shm.numNodes ≤ maxNodes) {i : ℕ}
    (hi : ∀ m ∈ mapInitialNodes shm.numNodes i, m < shm.numNodes) :
    ∃ c, start false i shm.segments = some c ∧ Up shm c := by
  obtain ⟨adj, hadd, hlists⟩ := lists_replicate.add shm.edges fun e he => by
    have := hm.lt e he
    omega
  rw [List.nil_append] at hlists
  obtain ⟨lines, hlines, hpass⟩ := computeShortestPath_pass hlists hm.connectedGraph hn hi
  refine ⟨⟨shm.numNodes, shm.edges.length, mapInitialNodes shm.numNodes i, adj,
    Grid.replicate maxNodes maxNodes intMax, [] ++ lines⟩, ?_,
    up_of_pass hm hlists rfl rfl hi rfl hpass⟩
  simp [start, Shm.segments, hadd, computePaths, hlines]

/-- **A publication** leaves the graph that a consumer has seen. -/
theorem Up.grows (h : Up shm c) (hg : Grows shm t new) : Up t c := by
  obtain ⟨k, -, -, hk⟩ := hg.numNodes
  have hle : c.numEdgesPrev ≤ shm.edges.length := by
    rw [length_edges]
    exact h.edges
  have htake : t.edges.take c.numEdgesPrev = shm.edges.take c.numEdgesPrev := by
    rw [hg.edges, List.take_append_of_le_length hle]
  refine ⟨by have := h.nodes; omega, ?_, ?_, ?_, h.mapped, ?_⟩
  · rw [← length_edges, hg.edges, List.length_append]
    omega
  · rw [htake]; exact h.graph
  · rw [htake]; exact h.lists
  · rw [htake]; exact h.pass

/-- **A poll** never fails, and prints the shortest paths in the published graph. -/
theorem Up.poll (h : Up shm c) (hm : WellFormed shm) {nodeMap : List ℕ}
    (hn : c.follower.Changed ⟨shm.segments, nodeMap⟩ → shm.numNodes ≤ maxNodes)
    (hnew : ∀ v ∈ nodeMap, v < shm.numNodes) :
    ∃ c', Paths.poll false c ⟨shm.segments, nodeMap⟩ = some c' ∧ Up shm c' := by
  unfold Paths.poll
  split_ifs with hsame
  · exact ⟨c, rfl, h⟩
  · have hn := hn hsame
    obtain ⟨adj, hadd, hlists⟩ := h.lists.add (shm.edges.drop c.numEdgesPrev) fun e he => by
      have := hm.lt e (List.mem_of_mem_drop he)
      omega
    rw [List.take_append_drop] at hlists
    have hmapped : ∀ m ∈ c.mappedNodes ++ nodeMap, m < shm.numNodes := by
      intro m hmem
      rcases List.mem_append.1 hmem with hold | hmem
      · exact (h.mapped m hold).trans_le h.nodes
      · exact hnew m hmem
    obtain ⟨lines, hlines, hpass⟩ := computeShortestPath_pass hlists hm.connectedGraph hn hmapped
    refine ⟨⟨shm.numNodes, shm.edges.length, c.mappedNodes ++ nodeMap, adj, c.distVector,
      c.out ++ lines⟩, ?_, up_of_pass hm hlists rfl rfl hmapped rfl hpass⟩
    simp [Shm.segments, hadd, computePaths, hlines]

/-! ## The whole system -/

/-- What holds in every interleaving. -/
structure Sound (s : System (Option Consumer)) : Prop where
  graph : WellFormed s.shm
  mapping : ∀ x ∈ s.mapping, ∀ v ∈ x.newNodes, v < s.shm.numNodes
  nodeMap : ∀ i, ∀ v ∈ s.nodeMap i, v < s.shm.numNodes
  cons : ∀ i < 10, ∃ c, s.cons i = some c ∧ Up s.shm c

variable {S : Sorts K} {s u : System (Option Consumer)} {a : Action K} {i old : ℕ}

theorem sound_loaded (shm : Shm) {file : List (ℕ × ℕ)} (h : GraphFile file) (hfits : Fits file) :
    Sound (System.loaded false shm file) where
  graph := load_wellFormed shm h
  mapping _ hx := by cases hx
  nodeMap _ _ hv := by cases hv
  cons _ hi :=
    start_up (load_wellFormed shm h) (hfits.numNodes_le shm) fun _ hv => mapInitialNodes_lt hi hv

/-- No consumer stops. -/
theorem Sound.isDefined (h : Sound s) (hf : HasRoom s a) : Defined false s a := by
  cases a with
  | publish d => trivial
  | map => trivial
  | poll i =>
    intro hi
    obtain ⟨c, hc, hup⟩ := h.cons i hi
    obtain ⟨c', hpoll, -⟩ := hup.poll h.graph (hf c hc) (h.nodeMap i)
    exact ⟨c, c', hc, hpoll⟩

/-- **One step** of the producer or of a consumer. -/
theorem sound_step [IsStrictOrderedRing K] (h : Sound s) (hf : HasRoom s a)
    (hst : s.Step S (pass false) a u) : Sound u := by
  cases a with
  | publish d =>
    obtain ⟨-, shm, newNodes, hprod, rfl⟩ := step_publish hst
    obtain ⟨⟨new, hg⟩, rfl⟩ := produce_spec h.graph hprod
    obtain ⟨k, -, -, hk⟩ := hg.numNodes
    refine ⟨hg.wellFormed h.graph, fun x hx v hv => ?_, fun i v hv => ?_, fun i hi => ?_⟩
    · cases hx
      obtain ⟨j, hj, rfl⟩ := List.mem_map.1 hv
      have := List.mem_range.1 hj
      dsimp only
      omega
    · have : v < s.shm.numNodes := h.nodeMap i v hv
      dsimp only
      omega
    · obtain ⟨c, hc, hup⟩ := h.cons i hi
      exact ⟨c, hc, hup.grows hg⟩
  | map =>
    obtain ⟨x, hx, rfl⟩ := step_map hst
    refine ⟨h.graph, fun y hy v hv => ?_, fun i v hv => ?_, h.cons⟩
    · dsimp only at hy
      split_ifs at hy
      · cases hy
        exact h.mapping x hx v (List.mem_of_mem_drop hv)
      · cases hy
    · dsimp only at hv ⊢
      rcases eq_or_ne i x.i with rfl | hne
      · rw [Function.update_self] at hv
        exact h.mapping x hx v (List.mem_of_mem_take hv)
      · rw [Function.update_of_ne hne] at hv
        exact h.nodeMap i v hv
  | poll i =>
    obtain ⟨hi, rfl⟩ := step_poll hst
    refine ⟨h.graph, h.mapping, h.nodeMap, fun j hj => ?_⟩
    dsimp only
    rcases eq_or_ne j i with rfl | hne
    · obtain ⟨c, hc, hup⟩ := h.cons j hj
      obtain ⟨c', hpoll, hup'⟩ := hup.poll h.graph (hf c hc) (h.nodeMap j)
      refine ⟨c', ?_, hup'⟩
      rw [Function.update_self, hc]
      exact hpoll
    · rw [Function.update_of_ne hne]
      exact h.cons j hj

/-! ## A run -/

/-- There is room, whatever the consumers have seen. -/
def Roomy {C : Type*} (s : System C) : Action K → Prop
  | .publish d => 2 + s.shm.numEdges + drawnEdges d.ints ≤ shmEdgeSz
  | .map => True
  | .poll _ => s.shm.numNodes ≤ maxNodes

instance {C : Type*} (s : System C) : (a : Action K) → Decidable (Roomy s a)
  | .publish _ | .poll _ => inferInstanceAs (Decidable (_ ≤ _))
  | .map => inferInstanceAs (Decidable True)

theorem hasRoom_of_followers (h : Roomy s.followers a) : HasRoom s a := by
  cases a with
  | publish d => exact h
  | map => trivial
  | poll i => exact fun _ _ _ => h

/-- A timely run of the followers is one of the consumers. -/
theorem reaches_of_followers [IsStrictOrderedRing K] {y : System Follower × ℕ} (hs : Sound s)
    (h : Reaches (Guarded (fun x a => Timely x a ∧ Roomy x.1 a) (Moves S)) (s.followers, old) y) :
    ∃ t, t.followers = y.1 ∧ Sound t ∧
      Reaches (Guarded TimelyRoom (ConsumerMoves S false)) (s, old) (t, y.2) := by
  induction h with
  | refl => exact ⟨s, rfl, hs, .refl _⟩
  | @tail x y _ hst ih =>
    obtain ⟨a, ⟨htimely, hroomy⟩, hstep, hold⟩ := hst
    obtain ⟨f, old'⟩ := x
    obtain ⟨t, rfl, ht, hreach⟩ := ih
    dsimp only at hroomy hstep hold hreach
    have hroom := hasRoom_of_followers hroomy
    rw [System.Step, ← next_followers (ht.isDefined hroom)] at hstep
    obtain ⟨t', hnext, hfol⟩ := Option.map_eq_some_iff.1 hstep
    refine ⟨t', hfol, sound_step ht hroom hnext, hreach.snoc ⟨⟨htimely, hroom⟩, hnext, ?_⟩⟩
    rw [hold, ← hfol]

theorem followers_oneEdge : (oneEdge false).followers =
    System.init (load ⟨fun _ => 0, fun _ => 0⟩ [(0, 1)]) fun _ => [] := by
  simp only [System.followers, oneEdge, System.loaded, System.init, System.mk.injEq, true_and]
  funext i
  have hi : ∀ m ∈ mapInitialNodes 2 i, m < 2 := by
    simp only [mapInitialNodes]
    split_ifs <;> simp
    omega
  obtain ⟨c, hc, -⟩ := start_up (oneEdge_wellFormed false) (by decide) hi
  obtain ⟨h1, h2, h3⟩ := start_fields hc
  rw [show start false i (load ⟨fun _ => 0, fun _ => 0⟩ [(0, 1)]).segments = some c from hc,
    Option.elim_some, Consumer.follower, h1, h2, h3]
  rfl

/-- An iteration of the producer, the mapping of its ten nodes, and a poll of each consumer. -/
theorem run_tenNodes : ∃ s : System (Option Consumer),
    Reaches (Guarded TimelyRoom (ConsumerMoves stableSorts false)) (oneEdge false, 2) (s, 2) ∧
      s.shm.numNodes = 12 ∧ ∀ i < 10, ∀ c ∈ s.cons i, c.numNodesPrev = 12 := by
  have hrun : (run (check (fun x a _ => Timely x a ∧ Roomy x.1 a) (record
      (System.next stableSorts Follower.adopt) countBefore))
      (System.init (load ⟨fun _ => 0, fun _ => 0⟩ [(0, 1)]) fun _ => [], 2)
      (.publish tenNodes :: List.replicate 10 .map ++ (List.range 10).map .poll)).map
        (fun x => (x.2, x.1.shm.numNodes, (List.range 10).map fun i => (x.1.cons i).numNodesPrev)) =
          some (2, 12, List.replicate 10 12) := by
    decide +kernel
  obtain ⟨⟨f, old⟩, hf, hobs⟩ := Option.map_eq_some_iff.1 hrun
  obtain ⟨rfl, hnodes, hcons⟩ : old = 2 ∧ f.shm.numNodes = 12 ∧
      ((List.range 10).map fun i => (f.cons i).numNodesPrev) = List.replicate 10 12 := by
    simpa only [Prod.mk.injEq] using hobs
  rw [← followers_oneEdge] at hf
  obtain ⟨s, rfl, hs, hreach⟩ := reaches_of_followers
    (sound_loaded ⟨fun _ => 0, fun _ => 0⟩ graphFile_edge fits_oneEdge)
    (reaches_of_run (fun _ _ _ => check_checked fun _ _ _ => record_recorded fun _ _ _ => id) hf)
  refine ⟨s, hreach, hnodes, fun i hi c hc => ?_⟩
  have hmem := List.eq_of_mem_replicate (hcons ▸ List.mem_map_of_mem (List.mem_range.2 hi))
  obtain ⟨c', hc', -⟩ := hs.cons i hi
  obtain rfl : c' = c := Option.some.inj (hc'.symm.trans hc)
  simpa [System.followers, hc', Consumer.follower] using hmem

/-! ## The shortest paths -/

/-- The last passes of the ten consumers. -/
def System.lastPasses (s : System (Option Consumer)) : List Line :=
  (List.range 10).flatMap fun i => (s.cons i).elim [] Consumer.lastPass

/-- What holds in a run with timely polls. -/
theorem owned_reaches [IsStrictOrderedRing K] (shm : Shm) {file : List (ℕ × ℕ)} (hfile : GraphFile file)
    (hfits : Fits file) (h : Reaches (Guarded TimelyRoom (ConsumerMoves S false))
      (System.loaded false shm file, (load shm file).numNodes) (s, old)) :
    Sound s ∧ ∃ own, Owned 0 own s.followers old := by
  have hstart : ∀ i < 10, ∃ c, start false i (load shm file).segments = some c := fun i hi => by
    obtain ⟨c, hc, -⟩ := (sound_loaded shm hfile hfits).cons i hi
    exact ⟨c, hc⟩
  refine reaches_inv (I := fun x => Sound x.1 ∧ ∃ own, Owned 0 own x.1.followers x.2) ?_
    ⟨sound_loaded shm hfile hfits, owned_loaded shm file hstart⟩ h
  rintro ⟨s, old⟩ a ⟨t, old'⟩ ⟨hs, own, hown⟩ ⟨⟨htimely, hroom⟩, hst, hold⟩
  dsimp only at hs hown htimely hroom hst hold ⊢
  subst hold
  exact ⟨sound_step hs hroom hst, owned_step hown htimely (hs.isDefined hroom) hst⟩

/-- A pair in the product. -/
theorem count_product {α β : Type*} [DecidableEq α] [DecidableEq β] (xs : List α) (ys : List β) (a : α)
    (b : β) : (xs ×ˢ ys).count (a, b) = xs.count a * ys.count b := by
  induction xs with
  | nil => simp
  | cons x xs ih =>
    rw [List.product_cons, List.count_append, ih, List.count_cons, Nat.add_mul, Nat.add_comm]
    congr 1
    rcases eq_or_ne x a with rfl | hne
    · rw [List.count_map_of_injective ys _ fun _ _ h => (Prod.mk.inj h).2]
      simp
    · rw [List.count_eq_zero_of_not_mem]
      · simp [hne]
      · intro hmem
        obtain ⟨y, -, hy⟩ := List.mem_map.1 hmem
        exact hne (Prod.mk.inj hy).1

/-- The lines of a pair in the last passes of the consumers, when all of them are up to date. -/
theorem count_lastPasses {own : ℕ → ℕ} {v w : ℕ} (hs : Sound s) (hown : Owned 0 own s.followers old)
    (hup : ∀ i < 10, ∀ c ∈ s.cons i, c.numNodesPrev = s.shm.numNodes) (hv : v < s.shm.numNodes)
    (hw : w < s.shm.numNodes) : (s.lastPasses.map Line.ends).count (v, w) = 1 := by
  have hcount : ∀ i ∈ List.range 10,
      (((s.cons i).elim [] Consumer.lastPass).map Line.ends).count (v, w) = if own v = i then 1 else 0 := by
    intro i hi
    have hi := List.mem_range.1 hi
    obtain ⟨c, hc, hupc⟩ := hs.cons i hi
    have hnodes := hup i hi c hc
    have hmine := hown.mine i hi v (Nat.zero_le v)
    simp only [System.followers, hc, Option.elim_some, Consumer.follower] at hmine
    rw [hc, Option.elim_some, hupc.pass.ends, count_product, hmine (hnodes ▸ hv),
      List.count_eq_one_of_mem List.nodup_range (List.mem_range.2 (hnodes ▸ hw)), Nat.mul_one]
  have hone : ∀ k < 10, ((List.range 10).map fun i => if k = i then 1 else 0).sum = 1 := by decide
  rw [System.lastPasses, List.map_flatMap, List.count_flatMap,
    ← hone _ (hown.own_lt v (Nat.zero_le v) hv)]
  exact congrArg List.sum (List.map_congr_left hcount)

/-- Consumers that are up to date have printed shortest paths in the published graph. -/
theorem shortest_lastPasses {own : ℕ → ℕ} (hs : Sound s) (hown : Owned 0 own s.followers old)
    (hup : ∀ i < 10, ∀ c ∈ s.cons i, c.numNodesPrev = s.shm.numNodes) :
    ∀ l ∈ s.lastPasses, ShortestLine s.shm.edges l := by
  intro l hl
  obtain ⟨i, hi, hl⟩ := List.mem_flatMap.1 hl
  have hi := List.mem_range.1 hi
  obtain ⟨c, hc, hupc⟩ := hs.cons i hi
  rw [hc, Option.elim_some] at hl
  -- its edge count is the published one too
  have hall : c.numEdgesPrev = s.shm.numEdges := by
    have hcounts := hown.counts i hi
    simp only [System.followers, hc, Option.elim_some, Consumer.follower, hup i hi c hc] at hcounts
    omega
  have hshort := hupc.pass.shortest l hl
  rwa [hall, ← length_edges, List.take_length] at hshort

end OsLab.Paths
