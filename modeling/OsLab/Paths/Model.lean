import OsLab.Lib.Vec
import OsLab.Lib.Loop
import Mathlib.Data.List.Sort
import Mathlib.Algebra.BigOperators.Group.Finset.Basic
import Mathlib.Algebra.Order.BigOperators.Group.Finset

/-!
# The consumers of the graph (`consumer.cpp`)

A consumer maps some nodes of a growing graph to itself and computes the shortest paths
from them, in a plain and in an optimised way. `none` is undefined behaviour (an index
past the end of a vector, an overflow) or a loop that never ends.

The shared segments `shm1` and `shm2` are a node count and the list of the pairs
`(shm1[i + 2], shm2[i + 2])` (`Segments`); what is written to the result files is the list
of the printed lines.
-/

namespace OsLab.Paths

open Lib

/-- `MAX_NODES`. -/
def maxNodes : ℕ := 6000

/-- An adjacency list: the neighbours of each node, with the weights of the edges. -/
abbrev AdjList := Vec (List (ℕ × ℤ))

/-- What `shm1` and `shm2` hold. -/
structure Segments where
  numNodes : ℕ
  edges : List (ℕ × ℕ)

/-- A printed line: the shortest path from `source` to `node`; `INF` is `none`. -/
structure Line where
  source : ℕ
  node : ℕ
  dist : Option ℤ
  path : List ℕ

/-- `map_initial_nodes`: the nodes of the consumer. -/
def mapInitialNodes (numNodes consumerId : ℕ) : List ℕ :=
  let numNodesPerConsumer := numNodes / 10
  let rem := numNodes % 10
  if consumerId < rem then
    (List.range (numNodesPerConsumer + 1)).map fun i => consumerId * (numNodesPerConsumer + 1) + i
  else
    (List.range numNodesPerConsumer).map fun i =>
      rem * (numNodesPerConsumer + 1) + (consumerId - rem) * numNodesPerConsumer + i

/-! ## Dijkstra's algorithm -/

/-- `operator<=` of `pair<int, int>`. -/
def PairLe (a b : ℤ × ℕ) : Prop := a.1 < b.1 ∨ (a.1 = b.1 ∧ a.2 ≤ b.2)

instance : DecidableRel PairLe := fun a b =>
  inferInstanceAs (Decidable (a.1 < b.1 ∨ (a.1 = b.1 ∧ a.2 ≤ b.2)))

/-- The local variables of a search. The min-heap `pq` is the list of its elements in pop
order. -/
structure Search where
  dist : Vec ℤ
  parent : Vec ℤ
  pq : List (ℤ × ℕ)

/-- The state in which the loop starts. -/
def Search.init (numNodes source : ℕ) : Option Search := do
  let dist ← (Vec.replicate numNodes intMax).set source 0
  some ⟨dist, Vec.replicate numNodes (-1), [(0, source)]⟩

/-- The inner loop, over the neighbours of `u`. -/
def relax (u : ℕ) : List (ℕ × ℤ) → Search → Option Search
  | [], s => some s
  | (v, weight) :: es, s => do
    let dv ← s.dist.at v
    let du ← s.dist.at u
    let d ← addInt du weight
    if d < dv then do
      let dist ← s.dist.set v d
      let parent ← s.parent.set v u
      relax u es ⟨dist, parent, s.pq.orderedInsert PairLe (d, v)⟩
    else relax u es s

/-- What a relaxation uses up: the distances only go down. -/
def Search.potential (s : Search) : ℕ :=
  ∑ v ∈ Finset.range s.dist.size, (s.dist.val v - intMin).toNat

theorem relax_potential {u : ℕ} {es : List (ℕ × ℤ)} {s t : Search} (h : relax u es s = some t) :
    t.potential < s.potential ∨ (t.potential = s.potential ∧ t.pq = s.pq) := by
  induction es generalizing s with
  | nil => cases h; exact Or.inr ⟨rfl, rfl⟩
  | cons e es ih =>
    obtain ⟨v, weight⟩ := e
    simp only [relax, Option.bind_eq_bind, Option.bind_eq_some_iff] at h
    obtain ⟨dv, hdv, du, -, d, hd, h⟩ := h
    split_ifs at h with hlt
    · simp only [Option.bind_eq_some_iff] at h
      obtain ⟨dist, hset, parent, -, h⟩ := h
      obtain ⟨hv, rfl⟩ := Vec.at_eq_some.1 hdv
      obtain ⟨-, rfl⟩ := Vec.set_eq_some.1 hset
      obtain ⟨⟨hmin, -⟩, -⟩ := addInt_eq_some.1 hd
      -- one distance goes down, and the others stay
      have hdrop : Search.potential ⟨{ s.dist with val := Function.update s.dist.val v d }, parent,
          s.pq.orderedInsert PairLe (d, v)⟩ < s.potential := by
        refine Finset.sum_lt_sum ?_ ⟨v, Finset.mem_range.2 hv, ?_⟩
        · intro w _
          simp only [Function.update_apply]
          split_ifs with hw
          · rw [hw]; omega
          · exact le_rfl
        · simp only [Function.update_self]; omega
      rcases ih h with h' | ⟨h', -⟩
      · exact Or.inl (h'.trans hdrop)
      · exact Or.inl (h'.trans_lt hdrop)
    · exact ih h

/-- The loop of `dijkstra_algo` and `dijkstra_algo_optim`. -/
def search (adjList : AdjList) (s : Search) : Option Search :=
  match _hpq : s.pq with
  | [] => some s
  | (_, u) :: pq =>
    match _hrow : (adjList.at u).bind fun row => relax u row { s with pq := pq } with
    | none => none
    | some t => search adjList t
termination_by (s.potential, s.pq.length)
decreasing_by
  obtain ⟨row, -, hrelax⟩ := Option.bind_eq_some_iff.1 _hrow
  rcases relax_potential hrelax with h | ⟨h, hq⟩
  · exact Prod.Lex.left _ _ h
  · have hlen : t.pq.length < s.pq.length := by rw [hq, _hpq]; exact Nat.lt_succ_self _
    have hpot : t.potential = s.potential := h
    rw [hpot]
    exact Prod.Lex.right _ hlen

/-- `while (temp != -1)`: the nodes from `temp` along `parent`. A chain of more than `fuel`
nodes in a table of `fuel` nodes never ends. -/
def chain (parent : Vec ℤ) (fuel : ℕ) (temp : ℤ) : Option (List ℕ) :=
  if temp = -1 then some []
  else if temp < 0 then none
  else
    match fuel with
    | 0 => none
    | fuel + 1 => do
      let next ← parent.at temp.toNat
      let rest ← chain parent fuel next
      some (temp.toNat :: rest)

/-- `dijkstra_algo`: what it prints. -/
def dijkstraAlgo (numNodes source : ℕ) (adjList : AdjList) : Option (List Line) := do
  let init ← Search.init numNodes source
  let s ← search adjList init
  forRange numNodes (fun out i => do
    let d ← s.dist.at i
    if d ≠ intMax then do
      let path ← chain s.parent numNodes i
      some (out ++ [⟨source, i, some d, path.reverse⟩])
    else some (out ++ [⟨source, i, none, []⟩])) []

/-- `dist_vector`, `path_vector` and the printed lines. -/
structure Tables where
  distVector : Grid ℤ
  pathVector : Grid (List ℕ)
  out : List Line

/-- The last loop of `dijkstra_algo_optim`, for node `i`. -/
def recordNode (numNodes numNodesPrev source : ℕ) (s : Search) (printFlag : Bool) (t : Tables)
    (i : ℕ) : Option Tables := do
  let d ← s.dist.at i
  let distVector ← t.distVector.set source i d
  let distVector ← distVector.set i source d
  if d ≠ intMax then
    -- the index `source - num_nodes_prev` of `path_vector`
    if source < numNodesPrev then none
    else do
      let path ← chain s.parent numNodes i
      let old ← t.pathVector.at (source - numNodesPrev) i
      let pathVector ← t.pathVector.set (source - numNodesPrev) i (old ++ path).reverse
      some ⟨distVector, pathVector,
        if printFlag then t.out ++ [⟨source, i, some d, (old ++ path).reverse⟩] else t.out⟩
  else
    some ⟨distVector, t.pathVector,
      if printFlag then t.out ++ [⟨source, i, none, []⟩] else t.out⟩

/-- `dijkstra_algo_optim`. -/
def dijkstraAlgoOptim (numNodes numNodesPrev source : ℕ) (adjList : AdjList) (printFlag : Bool)
    (t : Tables) : Option Tables := do
  let init ← Search.init numNodes source
  let s ← search adjList init
  forRange numNodes (recordNode numNodes numNodesPrev source s printFlag) t

/-! ## The two updates -/

/-- `compute_shortest_path`. -/
def computeShortestPath (numNodes : ℕ) (mappedNodes : List ℕ) (adjList : AdjList) :
    Option (List Line) :=
  mappedNodes.foldlM (fun out m => (dijkstraAlgo numNodes m adjList).map (out ++ ·)) []

/-- The innermost loop of the update, for the new node `numNodesPrev + k`. -/
def viaNew (numNodesPrev m j : ℕ) (st : Grid ℤ × Option ℕ) (k : ℕ) :
    Option (Grid ℤ × Option ℕ) := do
  let d ← st.1.at m j
  let d₁ ← st.1.at m (numNodesPrev + k)
  let d₂ ← st.1.at (numNodesPrev + k) j
  let sum ← addInt d₁ d₂
  if sum < d then do
    let distVector ← st.1.set m j sum
    some (distVector, some k)
  else some st

/-- The update of the entry of `mapped_nodes[i] = m` and `j`, where the position `i` is what
the code compares with `j`. -/
def updateEntry (numNodes numNodesPrev i m : ℕ) (t : Tables) (j : ℕ) : Option Tables :=
  if i ≠ j then do
    let (distVector, minIdx) ← forRange (numNodes - numNodesPrev) (viaNew numNodesPrev m j)
      (t.distVector, none)
    match minIdx with
    | none => some { t with distVector := distVector }
    | some k => do
      let d ← distVector.at m j
      let toNew ← t.pathVector.at k m
      let fromNew ← t.pathVector.at k j
      some { t with
        distVector := distVector
        out := t.out ++ [⟨m, j, some d, toNew.reverse ++ fromNew.tail⟩] }
  else some t

/-- The update of the row of the mapped node at position `i`. -/
def updateRow (numNodes numNodesPrev : ℕ) (mappedNodes : List ℕ) (t : Tables) (i : ℕ) :
    Option Tables := do
  let m ← mappedNodes[i]?
  forRange numNodesPrev (updateEntry numNodes numNodesPrev i m) t

/-- `compute_shortest_path_optim`, with the lines printed before it. -/
def computeShortestPathOptim (numNodes numNodesPrev : ℕ) (mappedNodes : List ℕ)
    (numNewMapped : ℕ) (adjList : AdjList) (distVector : Grid ℤ) (flag : ℕ) (out : List Line) :
    Option (Grid ℤ × List Line) :=
  if numNodes < numNodesPrev ∨ mappedNodes.length < numNewMapped then none
  else do
    let t : Tables := ⟨distVector, Grid.replicate (numNodes - numNodesPrev) numNodes [], out⟩
    let t ← if flag = 0 then
        forRange numNewMapped (fun t i => do
          let m ← mappedNodes[i]?
          dijkstraAlgoOptim numNodes 0 m adjList true t) t
      else some t
    let t ← if flag = 1 then do
        let t ← forRange (numNodes - numNodesPrev) (fun t i =>
          dijkstraAlgoOptim numNodes numNodesPrev (numNodesPrev + i) adjList
            ((mappedNodes.drop (mappedNodes.length - numNewMapped)).contains (numNodesPrev + i)) t) t
        forRange (mappedNodes.length - numNewMapped) (updateRow numNodes numNodesPrev mappedNodes) t
      else some t
    some (t.distVector, t.out)

/-! ## The process -/

/-- The variables of a consumer between two polls. -/
structure Consumer where
  numNodesPrev : ℕ
  numEdgesPrev : ℕ
  mappedNodes : List ℕ
  adjList : AdjList
  distVector : Grid ℤ
  out : List Line

/-- An edge is entered for both its nodes, with weight 1. -/
def addEdge (adjList : AdjList) (e : ℕ × ℕ) : Option AdjList := do
  let row ← adjList.at e.1
  let adjList ← adjList.set e.1 (row ++ [(e.2, 1)])
  let row ← adjList.at e.2
  adjList.set e.2 (row ++ [(e.1, 1)])

/-- The call `main` makes, by the option `-o`. -/
def computePaths (optim : Bool) (numNodes numNodesPrev : ℕ) (mappedNodes : List ℕ)
    (numNewMapped : ℕ) (adjList : AdjList) (distVector : Grid ℤ) (flag : ℕ) (out : List Line) :
    Option (Grid ℤ × List Line) :=
  if optim then
    computeShortestPathOptim numNodes numNodesPrev mappedNodes numNewMapped adjList distVector flag out
  else (computeShortestPath numNodes mappedNodes adjList).map fun lines => (distVector, out ++ lines)

/-- `main` before its loop. -/
def start (optim : Bool) (consumerId : ℕ) (shm : Segments) : Option Consumer := do
  let mappedNodes := mapInitialNodes shm.numNodes consumerId
  let adjList ← shm.edges.foldlM addEdge (Vec.replicate maxNodes [])
  let (distVector, out) ← computePaths optim shm.numNodes 0 mappedNodes mappedNodes.length adjList
    (Grid.replicate maxNodes maxNodes intMax) 0 []
  some ⟨shm.numNodes, shm.edges.length, mappedNodes, adjList, distVector, out⟩

/-- What a consumer finds when it wakes up: the graph, and the new nodes mapped to it in
`node_map_shm`. -/
structure Round where
  shm : Segments
  nodeMap : List ℕ

/-- One pass of the loop of `main`. -/
def poll (optim : Bool) (s : Consumer) (r : Round) : Option Consumer :=
  if r.shm.numNodes = s.numNodesPrev ∧ r.shm.edges.length = s.numEdgesPrev then some s
  else do
    let mappedNodes := s.mappedNodes ++ r.nodeMap
    let adjList ← (r.shm.edges.drop s.numEdgesPrev).foldlM addEdge s.adjList
    let (distVector, out) ← computePaths optim r.shm.numNodes s.numNodesPrev mappedNodes
      r.nodeMap.length adjList s.distVector 1 s.out
    some ⟨r.shm.numNodes, r.shm.edges.length, mappedNodes, adjList, distVector, out⟩

end OsLab.Paths
