import OsLab.Paths.Model
import OsLab.Lib.Algorithm

/-!
# The producer of the graph (`producer.cpp`)

An iteration of the producer adds nodes to the graph in the shared segments, joins each of them to
old nodes that it draws with a probability proportional to their degree, publishes the new counts,
and maps the new nodes to the ten consumers. The segments have no end here, and the probabilities
are exact (`K` is any ordered field).

The random numbers are lists: `ints` is what `rand()` returns where it is used modulo something, and
`units` are the values of `rand_num`. An iteration that runs out of them does not complete
(`Stop.draws`), and an index past the end of a vector is an error of its own (`Stop.range`).
-/

namespace OsLab.Paths

open Lib

variable {K : Type*} [Field K] [LinearOrder K]

/-- The segments `shm1` and `shm2`. -/
structure Shm where
  shm1 : ℕ → ℕ
  shm2 : ℕ → ℕ

def Shm.numNodes (m : Shm) : ℕ := m.shm1 0

def Shm.numEdges (m : Shm) : ℕ := m.shm1 1

/-- The pairs `(shm1[i + 2], shm2[i + 2])`. -/
def Shm.edges (m : Shm) : List (ℕ × ℕ) :=
  (List.range m.numEdges).map fun i => (m.shm1 (i + 2), m.shm2 (i + 2))

/-- What the consumers see of the segments. -/
def Shm.segments (m : Shm) : Segments := ⟨m.numNodes, m.edges⟩

/-- Why an iteration does not complete. -/
inductive Stop where
  /-- no random number is left -/
  | draws
  /-- an index is past the end of a vector -/
  | range
  deriving DecidableEq

/-! ## `calc_degree` -/

/-- An edge counts for both its nodes, a self-loop once. -/
def countEdge (degree : Vec ℕ) (e : ℕ × ℕ) : Option (Vec ℕ) := do
  let d ← degree.at e.1
  let degree ← degree.set e.1 (d + 1)
  if e.1 ≠ e.2 then do
    let d ← degree.at e.2
    degree.set e.2 (d + 1)
  else some degree

/-- The degrees of the nodes. -/
def degrees (m : Shm) : Option (Vec ℕ) := m.edges.foldlM countEdge (Vec.replicate m.numNodes 0)

/-- `sort_by_sec_desc`, and the comparator of the second sort. -/
def SecDesc {α : Type*} [LT α] (a b : ℕ × α) : Prop := b.2 < a.2

instance {α : Type*} [LinearOrder α] : DecidableRel (SecDesc (α := α)) :=
  fun a b => inferInstanceAs (Decidable (b.2 < a.2))

/-- The two sorts of `calc_degree`. -/
structure Sorts (K : Type*) [LT K] where
  byDegree : StdSort (SecDesc (α := ℕ))
  byProb : StdSort (SecDesc (α := K))

/-- `node_degree` and `node_prob`. -/
structure Distribution (K : Type*) where
  nodeDegree : List (ℕ × ℕ)
  nodeProb : List (ℕ × K)

/-- `calc_degree`. -/
def calcDegree (S : Sorts K) (m : Shm) : Option (Distribution K) :=
  (degrees m).map fun degree =>
    let nodeDegree := S.byDegree.sort ((List.range m.numNodes).map fun i => (i, degree.val i))
    let degreeSum : K := (nodeDegree.map fun p => (p.2 : K)).sum
    let nodeProb := S.byProb.sort (nodeDegree.map fun p => (p.1, (p.2 : K) / degreeSum))
    ⟨nodeDegree, (nodeProb.map Prod.fst).zip (cumulative 0 (nodeProb.map Prod.snd))⟩

/-! ## An iteration -/

/-- What an iteration draws. -/
structure Draws (K : Type*) [Field K] [LinearOrder K] where
  ints : List ℕ
  units : List K
  unit_mem : ∀ x ∈ units, 0 ≤ x ∧ x ≤ 1

/-- An index that is not yet in `node_idx`, and the numbers that are left. -/
def drawIdx (nodeProb : List (ℕ × K)) (nodeIdx : List ℕ) : List K → Option (ℕ × List K)
  | [] => none
  | x :: units =>
    let idx := lowerBound (nodeProb.map Prod.snd) x
    if idx ∈ nodeIdx then drawIdx nodeProb nodeIdx units else some (idx, units)

/-- `k` edges of the new node `v`. -/
def attach (D : Distribution K) (v : ℕ) : ℕ → List ℕ → List K → Except Stop (List (ℕ × ℕ) × List K)
  | 0, _, units => .ok ([], units)
  | k + 1, nodeIdx, units =>
    match drawIdx D.nodeProb nodeIdx units with
    | none => .error .draws
    | some (idx, units) =>
      match D.nodeDegree[idx]? with
      | none => .error .range
      | some p => (attach D v k (idx :: nodeIdx) units).map fun r => ((v, p.1) :: r.1, r.2)

/-- The edges of `num` new nodes, from `v` on. -/
def addNodes (D : Distribution K) : ℕ → ℕ → List ℕ → List K → Except Stop (List (ℕ × ℕ))
  | 0, _, _, _ => .ok []
  | _ + 1, _, [], _ => .error .draws
  | num + 1, v, r :: ints, units =>
    match attach D v (1 + r % 20) [] units with
    | .error e => .error e
    | .ok (es, units) => (addNodes D num (v + 1) ints units).map fun es' => es ++ es'

/-- The new edges, from position `i` on. -/
def writeEdges : Shm → ℕ → List (ℕ × ℕ) → Shm
  | m, _, [] => m
  | m, i, e :: es =>
    writeEdges ⟨Function.update m.shm1 i e.1, Function.update m.shm2 i e.2⟩ (i + 1) es

/-- The new counts. -/
def writeCounts (m : Shm) (numNodes numEdges : ℕ) : Shm where
  shm1 := Function.update (Function.update m.shm1 0 numNodes) 1 numEdges
  shm2 := Function.update (Function.update m.shm2 0 numNodes) 1 numEdges

/-- One iteration of `main` up to the publication of the counts: the segments, and `new_nodes`. -/
def produce (S : Sorts K) (m : Shm) (d : Draws K) : Except Stop (Shm × List ℕ) :=
  match calcDegree S m with
  | none => .error .range
  | some D =>
    match d.ints with
    | [] => .error .draws
    | r :: ints =>
      let numNewNodes := 10 + r % 21
      (addNodes D numNewNodes m.numNodes ints d.units).map fun newEdges =>
        (writeCounts (writeEdges m (2 + m.numEdges) newEdges) (m.numNodes + numNewNodes)
          (m.numEdges + newEdges.length),
          (List.range numNewNodes).map (m.numNodes + ·))

/-- The parts of an iteration that completes. -/
theorem produce_ok {S : Sorts K} {m t : Shm} {d : Draws K} {newNodes : List ℕ}
    (h : produce S m d = .ok (t, newNodes)) :
    ∃ D r ints new, calcDegree S m = some D ∧ d.ints = r :: ints ∧
      addNodes D (10 + r % 21) m.numNodes ints d.units = .ok new ∧
      t = writeCounts (writeEdges m (2 + m.numEdges) new) (m.numNodes + (10 + r % 21))
        (m.numEdges + new.length) ∧
      newNodes = (List.range (10 + r % 21)).map (m.numNodes + ·) := by
  rw [produce] at h
  rcases hcalc : calcDegree S m with _ | D
  · simp [hcalc] at h
  rcases hints : d.ints with _ | ⟨r, ints⟩
  · simp [hcalc, hints] at h
  rcases hadd : addNodes D (10 + r % 21) m.numNodes ints d.units with e | new
  · simp [hcalc, hints, hadd, Except.map] at h
  simp only [hcalc, hints, hadd, Except.map, Except.ok.injEq, Prod.mk.injEq] at h
  exact ⟨D, r, ints, new, rfl, rfl, hadd, h.1.symm, h.2.symm⟩

/-! ## `map_nodes_to_cons` -/

/-- The locals of `map_nodes_to_cons` before the turn of consumer `i`. -/
structure Mapping where
  i : ℕ
  nodesPerCons : ℕ
  rem : ℕ
  newNodes : List ℕ

/-- The call of `map_nodes_to_cons`. -/
def Mapping.start (newNodes : List ℕ) : Mapping where
  i := 0
  nodesPerCons := newNodes.length / 10
  rem := newNodes.length - 10 * (newNodes.length / 10)
  newNodes := newNodes

/-- `shm[0]` of the segment that is written next. -/
def Mapping.size (x : Mapping) : ℕ := if x.i < x.rem then x.nodesPerCons + 1 else x.nodesPerCons

/-- The nodes that are written to it. -/
def Mapping.nodes (x : Mapping) : List ℕ := x.newNodes.take x.size

/-- The turn of the next consumer. -/
def Mapping.next (x : Mapping) : Mapping :=
  { x with i := x.i + 1, newNodes := x.newNodes.drop x.size }

/-! ### What is written to the segments -/

/-- The copy of the nodes, from `j` on. The bound of the loop is in the segment that it writes. -/
def copyNodes (newNodes : List ℤ) (shm : Vec ℤ) (j : ℕ) : Option (Vec ℤ) :=
  (shm.at 0).bind fun count =>
    if (j : ℤ) < count then
      newNodes[j]?.bind fun node =>
        match _hset : shm.set (j + 1) node with
        | none => none
        | some shm' => copyNodes newNodes shm' (j + 1)
    else some shm
termination_by shm.size - j
decreasing_by
  obtain ⟨hj, rfl⟩ := Vec.set_eq_some.1 _hset
  have hdrop : shm.size - (j + 1) < shm.size - j := by omega
  exact hdrop

/-- The segment `shm` of consumer `i`: the count, the nodes, and `-1` up to the end. -/
def writeSegment (nodesPerCons rem i : ℕ) (newNodes : List ℤ) (shm : Vec ℤ) : Option (Vec ℤ) := do
  let shm ← shm.set 0 (if i < rem then nodesPerCons + 1 else nodesPerCons)
  let shm ← copyNodes newNodes shm 0
  let count ← shm.at 0
  forRange (100 - (count + 1).toNat) (fun shm k => shm.set ((count + 1).toNat + k) (-1)) shm

/-- `map_nodes_to_cons`, where segment `i` holds `old i` before: what is left of `new_nodes`, and the
segments. The nodes that a segment has are erased. -/
def mapNodesToCons (newNodes : List ℤ) (old : ℕ → ℕ → ℤ) : Option (List ℤ × List (Vec ℤ)) :=
  let numNewNodes := newNodes.length
  let nodesPerCons := numNewNodes / 10
  let rem := numNewNodes - 10 * nodesPerCons
  forRange 10 (fun st i => do
    let shm ← writeSegment nodesPerCons rem i st.1 ⟨100, old i⟩
    let count ← shm.at 0
    if count ≤ st.1.length then some (st.1.drop count.toNat, st.2 ++ [shm]) else none)
    (newNodes, [])

end OsLab.Paths
