import OsLab.Paths.Producer
import OsLab.Paths.Rounds
import OsLab.Lib.Machine
import Mathlib.Algebra.BigOperators.Field

/-!
# How the producer grows the graph

An iteration of the producer on a connected graph without loops and repeated edges (`WellFormed`)
never looks past the end of a vector: the degrees of a graph with an edge are not all zero, so the
probabilities add up to 1 and every number in `[0, 1]` has a place in the running sums. The indices
of a new node are distinct, and `node_degree` is a permutation of the nodes, so its edges lead to
distinct old nodes (`Grows`). Hence what the producer starts from is what it leaves
(`growth_wellFormed`).
-/

namespace OsLab.Paths

open Lib

variable {K : Type*} [LinearOrder K]

/-- The graphs the consumers rely on. -/
structure WellFormed (m : Shm) : Prop where
  numNodes_eq : m.shm2 0 = m.shm1 0
  numEdges_eq : m.shm2 1 = m.shm1 1
  lt : ∀ e ∈ m.edges, e.1 < m.numNodes ∧ e.2 < m.numNodes
  loopless : ∀ e ∈ m.edges, e.1 ≠ e.2
  simple : m.edges.Pairwise fun e f => f ≠ e ∧ f ≠ e.swap
  connected : ∀ u v, u < m.numNodes → v < m.numNodes → ∃ k, Walk (EdgeIn m.edges) u v k
  edges_ne : m.edges ≠ []

/-- What an iteration adds: 10 to 30 new nodes, each of them joined to old nodes. -/
structure Grows (m t : Shm) (new : List (ℕ × ℕ)) : Prop where
  numNodes_eq : t.shm2 0 = t.shm1 0
  numEdges_eq : t.shm2 1 = t.shm1 1
  numNodes : ∃ k, 10 ≤ k ∧ k ≤ 30 ∧ t.numNodes = m.numNodes + k
  edges : t.edges = m.edges ++ new
  joins : ∀ e ∈ new, (m.numNodes ≤ e.1 ∧ e.1 < t.numNodes) ∧ e.2 < m.numNodes
  nodup : new.Nodup
  attached : ∀ v, m.numNodes ≤ v → v < t.numNodes → ∃ w, (v, w) ∈ new

/-- An iteration that completes. -/
def Iteration [Field K] (S : Sorts K) (m : Shm) (d : Draws K) (t : Shm) : Prop :=
  ∃ newNodes, produce S m d = .ok (t, newNodes)

/-! ## Degrees -/

section

variable {degree degree' : Vec ℕ} {e : ℕ × ℕ} {es : List (ℕ × ℕ)}

theorem countEdge_some (h1 : e.1 < degree.size) (h2 : e.2 < degree.size) :
    ∃ degree', countEdge degree e = some degree' := by
  unfold countEdge
  by_cases he : e.1 = e.2
  · simp [Vec.at_eq h2, Vec.set_eq h2, he]
  · simp [Vec.at, Vec.set, h1, h2, he]

/-- What counting an edge does. -/
theorem countEdge_spec (h : countEdge degree e = some degree') :
    (e.1 < degree.size ∧ e.2 < degree.size) ∧ degree'.size = degree.size ∧
      (∀ v, degree.val v ≤ degree'.val v) ∧ 0 < degree'.val e.1 := by
  simp only [countEdge, Option.bind_eq_bind, Option.bind_eq_some_iff] at h
  obtain ⟨d, hd, deg₁, hset, h⟩ := h
  obtain ⟨h1, rfl⟩ := Vec.at_eq_some.1 hd
  obtain ⟨-, rfl⟩ := Vec.set_eq_some.1 hset
  have hle : ∀ v, degree.val v ≤ Function.update degree.val e.1 (degree.val e.1 + 1) v := by
    intro v
    rcases eq_or_ne v e.1 with rfl | hv
    · simp
    · rw [Function.update_of_ne hv]
  split_ifs at h with he
  · obtain ⟨d', hd', h⟩ := Option.bind_eq_some_iff.1 h
    obtain ⟨h2, rfl⟩ := Vec.at_eq_some.1 hd'
    obtain ⟨-, rfl⟩ := Vec.set_eq_some.1 h
    refine ⟨⟨h1, h2⟩, rfl, fun v => ?_, ?_⟩
    · rcases eq_or_ne v e.2 with rfl | hv
      · simpa using (hle _).trans (Nat.le_succ _)
      · simpa only [Function.update_of_ne hv] using hle v
    · simp [Function.update_of_ne he]
  · cases h
    push Not at he
    exact ⟨⟨h1, he ▸ h1⟩, rfl, hle, by simp⟩

/-- What counting some edges does. -/
theorem countEdges_spec (h : es.foldlM countEdge degree = some degree') :
    (∀ v, degree.val v ≤ degree'.val v) ∧
      ∀ e ∈ es, (e.1 < degree.size ∧ e.2 < degree.size) ∧ 0 < degree'.val e.1 := by
  induction es generalizing degree with
  | nil => cases h; exact ⟨fun _ => le_rfl, by simp⟩
  | cons e es ih =>
    obtain ⟨deg₁, h₁, h⟩ := Option.bind_eq_some_iff.1 h
    obtain ⟨hlt, hsize, hle, hpos⟩ := countEdge_spec h₁
    obtain ⟨hle', hes⟩ := ih h
    refine ⟨fun v => (hle v).trans (hle' v), fun f hf => ?_⟩
    rcases List.mem_cons.1 hf with rfl | hf
    · exact ⟨hlt, hpos.trans_le (hle' _)⟩
    · rw [← hsize]; exact hes f hf

theorem countEdges_some (es : List (ℕ × ℕ)) (degree : Vec ℕ)
    (h : ∀ e ∈ es, e.1 < degree.size ∧ e.2 < degree.size) :
    ∃ degree', es.foldlM countEdge degree = some degree' := by
  induction es generalizing degree with
  | nil => exact ⟨degree, rfl⟩
  | cons e es ih =>
    obtain ⟨h1, h2⟩ := h e List.mem_cons_self
    obtain ⟨deg₁, h₁⟩ := countEdge_some h1 h2
    obtain ⟨degree', h'⟩ := ih deg₁ fun f hf => by
      rw [(countEdge_spec h₁).2.1]; exact h f (List.mem_cons_of_mem e hf)
    exact ⟨degree', Option.bind_eq_some_iff.2 ⟨deg₁, h₁, h'⟩⟩

end

/-- **The degrees are computed in range** exactly when all endpoints are below the node count. -/
theorem degrees_isSome_iff {m : Shm} :
    (∃ degree, degrees m = some degree) ↔ ∀ e ∈ m.edges, e.1 < m.numNodes ∧ e.2 < m.numNodes := by
  constructor
  · rintro ⟨degree, h⟩ e he
    exact ((countEdges_spec h).2 e he).1
  · exact fun h => countEdges_some m.edges (Vec.replicate m.numNodes 0) h

/-! ## The new edges -/

section

variable {D : Distribution K} {n v idx : ℕ} {nodeIdx ints : List ℕ} {units rest : List K}
  {es : List (ℕ × ℕ)}

theorem drawIdx_spec {nodeProb : List (ℕ × K)} (h : drawIdx nodeProb nodeIdx units = some (idx, rest)) :
    idx ∉ nodeIdx ∧ (∃ x ∈ units, idx = lowerBound (nodeProb.map Prod.snd) x) ∧
      ∀ x ∈ rest, x ∈ units := by
  induction units with
  | nil => cases h
  | cons x units ih =>
    rw [drawIdx] at h
    split_ifs at h with hx
    · obtain ⟨hidx, ⟨y, hy, hlb⟩, hrest⟩ := ih h
      exact ⟨hidx, ⟨y, List.mem_cons_of_mem x hy, hlb⟩, fun z hz => List.mem_cons_of_mem x (hrest z hz)⟩
    · cases h
      exact ⟨hx, ⟨x, List.mem_cons_self, rfl⟩, fun z hz => List.mem_cons_of_mem x hz⟩

theorem attach_succ {k : ℕ} (h : attach D v (k + 1) nodeIdx units = .ok (es, rest)) :
    ∃ idx units' p es', drawIdx D.nodeProb nodeIdx units = some (idx, units') ∧
      D.nodeDegree[idx]? = some p ∧ attach D v k (idx :: nodeIdx) units' = .ok (es', rest) ∧
      es = (v, p.1) :: es' := by
  rw [attach] at h
  rcases hdraw : drawIdx D.nodeProb nodeIdx units with _ | ⟨idx, units'⟩
  · simp [hdraw] at h
  rcases hp : D.nodeDegree[idx]? with _ | p
  · simp [hdraw, hp] at h
  rcases hrec : attach D v k (idx :: nodeIdx) units' with e | ⟨es', rest'⟩
  · simp [hdraw, hp, hrec, Except.map] at h
  simp only [hdraw, hp, hrec, Except.map, Except.ok.injEq, Prod.mk.injEq] at h
  obtain ⟨rfl, rfl⟩ := h
  exact ⟨idx, units', p, es', rfl, hp, hrec, rfl⟩

/-- The edges of a new node. -/
theorem attach_ends {k : ℕ} (h : attach D v k nodeIdx units = .ok (es, rest)) :
    es.length = k ∧ (∀ x ∈ rest, x ∈ units) ∧
      ∀ e ∈ es, e.1 = v ∧ ∃ i ∉ nodeIdx, ∃ p, D.nodeDegree[i]? = some p ∧ e.2 = p.1 := by
  induction k generalizing nodeIdx units es with
  | zero => cases h; simp
  | succ k ih =>
    obtain ⟨idx, units', p, es', hdraw, hp, hrec, rfl⟩ := attach_succ h
    obtain ⟨hidx, -, hsub⟩ := drawIdx_spec hdraw
    obtain ⟨hlen, hrest, hes⟩ := ih hrec
    refine ⟨by rw [List.length_cons, hlen], fun x hx => hsub x (hrest x hx), fun e he => ?_⟩
    rcases List.mem_cons.1 he with rfl | he
    · exact ⟨rfl, idx, hidx, p, hp, rfl⟩
    · obtain ⟨h1, i, hi, hp'⟩ := hes e he
      exact ⟨h1, i, fun h => hi (List.mem_cons_of_mem idx h), hp'⟩

theorem addNodes_succ {num : ℕ} (h : addNodes D (num + 1) v ints units = .ok es) :
    ∃ r ints' es₁ rest es₂, ints = r :: ints' ∧ attach D v (1 + r % 20) [] units = .ok (es₁, rest) ∧
      addNodes D num (v + 1) ints' rest = .ok es₂ ∧ es = es₁ ++ es₂ := by
  rcases ints with _ | ⟨r, ints⟩
  · simp [addNodes] at h
  rw [addNodes] at h
  rcases hatt : attach D v (1 + r % 20) [] units with e | ⟨es₁, rest⟩
  · simp [hatt] at h
  rcases hrec : addNodes D num (v + 1) ints rest with e | es₂
  · simp [hatt, hrec, Except.map] at h
  simp only [hatt, hrec, Except.map, Except.ok.injEq] at h
  exact ⟨r, ints, es₁, rest, es₂, rfl, hatt, hrec, h.symm⟩

/-- **The new edges**: each of the new nodes has some, and all lead to old nodes. -/
theorem addNodes_ends (hlt : ∀ p ∈ D.nodeDegree, p.1 < n) {num : ℕ}
    (h : addNodes D num v ints units = .ok es) :
    (∀ e ∈ es, (v ≤ e.1 ∧ e.1 < v + num) ∧ e.2 < n) ∧ ∀ w, v ≤ w → w < v + num → ∃ x, (w, x) ∈ es := by
  induction num generalizing v ints units es with
  | zero => cases h; exact ⟨by simp, fun w _ _ => by omega⟩
  | succ num ih =>
    obtain ⟨r, ints', es₁, rest, es₂, rfl, hatt, hrec, rfl⟩ := addNodes_succ h
    obtain ⟨hlen, -, h₁⟩ := attach_ends hatt
    obtain ⟨h₂, hall⟩ := ih hrec
    refine ⟨fun e he => ?_, fun w hw hw' => ?_⟩
    · rcases List.mem_append.1 he with he | he
      · obtain ⟨h1, i, -, p, hp, h2⟩ := h₁ e he
        exact ⟨by omega, h2 ▸ hlt p (List.mem_of_getElem? hp)⟩
      · obtain ⟨⟨h1, h1'⟩, h2⟩ := h₂ e he
        exact ⟨by omega, h2⟩
    · rcases Nat.lt_or_ge v w with hvw | hvw
      · obtain ⟨x, hx⟩ := hall w hvw (by omega)
        exact ⟨x, List.mem_append_right _ hx⟩
      · obtain ⟨e, he⟩ := List.exists_mem_of_length_pos (l := es₁) (by omega)
        have hv := (h₁ e he).1
        obtain rfl : w = e.1 := by omega
        exact ⟨e.2, List.mem_append_left _ he⟩

/-- How many edges are drawn. -/
theorem addNodes_length {num : ℕ} (h : addNodes D num v ints units = .ok es) :
    es.length = ((ints.take num).map fun r => 1 + r % 20).sum := by
  induction num generalizing v ints units es with
  | zero => cases h; simp
  | succ num ih =>
    obtain ⟨r, ints', es₁, rest, es₂, rfl, hatt, hrec, rfl⟩ := addNodes_succ h
    rw [List.length_append, (attach_ends hatt).1, ih hrec]
    simp

end

/-! ## The distribution -/

variable [Field K]

/-- What the loop over the new nodes relies on. -/
structure Distribution.Valid (D : Distribution K) (n : ℕ) : Prop where
  nodup : (D.nodeDegree.map Prod.fst).Nodup
  lt : ∀ p ∈ D.nodeDegree, p.1 < n
  place : ∀ x ≤ 1, lowerBound (D.nodeProb.map Prod.snd) x < D.nodeDegree.length

section

variable {D : Distribution K} {n v idx : ℕ} {nodeIdx ints : List ℕ} {units rest : List K}
  {es : List (ℕ × ℕ)}

/-- The draw of an index is in range. -/
theorem Distribution.Valid.get (hD : D.Valid n) (hu : ∀ x ∈ units, x ≤ 1)
    (h : drawIdx D.nodeProb nodeIdx units = some (idx, rest)) : ∃ p, D.nodeDegree[idx]? = some p := by
  obtain ⟨-, ⟨x, hx, rfl⟩, -⟩ := drawIdx_spec h
  exact ⟨_, List.getElem?_eq_getElem (hD.place x (hu x hx))⟩

theorem attach_in_range (hD : D.Valid n) (k : ℕ) (nodeIdx : List ℕ) (units : List K)
    (hu : ∀ x ∈ units, x ≤ 1) : attach D v k nodeIdx units ≠ .error .range := by
  induction k generalizing nodeIdx units with
  | zero => simp [attach]
  | succ k ih =>
    rw [attach]
    rcases hdraw : drawIdx D.nodeProb nodeIdx units with _ | ⟨idx, units'⟩
    · simp
    · obtain ⟨p, hp⟩ := hD.get hu hdraw
      have := ih (idx :: nodeIdx) units' fun x hx => hu x ((drawIdx_spec hdraw).2.2 x hx)
      rcases hrec : attach D v k (idx :: nodeIdx) units' with e | r
      · rw [hrec] at this
        simpa [hp, hrec, Except.map] using this
      · simp [hp, hrec, Except.map]

theorem addNodes_in_range (hD : D.Valid n) (num v : ℕ) (ints : List ℕ) (units : List K)
    (hu : ∀ x ∈ units, x ≤ 1) : addNodes D num v ints units ≠ .error .range := by
  induction num generalizing v ints units with
  | zero => simp [addNodes]
  | succ num ih =>
    rcases ints with _ | ⟨r, ints⟩
    · simp [addNodes]
    · have hatt := attach_in_range (v := v) hD (1 + r % 20) [] units hu
      rw [addNodes]
      rcases h : attach D v (1 + r % 20) [] units with e | ⟨es, rest⟩
      · simpa [h] using hatt
      · have := ih (v + 1) ints rest fun x hx => hu x ((attach_ends h).2.1 x hx)
        rcases hrec : addNodes D num (v + 1) ints rest with e | es'
        · rw [hrec] at this
          simpa [hrec, Except.map] using this
        · simp [hrec, Except.map]

/-- **They lead to distinct nodes**, since their places in `node_degree` are distinct. -/
theorem attach_nodup (hD : D.Valid n) {k : ℕ} (h : attach D v k nodeIdx units = .ok (es, rest)) :
    es.Nodup := by
  induction k generalizing nodeIdx units es with
  | zero => cases h; exact List.nodup_nil
  | succ k ih =>
    obtain ⟨idx, units', p, es', hdraw, hp, hrec, rfl⟩ := attach_succ h
    refine List.nodup_cons.2 ⟨fun hmem => ?_, ih hrec⟩
    -- a second edge to the node `p.1` would come from the same index
    obtain ⟨-, i, hi, q, hq, hpq⟩ := (attach_ends hrec).2.2 _ hmem
    obtain ⟨hlt, -⟩ := List.getElem?_eq_some_iff.1 hp
    have hidx : i = idx := by
      refine ((List.getElem?_inj (by simpa using hlt) hD.nodup).1 ?_).symm
      rw [List.getElem?_map, List.getElem?_map, hp, hq, Option.map_some, Option.map_some, ← hpq]
    exact hi (hidx ▸ List.mem_cons_self)

theorem addNodes_nodup (hD : D.Valid n) {num : ℕ} (h : addNodes D num v ints units = .ok es) :
    es.Nodup := by
  induction num generalizing v ints units es with
  | zero => cases h; exact List.nodup_nil
  | succ num ih =>
    obtain ⟨r, ints', es₁, rest, es₂, rfl, hatt, hrec, rfl⟩ := addNodes_succ h
    refine List.nodup_append.2 ⟨attach_nodup hD hatt, ih hrec, fun e he f hf hef => ?_⟩
    have h1 := ((attach_ends hatt).2.2 e he).1
    have h2 := ((addNodes_ends hD.lt hrec).1 f hf).1.1
    rw [hef] at h1
    omega

end

variable [IsStrictOrderedRing K]

/-- The shares of a total that is not 0 add up to 1. -/
theorem sum_shares {l : List (ℕ × ℕ)} {p : ℕ × ℕ} (hp : p ∈ l) (hpos : 0 < p.2) :
    ((l.map fun q => (q.2 : K) / (l.map fun q => (q.2 : K)).sum)).sum = 1 := by
  have hcast : (l.map fun q => (q.2 : K)).sum = ((l.map Prod.snd).sum : ℕ) := by
    simp [Nat.cast_list_sum, Function.comp_def]
  have hle : p.2 ≤ (l.map Prod.snd).sum := List.single_le_sum (by simp) _ (List.mem_map_of_mem hp)
  have hne : (l.map fun q => (q.2 : K)).sum ≠ 0 := by
    rw [hcast]
    exact Nat.cast_ne_zero.2 (by omega)
  simp only [div_eq_mul_inv]
  rw [List.sum_map_mul_right, mul_inv_cancel₀ hne]

omit [IsStrictOrderedRing K] in
/-- The nodes of `node_degree`, and the nodes that are counted, are below the node count. -/
theorem calcDegree_lt {S : Sorts K} {m : Shm} {D : Distribution K} (h : calcDegree S m = some D) :
    (∀ e ∈ m.edges, e.1 < m.numNodes ∧ e.2 < m.numNodes) ∧ ∀ p ∈ D.nodeDegree, p.1 < m.numNodes := by
  obtain ⟨degree, hdeg, rfl⟩ := Option.map_eq_some_iff.1 h
  refine ⟨degrees_isSome_iff.1 ⟨degree, hdeg⟩, fun p hp => ?_⟩
  have := (S.byDegree.perm _).mem_iff.1 hp
  simp only [List.mem_map, List.mem_range] at this
  obtain ⟨i, hi, rfl⟩ := this
  exact hi

theorem calcDegree_valid (S : Sorts K) {m : Shm} (hm : WellFormed m) :
    ∃ D, calcDegree S m = some D ∧ D.Valid m.numNodes := by
  obtain ⟨degree, hdeg⟩ := degrees_isSome_iff.2 hm.lt
  obtain ⟨e, he⟩ := List.exists_mem_of_ne_nil _ hm.edges_ne
  obtain ⟨⟨hlt, -⟩, hpos⟩ := (countEdges_spec hdeg).2 e he
  set table := (List.range m.numNodes).map fun i => (i, degree.val i) with htable
  have hperm := S.byDegree.perm table
  set nodeDegree := S.byDegree.sort table with hnd
  set shares := nodeDegree.map fun p =>
    (p.1, (p.2 : K) / (nodeDegree.map fun q => (q.2 : K)).sum) with hshares
  have hcalc : calcDegree S m = some ⟨nodeDegree, ((S.byProb.sort shares).map Prod.fst).zip
      (cumulative 0 ((S.byProb.sort shares).map Prod.snd))⟩ := by
    rw [calcDegree, hdeg]
    rfl
  refine ⟨_, hcalc, ?_, (calcDegree_lt hcalc).2, ?_⟩
  · have : (table.map Prod.fst).Nodup := by
      simpa [htable, Function.comp_def] using List.nodup_range
    exact (hperm.map Prod.fst).nodup_iff.2 this
  · intro x hx
    have hmem : (e.1, degree.val e.1) ∈ nodeDegree :=
      hperm.mem_iff.2 (List.mem_map.2 ⟨e.1, List.mem_range.2 hlt, rfl⟩)
    have hprobs := S.byProb.perm shares
    have hsum : ((S.byProb.sort shares).map Prod.snd).sum = 1 := by
      rw [(hprobs.map Prod.snd).sum_eq]
      simpa [hshares, Function.comp_def] using sum_shares (K := K) hmem hpos
    have hlen : (S.byProb.sort shares).length = nodeDegree.length := by
      rw [hprobs.length_eq, hshares, List.length_map]
    have hne : (S.byProb.sort shares).map Prod.snd ≠ [] := by
      intro h
      rw [h] at hsum
      exact zero_ne_one hsum
    have := lowerBound_lt hne (hx.trans hsum.ge)
    rw [List.length_map, hlen] at this
    rwa [List.map_snd_zip (by simp [length_cumulative])]

/-! ## The segments -/

theorem writeEdges_of_lt (m : Shm) (es : List (ℕ × ℕ)) {i j : ℕ} (h : j < i) :
    (writeEdges m i es).shm1 j = m.shm1 j ∧ (writeEdges m i es).shm2 j = m.shm2 j := by
  induction es generalizing m i with
  | nil => exact ⟨rfl, rfl⟩
  | cons e es ih =>
    obtain ⟨h1, h2⟩ := ih ⟨Function.update m.shm1 i e.1, Function.update m.shm2 i e.2⟩
      (h.trans (Nat.lt_succ_self i))
    rw [writeEdges, h1, h2]
    exact ⟨Function.update_of_ne h.ne _ _, Function.update_of_ne h.ne _ _⟩

theorem writeEdges_get (m : Shm) (i : ℕ) (es : List (ℕ × ℕ)) {j : ℕ} (h : j < es.length) :
    ((writeEdges m i es).shm1 (i + j), (writeEdges m i es).shm2 (i + j)) = es[j] := by
  induction es generalizing m i j with
  | nil => simp at h
  | cons e es ih =>
    rw [writeEdges]
    rcases j with _ | j
    · obtain ⟨h1, h2⟩ := writeEdges_of_lt ⟨Function.update m.shm1 i e.1, Function.update m.shm2 i e.2⟩
        es (Nat.lt_add_one i)
      rw [Nat.add_zero i, h1, h2]
      simp
    · have := ih ⟨Function.update m.shm1 i e.1, Function.update m.shm2 i e.2⟩ (i + 1)
        (Nat.lt_of_succ_lt_succ h)
      rw [show i + (j + 1) = i + 1 + j by omega, this]
      rfl

@[simp] theorem writeCounts_numNodes (m : Shm) (a b : ℕ) : (writeCounts m a b).numNodes = a := by
  simp [writeCounts, Shm.numNodes]

@[simp] theorem writeCounts_numEdges (m : Shm) (a b : ℕ) : (writeCounts m a b).numEdges = b := by
  simp [writeCounts, Shm.numEdges]

/-- **The edges after the publication**: the old ones, followed by the new ones. -/
theorem published_edges (m : Shm) (a : ℕ) (es : List (ℕ × ℕ)) :
    (writeCounts (writeEdges m (2 + m.numEdges) es) a (m.numEdges + es.length)).edges =
      m.edges ++ es := by
  rw [Shm.edges, writeCounts_numEdges, List.range_add, List.map_append, List.map_map]
  congr 1
  · refine List.map_congr_left fun i hi => ?_
    obtain ⟨h1, h2⟩ := writeEdges_of_lt m es (i := 2 + m.numEdges) (j := i + 2)
      (by have := List.mem_range.1 hi; omega)
    simp [writeCounts, h1, h2]
  · refine List.ext_getElem (by simp) fun j hj hj' => ?_
    rw [← writeEdges_get m (2 + m.numEdges) es hj']
    simp [writeCounts, show m.numEdges + j + 2 = 2 + m.numEdges + j by omega]

/-! ## An iteration -/

variable {S : Sorts K} {m t : Shm} {d : Draws K}

/-- How many edges an iteration draws. -/
def drawnEdges : List ℕ → ℕ
  | [] => 0
  | r :: ints => ((ints.take (10 + r % 21)).map fun r => 1 + r % 20).sum

omit [IsStrictOrderedRing K] in
/-- An iteration that completes, on any graph. -/
theorem produce_ends {newNodes : List ℕ} (h : produce S m d = .ok (t, newNodes)) :
    (∀ e ∈ t.edges, e.1 < t.numNodes ∧ e.2 < t.numNodes) ∧
      (∃ new, t.edges = m.edges ++ new ∧ new.length = drawnEdges d.ints ∧
        ∃ e ∈ new, e.1 + 1 = t.numNodes) ∧
      m.numNodes ≤ t.numNodes ∧ ∀ v ∈ newNodes, v < t.numNodes := by
  obtain ⟨D, r, ints, new, hcalc, hints, hadd, rfl, rfl⟩ := produce_ok h
  obtain ⟨hold, hlt⟩ := calcDegree_lt hcalc
  obtain ⟨hends, hall⟩ := addNodes_ends hlt hadd
  rw [published_edges, writeCounts_numNodes]
  refine ⟨fun e he => ?_, ⟨new, rfl, ?_, ?_⟩, by omega, fun v hv => ?_⟩
  · rcases List.mem_append.1 he with he | he
    · have := hold e he; omega
    · have := hends e he; omega
  · rw [hints, addNodes_length hadd, drawnEdges]
  · obtain ⟨x, hx⟩ := hall (m.numNodes + (10 + r % 21) - 1) (by omega) (by omega)
    exact ⟨_, hx, by dsimp only; omega⟩
  · obtain ⟨i, hi, rfl⟩ := List.mem_map.1 hv
    have := List.mem_range.1 hi
    omega

theorem produce_in_range (hm : WellFormed m) (d : Draws K) : produce S m d ≠ .error .range := by
  obtain ⟨D, hcalc, hD⟩ := calcDegree_valid S hm
  rw [produce, hcalc]
  rcases d with ⟨_ | ⟨r, ints⟩, units, hu⟩
  · simp
  · have := addNodes_in_range hD (10 + r % 21) m.numNodes ints units fun x hx => (hu x hx).2
    rcases h : addNodes D (10 + r % 21) m.numNodes ints units with e | es
    · rw [h] at this
      simpa [h, Except.map] using this
    · simp [h, Except.map]

/-- What an iteration that completes adds, and the new nodes it maps. -/
theorem produce_spec (hm : WellFormed m) {newNodes : List ℕ} (h : produce S m d = .ok (t, newNodes)) :
    (∃ new, Grows m t new) ∧
      newNodes = (List.range (t.numNodes - m.numNodes)).map (m.numNodes + ·) := by
  obtain ⟨D, hcalc, hD⟩ := calcDegree_valid S hm
  obtain ⟨D', r, ints, new, hcalc', -, hadd, rfl, rfl⟩ := produce_ok h
  obtain rfl : D' = D := Option.some.inj (hcalc'.symm.trans hcalc)
  obtain ⟨hjoins, hall⟩ := addNodes_ends hD.lt hadd
  have hnodup := addNodes_nodup hD hadd
  refine ⟨⟨new, ⟨by simp [writeCounts], by simp [writeCounts], ⟨10 + r % 21, by omega, by omega, by simp⟩,
    published_edges m _ new, ?_, hnodup, ?_⟩⟩, by simp⟩
  · simpa using hjoins
  · simpa using hall

theorem Grows.wellFormed {new : List (ℕ × ℕ)} (hg : Grows m t new) (hm : WellFormed m) :
    WellFormed t := by
  obtain ⟨k, -, -, hk⟩ := hg.numNodes
  have hmono : ∀ x y, EdgeIn m.edges x y → EdgeIn t.edges x y := fun x y h => by
    rw [hg.edges]
    exact h.imp (List.mem_append_left new) (List.mem_append_left new)
  -- every node is connected with an old one
  have hold : ∀ v < t.numNodes, ∃ w < m.numNodes, ∃ k, Walk (EdgeIn t.edges) v w k := by
    intro v hv
    rcases Nat.lt_or_ge v m.numNodes with hlt | hge
    · exact ⟨v, hlt, 0, Walk.nil v⟩
    · obtain ⟨w, hw⟩ := hg.attached v hge hv
      refine ⟨w, (hg.joins _ hw).2, 1, Walk.snoc (Walk.nil v) (Or.inl ?_)⟩
      rw [hg.edges]
      exact List.mem_append_right _ hw
  refine ⟨hg.numNodes_eq, hg.numEdges_eq, ?_, ?_, ?_, ?_, ?_⟩
  · intro e he
    rw [hg.edges] at he
    rcases List.mem_append.1 he with he | he
    · have := hm.lt e he; omega
    · have := hg.joins e he; omega
  · intro e he
    rw [hg.edges] at he
    rcases List.mem_append.1 he with he | he
    · exact hm.loopless e he
    · have := hg.joins e he; omega
  · rw [hg.edges]
    refine List.pairwise_append.2 ⟨hm.simple, ?_, fun e he f hf => ?_⟩
    · refine hg.nodup.imp_of_mem fun {e f} he hf hef => ⟨hef.symm, ?_⟩
      rintro rfl
      have := hg.joins _ he
      have := hg.joins _ hf
      simp only [Prod.fst_swap, Prod.snd_swap] at this
      omega
    · have := hm.lt e he
      have := hg.joins f hf
      constructor
      · rintro rfl; omega
      · rintro rfl; simp only [Prod.fst_swap, Prod.snd_swap] at this; omega
  · intro u v hu hv
    obtain ⟨u', hu', k₁, h₁⟩ := hold u hu
    obtain ⟨v', hv', k₂, h₂⟩ := hold v hv
    obtain ⟨k₃, h₃⟩ := hm.connected u' v' hu' hv'
    exact ⟨_, (h₁.append (h₃.mono hmono)).append (h₂.symm fun _ _ => EdgeIn.symm)⟩
  · rw [hg.edges]
    exact fun h => hm.edges_ne (List.append_eq_nil_iff.1 h).1

/-- **The producer keeps the graph well formed**: after any number of iterations that complete, the
graph is well formed, no draws make the next iteration look past the end of a vector, and one that
completes only adds edges between its new nodes and old ones. -/
theorem growth_wellFormed (S : Sorts K) (hm : WellFormed m) (h : Reaches (Iteration S) m t) :
    WellFormed t ∧ ∀ d, produce S t d ≠ .error .range ∧
      ∀ u, Iteration S t d u → ∃ new, Grows t u new := by
  have ht : WellFormed t := by
    refine reaches_inv (fun s d u hs hstep => ?_) hm h
    obtain ⟨newNodes, hprod⟩ := hstep
    obtain ⟨⟨new, hg⟩, -⟩ := produce_spec hs hprod
    exact hg.wellFormed hs
  refine ⟨ht, fun d => ⟨produce_in_range ht d, fun u hu => ?_⟩⟩
  obtain ⟨newNodes, hprod⟩ := hu
  exact (produce_spec ht hprod).1

/-- Sorts that leave ties in their order. -/
def stableSorts : Sorts ℚ where
  byDegree := StdSort.insertion _ (fun _ _ => by simp only [SecDesc]; omega)
    (fun _ _ _ => by simp only [SecDesc]; omega)
  byProb := StdSort.insertion _ (fun a b => by simpa [SecDesc] using le_total b.2 a.2)
    (fun a b c h h' => by simp only [SecDesc, not_lt] at *; exact h'.trans h)

/-- Two nodes, joined by an edge. -/
def twoNodes : Shm where
  shm1 i := if i = 0 then 2 else if i = 1 then 1 else 0
  shm2 i := if i = 0 then 2 else 1

/-- The graph of one edge. -/
theorem wellFormed_edge (hnodes : m.shm2 0 = m.shm1 0) (hedges : m.shm2 1 = m.shm1 1)
    (hn : m.numNodes = 2) (he : m.edges = [(0, 1)]) : WellFormed m := by
  refine ⟨hnodes, hedges, ?_, ?_, ?_, fun u v hu hv => ?_, ?_⟩
  · simp [he, hn]
  · simp [he]
  · simp [he]
  · rw [he]
    rcases eq_or_ne u v with rfl | huv
    · exact ⟨0, Walk.nil u⟩
    · refine ⟨1, (Walk.nil u).snoc ?_⟩
      simp only [EdgeIn, List.mem_singleton, Prod.mk.injEq]
      omega
  · simp [he]

theorem twoNodes_wellFormed : WellFormed twoNodes := wellFormed_edge rfl rfl rfl (by decide)

/-- Ten nodes, each with one edge to a node of the largest degree. -/
def tenNodes : Draws ℚ where
  ints := List.replicate 11 0
  units := List.replicate 10 0
  unit_mem x hx := by simp [List.eq_of_mem_replicate hx]

theorem growth_tenNodes : ∃ t, Iteration stableSorts twoNodes tenNodes t ∧ t.numNodes = 12 ∧
    WellFormed t := by
  have h : (produce stableSorts twoNodes tenNodes).toOption.map (fun r => r.1.numNodes) = some 12 := by
    decide +kernel
  obtain ⟨⟨t, newNodes⟩, ht, hn⟩ := Option.map_eq_some_iff.1 h
  have hprod : produce stableSorts twoNodes tenNodes = .ok (t, newNodes) := by
    rcases hp : produce stableSorts twoNodes tenNodes with e | r
    · simp [hp, Except.toOption] at ht
    · rw [hp] at ht; simpa [Except.toOption] using ht
  refine ⟨t, ⟨newNodes, hprod⟩, hn, ?_⟩
  exact (growth_wellFormed stableSorts twoNodes_wellFormed ((Reaches.refl _).snoc ⟨newNodes, hprod⟩)).1

end OsLab.Paths
