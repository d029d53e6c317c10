import OsLab.Paths.Growth
import Mathlib.MeasureTheory.Measure.Lebesgue.Basic

/-!
# The law of the draws

`main` looks a number of `[0, 1]` up in `node_prob` and uses the place it finds in `node_degree`.
The two vectors are sorted one after the other by sorts that may leave ties in different orders, so
that their nodes need not agree. Their second components do: two non-increasing orders of the same
numbers are equal (`sorted_shares`), and the step of the running sums at a place is the share of the
node which `node_degree` has there (`calcDegree_sampling`). A number that is uniform in `[0, 1]`
leads to each place with the probability that is the share of its node (`Proportional.volume`).
-/

namespace OsLab.Paths

open Lib

variable {K : Type*} [Field K] [LinearOrder K]

/-- The number of edges at a node. A loop counts once. -/
def Shm.degree (m : Shm) (v : ℕ) : ℕ := m.edges.countP fun e => e.1 = v ∨ e.2 = v

/-- The running sum before a place of `node_prob`. -/
def Distribution.before (D : Distribution K) (idx : ℕ) : K :=
  (((D.nodeProb.map Prod.snd).take idx).getLast?).getD 0

/-! ## The degrees -/

theorem countEdge_val {degree degree' : Vec ℕ} {e : ℕ × ℕ} (h : countEdge degree e = some degree')
    (v : ℕ) : degree'.val v = degree.val v + if e.1 = v ∨ e.2 = v then 1 else 0 := by
  simp only [countEdge, Option.bind_eq_bind, Option.bind_eq_some_iff] at h
  obtain ⟨d, hd, deg₁, hset, h⟩ := h
  obtain ⟨-, rfl⟩ := Vec.at_eq_some.1 hd
  obtain ⟨-, rfl⟩ := Vec.set_eq_some.1 hset
  split_ifs at h with he
  · obtain ⟨d', hd', h⟩ := Option.bind_eq_some_iff.1 h
    obtain ⟨-, rfl⟩ := Vec.at_eq_some.1 hd'
    obtain ⟨-, rfl⟩ := Vec.set_eq_some.1 h
    simp only [Function.update_apply]
    grind
  · cases h
    push Not at he
    simp only [Function.update_apply]
    grind

theorem countEdges_val {degree degree' : Vec ℕ} {es : List (ℕ × ℕ)}
    (h : es.foldlM countEdge degree = some degree') (v : ℕ) :
    degree'.val v = degree.val v + es.countP fun e => e.1 = v ∨ e.2 = v := by
  induction es generalizing degree with
  | nil => cases h; simp
  | cons e es ih =>
    obtain ⟨deg₁, h₁, h⟩ := Option.bind_eq_some_iff.1 h
    rw [ih h, countEdge_val h₁, List.countP_cons]
    simp only [decide_eq_true_eq]
    omega

/-- **The vector of degrees.** -/
theorem degrees_val {m : Shm} {degree : Vec ℕ} (h : degrees m = some degree) (v : ℕ) :
    degree.val v = m.degree v := by
  rw [countEdges_val h, Shm.degree]
  simp [Vec.replicate]

/-! ## The two sorts -/

omit [Field K] in
/-- **Two non-increasing orders of the same numbers agree** position by position. -/
theorem sorted_unique {l l' : List K} (h : l.Perm l') (hl : l.Pairwise fun a b => b ≤ a)
    (hl' : l'.Pairwise fun a b => b ≤ a) : l = l' :=
  h.eq_of_pairwise (fun _ _ _ _ h₁ h₂ => le_antisymm h₂ h₁) hl hl'

/-- What a draw relies on. The numbers of `[0, 1]` that lead to a place of `node_degree` are those
between two running sums, which differ by the share of the node at that place. -/
structure Proportional (m : Shm) (D : Distribution K) : Prop where
  nodes : D.nodeDegree.Perm ((List.range m.numNodes).map fun v => (v, m.degree v))
  sorted : D.nodeDegree.Pairwise fun a b => b.2 ≤ a.2
  length : D.nodeProb.length = m.numNodes
  sums : (D.nodeProb.map Prod.snd).Pairwise (· ≤ ·)
  sums_nonneg : ∀ y ∈ D.nodeProb.map Prod.snd, 0 ≤ y
  total : (D.nodeProb.map Prod.snd).getLast? = some 1
  step : ∀ idx p q, D.nodeDegree[idx]? = some p → D.nodeProb[idx]? = some q →
    q.2 - D.before idx = m.degree p.1 / ∑ v ∈ Finset.range m.numNodes, (m.degree v : K)
  place : ∀ x, 0 ≤ x → x ≤ 1 → lowerBound (D.nodeProb.map Prod.snd) x < m.numNodes
  law : ∀ x, 0 ≤ x → x ≤ 1 → ∀ idx q, D.nodeProb[idx]? = some q →
    (lowerBound (D.nodeProb.map Prod.snd) x = idx ↔ (idx = 0 ∨ D.before idx < x) ∧ x ≤ q.2)

section

variable {S : Sorts K} {m : Shm} {D : Distribution K}

/-- The nodes with their degrees. -/
def Shm.table (m : Shm) : List (ℕ × ℕ) := (List.range m.numNodes).map fun v => (v, m.degree v)

/-- The shares of the nodes, in the order of `node_degree`. -/
def Distribution.shares (D : Distribution K) : List K :=
  D.nodeDegree.map fun p => (p.2 : K) / (D.nodeDegree.map fun q => (q.2 : K)).sum

omit [LinearOrder K] in
theorem sum_table (h : D.nodeDegree.Perm m.table) :
    (D.nodeDegree.map fun q => (q.2 : K)).sum = ∑ v ∈ Finset.range m.numNodes, (m.degree v : K) := by
  rw [(h.map _).sum_eq, Shm.table, List.map_map]
  rfl

omit [LinearOrder K] in
theorem before_eq (h : D.nodeProb.map Prod.snd = cumulative 0 D.shares) (idx : ℕ) :
    D.before idx = (D.shares.take idx).sum := by
  rw [Distribution.before, h, take_cumulative, getLast?_cumulative]
  cases hl : D.shares.take idx with
  | nil => rfl
  | cons p l => simp [List.getLast?_cons]

omit [Field K] [LinearOrder K] in
theorem getElem?_sums {idx : ℕ} {q : ℕ × K} (h : D.nodeProb[idx]? = some q) :
    (D.nodeProb.map Prod.snd)[idx]? = some q.2 := by
  rw [List.getElem?_map, h]
  rfl

omit [LinearOrder K] in
theorem length_shares (h : D.nodeDegree.Perm m.table) : D.shares.length = m.numNodes := by
  rw [Distribution.shares, List.length_map, h.length_eq, Shm.table, List.length_map,
    List.length_range]

omit [LinearOrder K] in
/-- The running sum after a place adds the share of the node there to the one before it. -/
theorem sums_step (hsum : D.nodeProb.map Prod.snd = cumulative 0 D.shares) {idx : ℕ} {p : ℕ × ℕ}
    {q : ℕ × K} (hp : D.nodeDegree[idx]? = some p) (hq : D.nodeProb[idx]? = some q) :
    q.2 = D.before idx + p.2 / (D.nodeDegree.map fun q => (q.2 : K)).sum := by
  have hshare : D.shares[idx]? = some ((p.2 : K) / (D.nodeDegree.map fun q => (q.2 : K)).sum) := by
    rw [Distribution.shares, List.getElem?_map, hp]
    rfl
  have hq' := getElem?_sums hq
  rw [hsum, getElem?_cumulative, hshare, Option.map_some, zero_add, Option.some.injEq,
    List.take_add_one, hshare, List.sum_append, ← before_eq hsum] at hq'
  rw [← hq', Option.toList_some, List.sum_singleton]

/-- What `lower_bound` asks of the sums before the place it finds. -/
theorem before_lt_iff {idx : ℕ} {q : ℕ × K} (hq : D.nodeProb[idx]? = some q) (x : K) :
    (∀ z ∈ ((D.nodeProb.map Prod.snd).take idx).getLast?, z < x) ↔ idx = 0 ∨ D.before idx < x := by
  rw [Distribution.before]
  cases idx with
  | zero => simp
  | succ idx =>
    have hlt : idx < (D.nodeProb.map Prod.snd).length := by
      have := (List.getElem?_eq_some_iff.1 (getElem?_sums hq)).1
      omega
    rw [List.take_add_one, List.getElem?_eq_getElem hlt]
    simp

variable [IsStrictOrderedRing K]

/-- **The running sums are those of the shares in the order of `node_degree`**: the second sort does
not change the order of the numbers. -/
theorem calcDegree_shares (h : calcDegree S m = some D) :
    D.nodeDegree.Perm m.table ∧ (D.nodeDegree.Pairwise fun a b => b.2 ≤ a.2) ∧
      D.nodeProb.map Prod.snd = cumulative 0 D.shares := by
  obtain ⟨degree, hdeg, rfl⟩ := Option.map_eq_some_iff.1 h
  have htable : ((List.range m.numNodes).map fun i => (i, degree.val i)) = m.table := by
    simp only [Shm.table, degrees_val hdeg]
  rw [htable]
  set nodeDegree := S.byDegree.sort m.table with hnd
  set pairs := nodeDegree.map fun p =>
    (p.1, (p.2 : K) / (nodeDegree.map fun q => (q.2 : K)).sum) with hpairs
  have hsorted : nodeDegree.Pairwise fun a b => b.2 ≤ a.2 :=
    (S.byDegree.sorted m.table).imp not_lt.1
  refine ⟨S.byDegree.perm m.table, hsorted, ?_⟩
  have hsum : 0 ≤ (nodeDegree.map fun q => (q.2 : K)).sum :=
    List.sum_nonneg fun x hx => by
      obtain ⟨q, -, rfl⟩ := List.mem_map.1 hx
      exact Nat.cast_nonneg q.2
  have hmap : pairs.map Prod.snd =
      nodeDegree.map fun p => (p.2 : K) / (nodeDegree.map fun q => (q.2 : K)).sum := by
    rw [hpairs, List.map_map]
    rfl
  have heq : (S.byProb.sort pairs).map Prod.snd = pairs.map Prod.snd := by
    refine sorted_unique ((S.byProb.perm pairs).map Prod.snd) ?_ ?_
    · exact List.pairwise_map.2 ((S.byProb.sorted pairs).imp not_lt.1)
    · rw [hmap]
      refine List.pairwise_map.2 (hsorted.imp fun hab => ?_)
      exact div_le_div_of_nonneg_right (Nat.cast_le.2 hab) hsum
  rw [List.map_snd_zip (by simp [length_cumulative]), heq, hmap]
  rfl

theorem shares_nonneg (h : D.nodeDegree.Perm m.table) : ∀ p ∈ D.shares, 0 ≤ p := by
  intro p hp
  obtain ⟨q, -, rfl⟩ := List.mem_map.1 hp
  rw [sum_table h]
  exact div_nonneg (Nat.cast_nonneg q.2) (Finset.sum_nonneg fun v _ => Nat.cast_nonneg _)

/-- An edge has an end with a degree, so that the shares are those of a positive sum. -/
theorem shares_sum (h : D.nodeDegree.Perm m.table) (hne : m.edges ≠ [])
    (hlt : ∀ e ∈ m.edges, e.1 < m.numNodes ∧ e.2 < m.numNodes) : D.shares.sum = 1 := by
  obtain ⟨e, he⟩ := List.exists_mem_of_ne_nil _ hne
  have hmem : (e.1, m.degree e.1) ∈ D.nodeDegree :=
    h.mem_iff.2 (List.mem_map.2 ⟨e.1, List.mem_range.2 (hlt e he).1, rfl⟩)
  exact sum_shares hmem (List.countP_pos_iff.2 ⟨e, he, by simp⟩)

/-- **Sampling is proportional to degree.** -/
theorem calcDegree_sampling (S : Sorts K) {m : Shm} (hne : m.edges ≠ [])
    (hlt : ∀ e ∈ m.edges, e.1 < m.numNodes ∧ e.2 < m.numNodes) :
    ∃ D, calcDegree S m = some D ∧ Proportional m D := by
  obtain ⟨degree, hdeg⟩ := degrees_isSome_iff.2 hlt
  obtain ⟨D, hD⟩ : ∃ D, calcDegree S m = some D := by
    rw [calcDegree, hdeg]
    exact ⟨_, rfl⟩
  obtain ⟨hnodes, hsorted, hsum⟩ := calcDegree_shares hD
  have hone := shares_sum hnodes hne hlt
  have hlen := length_shares hnodes
  have hcumulative := cumulative_sorted 0 (shares_nonneg hnodes)
  have hshares : D.shares ≠ [] := by
    intro h
    rw [h] at hone
    exact zero_ne_one hone
  have hdegree : ∀ p ∈ D.nodeDegree, p.2 = m.degree p.1 := fun p hp => by
    obtain ⟨v, -, rfl⟩ := List.mem_map.1 (hnodes.mem_iff.1 hp)
    rfl
  refine ⟨D, hD, ?_⟩
  constructor
  case nodes => exact hnodes
  case sorted => exact hsorted
  case length => rw [← List.length_map Prod.snd, hsum, length_cumulative, hlen]
  case sums =>
    rw [hsum]
    exact hcumulative.1
  case sums_nonneg =>
    rw [hsum]
    exact hcumulative.2
  case total =>
    rw [hsum, getLast?_cumulative, List.getLast?_eq_some_getLast hshares, Option.map_some, zero_add,
      hone]
  case step =>
    intro idx p q hp hq
    rw [sums_step hsum hp hq, add_sub_cancel_left, sum_table hnodes,
      hdegree p (List.mem_of_getElem? hp)]
  case place =>
    intro x _ hx
    rw [hsum, ← hlen]
    exact lowerBound_lt hshares (hx.trans hone.ge)
  case law =>
    intro x _ _ idx q hq
    have hsums : (D.nodeProb.map Prod.snd).Pairwise (· ≤ ·) := hsum ▸ hcumulative.1
    rw [lowerBound_eq_iff hsums (getElem?_sums hq), before_lt_iff hq]

end

/-- The edges `0-1`, `1-2`, and a loop at `2`. -/
def pathAndLoop : Shm where
  shm1 i := if i < 2 then 3 else i - 2
  shm2 i := if i < 2 then 3 else min (i - 1) 2

theorem calcDegree_sampling_loop : pathAndLoop.edges = [(0, 1), (1, 2), (2, 2)] ∧
    ∃ D, calcDegree stableSorts pathAndLoop = some D ∧ Proportional pathAndLoop D :=
  ⟨by decide, calcDegree_sampling stableSorts (by decide) (by decide)⟩

/-! ## The probability of a place -/

section

variable {m : Shm} {D : Distribution ℝ}

theorem Proportional.le_one (h : Proportional m D) {y : ℝ} (hy : y ∈ D.nodeProb.map Prod.snd) :
    y ≤ 1 := by
  obtain ⟨l, hl⟩ := List.getLast?_eq_some_iff.1 h.total
  have hsorted := h.sums
  rw [hl] at hy hsorted
  rcases List.mem_append.1 hy with hy | hy
  · exact (List.pairwise_append.1 hsorted).2.2 y hy 1 (List.mem_singleton_self 1)
  · exact (List.mem_singleton.1 hy).le

theorem Proportional.before_nonneg (h : Proportional m D) (idx : ℕ) : 0 ≤ D.before idx := by
  rw [Distribution.before]
  cases hlast : ((D.nodeProb.map Prod.snd).take idx).getLast? with
  | none => exact le_rfl
  | some y => exact h.sums_nonneg y (List.mem_of_mem_take (List.mem_of_getLast? hlast))

/-- **The probability of a place** is the share of the node that `node_degree` has there. -/
theorem Proportional.volume (h : Proportional m D) {idx : ℕ} {p : ℕ × ℕ} {q : ℕ × ℝ}
    (hp : D.nodeDegree[idx]? = some p) (hq : D.nodeProb[idx]? = some q) :
    MeasureTheory.volume {x | (0 ≤ x ∧ x ≤ 1) ∧ lowerBound (D.nodeProb.map Prod.snd) x = idx} =
      ENNReal.ofReal (m.degree p.1 / ∑ v ∈ Finset.range m.numNodes, (m.degree v : ℝ)) := by
  have hmem : q.2 ∈ D.nodeProb.map Prod.snd := List.mem_map_of_mem (List.mem_of_getElem? hq)
  have hle := h.le_one hmem
  rw [← h.step idx p q hp hq]
  rcases Nat.eq_zero_or_pos idx with rfl | hidx
  · have hset : {x | (0 ≤ x ∧ x ≤ 1) ∧ lowerBound (D.nodeProb.map Prod.snd) x = 0} =
        Set.Icc (D.before 0) q.2 := by
      ext x
      constructor
      · rintro ⟨⟨h0, h1⟩, hx⟩
        exact ⟨by simpa [Distribution.before] using h0, ((h.law x h0 h1 0 q hq).1 hx).2⟩
      · rintro ⟨h0, hx⟩
        have h0 : 0 ≤ x := by simpa [Distribution.before] using h0
        have h1 := hx.trans hle
        exact ⟨⟨h0, h1⟩, (h.law x h0 h1 0 q hq).2 ⟨.inl rfl, hx⟩⟩
    rw [hset, Real.volume_Icc]
  · have hset : {x | (0 ≤ x ∧ x ≤ 1) ∧ lowerBound (D.nodeProb.map Prod.snd) x = idx} =
        Set.Ioc (D.before idx) q.2 := by
      ext x
      constructor
      · rintro ⟨⟨h0, h1⟩, hx⟩
        obtain ⟨hlt, hx⟩ := (h.law x h0 h1 idx q hq).1 hx
        exact ⟨hlt.resolve_left (by omega), hx⟩
      · rintro ⟨hlt, hx⟩
        have h0 := (h.before_nonneg idx).trans hlt.le
        have h1 := hx.trans hle
        exact ⟨⟨h0, h1⟩, (h.law x h0 h1 idx q hq).2 ⟨.inr hlt, hx⟩⟩
    rw [hset, Real.volume_Ioc]

end

end OsLab.Paths
