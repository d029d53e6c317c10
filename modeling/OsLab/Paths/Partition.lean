import OsLab.Paths.Rounds
import OsLab.Paths.Producer
import Mathlib.Data.List.Forall2

/-!
# How the nodes are split among the consumers

`map_initial_nodes` gives each consumer a range by a closed formula, and `map_nodes_to_cons` writes
the new nodes to ten segments of 100 numbers, taking what a segment gets off the front of a vector.
Both are the same split of a list into equal shares.

* `copyNodes_eq`, `writeSegment_filled`: one segment.
* `mapNodesToCons_filled`: all segments.
* `work_partitioned`: nothing is lost or doubled, and no write is past the end of a segment.
-/

namespace OsLab.Paths

open Lib

/-- The nodes that a reader of the segment finds. -/
def listed (shm : Vec ℤ) : List ℤ := (List.range (shm.val 0).toNat).map fun j => shm.val (j + 1)

/-- The segment holds the nodes, and nothing else. -/
structure Filled (nodes : List ℤ) (shm : Vec ℤ) : Prop where
  size : shm.size = 100
  count : shm.val 0 = nodes.length
  node : ∀ j (h : j < nodes.length), shm.val (j + 1) = nodes[j]
  rest : ∀ k, nodes.length < k → k < 100 → shm.val k = -1

variable {newNodes nodes : List ℤ} {shm : Vec ℤ} {c : ℕ}

theorem Filled.listed (h : Filled nodes shm) : listed shm = nodes := by
  refine List.ext_getElem (by simp [Paths.listed, h.count]) fun j h1 h2 => ?_
  simp [Paths.listed, h.node j h2]

/-! ## One segment -/

/-- One pass of the copy loop. -/
theorem copyNodes_pass (h0 : shm.val 0 = c) {j : ℕ} (hj : j < c) (hc : c < shm.size) {node : ℤ}
    (hnode : newNodes[j]? = some node) : copyNodes newNodes shm j =
      copyNodes newNodes { shm with val := Function.update shm.val (j + 1) node } (j + 1) := by
  have hlt : (j : ℤ) < c := by omega
  have hset := Vec.set_eq (v := shm) (show j + 1 < shm.size by omega) node
  rw [copyNodes, Vec.at_eq (by omega), h0, Option.bind_some, if_pos hlt, hnode, Option.bind_some]
  split
  · next h => rw [hset] at h; cases h
  · next h => rw [hset] at h; cases h; rfl

/-- **The copy loop**, from `j` on. The count stays, and so does the bound of the loop. -/
theorem copyNodes_eq (h0 : shm.val 0 = c) (hc : c < shm.size) (hl : c ≤ newNodes.length) {j : ℕ}
    (hj : j ≤ c) : ∃ shm', copyNodes newNodes shm j = some shm' ∧ shm'.size = shm.size ∧
      ∀ k, shm'.val k = if j < k ∧ k ≤ c then newNodes[k - 1]?.getD 0 else shm.val k := by
  induction hd : c - j generalizing shm j with
  | zero =>
    have hend : ¬ (j : ℤ) < c := by omega
    refine ⟨shm, ?_, rfl, fun k => (if_neg (by omega)).symm⟩
    rw [copyNodes, Vec.at_eq (by omega), h0, Option.bind_some, if_neg hend]
  | succ d ih =>
    have hnode : newNodes[j]? = some newNodes[j] := List.getElem?_eq_getElem (by omega)
    have h0' : ({ shm with val := Function.update shm.val (j + 1) newNodes[j] } : Vec ℤ).val 0 = c := by
      simpa using h0
    obtain ⟨shm', hrun, hsize, hval⟩ := ih (j := j + 1) h0' hc (by omega) (by omega)
    refine ⟨shm', (copyNodes_pass h0 (by omega) hc hnode).trans hrun, hsize, fun k => ?_⟩
    simp only [hval k, Function.update_apply]
    rcases Nat.lt_trichotomy k (j + 1) with hk | rfl | hk
    · rw [if_neg (by omega), if_neg (by omega), if_neg (by omega)]
    · rw [if_neg (by omega), if_pos rfl, if_pos (by omega), Nat.add_sub_cancel, hnode,
        Option.getD_some]
    · have hiff : (j + 1 < k ∧ k ≤ c) ↔ (j < k ∧ k ≤ c) := by omega
      simp only [hiff, if_neg (show k ≠ j + 1 by omega)]

/-- **A segment** of 100 numbers, with room for its nodes after the count. -/
theorem writeSegment_filled {nodesPerCons rem i : ℕ} (contents : ℕ → ℤ)
    (hc : c = if i < rem then nodesPerCons + 1 else nodesPerCons) (hroom : c < 100)
    (hl : c ≤ newNodes.length) : ∃ shm, writeSegment nodesPerCons rem i newNodes ⟨100, contents⟩ =
      some shm ∧ Filled (newNodes.take c) shm := by
  have hcount : ((if i < rem then nodesPerCons + 1 else nodesPerCons : ℤ)) = c := by
    rw [hc]; split_ifs <;> simp
  have hstart : (⟨100, Function.update contents 0 c⟩ : Vec ℤ).val 0 = c := by simp
  obtain ⟨shm₁, hcopy, hsize₁, hval₁⟩ := copyNodes_eq hstart hroom hl (Nat.zero_le c)
  simp only at hsize₁ hval₁
  have h0 : shm₁.val 0 = c := by rw [hval₁, if_neg (by omega), Function.update_self]
  have hfrom : ((c : ℤ) + 1).toNat = c + 1 := by omega
  -- the fill loop writes behind the nodes only
  obtain ⟨shm₂, hfill, hsize₂, hval₂⟩ := forRange_spec (n := 100 - (c + 1)) (s := shm₁)
    (f := fun shm k => shm.set (c + 1 + k) (-1))
    (P := fun i t => t.size = 100 ∧
      ∀ k, t.val k = if c < k ∧ k < c + 1 + i then -1 else shm₁.val k)
    ⟨hsize₁, fun k => (if_neg (by omega)).symm⟩ (by
      rintro i t hi ⟨hsize, hval⟩
      refine ⟨_, Vec.set_eq (by omega) _, hsize, fun k => ?_⟩
      simp only [Function.update_apply]
      rcases eq_or_ne k (c + 1 + i) with rfl | hne
      · rw [if_pos rfl, if_pos (by omega)]
      · have hiff : (c < k ∧ k < c + 1 + (i + 1)) ↔ (c < k ∧ k < c + 1 + i) := by omega
        simp only [if_neg hne, hval k, hiff])
  refine ⟨shm₂, ?_, ?_⟩
  · rw [writeSegment, hcount, Vec.set_eq (by simp)]
    simp only [Option.bind_eq_bind, Option.bind_some, hcopy]
    rw [Vec.at_eq (by omega), Option.bind_some, h0, hfrom]
    exact hfill
  · have hlen : (newNodes.take c).length = c := by rw [List.length_take]; omega
    refine ⟨hsize₂, ?_, fun j hj => ?_, fun k hk hk' => ?_⟩
    · rw [hval₂, if_neg (by omega), h0, hlen]
    · rw [hlen] at hj
      rw [hval₂, if_neg (by omega), hval₁, if_pos (by omega), Nat.add_sub_cancel,
        List.getElem?_eq_getElem (by omega), Option.getD_some, List.getElem_take]
    · rw [hlen] at hk
      rw [hval₂, if_pos (by omega)]

/-! ## All segments -/

/-- What one consumer gets of at most 990 nodes fits in its segment. -/
theorem shareSize_room (h : newNodes.length ≤ 990) (i : ℕ) : shareSize newNodes.length 10 i < 100 := by
  rw [shareSize]
  split_ifs <;> omega

/-- **The ten segments** hold the shares. -/
theorem mapNodesToCons_filled (h : newNodes.length ≤ 990) (old : ℕ → ℕ → ℤ) :
    ∃ segs, mapNodesToCons newNodes old = some ([], segs) ∧
      List.Forall₂ Filled ((List.range 10).map (share 10 newNodes)) segs := by
  have hrem : newNodes.length - 10 * (newNodes.length / 10) = newNodes.length % 10 := by omega
  obtain ⟨⟨left, segs⟩, hrun, hleft, hsegs⟩ := forRange_spec (n := 10)
    (s := ((newNodes, []) : List ℤ × List (Vec ℤ)))
    (f := fun st i => do
      let shm ← writeSegment (newNodes.length / 10) (newNodes.length % 10) i st.1 ⟨100, old i⟩
      let count ← shm.at 0
      if count ≤ st.1.length then some (st.1.drop count.toNat, st.2 ++ [shm]) else none)
    (P := fun i st => st.1 = newNodes.drop (shareStart newNodes.length 10 i) ∧
      List.Forall₂ Filled ((List.range i).map (share 10 newNodes)) st.2)
    ⟨by simp, List.Forall₂.nil⟩ (by
      rintro i ⟨left, segs⟩ hi ⟨rfl, hsegs⟩
      have hend := shareEnd_le (n := newNodes.length) (p := 10) (by omega) hi
      have hl : shareSize newNodes.length 10 i ≤
          (newNodes.drop (shareStart newNodes.length 10 i)).length := by
        rw [List.length_drop]; omega
      obtain ⟨shm, hw, hf⟩ := writeSegment_filled (old i)
        (show shareSize newNodes.length 10 i = if i < newNodes.length % 10 then newNodes.length / 10 + 1
          else newNodes.length / 10 from rfl) (shareSize_room h i) hl
      have hcount : shm.val 0 = shareSize newNodes.length 10 i := by
        rw [hf.count, List.length_take, min_eq_left hl]
      refine ⟨(newNodes.drop (shareStart newNodes.length 10 (i + 1)), segs ++ [shm]), ?_, rfl, ?_⟩
      · simp only [Option.bind_eq_bind, hw, Option.bind_some]
        rw [Vec.at_eq (by rw [hf.size]; omega), Option.bind_some, hcount,
          if_pos (by exact_mod_cast hl), Int.toNat_natCast, List.drop_drop, shareStart_succ]
      · rw [List.range_succ, List.map_append]
        exact List.rel_append hsegs (List.Forall₂.cons hf List.Forall₂.nil))
  refine ⟨segs, ?_, hsegs⟩
  rw [mapNodesToCons]
  simp only [hrem]
  rw [shareStart_last (by omega), List.drop_length] at hleft
  exact hrun.trans (by rw [← hleft])

theorem map_listed {shares : List (List ℤ)} {segs : List (Vec ℤ)}
    (h : List.Forall₂ Filled shares segs) : segs.map listed = shares := by
  induction h with
  | nil => rfl
  | cons hf _ ih => rw [List.map_cons, hf.listed, ih]

theorem mem_filled {shares : List (List ℤ)} {segs : List (Vec ℤ)}
    (h : List.Forall₂ Filled shares segs) (hm : shm ∈ segs) : ∃ nodes ∈ shares, Filled nodes shm := by
  induction h with
  | nil => cases hm
  | cons hf _ ih =>
    rcases List.mem_cons.1 hm with rfl | hm
    · exact ⟨_, List.mem_cons_self, hf⟩
    · obtain ⟨nodes, hn, hf⟩ := ih hm
      exact ⟨nodes, List.mem_cons_of_mem _ hn, hf⟩

/-! ## The turns of the producer -/

theorem turns_eq (ns : List ℕ) (i : ℕ) : Mapping.next^[i] (Mapping.start ns) =
    ⟨i, ns.length / 10, ns.length % 10, ns.drop (shareStart ns.length 10 i)⟩ := by
  have hrem : ns.length - 10 * (ns.length / 10) = ns.length % 10 := by omega
  induction i with
  | zero => simp [Mapping.start, hrem]
  | succ i ih =>
    rw [Function.iterate_succ_apply', ih, Mapping.next, shareStart_succ, ← List.drop_drop]
    rfl

/-- What a turn of `Mapping` writes is what a reader of the segment finds. -/
theorem mapNodesToCons_turns {ns : List ℕ} (h : ns.length ≤ 990) (old : ℕ → ℕ → ℤ) :
    ∃ segs, mapNodesToCons (ns.map (↑)) old = some ([], segs) ∧ segs.map listed =
      (List.range 10).map fun i => (Mapping.next^[i] (Mapping.start ns)).nodes.map (↑) := by
  obtain ⟨segs, hrun, hsegs⟩ := mapNodesToCons_filled
    (show (ns.map (↑) : List ℤ).length ≤ 990 by simpa using h) old
  refine ⟨segs, hrun, (map_listed hsegs).trans (List.map_congr_left fun i _ => ?_)⟩
  rw [turns_eq, share, List.length_map, ← List.map_drop, ← List.map_take]
  rfl

/-! ## The split -/

theorem mapInitialNodes_share {numNodes i : ℕ} (hi : i < 10) :
    mapInitialNodes numNodes i = share 10 (List.range numNodes) i := by
  have hend := shareEnd_le (n := numNodes) (p := 10) (by omega) hi
  rw [mapInitialNodes_eq, share, List.length_range, List.range_eq_range', List.drop_range',
    List.take_range'_of_length_ge (by omega)]
  congr 1
  omega

/-- **The nodes are partitioned** among the consumers, at the start and in every round. -/
theorem work_partitioned (numNodes : ℕ) (newNodes : List ℤ) (old : ℕ → ℕ → ℤ)
    (h : newNodes.length ≤ 990) :
    ((List.range 10).flatMap (mapInitialNodes numNodes) = List.range numNodes ∧
      ∀ i < 10, ∀ j < 10,
        (mapInitialNodes numNodes i).length ≤ (mapInitialNodes numNodes j).length + 1) ∧
    ∃ segs, mapNodesToCons newNodes old = some ([], segs) ∧ segs.length = 10 ∧
      segs.flatMap listed = newNodes ∧
      (∀ shm ∈ segs, ∀ shm' ∈ segs, shm.val 0 ≤ shm'.val 0 + 1) ∧
      ∀ shm ∈ segs, shm.size = 100 ∧ 0 ≤ shm.val 0 ∧
        ∀ k : ℕ, shm.val 0 < k → k < 100 → shm.val k = -1 := by
  refine ⟨⟨?_, fun i hi j hj => ?_⟩, ?_⟩
  · calc (List.range 10).flatMap (mapInitialNodes numNodes)
        = (List.range 10).flatMap (share 10 (List.range numNodes)) :=
          List.flatMap_congr fun i hi => mapInitialNodes_share (List.mem_range.1 hi)
      _ = List.range numNodes := flatMap_share _ (by omega)
  · rw [mapInitialNodes_eq, mapInitialNodes_eq, List.length_range', List.length_range']
    exact shareSize_le numNodes 10 i j
  · obtain ⟨segs, hrun, hsegs⟩ := mapNodesToCons_filled h old
    -- every count is the size of a share
    have hcount : ∀ shm ∈ segs, ∃ i, shm.val 0 = shareSize newNodes.length 10 i := by
      intro shm hm
      obtain ⟨nodes, hn, hf⟩ := mem_filled hsegs hm
      obtain ⟨i, hi, rfl⟩ := List.mem_map.1 hn
      exact ⟨i, by rw [hf.count, length_share newNodes (by omega) (List.mem_range.1 hi)]⟩
    refine ⟨segs, hrun, ?_, ?_, fun shm hm shm' hm' => ?_, fun shm hm => ?_⟩
    · rw [← hsegs.length_eq, List.length_map, List.length_range]
    · rw [List.flatMap_def, map_listed hsegs, ← List.flatMap_def, flatMap_share _ (by omega)]
    · obtain ⟨i, hi⟩ := hcount shm hm
      obtain ⟨j, hj⟩ := hcount shm' hm'
      rw [hi, hj]
      exact_mod_cast shareSize_le newNodes.length 10 i j
    · obtain ⟨nodes, -, hf⟩ := mem_filled hsegs hm
      refine ⟨hf.size, by rw [hf.count]; exact Int.natCast_nonneg _, fun k hk hk' => ?_⟩
      rw [hf.count] at hk
      exact hf.rest k (by omega) hk'

theorem work_partitioned_three : ((List.range 10).flatMap (mapInitialNodes 13) = List.range 13 ∧
      ∀ i < 10, ∀ j < 10, (mapInitialNodes 13 i).length ≤ (mapInitialNodes 13 j).length + 1) ∧
    ∃ segs, mapNodesToCons [13, 14, 15] (fun _ _ => 7) = some ([], segs) ∧ segs.length = 10 ∧
      segs.flatMap listed = [13, 14, 15] ∧
      (∀ shm ∈ segs, ∀ shm' ∈ segs, shm.val 0 ≤ shm'.val 0 + 1) ∧
      ∀ shm ∈ segs, shm.size = 100 ∧ 0 ≤ shm.val 0 ∧
        ∀ k : ℕ, shm.val 0 < k → k < 100 → shm.val k = -1 :=
  work_partitioned 13 [13, 14, 15] (fun _ _ => 7) (by decide)

end OsLab.Paths
