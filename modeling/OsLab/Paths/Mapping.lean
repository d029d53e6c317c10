import OsLab.Paths.Growth
import OsLab.Paths.System

/-!
# Which consumer a new node is mapped to

The counts are published before the new nodes are mapped, and each mapping overwrites the one before
it. A consumer that finds new counts before its segment is written reads an old segment, and one that
sleeps through a publication never reads the nodes of it. A poll is `Timely` if neither happens, and
after timely polls each new node that all consumers know of is mapped to exactly one of them, once
(`mapped_once`).
-/

namespace OsLab.Paths

open Lib

variable {K : Type*} [Field K] [LinearOrder K]

/-- The consumers have started on the graph in the segments, and the `node_map` segments hold
anything. -/
def System.init (shm : Shm) (nodeMap : ℕ → List ℕ) : System Follower where
  shm := shm
  mapping := none
  nodeMap := nodeMap
  cons i := ⟨shm.numNodes, shm.numEdges, mapInitialNodes shm.numNodes i⟩

/-- **Every new node is mapped to exactly one consumer**, once: each node from `n` on that all of
them know of. -/
def MappedOnce (n : ℕ) (s : System Follower) : Prop :=
  ∀ v, n ≤ v → (∀ i < 10, v < (s.cons i).numNodesPrev) →
    ∃ i < 10, (s.cons i).mappedNodes.count v = 1 ∧ ∀ j < 10, j ≠ i → v ∉ (s.cons j).mappedNodes

/-- The node count before the last publication, recorded along a run. -/
def countBefore (s : System Follower) : Action K → System Follower → ℕ → ℕ
  | .publish _, _, _ => s.shm.numNodes
  | _, _, old => old

/-- A poll that finds new counts comes after the write of its segment, and in the state before the
last publication the consumer was up to date. -/
def Timely (x : System Follower × ℕ) : Action K → Prop
  | .poll i => (x.1.cons i).Changed (x.1.round i) →
      (∀ y ∈ x.1.mapping, i < y.i) ∧ (x.1.cons i).numNodesPrev = x.2
  | _ => True

/-- The steps of the processes. -/
abbrev Moves (S : Sorts K) : System Follower × ℕ → Action K → System Follower × ℕ → Prop :=
  Lib.Recorded (System.Step S Follower.adopt) countBefore

/-! ## `map_nodes_to_cons` -/

/-- `map_nodes_to_cons` of `k` nodes from `old` on, before the turn of consumer `i`. -/
def Mapping.turn (old k i : ℕ) : Mapping :=
  ⟨i, k / 10, k % 10, List.range' (old + shareStart k 10 i) (k - shareStart k 10 i)⟩

variable {old k i : ℕ}

theorem start_eq_turn (old k : ℕ) :
    Mapping.start ((List.range k).map (old + ·)) = Mapping.turn old k 0 := by
  have hrem : k - 10 * (k / 10) = k % 10 := by omega
  simp [Mapping.start, Mapping.turn, hrem, List.range'_eq_map_range]

theorem turn_size : (Mapping.turn old k i).size = shareSize k 10 i := rfl

/-- What the segment of consumer `i` gets. -/
theorem turn_nodes (hi : i < 10) : (Mapping.turn old k i).nodes =
    List.range' (old + shareStart k 10 i) (shareSize k 10 i) := by
  have := shareEnd_le (n := k) (by omega : 0 < 10) hi
  rw [Mapping.nodes, turn_size, Mapping.turn, List.take_range'_of_length_ge (by omega)]

theorem turn_next : (Mapping.turn old k i).next = Mapping.turn old k (i + 1) := by
  rw [Mapping.next, turn_size, Mapping.turn, Mapping.turn, List.drop_range', shareStart_succ]
  congr 2 <;> omega

/-! ## The owner of a node -/

/-- The consumer `own v` is the one that the node `v` is mapped to. -/
structure Owned (n : ℕ) (own : ℕ → ℕ) (s : System Follower) (old : ℕ) : Prop where
  le : n ≤ old ∧ old ≤ s.shm.numNodes
  own_lt : ∀ v, n ≤ v → v < s.shm.numNodes → own v < 10
  share : ∀ v, old ≤ v → v < s.shm.numNodes →
    shareStart (s.shm.numNodes - old) 10 (own v) ≤ v - old ∧
      v - old < shareStart (s.shm.numNodes - old) 10 (own v + 1)
  mapping : ∀ x ∈ s.mapping, x.i < 10 ∧ x = Mapping.turn old (s.shm.numNodes - old) x.i
  written : ∀ i < 10, old < s.shm.numNodes → (∀ x ∈ s.mapping, i < x.i) → s.nodeMap i =
    List.range' (old + shareStart (s.shm.numNodes - old) 10 i) (shareSize (s.shm.numNodes - old) 10 i)
  counts : ∀ i < 10, ((s.cons i).numNodesPrev ≤ old ∧ old < s.shm.numNodes) ∨
    ((s.cons i).numNodesPrev = s.shm.numNodes ∧ (s.cons i).numEdgesPrev = s.shm.numEdges)
  known : ∀ i < 10, ∀ v ∈ (s.cons i).mappedNodes, v < (s.cons i).numNodesPrev
  mine : ∀ i < 10, ∀ v, n ≤ v → v < (s.cons i).numNodesPrev →
    (s.cons i).mappedNodes.count v = if own v = i then 1 else 0

variable {n : ℕ} {own : ℕ → ℕ} {s t : System Follower} {S : Sorts K}

theorem owned_init (shm : Shm) (nodeMap : ℕ → List ℕ) :
    Owned shm.numNodes (fun _ => 0) (System.init shm nodeMap) shm.numNodes where
  le := ⟨le_rfl, le_rfl⟩
  own_lt _ _ _ := by omega
  share v hv hv' := absurd hv' (not_lt.2 hv)
  mapping _ hx := by cases hx
  written i _ h := absurd h (lt_irrefl _)
  counts i _ := Or.inr ⟨rfl, rfl⟩
  known i hi v hv := mapInitialNodes_lt hi hv
  mine i _ v hv hv' := absurd hv' (not_lt.2 hv)

/-- No consumer knows of more nodes than there are. -/
theorem Owned.known_le (h : Owned n own s old) (hi : i < 10) :
    (s.cons i).numNodesPrev ≤ s.shm.numNodes := by
  rcases h.counts i hi with ⟨h1, h2⟩ | ⟨h1, -⟩ <;> omega

/-- **A publication** gives each of its nodes an owner. -/
theorem owned_publish {d : Draws K} (h : Owned n own s old)
    (hst : s.Step S Follower.adopt (.publish d) t) : ∃ own', Owned n own' t s.shm.numNodes := by
  obtain ⟨hm, shm, newNodes, hprod, rfl⟩ := step_publish hst
  obtain ⟨D, r, ints, new, -, -, -, hshm, rfl⟩ := produce_ok hprod
  generalize hk : 10 + r % 21 = k at hshm
  have hcur : shm.numNodes = s.shm.numNodes + k := by rw [hshm, writeCounts_numNodes]
  have hsub : shm.numNodes - s.shm.numNodes = k := by omega
  have hex : ∀ v, ∃ j, s.shm.numNodes ≤ v → v < shm.numNodes →
      j < 10 ∧ shareStart k 10 j ≤ v - s.shm.numNodes ∧ v - s.shm.numNodes < shareStart k 10 (j + 1) := by
    intro v
    by_cases hv : s.shm.numNodes ≤ v ∧ v < shm.numNodes
    · have hlt : v - s.shm.numNodes < shareStart k 10 10 := by
        rw [shareStart_last (by omega)]
        omega
      obtain ⟨j, hj, hshare⟩ := exists_share hlt
      exact ⟨j, fun _ _ => ⟨hj, hshare⟩⟩
    · exact ⟨0, fun h1 h2 => absurd ⟨h1, h2⟩ hv⟩
  choose new_own hnew using hex
  have hle := h.le
  refine ⟨fun v => if v < s.shm.numNodes then own v else new_own v, ?_, ?_, ?_, ?_, ?_, ?_, h.known, ?_⟩
  · exact ⟨by omega, by dsimp only; omega⟩
  · intro v hv hv'
    split_ifs with hlt
    · exact h.own_lt v hv hlt
    · exact (hnew v (by omega) hv').1
  · intro v hv hv'
    dsimp only
    rw [if_neg (by omega), hsub]
    exact (hnew v hv hv').2
  · intro x hx
    cases hx
    dsimp only
    rw [hsub, start_eq_turn]
    exact ⟨Nat.zero_lt_succ 9, rfl⟩
  · intro i _ _ hi
    exact absurd (hi _ rfl) (Nat.not_lt_zero i)
  · intro i hi
    have := h.known_le hi
    exact Or.inl ⟨this, by dsimp only; omega⟩
  · intro i hi v hv hv'
    have hlt : v < s.shm.numNodes := hv'.trans_le (h.known_le hi)
    simp only [hlt, if_true]
    exact h.mine i hi v hv hv'

/-- **The write of a segment** hands its owner his nodes. -/
theorem owned_map (h : Owned n own s old) (hst : s.Step S Follower.adopt .map t) :
    Owned n own t old := by
  obtain ⟨x, hx, rfl⟩ := step_map hst
  obtain ⟨hlt, hturn⟩ := h.mapping x hx
  refine ⟨h.le, h.own_lt, h.share, ?_, ?_, h.counts, h.known, h.mine⟩
  · intro y hy
    dsimp only at hy
    split_ifs at hy with h10
    · cases hy
      refine ⟨h10, ?_⟩
      conv_lhs => rw [hturn]
      exact turn_next
    · cases hy
  · intro i hi hcur hwritten
    dsimp only at hwritten ⊢
    rcases eq_or_ne i x.i with rfl | hne
    · rw [Function.update_self, hturn]
      exact turn_nodes hlt
    · rw [Function.update_of_ne hne]
      refine h.written i hi hcur fun y hy => ?_
      obtain rfl : x = y := Option.some.inj (hx.symm.trans hy)
      by_cases h10 : x.i + 1 < 10
      · rw [if_pos h10] at hwritten
        have : i < x.i + 1 := hwritten _ rfl
        omega
      · omega

section

variable {v : ℕ} (h : Owned n own s old) (hi : i < 10) (hcur : old < s.shm.numNodes)
  (hwritten : ∀ x ∈ s.mapping, i < x.i)
include h hi hcur hwritten

/-- A segment that is written holds nodes of the last publication, -/
theorem Owned.segment_new (hv : v ∈ s.nodeMap i) : old ≤ v ∧ v < s.shm.numNodes := by
  have hk := shareEnd_le (n := s.shm.numNodes - old) (by omega : 0 < 10) hi
  rw [h.written i hi hcur hwritten, List.mem_range'_1] at hv
  omega

/-- each of those that the consumer owns, once. -/
theorem Owned.segment_count (hge : old ≤ v) (hlt : v < s.shm.numNodes) :
    (s.nodeMap i).count v = if own v = i then 1 else 0 := by
  have hshare := h.share v hge hlt
  have hmem : v ∈ s.nodeMap i ↔ own v = i := by
    rw [h.written i hi hcur hwritten, List.mem_range'_1]
    constructor
    · intro hv
      refine share_unique hshare ?_
      rw [shareStart_succ]
      omega
    · rintro rfl
      rw [shareStart_succ] at hshare
      omega
  have hnodup : (s.nodeMap i).Nodup := by
    rw [h.written i hi hcur hwritten]
    exact List.nodup_range'
  split_ifs with hown
  · exact List.count_eq_one_of_mem hnodup (hmem.2 hown)
  · exact List.count_eq_zero_of_not_mem (mt hmem.1 hown)

end

theorem Owned.lt_of_changed (h : Owned n own s old) (hi : i < 10)
    (hc : (s.cons i).Changed (s.round i)) : old < s.shm.numNodes := by
  rcases h.counts i hi with ⟨-, hlt⟩ | ⟨h1, h2⟩
  · exact hlt
  · refine absurd ⟨h1.symm, ?_⟩ hc
    rw [h2]
    simp [System.round, Shm.segments, Shm.edges]

/-- **A timely poll** takes in the nodes of the last publication. -/
theorem owned_poll (h : Owned n own s old) (ht : Timely (K := K) (s, old) (.poll i))
    (hst : s.Step S Follower.adopt (.poll i) t) : Owned n own t old := by
  obtain ⟨hi, rfl⟩ := step_poll hst
  by_cases hc : (s.cons i).Changed (s.round i)
  · obtain ⟨hwritten, hold⟩ :
        (∀ x ∈ s.mapping, i < x.i) ∧ (s.cons i).numNodesPrev = old := ht hc
    have hcur := h.lt_of_changed hi hc
    have hadopt : (s.cons i).adopt (s.round i) =
        ⟨s.shm.numNodes, s.shm.numEdges, (s.cons i).mappedNodes ++ s.nodeMap i⟩ := by
      rw [Follower.adopt, if_pos hc]
      simp [System.round, Shm.segments, Shm.edges]
    rw [hadopt]
    refine ⟨h.le, h.own_lt, h.share, h.mapping, h.written, ?_, ?_, ?_⟩
    · intro j hj
      dsimp only
      rcases eq_or_ne j i with rfl | hji
      · rw [Function.update_self]; exact Or.inr ⟨rfl, rfl⟩
      · rw [Function.update_of_ne hji]; exact h.counts j hj
    · intro j hj v hv
      dsimp only at hv ⊢
      rcases eq_or_ne j i with rfl | hji
      · rw [Function.update_self] at hv ⊢
        rcases List.mem_append.1 hv with hv | hv
        · exact (h.known j hj v hv).trans (hold ▸ hcur)
        · exact (h.segment_new hi hcur hwritten hv).2
      · rw [Function.update_of_ne hji] at hv ⊢
        exact h.known j hj v hv
    · intro j hj v hv hv'
      dsimp only at hv' ⊢
      rcases eq_or_ne j i with rfl | hji
      · rw [Function.update_self] at hv' ⊢
        dsimp only at hv' ⊢
        rw [List.count_append]
        rcases Nat.lt_or_ge v old with hlt | hge
        · have hnot : v ∉ s.nodeMap j := fun hmem =>
            absurd (h.segment_new hi hcur hwritten hmem).1 (not_le.2 hlt)
          rw [h.mine j hj v hv (hold ▸ hlt), List.count_eq_zero_of_not_mem hnot, Nat.add_zero]
        · have hnot : v ∉ (s.cons j).mappedNodes := fun hmem =>
            absurd (h.known j hj v hmem) (by omega)
          rw [List.count_eq_zero_of_not_mem hnot, Nat.zero_add,
            h.segment_count hi hcur hwritten hge hv']
      · rw [Function.update_of_ne hji] at hv' ⊢
        exact h.mine j hj v hv hv'
  · -- nothing has changed
    rw [Follower.adopt, if_neg hc, Function.update_eq_self]
    exact h

theorem Owned.mappedOnce (h : Owned n own s old) : MappedOnce n s := by
  intro v hv hall
  have hown := h.own_lt v hv ((hall 0 (by decide)).trans_le (h.known_le (by decide)))
  refine ⟨own v, hown, ?_, fun j hj hne => ?_⟩
  · rw [h.mine _ hown v hv (hall _ hown), if_pos rfl]
  · have := h.mine j hj v hv (hall j hj)
    rw [if_neg hne.symm] at this
    exact List.count_eq_zero.1 this

/-- **Every new node is mapped to exactly one consumer** in every run whose polls are timely. -/
theorem mapped_once (S : Sorts K) (shm : Shm) (nodeMap : ℕ → List ℕ)
    (h : Reaches (Guarded Timely (Moves S)) (System.init shm nodeMap, shm.numNodes) (s, old)) :
    MappedOnce shm.numNodes s := by
  have hinv : ∃ own, Owned shm.numNodes own s old := by
    refine reaches_inv (I := fun x => ∃ own, Owned shm.numNodes own x.1 x.2) ?_
      ⟨_, owned_init shm nodeMap⟩ h
    rintro ⟨s, old⟩ a ⟨t, old'⟩ ⟨own, hown⟩ ⟨htimely, hst, hold⟩
    dsimp only at hst hold ⊢
    subst hold
    cases a with
    | publish d => exact owned_publish hown hst
    | map => exact ⟨own, owned_map hown hst⟩
    | poll i => exact ⟨own, owned_poll hown htimely hst⟩
  obtain ⟨own, hown⟩ := hinv
  exact hown.mappedOnce

instance (x : System Follower × ℕ) : (a : Action K) → Decidable (Timely x a)
  | .poll i => inferInstanceAs (Decidable (_ → (∀ y ∈ x.1.mapping, i < y.i) ∧ _))
  | .publish _ | .map => inferInstanceAs (Decidable True)

/-- Every consumer polls after the mapping: `mapped_once` at the ten nodes of an iteration. -/
theorem mapped_tenNodes : ∃ s : System Follower,
    (∀ i < 10, (s.cons i).numNodesPrev = 12) ∧ MappedOnce 2 s := by
  have hrun : (run (check (fun x a _ => Timely x a) (record
      (System.next stableSorts Follower.adopt) countBefore))
      (System.init twoNodes fun _ => [], 2) (.publish tenNodes :: List.replicate 10 .map ++
        (List.range 10).map .poll)).map (fun x => (List.range 10).map fun i =>
          (x.1.cons i).numNodesPrev) = some (List.replicate 10 12) := by
    decide +kernel
  obtain ⟨⟨s, old⟩, hs, hobs⟩ := Option.map_eq_some_iff.1 hrun
  have hreach : Reaches (Guarded Timely (Moves stableSorts)) (System.init twoNodes fun _ => [], 2)
      (s, old) :=
    reaches_of_run (fun _ _ _ => check_checked fun _ _ _ => record_recorded fun _ _ _ => id) hs
  refine ⟨s, fun i hi => ?_, mapped_once stableSorts twoNodes (fun _ => []) hreach⟩
  exact List.eq_of_mem_replicate (hobs ▸ List.mem_map.2 ⟨i, List.mem_range.2 hi, rfl⟩)

/-- **Nodes that no consumer maps**: all of them poll between the publication and the mapping. -/
theorem early_polls : ¬ ∀ (s : System Follower) (old : ℕ),
    Reaches (Moves stableSorts) (System.init twoNodes fun _ => [], 2) (s, old) → MappedOnce 2 s := by
  intro hclaim
  have hrun : (run (record (System.next stableSorts Follower.adopt) countBefore)
      (System.init twoNodes fun _ => [], 2) (.publish tenNodes :: (List.range 10).map .poll)).map
        (fun x => (List.range 10).map fun i => ((x.1.cons i).numNodesPrev,
          (x.1.cons i).mappedNodes.count 2)) = some (List.replicate 10 (12, 0)) := by
    decide +kernel
  obtain ⟨⟨s, old⟩, hs, hobs⟩ := Option.map_eq_some_iff.1 hrun
  have hpoll : ∀ i < 10, (s.cons i).numNodesPrev = 12 ∧ (s.cons i).mappedNodes.count 2 = 0 := by
    intro i hi
    have hmem : ((s.cons i).numNodesPrev, (s.cons i).mappedNodes.count 2) ∈ List.replicate 10 (12, 0) :=
      hobs ▸ List.mem_map.2 ⟨i, List.mem_range.2 hi, rfl⟩
    exact Prod.mk.inj (List.eq_of_mem_replicate hmem)
  have hreach := reaches_of_run (fun _ _ _ => record_recorded fun _ _ _ => id) hs
  obtain ⟨i, hi, hone, -⟩ := hclaim s old hreach 2 le_rfl fun i hi => by rw [(hpoll i hi).1]; decide
  have := (hpoll i hi).2
  omega

end OsLab.Paths
