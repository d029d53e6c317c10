import OsLab.Paths.Mapping
import OsLab.Paths.Capacity

/-!
# The processes from the file on

`main` loads the graph of a file that the producer can start from (`load_wellFormed`), and the
consumers start on it. As long as no consumer stops on undefined behaviour, what decides which nodes
the consumers map to themselves steps as in a system of followers (`next_followers`), and at the start
every node belongs to one of them (`owned_loaded`).
-/

namespace OsLab.Paths

open Lib

variable {K : Type*} [Field K] [LinearOrder K]

/-! ## The file -/

/-- A file of the edges of a connected graph without loops and repeated edges, that leaves no id out. -/
structure GraphFile (file : List (ℕ × ℕ)) : Prop where
  ne : file ≠ []
  dense : ∀ v, IdOf file v → ∀ w < v, IdOf file w
  loopless : ∀ e ∈ file, e.1 ≠ e.2
  simple : file.Pairwise fun e f => f ≠ e ∧ f ≠ e.swap
  connected : ∀ u v, IdOf file u → IdOf file v → ∃ k, Walk (EdgeIn file) u v k

/-- **The loaded graph** is what the producer starts from. -/
theorem load_wellFormed (shm : Shm) {file : List (ℕ × ℕ)} (h : GraphFile file) :
    WellFormed (load shm file) := by
  obtain ⟨hedges, nodes, hnodes, hcard⟩ := load_spec shm file
  -- the ids are the numbers below their number
  have hlt : ∀ v ∈ nodes, v < nodes.card := (lt_card_iff nodes).2 fun v hv w hw =>
    (hnodes w).2 (h.dense v ((hnodes v).1 hv) w hw)
  have hrange : nodes = Finset.range nodes.card :=
    Finset.eq_of_subset_of_card_le (fun v hv => Finset.mem_range.2 (hlt v hv)) (by simp)
  have hid : ∀ v, v < (load shm file).numNodes ↔ IdOf file v := by
    intro v
    rw [hcard, ← hnodes, ← Finset.mem_range, ← hrange]
  have hcounts : (load shm file).shm2 0 = (load shm file).shm1 0 ∧
      (load shm file).shm2 1 = (load shm file).shm1 1 := by
    obtain ⟨lines, e, rfl⟩ := (List.eq_nil_or_concat file).resolve_left h.ne
    rw [load, List.concat_eq_append, List.foldl_append]
    exact ⟨by simp [Loader.line, writeCounts], by simp [Loader.line, writeCounts]⟩
  refine ⟨hcounts.1, hcounts.2, fun e he => ?_, ?_, ?_, fun u v hu hv => ?_, ?_⟩
  · rw [hedges] at he
    exact ⟨(hid _).2 ⟨e, he, Or.inl rfl⟩, (hid _).2 ⟨e, he, Or.inr rfl⟩⟩
  · rw [hedges]; exact h.loopless
  · rw [hedges]; exact h.simple
  · rw [hedges]; exact h.connected u v ((hid u).1 hu) ((hid v).1 hv)
  · rw [hedges]; exact h.ne

theorem Fits.numNodes_le {file : List (ℕ × ℕ)} (h : Fits file) (shm : Shm) :
    (load shm file).numNodes ≤ maxNodes := by
  obtain ⟨-, nodes, hnodes, hcard⟩ := load_spec shm file
  have hsub : nodes ⊆ Finset.range maxNodes := fun v hv =>
    Finset.mem_range.2 (h.nodes v ((hnodes v).1 hv))
  rw [hcard]
  exact (Finset.card_le_card hsub).trans_eq (Finset.card_range _)

theorem WellFormed.connectedGraph {shm : Shm} (h : WellFormed shm) : ConnectedGraph shm.segments :=
  ⟨h.lt, fun u hu v hv => h.connected u v hu hv⟩

theorem graphFile_edge : GraphFile [(0, 1)] := by
  have hid : ∀ v, IdOf [(0, 1)] v ↔ v = 0 ∨ v = 1 := fun v => by simp [IdOf, eq_comm]
  refine ⟨by simp, fun v hv w hw => ?_, by simp, by simp, fun u v hu hv => ?_⟩
  · rw [hid] at hv ⊢
    omega
  · rw [hid] at hu hv
    rcases eq_or_ne u v with rfl | hne
    · exact ⟨0, Walk.nil u⟩
    · refine ⟨1, (Walk.nil u).snoc ?_⟩
      simp only [EdgeIn, List.mem_singleton, Prod.mk.injEq]
      omega

/-! ## Adjacency lists -/

/-- The adjacency list has the edges `es`. -/
structure Lists (adj : AdjList) (es : List (ℕ × ℕ)) : Prop where
  size : adj.size = maxNodes
  mem : ∀ u p, p ∈ adj.val u ↔ p.2 = 1 ∧ EdgeIn es u p.1

variable {adj : AdjList} {es new : List (ℕ × ℕ)} {n : ℕ}

theorem Lists.edge (h : Lists adj es) : Edge adj = EdgeIn es := by
  funext u v
  simp only [Edge, h.mem, true_and]

theorem lists_replicate : Lists (Vec.replicate maxNodes []) [] :=
  ⟨rfl, fun u p => by simp [Vec.replicate, EdgeIn]⟩

/-- More edges are entered. -/
theorem Lists.add (h : Lists adj es) (new : List (ℕ × ℕ))
    (hlt : ∀ e ∈ new, e.1 < maxNodes ∧ e.2 < maxNodes) :
    ∃ adj', new.foldlM addEdge adj = some adj' ∧ Lists adj' (es ++ new) := by
  obtain ⟨adj', hadd, hsize, hmem⟩ := addEdges_some adj new (by rw [h.size]; exact hlt)
  refine ⟨adj', hadd, hsize.trans h.size, fun u p => ?_⟩
  rw [hmem, h.mem]
  simp only [EdgeIn, List.mem_append]
  tauto

/-! ## Followers -/

/-- What the followers of the consumers are. -/
def System.followers (s : System (Option Consumer)) : System Follower where
  shm := s.shm
  mapping := s.mapping
  nodeMap := s.nodeMap
  cons i := (s.cons i).elim ⟨0, 0, []⟩ Consumer.follower

variable {S : Sorts K} {optim : Bool} {s t : System (Option Consumer)} {a : Action K} {i old : ℕ}

/-- The steps, and the node count before the last publication. -/
abbrev ConsumerMoves (S : Sorts K) (optim : Bool) :
    System (Option Consumer) × ℕ → Action K → System (Option Consumer) × ℕ → Prop :=
  Lib.Recorded (System.Step S (pass optim)) fun s a t => countBefore s.followers a t.followers

/-- A step within the capacities; a poll is timely. -/
def TimelyRoom (x : System (Option Consumer) × ℕ) (a : Action K) : Prop :=
  Timely (x.1.followers, x.2) a ∧ HasRoom x.1 a

/-- The step is no poll of a consumer that stops. -/
def Defined (optim : Bool) (s : System (Option Consumer)) : Action K → Prop
  | .poll i => i < 10 → ∃ c c', s.cons i = some c ∧ poll optim c (s.round i) = some c'
  | _ => True

/-- **The followers step alongside** the consumers. -/
theorem next_followers (h : Defined optim s a) :
    (s.next S (pass optim) a).map System.followers = s.followers.next S Follower.adopt a := by
  cases a with
  | publish d =>
    simp only [System.next, System.followers]
    rcases s.mapping with _ | x
    · rcases produce S s.shm d with e | r <;> rfl
    · rfl
  | map =>
    simp only [System.next, System.followers]
    rcases s.mapping with _ | x <;> rfl
  | poll i =>
    simp only [System.next]
    split_ifs with hi
    · obtain ⟨c, c', hc, hpoll⟩ := h hi
      have hnew : pass optim (s.cons i) (s.round i) = some c' := by rw [hc]; exact hpoll
      simp only [Option.map_some, System.followers, hnew, Option.some.injEq, System.mk.injEq, true_and]
      funext j
      rcases eq_or_ne j i with rfl | hne
      · simp only [Function.update_self, hc, Option.elim_some]
        exact poll_follower hpoll
      · simp only [Function.update_of_ne hne]
    · rfl

/-- **The owners of the nodes** after a timely step. -/
theorem owned_step {n : ℕ} {own : ℕ → ℕ} (hown : Owned n own s.followers old)
    (htimely : Timely (s.followers, old) a) (hdef : Defined optim s a)
    (hst : s.Step S (pass optim) a t) :
    ∃ own', Owned n own' t.followers (countBefore s.followers a t.followers old) := by
  have hstep : s.followers.Step S Follower.adopt a t.followers := by
    rw [System.Step, ← next_followers hdef, show s.next S (pass optim) a = some t from hst]
    rfl
  cases a with
  | publish d => exact owned_publish hown hstep
  | map => exact ⟨own, owned_map hown hstep⟩
  | poll i => exact ⟨own, owned_poll hown htimely hstep⟩

/-- Every node has an owner at the start. -/
theorem owned_loaded (shm : Shm) (file : List (ℕ × ℕ))
    (hstart : ∀ i < 10, ∃ c, start optim i (load shm file).segments = some c) :
    ∃ own, Owned 0 own (System.loaded optim shm file).followers (load shm file).numNodes := by
  have hcons : ∀ i < 10, (System.loaded optim shm file).followers.cons i =
      ⟨(load shm file).numNodes, (load shm file).numEdges,
        mapInitialNodes (load shm file).numNodes i⟩ := by
    intro i hi
    obtain ⟨c, hc⟩ := hstart i hi
    obtain ⟨h1, h2, h3⟩ := start_fields hc
    simp only [System.followers, System.loaded, hc, Option.elim_some, Consumer.follower, h1, h2, h3]
    rw [← length_edges]
    rfl
  have hshm : (System.loaded optim shm file).followers.shm = load shm file := rfl
  clear hstart
  generalize load shm file = m at hcons hshm ⊢
  have hex : ∀ v, ∃ j, v < m.numNodes → j < 10 ∧ shareStart m.numNodes 10 j ≤ v ∧
      v < shareStart m.numNodes 10 (j + 1) := by
    intro v
    by_cases hv : v < m.numNodes
    · obtain ⟨j, hj, hshare⟩ := exists_share (hv.trans_eq (shareStart_last (by omega : 0 < 10)).symm)
      exact ⟨j, fun _ => ⟨hj, hshare⟩⟩
    · exact ⟨0, fun h => absurd h hv⟩
  choose own hown using hex
  refine ⟨own, ⟨Nat.zero_le _, hshm ▸ le_rfl⟩, fun v _ hv => (hown v (hshm ▸ hv)).1, fun v hv hv' => ?_,
    fun x hx => absurd hx (Option.not_mem_none x), fun i _ hlt => ?_, fun i hi => ?_,
    fun i hi v hv => ?_, fun i hi v _ hv => ?_⟩
  · exact absurd (hshm ▸ hv') (not_lt.2 hv)
  · exact absurd (hshm ▸ hlt) (lt_irrefl _)
  · rw [hcons i hi, hshm]
    exact Or.inr ⟨rfl, rfl⟩
  · rw [hcons i hi] at hv ⊢
    exact mapInitialNodes_lt hi hv
  · rw [hcons i hi] at hv ⊢
    have hmem : v ∈ mapInitialNodes m.numNodes i ↔ own v = i := by
      rw [mem_mapInitialNodes]
      refine ⟨share_unique (hown v hv).2, ?_⟩
      rintro rfl
      exact (hown v hv).2
    split_ifs with h
    · exact List.count_eq_one_of_mem (mapInitialNodes_nodup _ _) (hmem.2 h)
    · exact List.count_eq_zero_of_not_mem (mt hmem.1 h)

end OsLab.Paths
