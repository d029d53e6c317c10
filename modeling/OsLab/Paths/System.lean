import OsLab.Paths.Producer
import OsLab.Lib.Machine

/-!
# The producer with its ten consumers

The producer publishes the counts of a larger graph and then writes the ten `node_map` segments, one
after the other; the consumers poll whenever they wake up. A publication, the write of a segment and
a poll are the steps.

The state of a consumer is a parameter: `Follower` keeps what decides which nodes a consumer maps to
itself, and `poll_follower` says that a poll of a consumer does to it what `Follower.adopt` does.
-/

namespace OsLab.Paths

open Lib

variable {K : Type*} [Field K] [LinearOrder K] {C : Type*}

/-- The segments, and the processes. -/
structure System (C : Type*) where
  shm : Shm
  /-- the producer is in `map_nodes_to_cons` -/
  mapping : Option Mapping
  /-- the nodes in the `node_map` segment of each consumer -/
  nodeMap : ℕ → List ℕ
  cons : ℕ → C

inductive Action (K : Type*) [Field K] [LinearOrder K] where
  /-- an iteration of the producer up to the publication of the counts -/
  | publish (d : Draws K)
  /-- the write of the next `node_map` segment -/
  | map
  /-- a pass of the loop of consumer `i` -/
  | poll (i : ℕ)

/-- What consumer `i` finds. -/
def System.round (s : System C) (i : ℕ) : Round := ⟨s.shm.segments, s.nodeMap i⟩

/-- The steps, with the pass `poll` of a consumer. -/
def System.next (S : Sorts K) (poll : C → Round → C) (s : System C) : Action K → Option (System C)
  | .publish d =>
    match s.mapping, produce S s.shm d with
    | none, .ok (shm, newNodes) => some { s with shm := shm, mapping := some (Mapping.start newNodes) }
    | _, _ => none
  | .map => s.mapping.map fun x =>
    { s with
      nodeMap := Function.update s.nodeMap x.i x.nodes
      mapping := if x.i + 1 < 10 then some x.next else none }
  | .poll i =>
    if i < 10 then some { s with cons := Function.update s.cons i (poll (s.cons i) (s.round i)) }
    else none

/-- A step of the processes. -/
def System.Step (S : Sorts K) (poll : C → Round → C) (s : System C) (a : Action K) (t : System C) :
    Prop := s.next S poll a = some t

section

variable {S : Sorts K} {poll : C → Round → C} {s t : System C}

theorem step_publish {d : Draws K} (h : s.Step S poll (.publish d) t) :
    s.mapping = none ∧ ∃ shm newNodes, produce S s.shm d = .ok (shm, newNodes) ∧
      t = { s with shm := shm, mapping := some (Mapping.start newNodes) } := by
  simp only [System.Step, System.next] at h
  rcases hm : s.mapping with _ | x
  · rcases hp : produce S s.shm d with e | ⟨shm, newNodes⟩
    · simp [hm, hp] at h
    · simp only [hm, hp, Option.some.injEq] at h
      exact ⟨rfl, shm, newNodes, rfl, h.symm⟩
  · simp [hm] at h

theorem step_map (h : s.Step S poll .map t) :
    ∃ x, s.mapping = some x ∧ t = { s with
      nodeMap := Function.update s.nodeMap x.i x.nodes
      mapping := if x.i + 1 < 10 then some x.next else none } := by
  obtain ⟨x, hx, rfl⟩ := Option.map_eq_some_iff.1 h
  exact ⟨x, hx, rfl⟩

theorem step_poll {i : ℕ} (h : s.Step S poll (.poll i) t) :
    i < 10 ∧ t = { s with cons := Function.update s.cons i (poll (s.cons i) (s.round i)) } := by
  simp only [System.Step, System.next] at h
  split_ifs at h with hi
  exact ⟨hi, (Option.some.inj h).symm⟩

end

/-! ## Followers -/

/-- What a consumer keeps of the counts and of the nodes mapped to it. -/
structure Follower where
  numNodesPrev : ℕ
  numEdgesPrev : ℕ
  mappedNodes : List ℕ

/-- The counts are not those of the last pass. -/
def Follower.Changed (s : Follower) (r : Round) : Prop :=
  ¬ (r.shm.numNodes = s.numNodesPrev ∧ r.shm.edges.length = s.numEdgesPrev)

instance (s : Follower) (r : Round) : Decidable (s.Changed r) := inferInstanceAs (Decidable (¬ _))

/-- A pass of the loop. -/
def Follower.adopt (s : Follower) (r : Round) : Follower :=
  if s.Changed r then ⟨r.shm.numNodes, r.shm.edges.length, s.mappedNodes ++ r.nodeMap⟩ else s

def Consumer.follower (s : Consumer) : Follower := ⟨s.numNodesPrev, s.numEdgesPrev, s.mappedNodes⟩

/-- **A pass of a consumer** does to its follower what `adopt` does. -/
theorem poll_follower {optim : Bool} {s t : Consumer} {r : Round} (h : poll optim s r = some t) :
    t.follower = s.follower.adopt r := by
  unfold poll at h
  unfold Follower.adopt
  by_cases hc : r.shm.numNodes = s.numNodesPrev ∧ r.shm.edges.length = s.numEdgesPrev
  · rw [if_pos hc] at h
    cases h
    have hc' : ¬ s.follower.Changed r := not_not_intro hc
    rw [if_neg hc']
  · rw [if_neg hc] at h
    simp only [Option.bind_eq_bind, Option.bind_eq_some_iff, Option.some.injEq] at h
    obtain ⟨adjList, -, ⟨distVector, out⟩, -, rfl⟩ := h
    have hc' : s.follower.Changed r := hc
    rw [if_pos hc']
    rfl

end OsLab.Paths
