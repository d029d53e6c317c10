import OsLab.Paths.Optim
import Mathlib.Tactic.IntervalCases

/-!
# The paths that the optimised update prints

The update over the new nodes prints a path that it puts together from two stored paths of the same
new node, one of them backwards. `path_vector` is fresh in every call, a search writes each of its
entries once, and the update writes no entry of a new node, so both parts are shortest walks
(`NewReady.spliced`). What `dist_vector` holds before the call does not matter.
-/

namespace OsLab.Paths

open Lib

variable {adj : AdjList} {n prev : ℕ}

/-- A connected undirected graph over `n` nodes. -/
structure ConnectedAdj (adj : AdjList) (n : ℕ) : Prop where
  unit : UnitGraph adj n
  symm : ∀ u v, Edge adj u v → Edge adj v u
  conn : ∀ u < n, ∀ v < n, Joined adj u v

theorem ConnectedAdj.graph (h : ConnectedAdj adj n) (hn : n ≤ maxNodes) : Graph adj n :=
  ⟨h.unit, h.symm, h.conn, hn⟩

/-- **The printed paths are real**: a call with `flag` 1 on a graph that fits returns, and each line
that its update prints is a walk from a mapped node with as many edges as the distance it shows. -/
theorem spliced_real {mapped news : List ℕ} {D : Grid ℤ} (out : List Line)
    (hG : ConnectedAdj adj n) (hle : prev ≤ n) (hmap : ∀ m ∈ mapped, m < prev)
    (hrows : D.rows = maxNodes) (hcols : D.cols = maxNodes) :
    (n ≤ maxNodes → ∃ r,
      computeShortestPathOptim n prev (mapped ++ news) news.length adj D 1 out = some r) ∧
    ∀ D' out', computeShortestPathOptim n prev (mapped ++ news) news.length adj D 1 out =
        some (D', out') →
      ∃ t₁ t₂ lines, searchNew n prev (mapped ++ news) news.length adj
          ⟨D, Grid.replicate (n - prev) n [], out⟩ = some t₁ ∧
        relaxOld n prev (mapped ++ news) news.length t₁ = some t₂ ∧
        D' = t₂.distVector ∧ out' = t₂.out ∧ t₂.out = t₁.out ++ lines ∧
        ∀ l ∈ lines, l.source ∈ mapped ∧ l.node < prev ∧ RealLine adj l := by
  have hfits : n ≤ maxNodes → ∃ t₁ t₂ lines, searchNew n prev (mapped ++ news) news.length adj
        ⟨D, Grid.replicate (n - prev) n [], out⟩ = some t₁ ∧
      relaxOld n prev (mapped ++ news) news.length t₁ = some t₂ ∧
      computeShortestPathOptim n prev (mapped ++ news) news.length adj D 1 out =
        some (t₂.distVector, t₂.out) ∧ t₂.out = t₁.out ++ lines ∧
      ∀ l ∈ lines, l.source ∈ mapped ∧ l.node < prev ∧ RealLine adj l := by
    intro hn
    have hg := hG.graph hn
    obtain ⟨t₁, t₂, ht₁, ht₂, hcall, -, hU⟩ := laterCall_run news out
      (hg.undirected.stages hle) hmap hrows hcols fun i m hm j hj _ =>
        hg.inReach ((hmap m (List.mem_of_getElem? hm)).trans_le hle) (hj.trans_le hle)
    obtain ⟨lines, hlines, hreal⟩ := hU.lines
    exact ⟨t₁, t₂, lines, ht₁, ht₂, hcall, hlines, hreal⟩
  constructor
  · intro hn
    obtain ⟨t₁, t₂, -, -, -, hcall, -⟩ := hfits hn
    exact ⟨_, hcall⟩
  · intro D' out' hcall
    rcases Nat.lt_or_ge maxNodes n with hgt | hn
    · -- the tables are too small for a search, so there are no new nodes
      obtain ⟨t₁, t₂, ht₁, ht₂, hr⟩ := laterCall_parts hle hcall
      obtain rfl : prev = n := by
        by_contra hne
        have := searchNew_bound hcols (by omega) ht₁
        omega
      rw [relaxOld_none] at ht₂
      cases ht₂
      cases hr
      exact ⟨t₁, t₁, [], ht₁, relaxOld_none t₁, rfl, rfl, (List.append_nil _).symm,
        fun l hl => by cases hl⟩
    · obtain ⟨t₁, t₂, lines, ht₁, ht₂, hcall', hlines, hreal⟩ := hfits hn
      rw [hcall, Option.some_inj, Prod.mk.injEq] at hcall'
      exact ⟨t₁, t₂, lines, ht₁, ht₂, hcall'.1, hcall'.2, hlines, hreal⟩

theorem threeNodes_connected : ConnectedAdj threeNodes 3 where
  unit := threeNodes_unit
  symm u v h := by
    rcases u with _ | _ | _ | u <;> simp [Edge, threeNodes] at h
    · subst h; simp [Edge, threeNodes]
    · rcases h with rfl | rfl <;> simp [Edge, threeNodes]
    · subst h; simp [Edge, threeNodes]
  conn := by
    have h01 : Edge threeNodes 0 1 := by simp [Edge, threeNodes]
    have h12 : Edge threeNodes 1 2 := by simp [Edge, threeNodes]
    have h10 : Edge threeNodes 1 0 := by simp [Edge, threeNodes]
    have h21 : Edge threeNodes 2 1 := by simp [Edge, threeNodes]
    -- from every node to the one in the middle, and on
    have hto : ∀ u < 3, Joined threeNodes u 1 := by
      intro u hu
      interval_cases u
      · exact ⟨1, (Walk.nil 0).snoc h01⟩
      · exact ⟨0, Walk.nil 1⟩
      · exact ⟨1, (Walk.nil 2).snoc h21⟩
    have hfrom : ∀ v < 3, Joined threeNodes 1 v := by
      intro v hv
      interval_cases v
      · exact ⟨1, (Walk.nil 1).snoc h10⟩
      · exact ⟨0, Walk.nil 1⟩
      · exact ⟨1, (Walk.nil 1).snoc h12⟩
    intro u hu v hv
    obtain ⟨a, ha⟩ := hto u hu
    obtain ⟨b, hb⟩ := hfrom v hv
    exact ⟨a + b, ha.append hb⟩

theorem spliced_real_threeNodes :
    (3 ≤ maxNodes → ∃ r, computeShortestPathOptim 3 2 ([0] ++ [2]) 1 threeNodes
      (Grid.replicate maxNodes maxNodes intMax) 1 [] = some r) ∧
    ∀ D' out', computeShortestPathOptim 3 2 ([0] ++ [2]) 1 threeNodes
        (Grid.replicate maxNodes maxNodes intMax) 1 [] = some (D', out') →
      ∃ t₁ t₂ lines, searchNew 3 2 ([0] ++ [2]) 1 threeNodes
          ⟨Grid.replicate maxNodes maxNodes intMax, Grid.replicate (3 - 2) 3 [], []⟩ = some t₁ ∧
        relaxOld 3 2 ([0] ++ [2]) 1 t₁ = some t₂ ∧
        D' = t₂.distVector ∧ out' = t₂.out ∧ t₂.out = t₁.out ++ lines ∧
        ∀ l ∈ lines, l.source ∈ [0] ∧ l.node < 2 ∧ RealLine threeNodes l :=
  spliced_real [] threeNodes_connected (by decide) (by decide) rfl rfl

end OsLab.Paths
