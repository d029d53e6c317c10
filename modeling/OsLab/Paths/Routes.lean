import OsLab.Paths.Dijkstra

/-!
# The paths that `dijkstra_algo` prints

A node gets its parent together with its distance, from a node with an edge to it
(`ParentEdge`). At the end of the loop the distances are exact, so the chain of parents of a
reached node is a shortest walk, read backwards.

* `search_parents`: the loop keeps the edges.
* `Found.route`: the chain of parents.
* `dijkstra_correct`: the distances, the chains and the printed lines.
-/

namespace OsLab.Paths

open Lib

variable {adj : AdjList} {n src u v : ℕ} {s t : Search}

/-- The parent of a node, if it has one, has an edge to it. -/
def ParentEdge (adj : AdjList) (s : Search) : Prop :=
  ∀ v, s.parent.val v = -1 ∨ ∃ u : ℕ, s.parent.val v = u ∧ Edge adj u v

theorem relax_parents {es : List (ℕ × ℤ)} (hes : ∀ p ∈ es, Edge adj u p.1)
    (hP : ParentEdge adj s) (h : relax u es s = some t) : ParentEdge adj t := by
  induction es generalizing s with
  | nil => cases h; exact hP
  | cons e es ih =>
    obtain ⟨v, w⟩ := e
    have hes' : ∀ p ∈ es, Edge adj u p.1 := fun p hp => hes p (List.mem_cons_of_mem _ hp)
    simp only [relax, Option.bind_eq_bind, Option.bind_eq_some_iff] at h
    obtain ⟨dv, -, du, -, d, -, h⟩ := h
    split_ifs at h with hlt
    · simp only [Option.bind_eq_some_iff] at h
      obtain ⟨dist, -, parent, hset, h⟩ := h
      obtain ⟨-, rfl⟩ := Vec.set_eq_some.1 hset
      refine ih hes' ?_ h
      intro x
      by_cases hx : x = v
      · subst hx
        exact Or.inr ⟨u, Function.update_self .., hes _ List.mem_cons_self⟩
      · dsimp only
        rw [Function.update_of_ne hx]
        exact hP x
    · exact ih hes' hP h

theorem search_parents (hG : UnitGraph adj n) (hI : SearchInv adj n src s)
    (hS : Settled adj n src [] s) (hP : ParentEdge adj s) (h : search adj s = some t) :
    ParentEdge adj t := by
  fun_induction search adj s with
  | case1 s hpq => cases h; exact hP
  | case2 => cases h
  | case3 s k u pq hpq t' hrow ih =>
    obtain ⟨t'', ht, hI', hS'⟩ := turn_spec hG hI (hS.done u) hpq
    rw [hrow] at ht
    cases ht
    refine ih hI' (hS'.done src) ?_ h
    obtain ⟨hu, -⟩ := hI.queue (k, u) (by rw [hpq]; exact List.mem_cons_self)
    obtain ⟨row, hat, hrelax⟩ := Option.bind_eq_some_iff.1 hrow
    obtain ⟨-, rfl⟩ := Vec.at_eq_some.1 hat
    refine relax_parents (s := { s with pq := pq }) ?_ hP hrelax
    intro p hp
    obtain ⟨v, w⟩ := p
    have hw : w = 1 := (hG.unit u hu _ hp).2
    subst hw
    exact hp

theorem searchInit_parents (h : Search.init n src = some s) : ParentEdge adj s := by
  unfold Search.init at h
  obtain ⟨dist, -, heq⟩ := Option.bind_eq_some_iff.1 h
  cases heq
  exact fun v => Or.inl rfl

/-- The parent of a reached node is one edge nearer to the source. -/
theorem Found.parent (h : Found adj n src t) (hP : ParentEdge adj t) (hv : v < n) (hs : v ≠ src)
    (hlt : t.dist.val v < intMax) :
    ∃ u < n, t.parent.val v = u ∧ Edge adj u v ∧ t.dist.val v = t.dist.val u + 1 := by
  obtain ⟨u, hu, hpar, hle⟩ := h.inv.parent v hv hs hlt
  have he : Edge adj u v := by
    rcases hP v with hroot | ⟨u', hpar', he⟩
    · omega
    · have : u' = u := by omega
      rwa [this] at he
  have := h.edge hu (by omega) he
  exact ⟨u, hu, hpar, he, by omega⟩

/-- **The chain of parents** from a reached node, read backwards, is a walk from the source
with as many edges as the node's distance. -/
theorem Found.route (h : Found adj n src t) (hP : ParentEdge adj t) {fuel d : ℕ} (hv : v < n)
    (hlt : t.dist.val v < intMax) (hd : t.dist.val v = d) (hf : d < fuel) :
    ∃ l, Paths.chain t.parent fuel v = some l ∧ Route (Edge adj) src v d l.reverse := by
  induction d generalizing v fuel with
  | zero =>
    obtain ⟨fuel, rfl⟩ : ∃ k, fuel = k + 1 := ⟨fuel - 1, by omega⟩
    -- only the source is at distance 0
    have hs : v = src := by
      by_contra hs
      obtain ⟨u, hu, -, -, heq⟩ := h.parent hP hv hs hlt
      have := h.inv.nonneg hu
      omega
    subst hs
    have hend : Paths.chain t.parent fuel (-1) = some [] := by unfold Paths.chain; rfl
    refine ⟨[v], ?_, Route.nil v⟩
    rw [Paths.chain, if_neg (by omega), if_neg (by omega)]
    simp only [Int.toNat_natCast, Vec.at_eq (h.inv.parentSize.symm ▸ hv : v < t.parent.size),
      Option.bind_eq_bind, Option.bind_some, h.inv.root, hend]
  | succ d ih =>
    obtain ⟨fuel, rfl⟩ : ∃ k, fuel = k + 1 := ⟨fuel - 1, by omega⟩
    have hs : v ≠ src := by
      rintro rfl
      rw [h.inv.source] at hd
      omega
    obtain ⟨u, hu, hpar, he, heq⟩ := h.parent hP hv hs hlt
    obtain ⟨l, hl, hroute⟩ :
        ∃ l, Paths.chain t.parent fuel u = some l ∧ Route (Edge adj) src u d l.reverse :=
      ih hu (by omega) (by push_cast at hd; omega) (by omega)
    refine ⟨v :: l, ?_, ?_⟩
    · rw [Paths.chain, if_neg (by omega), if_neg (by omega)]
      simp only [Int.toNat_natCast, Vec.at_eq (h.inv.parentSize.symm ▸ hv : v < t.parent.size),
        Option.bind_eq_bind, Option.bind_some, hpar, hl]
    · rw [List.reverse_cons]
      exact hroute.snoc he

/-! ## The whole function -/

/-- What the loop leaves in `dist` and `parent`, and what is printed from them. -/
structure ShortestPaths (adj : AdjList) (n src : ℕ) (t : Search) (out : List Line) : Prop where
  unreachable : ∀ v < n, t.dist.val v = intMax ↔ ∀ k, ¬ Walk (Edge adj) src v k
  dist : ∀ v < n, t.dist.val v ≠ intMax →
    ∃ d : ℕ, t.dist.val v = d ∧ Dist (Edge adj) src v d
  chain : ∀ v < n, ∀ d : ℕ, t.dist.val v = d → t.dist.val v ≠ intMax →
    ∃ l, chain t.parent n v = some l ∧ Route (Edge adj) src v d l.reverse ∧
      out[v]? = some ⟨src, v, some d, l.reverse⟩
  noPath : ∀ v < n, t.dist.val v = intMax → out[v]? = some ⟨src, v, none, []⟩

/-- What `dijkstra_algo` prints for node `v`. -/
def printed (t : Search) (n src v : ℕ) : Line :=
  if t.dist.val v = intMax then ⟨src, v, none, []⟩
  else ⟨src, v, some (t.dist.val v), ((chain t.parent n v).getD []).reverse⟩

theorem dijkstraAlgo_eq (hsize : t.dist.size = n) (hi : Search.init n src = some s)
    (ht : search adj s = some t)
    (hchain : ∀ v < n, t.dist.val v ≠ intMax → ∃ l, Paths.chain t.parent n v = some l) :
    dijkstraAlgo n src adj = some ((List.range n).map (printed t n src)) := by
  unfold dijkstraAlgo
  simp only [Option.bind_eq_bind, hi, ht, Option.bind_some]
  suffices h : ∃ out, forRange n (fun out i => (t.dist.at i).bind fun d =>
      if d ≠ intMax then (Paths.chain t.parent n i).bind fun path =>
        some (out ++ [⟨src, i, some d, path.reverse⟩])
      else some (out ++ [⟨src, i, none, []⟩])) [] = some out ∧
      out = (List.range n).map (printed t n src) by
    obtain ⟨out, hout, heq⟩ := h
    rw [← heq]
    exact hout
  refine forRange_spec (P := fun k out => out = (List.range k).map (printed t n src)) rfl ?_
  intro i out hin hout
  subst hout
  have hline : (List.range (i + 1)).map (printed t n src) =
      (List.range i).map (printed t n src) ++ [printed t n src i] := by
    rw [List.range_succ, List.map_append, List.map_singleton]
  rw [Vec.at_eq (hsize.symm ▸ hin : i < t.dist.size), Option.bind_some, hline]
  by_cases hd : t.dist.val i = intMax
  · refine ⟨_, if_neg (not_not.2 hd), ?_⟩
    rw [printed, if_pos hd]
  · obtain ⟨l, hl⟩ := hchain i hin hd
    refine ⟨_, by rw [if_pos hd, hl]; rfl, ?_⟩
    rw [printed, if_neg hd, hl, Option.getD_some]

/-- **Dijkstra is correct**: the loop ends, no addition overflows, `dist` has the distances, and
each chain of parents is a shortest walk. -/
theorem dijkstra_correct (hG : UnitGraph adj n) (hsrc : src < n) (hn : (n : ℤ) < intMax) :
    ∃ s t out, Search.init n src = some s ∧ search adj s = some t ∧
      dijkstraAlgo n src adj = some out ∧ ShortestPaths adj n src t out := by
  obtain ⟨s, hinit, hI, hS⟩ := searchInit_spec adj hsrc
  obtain ⟨t, ht, hI', hempty, hS'⟩ := search_spec hG hI hS
  have hfound : Found adj n src t := ⟨hI', hempty, hS'⟩
  have hP : ParentEdge adj t := search_parents hG hI hS (searchInit_parents hinit) ht
  have hdist := fun v (hv : v < n) => hfound.dist hG hsrc hn.le hv
  -- a distance is below the number of nodes, which is the fuel of the chain
  have hbelow : ∀ v < n, ∀ d : ℕ, t.dist.val v = d → t.dist.val v ≠ intMax →
      t.dist.val v < intMax ∧ d < n := by
    intro v hv d hd hne
    rcases hdist v hv with ⟨hmax, -⟩ | ⟨d', hlt, hd', -⟩
    · exact absurd hmax hne
    · omega
  have hroute : ∀ v < n, ∀ d : ℕ, t.dist.val v = d → t.dist.val v ≠ intMax →
      ∃ l, Paths.chain t.parent n v = some l ∧ Route (Edge adj) src v d l.reverse := by
    intro v hv d hd hne
    obtain ⟨hlt, hdn⟩ := hbelow v hv d hd hne
    exact hfound.route hP hv hlt hd hdn
  have hreached : ∀ v < n, t.dist.val v ≠ intMax →
      ∃ d : ℕ, t.dist.val v = d ∧ Dist (Edge adj) src v d := by
    intro v hv hne
    rcases hdist v hv with ⟨hmax, -⟩ | ⟨d, -, hd, hdist⟩
    · exact absurd hmax hne
    · exact ⟨d, hd, hdist⟩
  have halgo := dijkstraAlgo_eq hI'.distSize hinit ht fun v hv hne => by
    obtain ⟨d, hd, -⟩ := hreached v hv hne
    obtain ⟨l, hl, -⟩ := hroute v hv d hd hne
    exact ⟨l, hl⟩
  have hout : ∀ v < n, ((List.range n).map (printed t n src))[v]? = some (printed t n src v) := by
    intro v hv
    rw [List.getElem?_map, List.getElem?_range hv]
    rfl
  refine ⟨s, t, _, hinit, ht, halgo, ?_, hreached, ?_, ?_⟩
  · intro v hv
    rcases hdist v hv with ⟨hmax, hno⟩ | ⟨d, hlt, hd, hdist⟩
    · exact iff_of_true hmax hno
    · exact iff_of_false (by omega) fun hno => hno d hdist.walk
  · intro v hv d hd hne
    obtain ⟨l, hl, hr⟩ := hroute v hv d hd hne
    refine ⟨l, hl, hr, ?_⟩
    rw [hout v hv, printed, if_neg hne, hl, hd, Option.getD_some]
  · intro v hv hmax
    rw [hout v hv, printed, if_pos hmax]

/-- Three nodes in a row. -/
def threeNodes : AdjList where
  size := 3
  val
    | 0 => [(1, 1)]
    | 1 => [(0, 1), (2, 1)]
    | 2 => [(1, 1)]
    | _ => []

theorem threeNodes_unit : UnitGraph threeNodes 3 := ⟨le_rfl, by decide⟩

theorem dijkstra_threeNodes : ∃ s t out, Search.init 3 0 = some s ∧ search threeNodes s = some t ∧
    dijkstraAlgo 3 0 threeNodes = some out ∧ ShortestPaths threeNodes 3 0 t out :=
  dijkstra_correct threeNodes_unit (by decide) (by decide)

end OsLab.Paths
