import OsLab.Paths.Routes

/-!
# What a search of the optimised consumer records

`dijkstra_algo_optim` writes the distances of its source into a row and a column of `dist_vector`,
and the paths to the reached nodes into a row of `path_vector`. The graph need not be connected
here: an entry of `INT_MAX` says that there is no walk.

* `recordNode_spec`, `dijkstraAlgoOptim_run`: one search.
* `searchNew_spec`: the searches from all new nodes.
* `searchNew_bound`: they need a graph that fits in the tables.
-/

namespace OsLab.Paths

open Lib

variable {adj : AdjList} {n prev src : ℕ}

/-- An undirected graph over `n` nodes that fits in the tables. -/
structure Undirected (adj : AdjList) (n : ℕ) : Prop where
  unit : UnitGraph adj n
  symm : ∀ u v, Edge adj u v → Edge adj v u
  fits : n ≤ maxNodes

/-- `z` is the distance from `a` to `b`. -/
def DistVal (adj : AdjList) (a b : ℕ) (z : ℤ) : Prop := ∃ d : ℕ, z = d ∧ Dist (Edge adj) a b d

/-- `z` is the distance from `a` to `b`, or `INT_MAX` if there is no walk. -/
def Entry (adj : AdjList) (a b : ℕ) (z : ℤ) : Prop :=
  (z = intMax ∧ ∀ k, ¬ Walk (Edge adj) a b k) ∨ DistVal adj a b z

theorem DistVal.unique {a b : ℕ} {y z : ℤ} (h : DistVal adj a b y) (h' : DistVal adj a b z) :
    y = z := by
  obtain ⟨d, rfl, hd⟩ := h
  obtain ⟨d', rfl, hd'⟩ := h'
  rw [hd.unique hd']

theorem DistVal.symm (hE : ∀ u v, Edge adj u v → Edge adj v u) {a b : ℕ} {z : ℤ}
    (h : DistVal adj a b z) : DistVal adj b a z := by
  obtain ⟨d, hz, hd⟩ := h
  exact ⟨d, hz, hd.symm hE⟩

theorem Entry.symm (hE : ∀ u v, Edge adj u v → Edge adj v u) {a b : ℕ} {z : ℤ}
    (h : Entry adj a b z) : Entry adj b a z := by
  rcases h with ⟨hz, hno⟩ | h
  · exact Or.inl ⟨hz, fun k hk => hno k (hk.symm hE)⟩
  · exact Or.inr (h.symm hE)

theorem Entry.unique {a b : ℕ} {y z : ℤ} (h : Entry adj a b y) (h' : Entry adj a b z) : y = z := by
  rcases h with ⟨hy, hno⟩ | ⟨d, hd, hdist⟩
  · rcases h' with ⟨hz, -⟩ | ⟨d, -, hdist⟩
    · rw [hy, hz]
    · exact absurd hdist.walk (hno d)
  · rcases h' with ⟨-, hno⟩ | h'
    · exact absurd hdist.walk (hno d)
    · exact DistVal.unique ⟨d, hd, hdist⟩ h'

/-- An entry of two nodes that are joined is the distance. -/
theorem Entry.distVal {a b k : ℕ} {z : ℤ} (h : Entry adj a b z) (hw : Walk (Edge adj) a b k) :
    DistVal adj a b z := by
  rcases h with ⟨-, hno⟩ | h
  · exact absurd hw (hno k)
  · exact h

theorem le_intMax (hn : n ≤ maxNodes) : (n : ℤ) ≤ intMax := by
  unfold maxNodes at hn
  unfold intMax
  omega

theorem UnitGraph.distVal_lt (hG : UnitGraph adj n) {a b : ℕ} {z : ℤ} (ha : a < n)
    (h : DistVal adj a b z) : 0 ≤ z ∧ z < n := by
  obtain ⟨d, rfl, hd⟩ := h
  have := hd.lt (Finset.mem_range.2 ha) hG.closed
  rw [Finset.card_range] at this
  omega

/-- An entry is in the range of the distances, or `INT_MAX`. -/
theorem UnitGraph.entry_range (hG : UnitGraph adj n) {a b : ℕ} {z : ℤ} (ha : a < n)
    (h : Entry adj a b z) : (0 ≤ z ∧ z < n) ∨ z = intMax := by
  rcases h with ⟨hz, -⟩ | h
  · exact Or.inr hz
  · exact Or.inl (hG.distVal_lt ha h)

/-! ## The search -/

/-- **A search** ends, and leaves the distances and the chains. -/
theorem UnitGraph.search (hG : UnitGraph adj n) (hsrc : src < n) :
    ∃ s u, Search.init n src = some s ∧ Paths.search adj s = some u ∧ Found adj n src u ∧
      ParentEdge adj u := by
  obtain ⟨s, hs, hI, hS⟩ := searchInit_spec adj hsrc
  obtain ⟨u, hu, hI', hq, hS'⟩ := search_spec hG hI hS
  exact ⟨s, u, hs, hu, ⟨hI', hq, hS'⟩, search_parents hG hI hS (searchInit_parents hs) hu⟩

theorem Found.entry {u : Search} (h : Found adj n src u) (hG : UnitGraph adj n) (hn : n ≤ maxNodes)
    (hsrc : src < n) {v : ℕ} (hv : v < n) : Entry adj src v (u.dist.val v) := by
  rcases h.dist hG hsrc (le_intMax hn) hv with hno | ⟨d, -, hd, hdist⟩
  · exact Or.inl hno
  · exact Or.inr ⟨d, hd, hdist⟩

/-- The path to a reached node. -/
theorem Found.path {u : Search} (h : Found adj n src u) (hP : ParentEdge adj u)
    (hG : UnitGraph adj n) (hn : n ≤ maxNodes) (hsrc : src < n) {v : ℕ} (hv : v < n)
    (hne : u.dist.val v ≠ intMax) : ∃ (l : List ℕ) (d : ℕ), Paths.chain u.parent n v = some l ∧
      u.dist.val v = d ∧ Route (Edge adj) src v d l.reverse := by
  have hmax := le_intMax hn
  rcases h.dist hG hsrc hmax hv with ⟨hno, -⟩ | ⟨d, hlt, hd, -⟩
  · exact absurd hno hne
  · obtain ⟨l, hl, hroute⟩ := h.route hP hv (by omega) hd hlt
    exact ⟨l, d, hl, hd, hroute⟩

/-! ## Recording a search -/

/-- The sizes of the tables during a call. -/
structure Dims (t : Tables) (n prev : ℕ) : Prop where
  rows : t.distVector.rows = maxNodes
  cols : t.distVector.cols = maxNodes
  pathRows : t.pathVector.rows = n - prev
  pathCols : t.pathVector.cols = n

/-- `t'` is `t` after the search `u` from `src` was recorded up to node `i`. -/
structure Recorded (t t' : Tables) (n prev src : ℕ) (u : Search) (i : ℕ) : Prop where
  dims : Dims t' n prev
  row : ∀ b < i, t'.distVector.val src b = u.dist.val b
  col : ∀ a < i, t'.distVector.val a src = u.dist.val a
  other : ∀ a b, ¬ (a = src ∧ b < i) → ¬ (b = src ∧ a < i) →
    t'.distVector.val a b = t.distVector.val a b
  path : ∀ v < i, u.dist.val v ≠ intMax → ∃ l, chain u.parent n v = some l ∧
    t'.pathVector.val (src - prev) v = (t.pathVector.val (src - prev) v ++ l).reverse
  later : ∀ v, i ≤ v → t'.pathVector.val (src - prev) v = t.pathVector.val (src - prev) v
  otherPath : ∀ k v, k ≠ src - prev → t'.pathVector.val k v = t.pathVector.val k v

theorem recordNode_spec {t t' : Tables} {u : Search} {flag : Bool} {i : ℕ} (hn : n ≤ maxNodes)
    (hsrc : src < n) (hprev : prev ≤ src) (hi : i < n) (hsize : u.dist.size = n)
    (hchain : u.dist.val i ≠ intMax → ∃ l, chain u.parent n i = some l)
    (h : Recorded t t' n prev src u i) :
    ∃ t'', recordNode n prev src u flag t' i = some t'' ∧ Recorded t t'' n prev src u (i + 1) := by
  have hd := h.dims
  have h1 : u.dist.at i = some (u.dist.val i) := Vec.at_eq (by omega)
  have h2 := Grid.set_eq (g := t'.distVector) (i := src) (j := i) (by rw [hd.rows]; omega)
    (by rw [hd.cols]; omega) (u.dist.val i)
  have h3 := Grid.set_eq (g := t'.distVector.put src i (u.dist.val i)) (i := i) (j := src)
    (by rw [Grid.put_rows, hd.rows]; omega) (by rw [Grid.put_cols, hd.cols]; omega) (u.dist.val i)
  -- both writes of the distance
  have hrow : ∀ b < i + 1, ((t'.distVector.put src i (u.dist.val i)).put i src (u.dist.val i)).val
      src b = u.dist.val b := by
    intro b hb
    by_cases hbi : b = i
    · subst hbi
      by_cases hbs : src = b
      · subst hbs; exact Grid.put_self _ _ _ _
      · rw [Grid.put_other _ _ (fun h => hbs h.1), Grid.put_self]
    · by_cases hbs : src = i ∧ b = src
      · exact absurd (hbs.2.trans hbs.1) hbi
      · rw [Grid.put_other _ _ hbs, Grid.put_other _ _ (fun h => hbi h.2)]
        exact h.row b (by omega)
  have hcol : ∀ a < i + 1, ((t'.distVector.put src i (u.dist.val i)).put i src (u.dist.val i)).val
      a src = u.dist.val a := by
    intro a ha
    by_cases hai : a = i
    · subst hai; exact Grid.put_self _ _ _ _
    · rw [Grid.put_other _ _ (fun h => hai h.1), Grid.put_other _ _ (fun h => hai (h.1.trans h.2))]
      exact h.col a (by omega)
  have hother : ∀ a b, ¬ (a = src ∧ b < i + 1) → ¬ (b = src ∧ a < i + 1) →
      ((t'.distVector.put src i (u.dist.val i)).put i src (u.dist.val i)).val a b =
        t.distVector.val a b := by
    intro a b ha hb
    rw [Grid.put_other _ _ (by omega), Grid.put_other _ _ (by omega)]
    exact h.other a b (by omega) (by omega)
  unfold recordNode
  simp only [Option.bind_eq_bind, h1, Option.bind_some, h2, h3]
  by_cases hfin : u.dist.val i = intMax
  · -- a node that was not reached has no path
    rw [if_neg (not_not.2 hfin)]
    refine ⟨_, rfl, ⟨hd.rows, hd.cols, hd.pathRows, hd.pathCols⟩, hrow, hcol, hother, ?_, ?_,
      h.otherPath⟩
    · intro v hv hne
      have hvi : v ≠ i := by rintro rfl; exact hne hfin
      exact h.path v (by omega) hne
    · exact fun v hv => h.later v (by omega)
  · obtain ⟨l, hl⟩ := hchain hfin
    have h4 := Grid.at_eq (g := t'.pathVector) (i := src - prev) (j := i) (by rw [hd.pathRows]; omega)
      (by rw [hd.pathCols]; omega)
    have h5 := Grid.set_eq (g := t'.pathVector) (i := src - prev) (j := i)
      (by rw [hd.pathRows]; omega) (by rw [hd.pathCols]; omega)
      (t'.pathVector.val (src - prev) i ++ l).reverse
    rw [if_pos hfin, if_neg (not_lt.2 hprev), hl, Option.bind_some, h4, Option.bind_some, h5,
      Option.bind_some]
    refine ⟨_, rfl, ⟨hd.rows, hd.cols, hd.pathRows, hd.pathCols⟩, hrow, hcol, hother, ?_, ?_, ?_⟩
    · intro v hv hne
      by_cases hvi : v = i
      · subst hvi
        exact ⟨l, hl, by rw [Grid.put_self, h.later v le_rfl]⟩
      · obtain ⟨l', hl', hp⟩ := h.path v (by omega) hne
        exact ⟨l', hl', by rw [Grid.put_other _ _ (fun h => hvi h.2), hp]⟩
    · intro v hv
      rw [Grid.put_other _ _ (by omega)]
      exact h.later v (by omega)
    · intro k v hk
      rw [Grid.put_other _ _ (fun h => hk h.1)]
      exact h.otherPath k v hk

/-- **A search from `src`** and what it records. -/
theorem dijkstraAlgoOptim_run {t : Tables} (hG : UnitGraph adj n) (hn : n ≤ maxNodes)
    (hsrc : src < n) (hprev : prev ≤ src) (hd : Dims t n prev) (flag : Bool) :
    ∃ u t', dijkstraAlgoOptim n prev src adj flag t = some t' ∧ Found adj n src u ∧
      ParentEdge adj u ∧ Recorded t t' n prev src u n := by
  obtain ⟨s, u, hs, hu, hF, hP⟩ := hG.search hsrc
  obtain ⟨t', ht', hrec⟩ := forRange_spec (n := n) (f := recordNode n prev src u flag)
    (P := fun i t' => Recorded t t' n prev src u i)
    ⟨hd, fun _ h => absurd h (Nat.not_lt_zero _), fun _ h => absurd h (Nat.not_lt_zero _),
      fun _ _ _ _ => rfl, fun _ h => absurd h (Nat.not_lt_zero _), fun _ _ => rfl, fun _ _ _ => rfl⟩
    fun i t' hi h => recordNode_spec hn hsrc hprev hi hF.inv.distSize (fun hne => by
      obtain ⟨l, d, hl, -⟩ := hF.path hP hG hn hsrc hi hne
      exact ⟨l, hl⟩) h
  refine ⟨u, t', ?_, hF, hP, hrec⟩
  unfold dijkstraAlgoOptim
  simp only [Option.bind_eq_bind, hs, hu, Option.bind_some]
  exact ht'

/-- The entries after a search. -/
theorem Recorded.entry {t t' : Tables} {u : Search} (h : Recorded t t' n prev src u n)
    (hG : Undirected adj n) (hF : Found adj n src u) (hsrc : src < n) {a b : ℕ} (ha : a < n)
    (hb : b < n) (hab : a = src ∨ b = src) : Entry adj a b (t'.distVector.val a b) := by
  by_cases hsa : a = src
  · subst hsa
    rw [h.row b hb]
    exact hF.entry hG.unit hG.fits hsrc hb
  · -- the column, since the graph is undirected
    obtain rfl := hab.resolve_left hsa
    rw [h.col a ha]
    exact (hF.entry hG.unit hG.fits hsrc ha).symm hG.symm

/-- **The first call** searches from every mapped node. -/
theorem firstCall_entries {mapped : List ℕ} {D : Grid ℤ} (out : List Line) (hG : Undirected adj n)
    (hmap : ∀ m ∈ mapped, m < n) (hrows : D.rows = maxNodes) (hcols : D.cols = maxNodes) :
    ∃ D' out', computeShortestPathOptim n 0 mapped mapped.length adj D 0 out = some (D', out') ∧
      D'.rows = maxNodes ∧ D'.cols = maxNodes ∧
      (∀ m ∈ mapped, ∀ j < n, Entry adj m j (D'.val m j)) ∧
      ∀ a b, D'.val a b = D.val a b ∨ (a < n ∧ Entry adj a b (D'.val a b)) := by
  obtain ⟨t, ht, hd, hex, hall⟩ := forRange_spec (n := mapped.length)
    (f := fun t i => do
      let m ← mapped[i]?
      dijkstraAlgoOptim n 0 m adj true t)
    (s := (⟨D, Grid.replicate n n [], out⟩ : Tables))
    (P := fun i t => Dims t n 0 ∧
      (∀ m ∈ mapped.take i, ∀ j < n, Entry adj m j (t.distVector.val m j)) ∧
      ∀ a b, t.distVector.val a b = D.val a b ∨ (a < n ∧ Entry adj a b (t.distVector.val a b)))
    ⟨⟨hrows, hcols, rfl, rfl⟩, fun m hm => by simp at hm, fun _ _ => Or.inl rfl⟩ (by
      rintro i t hi ⟨hd, hex, hall⟩
      have hm := hmap _ (List.getElem_mem hi)
      obtain ⟨u, t', ht', hF, -, hrec⟩ := dijkstraAlgoOptim_run hG.unit hG.fits hm (Nat.zero_le _) hd
        true
      refine ⟨t', ?_, hrec.dims, ?_, ?_⟩
      · simp only [Option.bind_eq_bind, List.getElem?_eq_getElem hi, Option.bind_some, ht']
      · intro x hx j hj
        rw [List.take_succ_eq_append_getElem hi, List.mem_append, List.mem_singleton] at hx
        have hxn : x < n := by
          rcases hx with hx | rfl
          · exact hmap x (List.mem_of_mem_take hx)
          · exact hm
        by_cases hsrc : x = mapped[i] ∨ j = mapped[i]
        · exact hrec.entry hG hF hm hxn hj hsrc
        · -- an entry of an earlier row
          push Not at hsrc
          rw [hrec.other x j (fun h => hsrc.1 h.1) (fun h => hsrc.2 h.1)]
          exact hex x (hx.resolve_right hsrc.1) j hj
      · intro a b
        by_cases hab : a < n ∧ b < n ∧ (a = mapped[i] ∨ b = mapped[i])
        · exact Or.inr ⟨hab.1, hrec.entry hG hF hm hab.1 hab.2.1 hab.2.2⟩
        · rw [hrec.other a b (by omega) (by omega)]
          exact hall a b)
  refine ⟨t.distVector, t.out, ?_, hd.rows, hd.cols, ?_, hall⟩
  · unfold computeShortestPathOptim
    rw [if_neg (by omega)]
    simp only [Option.bind_eq_bind] at ht
    simp only [Option.bind_eq_bind, if_true, Nat.sub_zero, ht, Option.bind_some,
      Nat.zero_ne_one, if_false]
  · rw [List.take_length] at hex
    exact hex

/-! ## The searches from the new nodes -/

/-- The first loop of the call with `flag` 1. -/
def searchNew (numNodes numNodesPrev : ℕ) (mappedNodes : List ℕ) (numNewMapped : ℕ)
    (adjList : AdjList) (t : Tables) : Option Tables :=
  forRange (numNodes - numNodesPrev) (fun t i =>
    dijkstraAlgoOptim numNodes numNodesPrev (numNodesPrev + i) adjList
      ((mappedNodes.drop (mappedNodes.length - numNewMapped)).contains (numNodesPrev + i)) t) t

/-- The second loop. -/
def relaxOld (numNodes numNodesPrev : ℕ) (mappedNodes : List ℕ) (numNewMapped : ℕ) (t : Tables) :
    Option Tables :=
  forRange (mappedNodes.length - numNewMapped) (updateRow numNodes numNodesPrev mappedNodes) t

/-- The call with `flag` 1 is the two loops. -/
theorem computeShortestPathOptim_one {mapped : List ℕ} {numNew : ℕ} (D : Grid ℤ) (out : List Line)
    (hle : prev ≤ n) (hnew : numNew ≤ mapped.length) :
    computeShortestPathOptim n prev mapped numNew adj D 1 out =
      (searchNew n prev mapped numNew adj ⟨D, Grid.replicate (n - prev) n [], out⟩).bind fun t₁ =>
        (relaxOld n prev mapped numNew t₁).map fun t₂ => (t₂.distVector, t₂.out) := by
  unfold computeShortestPathOptim
  rw [if_neg (by omega)]
  simp only [Option.bind_eq_bind, Nat.one_ne_zero, if_false, Option.bind_some, if_true,
    searchNew, relaxOld, Option.map_eq_bind, Function.comp_def]

/-- The two phases of a later call that returned. -/
theorem laterCall_parts {mapped news : List ℕ} {D : Grid ℤ} {out : List Line} {r : Grid ℤ × List Line}
    (hle : prev ≤ n) (h : computeShortestPathOptim n prev (mapped ++ news) news.length adj D 1 out =
      some r) : ∃ t₁ t₂, searchNew n prev (mapped ++ news) news.length adj
        ⟨D, Grid.replicate (n - prev) n [], out⟩ = some t₁ ∧
      relaxOld n prev (mapped ++ news) news.length t₁ = some t₂ ∧ r = (t₂.distVector, t₂.out) := by
  rw [computeShortestPathOptim_one D out hle (by rw [List.length_append]; omega)] at h
  obtain ⟨t₁, ht₁, h⟩ := Option.bind_eq_some_iff.1 h
  obtain ⟨t₂, ht₂, rfl⟩ := Option.map_eq_some_iff.1 h
  exact ⟨t₁, t₂, ht₁, ht₂, rfl⟩

/-- `t'` is `t` after the searches from the new nodes up to `prev + i`. -/
structure NewSearched (adj : AdjList) (t t' : Tables) (n prev i : ℕ) : Prop where
  dims : Dims t' n prev
  entry : ∀ a < n, ∀ b < n, (prev ≤ a ∧ a < prev + i) ∨ (prev ≤ b ∧ b < prev + i) →
    Entry adj a b (t'.distVector.val a b)
  other : ∀ a b, (a < prev ∧ b < prev) ∨ n ≤ a ∨ n ≤ b →
    t'.distVector.val a b = t.distVector.val a b
  path : ∀ k < i, ∀ v < n, t'.distVector.val (prev + k) v ≠ intMax → ∃ d : ℕ,
    t'.distVector.val (prev + k) v = d ∧
      Route (Edge adj) (prev + k) v d (t'.pathVector.val k v)
  fresh : ∀ k v, i ≤ k → t'.pathVector.val k v = []

/-- **The searches from the new nodes.** -/
theorem searchNew_spec {t : Tables} (mapped : List ℕ) (numNew : ℕ) (hG : Undirected adj n)
    (hle : prev ≤ n) (hd : Dims t n prev) (hfresh : ∀ k v, t.pathVector.val k v = []) :
    ∃ t', searchNew n prev mapped numNew adj t = some t' ∧ NewSearched adj t t' n prev (n - prev) := by
  refine forRange_spec (P := fun i t' => NewSearched adj t t' n prev i)
    ⟨hd, fun a _ b _ h => by omega, fun _ _ _ => rfl, fun k hk => by omega, fun k v _ => hfresh k v⟩ ?_
  intro i t' hi h
  have hsrc : prev + i < n := by omega
  obtain ⟨u, t'', hrun, hF, hP, hrec⟩ := dijkstraAlgoOptim_run hG.unit hG.fits hsrc
    (Nat.le_add_right _ _) h.dims
    ((mapped.drop (mapped.length - numNew)).contains (prev + i))
  have hidx : prev + i - prev = i := Nat.add_sub_cancel_left prev i
  refine ⟨t'', hrun, hrec.dims, ?_, ?_, ?_, ?_⟩
  · intro a ha b hb hab
    by_cases hnew : a = prev + i ∨ b = prev + i
    · exact hrec.entry hG hF hsrc ha hb hnew
    · rw [hrec.other a b (by omega) (by omega)]
      exact h.entry a ha b hb (by omega)
  · intro a b hab
    rw [hrec.other a b (by omega) (by omega)]
    exact h.other a b hab
  · intro k hk v hv hne
    by_cases hki : k = i
    · -- the row that was searched now, where nothing was before
      subst hki
      rw [hrec.row v hv] at hne ⊢
      obtain ⟨l, d, hl, hd, hroute⟩ := hF.path hP hG.unit hG.fits hsrc hv hne
      obtain ⟨l', hl', hp⟩ := hrec.path v hv hne
      obtain rfl : l = l' := Option.some.inj (hl.symm.trans hl')
      rw [hidx, h.fresh k v le_rfl, List.nil_append] at hp
      exact ⟨d, hd, by rw [hp]; exact hroute⟩
    · -- the column of a later source is written again, with the same distance
      have hsame : t''.distVector.val (prev + k) v = t'.distVector.val (prev + k) v := by
        by_cases hvs : v = prev + i
        · exact (hrec.entry hG hF hsrc (by omega) hv (Or.inr hvs)).unique
            (h.entry (prev + k) (by omega) v hv (Or.inl (by omega)))
        · exact hrec.other _ _ (by omega) (by omega)
      rw [hsame] at hne ⊢
      rw [hrec.otherPath k v (by omega)]
      exact h.path k (by omega) v hv hne
  · intro k v hk
    rw [hrec.otherPath k v (by omega)]
    exact h.fresh k v (by omega)

/-! ## Graphs that do not fit -/

theorem recordNode_cols {t t' : Tables} {u : Search} {flag : Bool} {i : ℕ}
    (h : recordNode n prev src u flag t i = some t') :
    i < t.distVector.cols ∧ t'.distVector.cols = t.distVector.cols := by
  unfold recordNode at h
  obtain ⟨d, -, h⟩ := Option.bind_eq_some_iff.1 h
  obtain ⟨D, hD, h⟩ := Option.bind_eq_some_iff.1 h
  obtain ⟨D', hD', h⟩ := Option.bind_eq_some_iff.1 h
  unfold Grid.set at hD hD'
  split_ifs at hD hD' with h1 h2
  cases hD
  cases hD'
  have hres : t'.distVector.cols = t.distVector.cols := by
    by_cases hd : d = intMax
    · rw [if_neg (not_not.2 hd)] at h
      cases h
      rfl
    · rw [if_pos hd] at h
      by_cases hprev : src < prev
      · rw [if_pos hprev] at h; cases h
      · rw [if_neg hprev] at h
        obtain ⟨path, -, h⟩ := Option.bind_eq_some_iff.1 h
        obtain ⟨old, -, h⟩ := Option.bind_eq_some_iff.1 h
        obtain ⟨P, -, h⟩ := Option.bind_eq_some_iff.1 h
        cases h
        rfl
  exact ⟨h1.2, hres⟩

/-- A search that returns has a column for every node. -/
theorem dijkstraAlgoOptim_bound {t t' : Tables} {flag : Bool} (hsrc : src < n)
    (hcols : t.distVector.cols = maxNodes) (h : dijkstraAlgoOptim n prev src adj flag t = some t') :
    n ≤ maxNodes := by
  unfold dijkstraAlgoOptim at h
  obtain ⟨s, -, h⟩ := Option.bind_eq_some_iff.1 h
  obtain ⟨u, -, h⟩ := Option.bind_eq_some_iff.1 h
  obtain ⟨x, y, hx, hy⟩ := forRange_pass h (show n - 1 < n by omega)
  have hkeep : x.distVector.cols = maxNodes :=
    forRange_inv (P := fun _ t => t.distVector.cols = maxNodes) hcols
      (fun i t t' _ ht hrec => (recordNode_cols hrec).2.trans ht) hx
  have := (recordNode_cols hy).1
  omega

theorem firstCall_bound {mapped : List ℕ} {D : Grid ℤ} {out : List Line} {r : Grid ℤ × List Line}
    (hmap : ∀ m ∈ mapped, m < n) (hne : mapped ≠ []) (hcols : D.cols = maxNodes)
    (h : computeShortestPathOptim n 0 mapped mapped.length adj D 0 out = some r) : n ≤ maxNodes := by
  unfold computeShortestPathOptim at h
  rw [if_neg (by omega)] at h
  simp only [if_true] at h
  obtain ⟨x, hx, -⟩ := Option.bind_eq_some_iff.1 h
  -- the search from the first node
  have hlen := List.length_pos_iff.2 hne
  obtain ⟨u, v, hu, hv⟩ := forRange_pass hx hlen
  cases hu
  rw [List.getElem?_eq_getElem hlen] at hv
  exact dijkstraAlgoOptim_bound (hmap _ (List.getElem_mem hlen)) hcols hv

theorem searchNew_bound {t t' : Tables} {mapped : List ℕ} {numNew : ℕ}
    (hcols : t.distVector.cols = maxNodes) (hlt : prev < n)
    (h : searchNew n prev mapped numNew adj t = some t') : n ≤ maxNodes := by
  obtain ⟨x, y, hx, hy⟩ := forRange_pass h (show 0 < n - prev by omega)
  cases hx
  exact dijkstraAlgoOptim_bound (by omega) hcols hy

end OsLab.Paths
