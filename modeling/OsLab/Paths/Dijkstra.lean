import OsLab.Paths.Model
import OsLab.Lib.Walk

/-!
# Dijkstra's loop

On an adjacency list with weight 1 on every edge, the loop ends, overflows nowhere and
leaves the distances. The order in which the heap gives the nodes does not matter: what
carries the proof is that a node whose edges may still be too long is in the heap
(`Settled`).

* `relax_spec`: the inner loop, one edge at a time.
* `search_spec`, `Found.dist`: the loop and what it leaves in `dist`.
-/

namespace OsLab.Paths

open Lib

variable {adj : AdjList} {n src u v : ℕ} {s t : Search}

/-- There is an edge from `u` to `v`. -/
def Edge (adj : AdjList) (u v : ℕ) : Prop := (v, 1) ∈ adj.val u

/-- An adjacency list over `n` nodes with weight 1 on every edge. -/
structure UnitGraph (adj : AdjList) (n : ℕ) : Prop where
  size : n ≤ adj.size
  unit : ∀ u < n, ∀ p ∈ adj.val u, p.1 < n ∧ p.2 = 1

theorem UnitGraph.edge_lt (hG : UnitGraph adj n) (hu : u < n) (h : Edge adj u v) : v < n :=
  (hG.unit u hu _ h).1

theorem UnitGraph.closed (hG : UnitGraph adj n) :
    ∀ x ∈ Finset.range n, ∀ y, Edge adj x y → y ∈ Finset.range n :=
  fun _ hx _ he => Finset.mem_range.2 (hG.edge_lt (Finset.mem_range.1 hx) he)

theorem UnitGraph.walk_lt (hG : UnitGraph adj n) (hu : u < n) {k : ℕ} (h : Walk (Edge adj) u v k) :
    v < n := Finset.mem_range.1 (h.mem (Finset.mem_range.2 hu) hG.closed)

/-- What holds of the search variables at every moment. -/
structure SearchInv (adj : AdjList) (n src : ℕ) (s : Search) : Prop where
  distSize : s.dist.size = n
  parentSize : s.parent.size = n
  source : s.dist.val src = 0
  sound : ∀ v < n, s.dist.val v = intMax ∨
    ∃ d : ℕ, s.dist.val v = d ∧ s.dist.val v < intMax ∧ Walk (Edge adj) src v d
  root : s.parent.val src = -1
  parent : ∀ v < n, v ≠ src → s.dist.val v < intMax →
    ∃ u < n, s.parent.val v = u ∧ s.dist.val u + 1 ≤ s.dist.val v
  queue : ∀ p ∈ s.pq, p.2 < n ∧ s.dist.val p.2 < intMax

/-- A reached node is in the heap, or none of its edges shortens anything, up to the edges
`es` of `u` that are still to be looked at. -/
def Settled (adj : AdjList) (n u : ℕ) (es : List (ℕ × ℤ)) (s : Search) : Prop :=
  ∀ x < n, s.dist.val x < intMax →
    (∃ k, (k, x) ∈ s.pq) ∨
      ∀ v, Edge adj x v → (x = u ∧ (v, 1) ∈ es) ∨ s.dist.val v ≤ s.dist.val x + 1

theorem SearchInv.nonneg (hI : SearchInv adj n src s) (hv : v < n) : 0 ≤ s.dist.val v := by
  rcases hI.sound v hv with h | ⟨d, h, -, -⟩
  · rw [h]; unfold intMax; omega
  · omega

/-- The state after `v` got the smaller distance over `u`. -/
def Search.shorten (s : Search) (u v : ℕ) : Search where
  dist := { s.dist with val := Function.update s.dist.val v (s.dist.val u + 1) }
  parent := { s.parent with val := Function.update s.parent.val v u }
  pq := s.pq.orderedInsert PairLe (s.dist.val u + 1, v)

theorem Search.shorten_dist_le (h : s.dist.val u + 1 < s.dist.val v) (x : ℕ) :
    (s.shorten u v).dist.val x ≤ s.dist.val x := by
  simp only [Search.shorten, Function.update_apply]
  split_ifs with hx
  · rw [hx]; exact h.le
  · exact le_rfl

theorem SearchInv.shorten (hI : SearchInv adj n src s) (hu : u < n) (hv : v < n)
    (he : Edge adj u v) (h : s.dist.val u + 1 < s.dist.val v) :
    SearchInv adj n src (s.shorten u v) := by
  have hvn := hI.sound v hv
  have hun := hI.nonneg hu
  have hule : s.dist.val v ≤ intMax := by rcases hvn with h | ⟨d, -, h, -⟩ <;> omega
  have hne : v ≠ src := by rintro rfl; rw [hI.source] at h; omega
  have hself : (s.shorten u v).dist.val v = s.dist.val u + 1 := Function.update_self _ _ _
  have hother : ∀ x, x ≠ v → (s.shorten u v).dist.val x = s.dist.val x :=
    fun x hx => Function.update_of_ne hx _ _
  refine ⟨hI.distSize, hI.parentSize, ?_, ?_, ?_, ?_, ?_⟩
  · rw [hother src (Ne.symm hne)]; exact hI.source
  · intro x hx
    by_cases hxv : x = v
    · -- the walk to `u`, and the edge
      subst hxv
      right
      rw [hself]
      rcases hI.sound u hu with hu' | ⟨d, hd, -, hw⟩
      · omega
      · exact ⟨d + 1, by push_cast; omega, by omega, hw.snoc he⟩
    · rw [hother x hxv]; exact hI.sound x hx
  · simp only [Search.shorten]
    rw [Function.update_of_ne (Ne.symm hne)]
    exact hI.root
  · intro x hx hxs hlt
    by_cases hxv : x = v
    · subst hxv
      refine ⟨u, hu, Function.update_self _ _ _, ?_⟩
      rw [hself, hother u (by rintro rfl; omega)]
    · rw [hother x hxv] at hlt ⊢
      obtain ⟨w, hw, hpar, hle⟩ := hI.parent x hx hxs hlt
      -- the distance of a parent may have gone down
      refine ⟨w, hw, ?_, ?_⟩
      · simp only [Search.shorten]; rw [Function.update_of_ne hxv]; exact hpar
      · have := Search.shorten_dist_le h w; omega
  · intro p hp
    rcases (List.mem_orderedInsert _).1 hp with rfl | hp
    · exact ⟨hv, by rw [hself]; omega⟩
    · obtain ⟨h1, h2⟩ := hI.queue p hp
      exact ⟨h1, (Search.shorten_dist_le h _).trans_lt h2⟩

theorem Settled.shorten {es : List (ℕ × ℤ)} (hS : Settled adj n u ((v, 1) :: es) s)
    (h : s.dist.val u + 1 < s.dist.val v) : Settled adj n u es (s.shorten u v) := by
  have hself : (s.shorten u v).dist.val v = s.dist.val u + 1 := Function.update_self _ _ _
  have hother : ∀ x, x ≠ v → (s.shorten u v).dist.val x = s.dist.val x :=
    fun x hx => Function.update_of_ne hx _ _
  intro x hx hlt
  by_cases hxv : x = v
  · -- the node with the new distance is in the heap
    exact Or.inl ⟨s.dist.val u + 1, (List.mem_orderedInsert _).2 (Or.inl (by rw [hxv]))⟩
  rw [hother x hxv] at hlt ⊢
  rcases hS x hx hlt with ⟨k, hk⟩ | hall
  · exact Or.inl ⟨k, (List.mem_orderedInsert _).2 (Or.inr hk)⟩
  · apply Or.inr
    intro w hw
    rcases hall w hw with ⟨rfl, hmem⟩ | hle
    · rcases List.mem_cons.1 hmem with heq | hmem
      · cases heq
        exact Or.inr hself.le
      · exact Or.inl ⟨rfl, hmem⟩
    · exact Or.inr ((Search.shorten_dist_le h w).trans hle)

/-- An edge that was still to be looked at shortens nothing, or still is to be looked at. -/
theorem Settled.mono {u' : ℕ} {es es' : List (ℕ × ℤ)} (hS : Settled adj n u es s)
    (h : ∀ w, (w, 1) ∈ es → (u = u' ∧ (w, 1) ∈ es') ∨ s.dist.val w ≤ s.dist.val u + 1) :
    Settled adj n u' es' s := by
  intro x hx hlt
  rcases hS x hx hlt with hk | hall
  · exact Or.inl hk
  · apply Or.inr
    intro w hw
    rcases hall w hw with ⟨rfl, hmem⟩ | hle
    · exact h w hmem
    · exact Or.inr hle

/-- An edge that shortens nothing is done. -/
theorem Settled.skip {es : List (ℕ × ℤ)} (hS : Settled adj n u ((v, 1) :: es) s)
    (h : s.dist.val v ≤ s.dist.val u + 1) : Settled adj n u es s := by
  refine hS.mono fun w hw => ?_
  rcases List.mem_cons.1 hw with heq | hmem
  · cases heq
    exact Or.inr h
  · exact Or.inl ⟨rfl, hmem⟩

/-- **The inner loop** looks at every edge of `u`. -/
theorem relax_spec {es : List (ℕ × ℤ)} (hes : ∀ p ∈ es, p.1 < n ∧ p.2 = 1 ∧ Edge adj u p.1)
    (hI : SearchInv adj n src s) (hu : u < n) (hlt : s.dist.val u < intMax)
    (hS : Settled adj n u es s) :
    ∃ t, relax u es s = some t ∧ SearchInv adj n src t ∧ Settled adj n u [] t := by
  induction es generalizing s with
  | nil => exact ⟨s, rfl, hI, hS⟩
  | cons e es ih =>
    obtain ⟨v, w⟩ := e
    obtain ⟨hv, hw, he⟩ := hes _ List.mem_cons_self
    simp only at hv hw he
    subst hw
    have hes' : ∀ p ∈ es, p.1 < n ∧ p.2 = 1 ∧ Edge adj u p.1 :=
      fun p hp => hes p (List.mem_cons_of_mem _ hp)
    have hun := hI.nonneg hu
    have hadd : addInt (s.dist.val u) 1 = some (s.dist.val u + 1) :=
      addInt_eq_some.2 ⟨⟨by unfold intMin; omega, by omega⟩, rfl⟩
    simp only [relax, Vec.at_eq (hI.distSize.symm ▸ hv : v < s.dist.size),
      Vec.at_eq (hI.distSize.symm ▸ hu : u < s.dist.size), hadd, Option.bind_eq_bind,
      Option.bind_some]
    split_ifs with hd
    · -- `v` gets the distance over `u`, and goes to the heap
      rw [Vec.set_eq (hI.distSize.symm ▸ hv), Option.bind_some,
        Vec.set_eq (hI.parentSize.symm ▸ hv), Option.bind_some]
      refine ih hes' (hI.shorten hu hv he hd) ?_ (hS.shorten hd)
      exact (Search.shorten_dist_le hd u).trans_lt hlt
    · exact ih hes' hI hlt (hS.skip (not_lt.1 hd))

theorem Settled.done (hS : Settled adj n u [] s) (u' : ℕ) : Settled adj n u' [] s :=
  hS.mono fun _ hw => absurd hw List.not_mem_nil

/-- Taking the top of the heap: the edges of `u` are all still to be looked at. -/
theorem Settled.pop {k : ℤ} {pq : List (ℤ × ℕ)} (hpq : s.pq = (k, u) :: pq)
    (hS : Settled adj n u [] s) : Settled adj n u (adj.val u) { s with pq := pq } := by
  intro x hx hlt
  rcases hS x hx hlt with ⟨k', hk'⟩ | hall
  · rw [hpq] at hk'
    rcases List.mem_cons.1 hk' with heq | hmem
    · cases heq
      exact Or.inr fun w hw => Or.inl ⟨rfl, hw⟩
    · exact Or.inl ⟨k', hmem⟩
  · apply Or.inr
    intro w hw
    exact Or.inr ((hall w hw).resolve_left fun h => absurd h.2 List.not_mem_nil)

/-- One turn of the loop. -/
theorem turn_spec {k : ℤ} {pq : List (ℤ × ℕ)} (hG : UnitGraph adj n) (hI : SearchInv adj n src s)
    (hS : Settled adj n u [] s) (hpq : s.pq = (k, u) :: pq) :
    ∃ t, ((adj.at u).bind fun row => relax u row { s with pq := pq }) = some t ∧
      SearchInv adj n src t ∧ Settled adj n u [] t := by
  obtain ⟨hu, hlt⟩ := hI.queue (k, u) (by rw [hpq]; exact List.mem_cons_self)
  have hI' : SearchInv adj n src { s with pq := pq } :=
    ⟨hI.distSize, hI.parentSize, hI.source, hI.sound, hI.root, hI.parent,
      fun p hp => hI.queue p (by rw [hpq]; exact List.mem_cons_of_mem _ hp)⟩
  have hrow : ∀ p ∈ adj.val u, p.1 < n ∧ p.2 = 1 ∧ Edge adj u p.1 := by
    intro p hp
    obtain ⟨v, w⟩ := p
    obtain ⟨hv, hw⟩ := hG.unit u hu _ hp
    simp only at hw
    subst hw
    exact ⟨hv, rfl, hp⟩
  rw [Vec.at_eq (lt_of_lt_of_le hu hG.size), Option.bind_some]
  exact relax_spec hrow hI' hu hlt (hS.pop hpq)

/-- **The loop** ends with an empty heap. -/
theorem search_spec (hG : UnitGraph adj n) (hI : SearchInv adj n src s)
    (hS : Settled adj n src [] s) :
    ∃ t, search adj s = some t ∧ SearchInv adj n src t ∧ t.pq = [] ∧ Settled adj n src [] t := by
  fun_induction search adj s with
  | case1 s hpq => exact ⟨s, rfl, hI, hpq, hS⟩
  | case2 s k u pq hpq hnone =>
    -- the inner loop is defined
    obtain ⟨t, ht, -⟩ := turn_spec hG hI (hS.done u) hpq
    rw [hnone] at ht; cases ht
  | case3 s k u pq hpq t hrow ih =>
    obtain ⟨t', ht, hI', hS'⟩ := turn_spec hG hI (hS.done u) hpq
    rw [hrow] at ht
    cases ht
    exact ih hI' (hS'.done src)

theorem searchInit_spec (adj : AdjList) (hsrc : src < n) : ∃ s, Search.init n src = some s ∧
    SearchInv adj n src s ∧ Settled adj n src [] s := by
  have hset : (Vec.replicate n intMax).set src 0 =
      some ⟨n, Function.update (fun _ => intMax) src 0⟩ := Vec.set_eq hsrc 0
  refine ⟨⟨⟨n, Function.update (fun _ => intMax) src 0⟩, Vec.replicate n (-1), [(0, src)]⟩,
    by rw [Search.init, hset]; rfl, ⟨rfl, rfl, ?_, ?_, rfl, ?_, ?_⟩, ?_⟩
  · simp
  · intro v _
    by_cases hv : v = src
    · subst hv
      exact Or.inr ⟨0, by simp, by simp [intMax], Walk.nil v⟩
    · exact Or.inl (by simp [hv])
  · intro v _ hv hlt
    simp [hv] at hlt
  · intro p hp
    obtain rfl := List.mem_singleton.1 hp
    exact ⟨hsrc, by simp [intMax]⟩
  · intro x _ hlt
    by_cases hx : x = src
    · exact Or.inl ⟨0, by simp [hx]⟩
    · simp [hx] at hlt

/-! ## What the loop leaves -/

/-- The state at the end of a search. -/
structure Found (adj : AdjList) (n src : ℕ) (t : Search) : Prop where
  inv : SearchInv adj n src t
  empty : t.pq = []
  settled : Settled adj n src [] t

theorem Found.edge (h : Found adj n src t) (hu : u < n) (hlt : t.dist.val u < intMax)
    (he : Edge adj u v) : t.dist.val v ≤ t.dist.val u + 1 := by
  rcases h.settled u hu hlt with ⟨k, hk⟩ | hall
  · rw [h.empty] at hk; cases hk
  · exact (hall v he).resolve_left fun h => absurd h.2 List.not_mem_nil

theorem Found.le_walk (h : Found adj n src t) (hG : UnitGraph adj n) (hsrc : src < n) {k : ℕ}
    (hw : Walk (Edge adj) src v k) (hk : (k : ℤ) < intMax) : t.dist.val v ≤ k := by
  induction hw with
  | nil => rw [h.inv.source]; rfl
  | @snoc b c m hb he ih =>
    have hle := ih (by push_cast at hk; omega)
    have := h.edge (hG.walk_lt hsrc hb) (by push_cast at hk; omega) he
    push_cast at hk ⊢
    omega

/-- **The distances.** A reached node has its distance, any other node has `INT_MAX`. -/
theorem Found.dist (h : Found adj n src t) (hG : UnitGraph adj n) (hsrc : src < n)
    (hn : (n : ℤ) ≤ intMax) (hv : v < n) :
    (t.dist.val v = intMax ∧ ∀ k, ¬ Walk (Edge adj) src v k) ∨
      ∃ d : ℕ, d < n ∧ t.dist.val v = d ∧ Dist (Edge adj) src v d := by
  by_cases hw : ∃ k, Walk (Edge adj) src v k
  · right
    obtain ⟨k, hk⟩ := hw
    -- the distance is small enough for `Found.le_walk`
    obtain ⟨d, hd⟩ := exists_dist hk
    have hlt : d < n := by
      have := hd.lt (Finset.mem_range.2 hsrc) hG.closed
      rwa [Finset.card_range] at this
    have hle := h.le_walk hG hsrc hd.walk (by omega)
    rcases h.inv.sound v hv with hm | ⟨d', hd', -, hw'⟩
    · omega
    · have := hd.le _ hw'
      exact ⟨d, hlt, by omega, hd⟩
  · left
    refine ⟨?_, ?_⟩
    swap
    · intro k hk
      exact hw ⟨k, hk⟩
    rcases h.inv.sound v hv with hm | ⟨d', -, -, hw'⟩
    · exact hm
    · exact absurd ⟨d', hw'⟩ hw

end OsLab.Paths
