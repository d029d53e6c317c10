import OsLab.Paths.Record

/-!
# The optimised update

The call with `flag` 1 searches from every new node and then shortens the distances between old
nodes over the new ones. Where the new nodes are in reach, this makes an entry exact that was exact
before the graph grew (`Via.entry`), but the entry of a mapped node and its own position is not
looked at (`updateRow_run`).

* `viaLoop_run`, `updateEntry_run`, `updateRow_run`, `relaxOld_run`: the loops of the update.
* `firstCall_spec`: the call with `flag` 0 on a connected graph.
* `laterCall_spec`: the call with `flag` 1 on a connected graph, entry by entry.
-/

namespace OsLab.Paths

open Lib

variable {adj adj₀ : AdjList} {n prev m : ℕ}

/-- The graph `adj₀` over the nodes below `prev` has grown to `adj` over `n` nodes: every new edge
touches a new node. -/
structure Stages (adj₀ adj : AdjList) (prev n : ℕ) : Prop where
  new : Undirected adj n
  le : prev ≤ n
  sub : ∀ u v, Edge adj₀ u v → Edge adj u v
  ext : ∀ u v, u < prev → v < prev → Edge adj u v → Edge adj₀ u v

/-- A graph that has not grown. -/
theorem Undirected.stages (h : Undirected adj n) (hle : prev ≤ n) : Stages adj adj prev n :=
  ⟨h, hle, fun _ _ he => he, fun _ _ _ _ he => he⟩

/-- There is a walk. -/
def Joined (adj : AdjList) (a b : ℕ) : Prop := ∃ k, Walk (Edge adj) a b k

/-- The entries and the paths of the new nodes are right. -/
structure NewReady (adj : AdjList) (t : Tables) (n prev : ℕ) : Prop where
  entry : ∀ a < n, ∀ b < n, prev ≤ a ∨ prev ≤ b → Entry adj a b (t.distVector.val a b)
  path : ∀ k < n - prev, ∀ v < n, t.distVector.val (prev + k) v ≠ intMax → ∃ d : ℕ,
    t.distVector.val (prev + k) v = d ∧ Route (Edge adj) (prev + k) v d (t.pathVector.val k v)

theorem NewSearched.ready {t t' : Tables} (h : NewSearched adj t t' n prev (n - prev)) :
    NewReady adj t' n prev :=
  ⟨fun a ha b hb hab => h.entry a ha b hb (by omega), h.path⟩

/-! ## Shortening over the new nodes -/

/-- `D'` is `D` after the entry of `m` and `j` was shortened over the first `k` new nodes, last over
`idx`. -/
structure Via (D D' : Grid ℤ) (prev m j k : ℕ) (idx : Option ℕ) : Prop where
  rows : D'.rows = D.rows
  cols : D'.cols = D.cols
  other : ∀ a b, ¬ (a = m ∧ b = j) → D'.val a b = D.val a b
  le : D'.val m j ≤ D.val m j
  via : ∀ k' < k, D'.val m j ≤ D.val m (prev + k') + D.val (prev + k') j
  none : idx = none → D'.val m j = D.val m j
  idx : ∀ x, idx = some x → x < k ∧ D'.val m j = D.val m (prev + x) + D.val (prev + x) j

variable {D D' : Grid ℤ} {j k : ℕ} {idx : Option ℕ}

theorem viaNew_spec (hrows : D.rows = maxNodes) (hcols : D.cols = maxNodes) (hm : m < prev)
    (hj : j < prev) (hk : prev + k < n) (hn : n ≤ maxNodes)
    (h1 : 0 ≤ D.val m (prev + k) ∧ D.val m (prev + k) < n)
    (h2 : 0 ≤ D.val (prev + k) j ∧ D.val (prev + k) j < n) (h : Via D D' prev m j k idx) :
    ∃ r, viaNew prev m j (D', idx) k = some r ∧ Via D r.1 prev m j (k + 1) r.2 := by
  have hmax : (n : ℤ) ≤ 6000 := by unfold maxNodes at hn; omega
  have hR : D'.rows = maxNodes := h.rows.trans hrows
  have hC : D'.cols = maxNodes := h.cols.trans hcols
  have ha := Grid.at_eq (g := D') (i := m) (j := j) (by omega) (by omega)
  -- the entries of the new nodes are not written to
  have hb := Grid.at_eq (g := D') (i := m) (j := prev + k) (by omega) (by omega)
  have hc := Grid.at_eq (g := D') (i := prev + k) (j := j) (by omega) (by omega)
  rw [h.other m (prev + k) (by omega)] at hb
  rw [h.other (prev + k) j (by omega)] at hc
  have hsum : addInt (D.val m (prev + k)) (D.val (prev + k) j) =
      some (D.val m (prev + k) + D.val (prev + k) j) :=
    addInt_eq_some.2 ⟨by unfold intMin intMax; omega, rfl⟩
  have hset := Grid.set_eq (g := D') (i := m) (j := j) (by omega) (by omega)
    (D.val m (prev + k) + D.val (prev + k) j)
  unfold viaNew
  simp only [Option.bind_eq_bind, ha, hb, hc, Option.bind_some, hsum]
  split_ifs with hlt
  · rw [hset]
    refine ⟨_, rfl, ⟨h.rows, h.cols, ?_, ?_, ?_, nofun, ?_⟩⟩
    · intro a b hab
      rw [Grid.put_other _ _ hab]
      exact h.other a b hab
    · rw [Grid.put_self]; exact hlt.le.trans h.le
    · intro k' hk'
      rw [Grid.put_self]
      by_cases hkk : k' = k
      · rw [hkk]
      · exact hlt.le.trans (h.via k' (by omega))
    · rintro x ⟨⟩; exact ⟨Nat.lt_succ_self k, Grid.put_self _ _ _ _⟩
  · refine ⟨_, rfl, ⟨h.rows, h.cols, h.other, h.le, ?_, h.none, ?_⟩⟩
    · intro k' hk'
      by_cases hkk : k' = k
      · rw [hkk]; exact not_lt.1 hlt
      · exact h.via k' (by omega)
    · intro x hx
      obtain ⟨hxk, he⟩ := h.idx x hx
      exact ⟨by omega, he⟩

/-- A shortened entry is right in the grown graph, if all new nodes are in reach. -/
theorem Via.entry (hs : Stages adj₀ adj prev n) (hm : m < prev)
    (h1 : ∀ k < n - prev, DistVal adj m (prev + k) (D.val m (prev + k)))
    (h2 : ∀ k < n - prev, DistVal adj (prev + k) j (D.val (prev + k) j))
    (hold : Entry adj₀ m j (D.val m j)) (h : Via D D' prev m j (n - prev) idx) :
    Entry adj m j (D'.val m j) := by
  have hle := hs.le
  have hmax := le_intMax hs.new.fits
  -- no walk is shorter than the entry
  have hlow : ∀ y : ℕ, y < n → Walk (Edge adj) m j y → D'.val m j ≤ y := by
    intro y hy hw
    rcases walk_split hs.ext hw with
      hw₀ | ⟨x, a, b, hx, hwa, hwb, rfl⟩
    · obtain ⟨d, hd, hdist⟩ := hold.distVal hw₀
      have := h.le
      have := hdist.le y hw₀
      omega
    · have hxn := hs.new.unit.walk_lt (by omega) hwa
      have hvia := h.via (x - prev) (by omega)
      obtain ⟨d₁, hd₁, hdist₁⟩ := h1 (x - prev) (by omega)
      obtain ⟨d₂, hd₂, hdist₂⟩ := h2 (x - prev) (by omega)
      rw [show prev + (x - prev) = x by omega] at hvia hd₁ hd₂ hdist₁ hdist₂
      have := hdist₁.le a hwa
      have := hdist₂.le b hwb
      omega
  -- the entry is the old one, or the length of a walk
  have hlen : (D'.val m j = intMax ∧ ∀ y, ¬ Walk (Edge adj₀) m j y) ∨
      ∃ x : ℕ, D'.val m j = x ∧ Walk (Edge adj) m j x := by
    cases hidx : idx with
    | none =>
      rw [h.none hidx]
      rcases hold with hno | ⟨d, hd, hdist⟩
      · exact Or.inl hno
      · exact Or.inr ⟨d, hd, hdist.walk.mono hs.sub⟩
    | some x =>
      obtain ⟨hx, he⟩ := h.idx x hidx
      obtain ⟨d₁, hd₁, hdist₁⟩ := h1 x hx
      obtain ⟨d₂, hd₂, hdist₂⟩ := h2 x hx
      exact Or.inr ⟨d₁ + d₂, by push_cast; omega, hdist₁.walk.append hdist₂.walk⟩
  by_cases hw : ∃ y, Walk (Edge adj) m j y
  · obtain ⟨y, hy⟩ := hw
    obtain ⟨d, hd⟩ := exists_dist hy
    have hdn := (hs.new.unit.distVal_lt (by omega) ⟨d, rfl, hd⟩).2
    have hd' := hlow d (by omega) hd.walk
    rcases hlen with ⟨hx, -⟩ | ⟨x, hx, hwx⟩
    · omega
    · have := hd.le x hwx
      exact Or.inr ⟨d, by omega, hd⟩
  · rcases hlen with ⟨hx, -⟩ | ⟨x, -, hwx⟩
    · exact Or.inl ⟨hx, fun y hy => hw ⟨y, hy⟩⟩
    · exact absurd ⟨x, hwx⟩ hw

/-- **The innermost loop**, where all new nodes are in reach. -/
theorem viaLoop_run (hn : n ≤ maxNodes) (hrows : D.rows = maxNodes) (hcols : D.cols = maxNodes)
    (hm : m < prev) (hj : j < prev)
    (h1 : ∀ k < n - prev, 0 ≤ D.val m (prev + k) ∧ D.val m (prev + k) < n)
    (h2 : ∀ k < n - prev, 0 ≤ D.val (prev + k) j ∧ D.val (prev + k) j < n) :
    ∃ r, forRange (n - prev) (viaNew prev m j) (D, none) = some r ∧
      Via D r.1 prev m j (n - prev) r.2 :=
  forRange_spec (f := viaNew prev m j) (s := (D, none)) (P := fun k r => Via D r.1 prev m j k r.2)
    ⟨rfl, rfl, fun _ _ _ => rfl, le_rfl, fun _ h => absurd h (Nat.not_lt_zero _), fun _ => rfl,
      nofun⟩ (by
      rintro k ⟨E, idx⟩ hk hV
      exact viaNew_spec hrows hcols hm hj (by omega) hn (h1 k hk) (h2 k hk) hV)

/-! ## Entries, rows and the whole update -/

/-- The printed path is a walk with as many edges as the printed distance. -/
def RealLine (adj : AdjList) (l : Line) : Prop :=
  ∃ d : ℕ, l.dist = some (d : ℤ) ∧ Route (Edge adj) l.source l.node d l.path

/-- `t'` is `t` after the first `j` entries of the row of `m`, the node at position `i`. -/
structure RowUpdated (adj₀ adj : AdjList) (t t' : Tables) (n prev i m j : ℕ) : Prop where
  dims : Dims t' n prev
  ready : NewReady adj t' n prev
  other : ∀ a b, ¬ (a = m ∧ b < j ∧ b ≠ i) → t'.distVector.val a b = t.distVector.val a b
  exact : ∀ b < j, b ≠ i →
    Entry adj₀ m b (t.distVector.val m b) ∨ Entry adj m b (t.distVector.val m b) →
      Entry adj m b (t'.distVector.val m b)
  lines : ∃ lines, t'.out = t.out ++ lines ∧
    ∀ l ∈ lines, l.source = m ∧ l.node < prev ∧ RealLine adj l

/-- All new nodes are in reach of `m` and of `j`. -/
def InReach (adj : AdjList) (n prev m j : ℕ) : Prop :=
  ∀ v, prev ≤ v → v < n → Joined adj m v ∧ Joined adj v j

theorem NewReady.distVal {t : Tables} (h : NewReady adj t n prev) (hle : prev ≤ n) (hm : m < prev)
    (hj : j < prev) (hin : InReach adj n prev m j) (k : ℕ) (hk : k < n - prev) :
    DistVal adj m (prev + k) (t.distVector.val m (prev + k)) ∧
      DistVal adj (prev + k) j (t.distVector.val (prev + k) j) := by
  obtain ⟨⟨x, hx⟩, ⟨y, hy⟩⟩ := hin (prev + k) (by omega) (by omega)
  exact ⟨(h.entry m (by omega) (prev + k) (by omega) (Or.inr (by omega))).distVal hx,
    (h.entry (prev + k) (by omega) j (by omega) (Or.inl (by omega))).distVal hy⟩

/-- **The spliced path** over a new node: backwards to `m`, and on to `j`. -/
theorem NewReady.spliced {t : Tables} (h : NewReady adj t n prev) (hG : Undirected adj n)
    (hm : m < prev) (hj : j < prev) (hle : prev ≤ n) (hin : InReach adj n prev m j)
    (hk : k < n - prev) :
    RealLine adj ⟨m, j, some (t.distVector.val m (prev + k) + t.distVector.val (prev + k) j),
      (t.pathVector.val k m).reverse ++ (t.pathVector.val k j).tail⟩ := by
  obtain ⟨h1, h2⟩ := h.distVal hle hm hj hin k hk
  have hmax := le_intMax hG.fits
  have hlt₁ := (hG.unit.distVal_lt (by omega) h1).2
  have hlt₂ := (hG.unit.distVal_lt (by omega) h2).2
  -- the row of the new node and its column have the same distance
  have hcol := h1.unique ((h.entry (prev + k) (by omega) m (by omega) (Or.inl (by omega))).symm hG.symm
    |>.distVal (h1.choose_spec.2.walk))
  obtain ⟨d₁, hd₁, hr₁⟩ := h.path k hk m (by omega) (by omega)
  obtain ⟨d₂, hd₂, hr₂⟩ := h.path k hk j (by omega) (by omega)
  have hsum : t.distVector.val m (prev + k) + t.distVector.val (prev + k) j = (d₁ + d₂ : ℕ) := by
    rw [hcol, hd₁, hd₂, Int.natCast_add]
  exact ⟨d₁ + d₂, congrArg some hsum, (hr₁.reverse hG.symm).append hr₂⟩

theorem updateEntry_run {t t' : Tables} {i : ℕ} (hs : Stages adj₀ adj prev n) (hm : m < prev)
    (hj : j < prev) (hin : j ≠ i → InReach adj n prev m j)
    (h : RowUpdated adj₀ adj t t' n prev i m j) :
    ∃ t'', updateEntry n prev i m t' j = some t'' ∧
      RowUpdated adj₀ adj t t'' n prev i m (j + 1) := by
  have hle := hs.le
  have hn := hs.new.fits
  have hd := h.dims
  unfold updateEntry
  split_ifs with hij
  · have hdist := h.ready.distVal hle hm hj (hin (Ne.symm hij))
    obtain ⟨⟨D', idx⟩, hrun, hV⟩ := viaLoop_run hn hd.rows hd.cols hm hj
      (fun k hk => hs.new.unit.distVal_lt (by omega) (hdist k hk).1)
      (fun k hk => hs.new.unit.distVal_lt (by omega) (hdist k hk).2)
    simp only [Option.bind_eq_bind, hrun, Option.bind_some]
    -- the tables, whatever is printed
    have hres : ∀ out lines, out = t'.out ++ lines →
        (∀ l ∈ lines, l.source = m ∧ l.node < prev ∧ RealLine adj l) →
        RowUpdated adj₀ adj t ⟨D', t'.pathVector, out⟩ n prev i m (j + 1) := by
      intro out lines hout hreal
      refine ⟨⟨hV.rows.trans hd.rows, hV.cols.trans hd.cols, hd.pathRows, hd.pathCols⟩, ⟨?_, ?_⟩, ?_,
        ?_, ?_⟩
      · intro a ha b hb hab
        rw [hV.other a b (by omega)]
        exact h.ready.entry a ha b hb hab
      · intro k hk v hv
        rw [hV.other (prev + k) v (by omega)]
        exact h.ready.path k hk v hv
      · intro a b hab
        rw [hV.other a b (by omega)]
        exact h.other a b (by omega)
      · intro b hb hbi hold
        by_cases hbj : b = j
        · subst hbj
          rw [← h.other m b (by omega)] at hold
          rcases hold with hold | hold
          · exact hV.entry hs hm (fun k hk => (hdist k hk).1) (fun k hk => (hdist k hk).2) hold
          · exact hV.entry (hs.new.stages hle) hm (fun k hk => (hdist k hk).1)
              (fun k hk => (hdist k hk).2) hold
        · rw [hV.other m b (fun h => hbj h.2)]
          exact h.exact b (by omega) hbi hold
      · obtain ⟨before, hbefore, hall⟩ := h.lines
        refine ⟨before ++ lines, by rw [hout, hbefore, List.append_assoc], fun l hl => ?_⟩
        rcases List.mem_append.1 hl with hl | hl
        · exact hall l hl
        · exact hreal l hl
    cases idx with
    | none => exact ⟨_, rfl, hres _ [] (List.append_nil _).symm fun l hl => by cases hl⟩
    | some k =>
      -- the new path is printed
      obtain ⟨hk, hval⟩ := hV.idx k rfl
      have hR : D'.rows = maxNodes := hV.rows.trans hd.rows
      have hC : D'.cols = maxNodes := hV.cols.trans hd.cols
      have h1 := Grid.at_eq (g := D') (i := m) (j := j) (by omega) (by omega)
      have h2 := Grid.at_eq (g := t'.pathVector) (i := k) (j := m) (by rw [hd.pathRows]; exact hk)
        (by rw [hd.pathCols]; omega)
      have h3 := Grid.at_eq (g := t'.pathVector) (i := k) (j := j) (by rw [hd.pathRows]; exact hk)
        (by rw [hd.pathCols]; omega)
      simp only [h1, h2, h3, Option.bind_some]
      refine ⟨_, rfl, hres _ _ rfl fun l hl => ?_⟩
      rw [List.mem_singleton] at hl
      subst hl
      refine ⟨rfl, hj, ?_⟩
      rw [hval]
      exact h.ready.spliced hs.new hm hj hle (hin (Ne.symm hij)) hk
  · -- the entry of the position is passed over
    obtain rfl : i = j := not_not.1 hij
    refine ⟨t', rfl, hd, h.ready, fun a b hab => h.other a b (by omega), ?_, h.lines⟩
    intro b hb hbi
    exact h.exact b (by omega) hbi

/-- **One row.** All entries of the row of `m` that were exact become exact again, except for
the entry of the position of `m`. -/
theorem updateRow_run {t : Tables} {mapped : List ℕ} {i : ℕ} (hs : Stages adj₀ adj prev n)
    (hN : NewReady adj t n prev) (hd : Dims t n prev) (hi : mapped[i]? = some m) (hm : m < prev)
    (hin : ∀ j < prev, j ≠ i → InReach adj n prev m j) :
    ∃ t', updateRow n prev mapped t i = some t' ∧ RowUpdated adj₀ adj t t' n prev i m prev := by
  obtain ⟨t', ht', hU⟩ := forRange_spec (n := prev) (f := updateEntry n prev i m) (s := t)
    (P := fun j t' => RowUpdated adj₀ adj t t' n prev i m j)
    ⟨hd, hN, fun _ _ _ => rfl, fun _ h => absurd h (Nat.not_lt_zero _),
      ⟨[], (List.append_nil _).symm, fun l hl => by cases hl⟩⟩
    fun j t' hj h => updateEntry_run hs hm hj (hin j hj) h
  refine ⟨t', ?_, hU⟩
  unfold updateRow
  simp only [Option.bind_eq_bind, hi, Option.bind_some, ht']

/-- `t'` is `t` after the rows of the first `k` mapped nodes were updated. -/
structure RowsUpdated (adj₀ adj : AdjList) (t t' : Tables) (n prev k : ℕ) (mapped : List ℕ) :
    Prop where
  dims : Dims t' n prev
  ready : NewReady adj t' n prev
  other : ∀ a b, (∀ i < k, mapped[i]? = some a → b < prev → b = i) →
    t'.distVector.val a b = t.distVector.val a b
  exact : ∀ i < k, ∀ m, mapped[i]? = some m → ∀ j < prev, j ≠ i →
    Entry adj₀ m j (t.distVector.val m j) → Entry adj m j (t'.distVector.val m j)
  lines : ∃ lines, t'.out = t.out ++ lines ∧
    ∀ l ∈ lines, l.source ∈ mapped ∧ l.node < prev ∧ RealLine adj l

theorem relaxOld_run {t : Tables} {mapped : List ℕ} (news : List ℕ) (hs : Stages adj₀ adj prev n)
    (hmap : ∀ m ∈ mapped, m < prev) (hN : NewReady adj t n prev) (hd : Dims t n prev)
    (hin : ∀ i m, mapped[i]? = some m → ∀ j < prev, j ≠ i → InReach adj n prev m j) :
    ∃ t', relaxOld n prev (mapped ++ news) news.length t = some t' ∧
      RowsUpdated adj₀ adj t t' n prev mapped.length mapped := by
  have hlen : (mapped ++ news).length - news.length = mapped.length := by
    rw [List.length_append]; omega
  unfold relaxOld
  rw [hlen]
  refine forRange_spec (P := fun k t' => RowsUpdated adj₀ adj t t' n prev k mapped)
    ⟨hd, hN, fun _ _ _ => rfl, fun _ h => absurd h (Nat.not_lt_zero _),
      ⟨[], (List.append_nil _).symm, fun l hl => by cases hl⟩⟩ ?_
  intro i t' hi h
  have hmi : mapped[i]? = some mapped[i] := List.getElem?_eq_getElem hi
  have hmem := List.getElem_mem hi
  have hmp := hmap _ hmem
  have hall : (mapped ++ news)[i]? = some mapped[i] := by rw [List.getElem?_append_left hi, hmi]
  obtain ⟨t'', ht'', hU⟩ := updateRow_run hs h.ready h.dims hall hmp (hin i _ hmi)
  refine ⟨t'', ht'', hU.dims, hU.ready, ?_, ?_, ?_⟩
  · intro a b hab
    have hrow : ¬ (a = mapped[i] ∧ b < prev ∧ b ≠ i) := by
      rintro ⟨rfl, hb, hne⟩
      exact hne (hab i (Nat.lt_succ_self i) hmi hb)
    rw [hU.other a b hrow]
    exact h.other a b fun i' hi' => hab i' (by omega)
  · intro i' hi' m hm j hj hji hold
    by_cases hnow : m = mapped[i] ∧ j ≠ i
    · obtain ⟨rfl, hne⟩ := hnow
      refine hU.exact j hj hne ?_
      -- the same node may be at an earlier position, too
      by_cases hbefore : ∃ x < i, mapped[x]? = some mapped[i] ∧ j ≠ x
      · obtain ⟨x, hx, hmx, hjx⟩ := hbefore
        exact Or.inr (h.exact x hx _ hmx j hj hjx hold)
      · push Not at hbefore
        rw [h.other _ j fun x hx hmx _ => hbefore x hx hmx]
        exact Or.inl hold
    · rw [hU.other m j fun hmj => hnow ⟨hmj.1, hmj.2.2⟩]
      refine h.exact i' ?_ m hm j hj hji hold
      -- position `i` itself would be the row that is written now
      rcases Nat.lt_succ_iff_lt_or_eq.1 hi' with hlt | rfl
      · exact hlt
      · rw [hmi, Option.some_inj] at hm
        exact absurd ⟨hm.symm, hji⟩ hnow
  · obtain ⟨before, hbefore, hreal⟩ := h.lines
    obtain ⟨lines, hlines, hreal'⟩ := hU.lines
    refine ⟨before ++ lines, by rw [hlines, hbefore, List.append_assoc], fun l hl => ?_⟩
    rcases List.mem_append.1 hl with hl | hl
    · exact hreal l hl
    · obtain ⟨hsrc, hrest⟩ := hreal' l hl
      exact ⟨hsrc ▸ hmem, hrest⟩

/-- Without new nodes the update changes nothing. -/
theorem relaxOld_none {mapped news : List ℕ} (t : Tables) :
    relaxOld n n (mapped ++ news) news.length t = some t := by
  have hentry : ∀ i m j, updateEntry n n i m t j = some t := by
    intro i m j
    unfold updateEntry
    split_ifs with hij
    · rw [Nat.sub_self]
      rfl
    · rfl
  have hlen : (mapped ++ news).length - news.length = mapped.length := by
    rw [List.length_append]; omega
  obtain ⟨t', ht', rfl⟩ := forRange_spec (n := mapped.length)
    (f := updateRow n n (mapped ++ news)) (s := t) (P := fun _ t' => t' = t) rfl (by
      intro i t' hi ht'
      obtain ⟨u, hu, rfl⟩ := forRange_spec (n := n) (f := updateEntry n n i mapped[i]) (s := t)
        (P := fun _ u => u = t) rfl fun j _ _ hu => ⟨t, by rw [hu]; exact hentry i _ j, rfl⟩
      refine ⟨u, ?_, rfl⟩
      unfold updateRow
      rw [ht', List.getElem?_append_left hi, List.getElem?_eq_getElem hi]
      exact hu)
  unfold relaxOld
  rw [hlen]
  exact ht'

/-- **A later call** whose new nodes are in reach of the entries it looks at. -/
theorem laterCall_run {mapped : List ℕ} (news : List ℕ) (out : List Line) (hs : Stages adj₀ adj prev n)
    (hmap : ∀ m ∈ mapped, m < prev) (hrows : D.rows = maxNodes) (hcols : D.cols = maxNodes)
    (hin : ∀ i m, mapped[i]? = some m → ∀ j < prev, j ≠ i → InReach adj n prev m j) :
    ∃ t₁ t₂, searchNew n prev (mapped ++ news) news.length adj
        ⟨D, Grid.replicate (n - prev) n [], out⟩ = some t₁ ∧
      relaxOld n prev (mapped ++ news) news.length t₁ = some t₂ ∧
      computeShortestPathOptim n prev (mapped ++ news) news.length adj D 1 out =
        some (t₂.distVector, t₂.out) ∧
      NewSearched adj ⟨D, Grid.replicate (n - prev) n [], out⟩ t₁ n prev (n - prev) ∧
      RowsUpdated adj₀ adj t₁ t₂ n prev mapped.length mapped := by
  obtain ⟨t₁, ht₁, hS⟩ := searchNew_spec (t := ⟨D, Grid.replicate (n - prev) n [], out⟩)
    (mapped ++ news) news.length hs.new hs.le ⟨hrows, hcols, rfl, rfl⟩ fun _ _ => rfl
  obtain ⟨t₂, ht₂, hU⟩ := relaxOld_run news hs hmap hS.ready hS.dims hin
  refine ⟨t₁, t₂, ht₁, ht₂, ?_, hS, hU⟩
  rw [computeShortestPathOptim_one D out hs.le (by rw [List.length_append]; omega), ht₁,
    Option.bind_some, ht₂, Option.map_some]

/-! ## Connected graphs -/

/-- A connected undirected graph over `n` nodes that fits in the tables. -/
structure Graph (adj : AdjList) (n : ℕ) : Prop where
  unit : UnitGraph adj n
  symm : ∀ u v, Edge adj u v → Edge adj v u
  conn : ∀ u < n, ∀ v < n, ∃ k, Walk (Edge adj) u v k
  fits : n ≤ maxNodes

theorem Graph.undirected (hG : Graph adj n) : Undirected adj n := ⟨hG.unit, hG.symm, hG.fits⟩

/-- All entries of a connected graph are distances. -/
theorem Graph.distVal (hG : Graph adj n) {a b : ℕ} {z : ℤ} (ha : a < n) (hb : b < n)
    (h : Entry adj a b z) : DistVal adj a b z := by
  obtain ⟨k, hk⟩ := hG.conn a ha b hb
  exact h.distVal hk

/-- The graph `adj₀` over `prev` nodes has grown to `adj` over `n` nodes: every new edge
touches a new node. -/
structure Grown (adj₀ adj : AdjList) (prev n : ℕ) : Prop where
  old : Graph adj₀ prev
  new : Graph adj n
  le : prev ≤ n
  sub : ∀ u v, Edge adj₀ u v → Edge adj u v
  ext : ∀ u v, u < prev → v < prev → Edge adj u v → Edge adj₀ u v

theorem Grown.stages (hg : Grown adj₀ adj prev n) : Stages adj₀ adj prev n :=
  ⟨hg.new.undirected, hg.le, hg.sub, hg.ext⟩

theorem Graph.inReach (hG : Graph adj n) (hm : m < n) (hj : j < n) :
    InReach adj n prev m j :=
  fun v _ hv => ⟨hG.conn m hm v hv, hG.conn v hv j hj⟩

/-- **The first call** makes the rows of the mapped nodes exact. -/
theorem firstCall_spec {mapped : List ℕ} {D : Grid ℤ} (out : List Line) (hG : Graph adj n)
    (hmap : ∀ m ∈ mapped, m < n) (hrows : D.rows = maxNodes) (hcols : D.cols = maxNodes) :
    ∃ D' out', computeShortestPathOptim n 0 mapped mapped.length adj D 0 out = some (D', out') ∧
      D'.rows = maxNodes ∧ D'.cols = maxNodes ∧
      ∀ m ∈ mapped, ∀ j < n, DistVal adj m j (D'.val m j) := by
  obtain ⟨D', out', hcall, hr, hc, hex, -⟩ := firstCall_entries out hG.undirected hmap hrows hcols
  exact ⟨D', out', hcall, hr, hc, fun m hm j hj => hG.distVal (hmap m hm) hj (hex m hm j hj)⟩

/-- **A later call**, entry by entry: all entries of the mapped nodes are exact in the grown
graph, but the entry of an old mapped node and its position keeps its value. -/
theorem laterCall_spec {mapped news : List ℕ} (out : List Line) (hg : Grown adj₀ adj prev n)
    (hnd : mapped.Nodup) (hmap : ∀ m ∈ mapped, m < prev) (hnews : ∀ m ∈ news, prev ≤ m ∧ m < n)
    (hrows : D.rows = maxNodes) (hcols : D.cols = maxNodes)
    (hold : ∀ m ∈ mapped, ∀ j < prev, DistVal adj₀ m j (D.val m j)) :
    ∃ D' out', computeShortestPathOptim n prev (mapped ++ news) news.length adj D 1 out =
        some (D', out') ∧ D'.rows = maxNodes ∧ D'.cols = maxNodes ∧
      (∀ m ∈ news, ∀ j < n, DistVal adj m j (D'.val m j)) ∧
      (∀ i m, mapped[i]? = some m → ∀ j < n, j ≠ i ∨ prev ≤ j → DistVal adj m j (D'.val m j)) ∧
      ∀ i m, mapped[i]? = some m → i < prev → D'.val m i = D.val m i := by
  have hle := hg.le
  have hpos := fun i m (hm : mapped[i]? = some m) => hmap m (List.mem_of_getElem? hm)
  obtain ⟨t₁, t₂, -, -, hcall, hS, hU⟩ := laterCall_run news out hg.stages hmap hrows hcols
    fun i m hm j hj _ => hg.new.inReach ((hpos i m hm).trans_le hle) (hj.trans_le hle)
  have hkeep : ∀ a b, a < prev → b < prev → t₁.distVector.val a b = D.val a b :=
    fun a b ha hb => hS.other a b (Or.inl ⟨ha, hb⟩)
  refine ⟨t₂.distVector, t₂.out, hcall, hU.dims.rows, hU.dims.cols, ?_, ?_, ?_⟩
  · intro m hm j hj
    obtain ⟨hm₁, hm₂⟩ := hnews m hm
    exact hg.new.distVal hm₂ hj (hU.ready.entry m hm₂ j hj (Or.inl hm₁))
  · intro i m hm j hj hji
    have hmp := hpos i m hm
    -- the column of a new node was searched, that of an old one updated
    rcases Nat.lt_or_ge j prev with hjp | hjp
    · refine hg.new.distVal (by omega) hj (hU.exact i (List.getElem?_eq_some_iff.1 hm).1 m hm j hjp
        (by omega) (Or.inr ?_))
      rw [hkeep m j hmp hjp]
      exact hold m (List.mem_of_getElem? hm) j hjp
    · exact hg.new.distVal (by omega) hj (hU.ready.entry m (by omega) j hj (Or.inr hjp))
  · intro i m hm hip
    rw [hU.other m i, hkeep m i (hpos i m hm) hip]
    -- the node is at no other position
    intro i' hi' hm' _
    exact (List.getElem?_inj (List.getElem?_eq_some_iff.1 hm).1 hnd).1 (hm.trans hm'.symm)

end OsLab.Paths
