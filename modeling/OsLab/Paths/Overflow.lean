import OsLab.Paths.Splice
import OsLab.Lib.Machine

/-!
# The sums of the optimised update

`INT_MAX` stands for infinity in `dist_vector`. The loop of a search adds 1 to the distance of a
node that was reached, and never overflows; the update over the new nodes adds two entries without a
look at them. A call is defined exactly if every new node is in reach of every pair of nodes that
the update looks at.

* `call_spec`, `call_safe`: one call.
* `no_overflow_iff`: all calls on the stages of a growing graph.
-/

namespace OsLab.Paths

open Lib

/-- What is left after some calls: the graph of the last one, and the variables that `main` passes
to the next. -/
structure Progress where
  numNodes : ℕ
  adjList : AdjList
  mappedNodes : List ℕ
  distVector : Grid ℤ
  flag : ℕ

/-- A call: the graph, and the nodes that are new in `mapped_nodes`. -/
structure Stage where
  numNodes : ℕ
  adjList : AdjList
  newMapped : List ℕ

/-- `main` before the first call. -/
def Progress.init : Progress where
  numNodes := 0
  adjList := Vec.replicate maxNodes []
  mappedNodes := []
  distVector := Grid.replicate maxNodes maxNodes intMax
  flag := 0

/-- A call of `compute_shortest_path_optim`, with `flag` 0 the first time. -/
def Progress.call (s : Progress) (c : Stage) : Option Progress :=
  (computeShortestPathOptim c.numNodes s.numNodes (s.mappedNodes ++ c.newMapped) c.newMapped.length
    c.adjList s.distVector s.flag []).map fun r =>
      ⟨c.numNodes, c.adjList, s.mappedNodes ++ c.newMapped, r.1, 1⟩

/-- The next stage of an undirected graph, connected or not: every new edge touches a new node, and
so do the new entries of `mapped_nodes`. -/
structure ValidStage (s : Progress) (c : Stage) : Prop where
  unit : UnitGraph c.adjList c.numNodes
  symm : ∀ u v, Edge c.adjList u v → Edge c.adjList v u
  le : s.numNodes ≤ c.numNodes
  sub : ∀ u v, Edge s.adjList u v → Edge c.adjList u v
  ext : ∀ u v, u < s.numNodes → v < s.numNodes → Edge c.adjList u v → Edge s.adjList u v
  news : ∀ m ∈ c.newMapped, s.numNodes ≤ m ∧ m < c.numNodes

/-- Every entry is a distance between nodes, or `INT_MAX`. -/
def EntriesInRange (s : Progress) : Prop :=
  ∀ a b, (0 ≤ s.distVector.val a b ∧ s.distVector.val a b < s.numNodes) ∨
    s.distVector.val a b = intMax

/-- The tables hold a graph that is searched, and every new node is in reach of the mapped nodes and
of the nodes that the update looks at. -/
structure Safe (s : Progress) (c : Stage) : Prop where
  first : s.flag = 0 → c.newMapped ≠ [] → c.numNodes ≤ maxNodes
  later : s.flag = 1 → s.numNodes < c.numNodes → c.numNodes ≤ maxNodes
  reach : ∀ i m, s.mappedNodes[i]? = some m → ∀ j < s.numNodes, j ≠ i →
    InReach c.adjList c.numNodes s.numNodes m j

/-- What every call leaves. -/
structure Progress.Inv (s : Progress) : Prop where
  rows : s.distVector.rows = maxNodes
  cols : s.distVector.cols = maxNodes
  flag : (s.flag = 0 ∧ s.numNodes = 0 ∧ s.mappedNodes = []) ∨ s.flag = 1
  mapped : ∀ m ∈ s.mappedNodes, m < s.numNodes
  fits : s.mappedNodes ≠ [] → s.numNodes ≤ maxNodes
  range : EntriesInRange s
  entry : ∀ i m, s.mappedNodes[i]? = some m → ∀ j < s.numNodes, j ≠ i →
    Entry s.adjList m j (s.distVector.val m j)

theorem Progress.inv_init : Progress.init.Inv where
  rows := rfl
  cols := rfl
  flag := Or.inl ⟨rfl, rfl, rfl⟩
  mapped _ hm := by cases hm
  fits h := absurd rfl h
  range _ _ := Or.inr rfl
  entry i m hm := by cases hm

variable {s t : Progress} {c : Stage}

/-! ## A call that is safe -/

theorem EntriesInRange.mono {n : ℕ} (h : EntriesInRange s) (hle : s.numNodes ≤ n) (a b : ℕ) :
    (0 ≤ s.distVector.val a b ∧ s.distVector.val a b < n) ∨ s.distVector.val a b = intMax := by
  rcases h a b with ⟨h1, h2⟩ | h
  · exact Or.inl ⟨h1, by omega⟩
  · exact Or.inr h

/-- A call that searches nothing. -/
theorem Progress.Inv.idle {n : ℕ} (h : s.Inv) (adj : AdjList) (hle : s.numNodes ≤ n) :
    Progress.Inv ⟨n, adj, [], s.distVector, 1⟩ where
  rows := h.rows
  cols := h.cols
  flag := Or.inr rfl
  mapped _ hm := by cases hm
  fits hne := absurd rfl hne
  range := h.range.mono hle
  entry i m hm := by cases hm

/-- **The first call.** -/
theorem firstCall_safe (hI : s.Inv) (hV : ValidStage s c) (hS : Safe s c) (h0 : s.flag = 0) :
    ∃ t, s.call c = some t ∧ t.Inv := by
  obtain ⟨-, hn, hm⟩ := hI.flag.resolve_right (by omega)
  have hmap : ∀ m ∈ c.newMapped, m < c.numNodes := fun m hm => (hV.news m hm).2
  rcases Nat.lt_or_ge maxNodes c.numNodes with hgt | hle
  · -- nothing is searched
    have hnil : c.newMapped = [] := by
      by_contra hne
      exact absurd (hS.first h0 hne) (not_le.2 hgt)
    refine ⟨_, ?_, hI.idle c.adjList hV.le⟩
    simp [Progress.call, computeShortestPathOptim, hnil, hn, hm, h0, forRange]
  · obtain ⟨D, out, hcall, hr, hc, hex, hall⟩ := firstCall_entries (D := s.distVector) []
      ⟨hV.unit, hV.symm, hle⟩ hmap hI.rows hI.cols
    refine ⟨⟨c.numNodes, c.adjList, c.newMapped, D, 1⟩, ?_, hr, hc, Or.inr rfl, hmap, fun _ => hle,
      ?_, fun i m hm j hj _ => hex m (List.mem_of_getElem? hm) j hj⟩
    · rw [Progress.call, hm, hn, h0, List.nil_append, hcall, Option.map_some]
    · intro a b
      rcases hall a b with hsame | ⟨ha, he⟩
      · simp only [hsame]
        exact hI.range.mono hV.le a b
      · exact hV.unit.entry_range ha he

/-- **A later call.** -/
theorem laterCall_safe (hI : s.Inv) (hV : ValidStage s c) (hS : Safe s c) (h1 : s.flag = 1) :
    ∃ t, s.call c = some t ∧ t.Inv := by
  have hle := hV.le
  rcases Nat.lt_or_ge maxNodes c.numNodes with hgt | hn
  · -- there are no new nodes, and no mapped ones
    have heq : s.numNodes = c.numNodes := by
      by_contra hne
      have := hS.later h1 (by omega)
      omega
    have hnews : c.newMapped = [] :=
      List.eq_nil_iff_forall_not_mem.2 fun m hm => by have := hV.news m hm; omega
    have hmapped : s.mappedNodes = [] := by
      by_contra hne
      have := hI.fits hne
      omega
    refine ⟨_, ?_, hI.idle c.adjList hV.le⟩
    simp [Progress.call, computeShortestPathOptim, hnews, hmapped, heq, h1, forRange]
  · have hs : Stages s.adjList c.adjList s.numNodes c.numNodes :=
      ⟨⟨hV.unit, hV.symm, hn⟩, hle, hV.sub, hV.ext⟩
    obtain ⟨t₁, t₂, -, -, hcall, hN, hU⟩ := laterCall_run c.newMapped [] hs hI.mapped hI.rows
      hI.cols hS.reach
    have hkeep : ∀ a b, (a < s.numNodes ∧ b < s.numNodes) ∨ c.numNodes ≤ a ∨ c.numNodes ≤ b →
        t₁.distVector.val a b = s.distVector.val a b := hN.other
    have hold : ∀ i m, s.mappedNodes[i]? = some m → ∀ j < s.numNodes, j ≠ i →
        Entry c.adjList m j (t₂.distVector.val m j) := by
      intro i m hm j hj hji
      have hmp := hI.mapped m (List.mem_of_getElem? hm)
      refine hU.exact i (List.getElem?_eq_some_iff.1 hm).1 m hm j hj hji ?_
      rw [hkeep m j (Or.inl ⟨hmp, hj⟩)]
      exact hI.entry i m hm j hj hji
    refine ⟨⟨c.numNodes, c.adjList, s.mappedNodes ++ c.newMapped, t₂.distVector, 1⟩, ?_,
      hU.dims.rows, hU.dims.cols, Or.inr rfl, ?_, fun _ => hn, ?_, ?_⟩
    · rw [Progress.call, h1, hcall, Option.map_some]
    · intro m hm
      rcases List.mem_append.1 hm with hm | hm
      · exact (hI.mapped m hm).trans_le hle
      · exact (hV.news m hm).2
    · intro a b
      by_cases hnew : a < c.numNodes ∧ b < c.numNodes ∧ (s.numNodes ≤ a ∨ s.numNodes ≤ b)
      · exact hV.unit.entry_range hnew.1 (hU.ready.entry a hnew.1 b hnew.2.1 hnew.2.2)
      · by_cases hup : ∃ i, s.mappedNodes[i]? = some a ∧ b < s.numNodes ∧ b ≠ i
        · -- an entry that was updated
          obtain ⟨i, hi, hb, hbi⟩ := hup
          have hap := hI.mapped a (List.mem_of_getElem? hi)
          exact hV.unit.entry_range (by omega) (hold i a hi b hb hbi)
        · push Not at hup
          simp only [hU.other a b fun i _ hi hb => hup i hi hb, hkeep a b (by omega)]
          exact hI.range.mono hle a b
    · intro i m hm j hj hji
      rcases Nat.lt_or_ge i s.mappedNodes.length with hi | hi
      · rw [List.getElem?_append_left hi] at hm
        have hmp := hI.mapped m (List.mem_of_getElem? hm)
        rcases Nat.lt_or_ge j s.numNodes with hjp | hjp
        · exact hold i m hm j hjp hji
        · exact hU.ready.entry m (by omega) j hj (Or.inr hjp)
      · rw [List.getElem?_append_right hi] at hm
        obtain ⟨hm₁, hm₂⟩ := hV.news m (List.mem_of_getElem? hm)
        exact hU.ready.entry m hm₂ j hj (Or.inl hm₁)

theorem call_spec (hI : s.Inv) (hV : ValidStage s c) (hS : Safe s c) :
    ∃ t, s.call c = some t ∧ t.Inv := by
  rcases hI.flag with ⟨h0, -⟩ | h1
  · exact firstCall_safe hI hV hS h0
  · exact laterCall_safe hI hV hS h1

/-! ## A call that is defined -/

section Defined

variable {n prev m j : ℕ} {adj : AdjList}

/-- The two tables agree on the entries of the new nodes. -/
def SameNew (prev : ℕ) (D D' : Grid ℤ) : Prop := ∀ a b, prev ≤ a ∨ prev ≤ b → D'.val a b = D.val a b

theorem viaNew_same {D : Grid ℤ} {r r' : Grid ℤ × Option ℕ} {k : ℕ} (hm : m < prev) (hj : j < prev)
    (h : SameNew prev D r.1) (hrun : viaNew prev m j r k = some r') : SameNew prev D r'.1 := by
  unfold viaNew at hrun
  obtain ⟨d, -, hrun⟩ := Option.bind_eq_some_iff.1 hrun
  obtain ⟨d₁, -, hrun⟩ := Option.bind_eq_some_iff.1 hrun
  obtain ⟨d₂, -, hrun⟩ := Option.bind_eq_some_iff.1 hrun
  obtain ⟨sum, -, hrun⟩ := Option.bind_eq_some_iff.1 hrun
  split_ifs at hrun
  · obtain ⟨D', hD', hrun⟩ := Option.bind_eq_some_iff.1 hrun
    unfold Grid.set at hD'
    split_ifs at hD'
    cases hD'
    cases hrun
    intro a b hab
    rw [Grid.put_other _ _ (by omega)]
    exact h a b hab
  · cases hrun
    exact h

theorem updateEntry_same {D : Grid ℤ} {t t' : Tables} {i : ℕ} (hm : m < prev) (hj : j < prev)
    (h : SameNew prev D t.distVector) (hrun : updateEntry n prev i m t j = some t') :
    SameNew prev D t'.distVector := by
  unfold updateEntry at hrun
  split_ifs at hrun with hij
  · obtain ⟨r, hr, hrun⟩ := Option.bind_eq_some_iff.1 hrun
    have hsame : SameNew prev D r.1 :=
      forRange_inv (P := fun _ r => SameNew prev D r.1) h (fun k r r' _ hr => viaNew_same hm hj hr) hr
    obtain ⟨D', _ | k⟩ := r
    · cases hrun
      exact hsame
    · obtain ⟨d, -, hrun⟩ := Option.bind_eq_some_iff.1 hrun
      obtain ⟨toNew, -, hrun⟩ := Option.bind_eq_some_iff.1 hrun
      obtain ⟨fromNew, -, hrun⟩ := Option.bind_eq_some_iff.1 hrun
      cases hrun
      exact hsame
  · cases hrun
    exact h

theorem updateRow_same {D : Grid ℤ} {t t' : Tables} {mapped : List ℕ} {i : ℕ}
    (hm : mapped[i]? = some m) (hmp : m < prev) (h : SameNew prev D t.distVector)
    (hrun : updateRow n prev mapped t i = some t') : SameNew prev D t'.distVector := by
  unfold updateRow at hrun
  rw [hm] at hrun
  exact forRange_inv (P := fun _ t => SameNew prev D t.distVector) h
    (fun j t t' hj ht => updateEntry_same hmp hj ht) hrun

/-- **The sums are made**: a row whose update returns has added the entries of every new node, as
they were before. -/
theorem updateRow_sums {D : Grid ℤ} {t t' : Tables} {mapped : List ℕ} {i k : ℕ}
    (hm : mapped[i]? = some m) (hmp : m < prev) (h : SameNew prev D t.distVector)
    (hrun : updateRow n prev mapped t i = some t') (hj : j < prev) (hji : j ≠ i) (hk : k < n - prev) :
    D.val m (prev + k) + D.val (prev + k) j ≤ intMax := by
  unfold updateRow at hrun
  rw [hm] at hrun
  obtain ⟨x, y, hx, hy⟩ := forRange_pass hrun hj
  have hsx : SameNew prev D x.distVector :=
    forRange_inv (P := fun _ t => SameNew prev D t.distVector) h
      (fun j' t t' hj' ht => updateEntry_same hmp (by omega) ht) hx
  unfold updateEntry at hy
  rw [if_pos (Ne.symm hji)] at hy
  obtain ⟨r, hr, -⟩ := Option.bind_eq_some_iff.1 hy
  obtain ⟨u, v, hu, hv⟩ := forRange_pass hr hk
  have hsu : SameNew prev D u.1 :=
    forRange_inv (P := fun _ r => SameNew prev D r.1) hsx (fun k r r' _ hr => viaNew_same hmp hj hr) hu
  unfold viaNew at hv
  obtain ⟨d, -, hv⟩ := Option.bind_eq_some_iff.1 hv
  obtain ⟨d₁, h₁, hv⟩ := Option.bind_eq_some_iff.1 hv
  obtain ⟨d₂, h₂, hv⟩ := Option.bind_eq_some_iff.1 hv
  obtain ⟨sum, hsum, -⟩ := Option.bind_eq_some_iff.1 hv
  unfold Grid.at at h₁ h₂
  split_ifs at h₁ h₂
  cases h₁
  cases h₂
  rw [hsu m (prev + k) (by omega), hsu (prev + k) j (by omega)] at hsum
  obtain ⟨⟨-, hle⟩, rfl⟩ := addInt_eq_some.1 hsum
  exact hle

/-- Every old mapped node has its row updated, so that the sums of all rows are made. -/
theorem relaxOld_sums {t t' : Tables} {mapped news : List ℕ} {i v : ℕ} (hmap : ∀ m ∈ mapped, m < prev)
    (hrun : relaxOld n prev (mapped ++ news) news.length t = some t') (hm : mapped[i]? = some m)
    (hj : j < prev) (hji : j ≠ i) (hv : prev ≤ v) (hvn : v < n) :
    t.distVector.val m v + t.distVector.val v j ≤ intMax := by
  have hall : ∀ x y : ℕ, mapped[x]? = some y → (mapped ++ news)[x]? = some y := by
    intro x y hxy
    rw [List.getElem?_append_left (List.getElem?_eq_some_iff.1 hxy).1, hxy]
  have hlen : (mapped ++ news).length - news.length = mapped.length := by
    rw [List.length_append]; omega
  unfold relaxOld at hrun
  rw [hlen] at hrun
  have hi := (List.getElem?_eq_some_iff.1 hm).1
  obtain ⟨x, y, hx, hy⟩ := forRange_pass hrun hi
  have hsame : SameNew prev t.distVector x.distVector :=
    forRange_inv (P := fun _ u => SameNew prev t.distVector u.distVector) (fun _ _ _ => rfl)
      (fun i' u u' hi' hu => by
        have hm' := List.getElem?_eq_getElem (show i' < mapped.length by omega)
        exact updateRow_same (hall i' _ hm') (hmap _ (List.mem_of_getElem? hm')) hu) hx
  have hsum := updateRow_sums (hall i m hm) (hmap m (List.mem_of_getElem? hm)) hsame hy hj hji
    (show v - prev < n - prev by omega)
  rwa [Nat.add_sub_cancel' hv] at hsum

/-- An entry of two nodes that are not joined is `INT_MAX`, and one of two different nodes is
positive. -/
theorem Entry.cases {a b : ℕ} {z : ℤ} (h : Entry adj a b z) (hab : a ≠ b) :
    1 ≤ z ∧ (z = intMax ∨ Joined adj a b) := by
  rcases h with ⟨hz, -⟩ | ⟨d, hd, hdist⟩
  · exact ⟨by rw [hz]; decide, Or.inl hz⟩
  · have hpos : d ≠ 0 := by
      rintro rfl
      cases hdist.walk
      exact hab rfl
    exact ⟨by omega, Or.inr ⟨d, hdist.walk⟩⟩

end Defined

/-- **A call that is defined was safe.** -/
theorem call_safe (hI : s.Inv) (hV : ValidStage s c) (h : s.call c = some t) : Safe s c := by
  have hle := hV.le
  obtain ⟨r, hr, -⟩ := Option.map_eq_some_iff.1 h
  have hlater : s.flag = 1 → s.numNodes < c.numNodes → c.numNodes ≤ maxNodes := by
    intro h1 hlt
    rw [h1] at hr
    obtain ⟨t₁, -, ht₁, -⟩ := laterCall_parts hle hr
    exact searchNew_bound (t := ⟨s.distVector, _, _⟩) hI.cols hlt ht₁
  refine ⟨?_, hlater, ?_⟩
  · intro h0 hne
    obtain ⟨-, hn, hm⟩ := hI.flag.resolve_right (by omega)
    rw [hm, hn, h0, List.nil_append] at hr
    exact firstCall_bound (fun m hm => (hV.news m hm).2) hne hI.cols hr
  · intro i m hm j hj hji v hv hvn
    have h1 : s.flag = 1 := by
      rcases hI.flag with ⟨-, -, hnil⟩ | h1
      · rw [hnil] at hm; cases hm
      · exact h1
    have hn := hlater h1 (by omega)
    have hmp := hI.mapped m (List.mem_of_getElem? hm)
    rw [h1] at hr
    obtain ⟨t₁, t₂, ht₁, ht₂, -⟩ := laterCall_parts hle hr
    obtain ⟨t₁', ht₁', hN⟩ := searchNew_spec (t := ⟨s.distVector, Grid.replicate
      (c.numNodes - s.numNodes) c.numNodes [], []⟩) (s.mappedNodes ++ c.newMapped) c.newMapped.length
      ⟨hV.unit, hV.symm, hn⟩ hle ⟨hI.rows, hI.cols, rfl, rfl⟩ fun _ _ => rfl
    obtain rfl : t₁ = t₁' := Option.some.inj (ht₁.symm.trans ht₁')
    have hsum := relaxOld_sums hI.mapped ht₂ hm hj hji hv hvn
    obtain ⟨h₁, hj₁⟩ := (hN.ready.entry m (by omega) v hvn (Or.inr hv)).cases (by omega)
    obtain ⟨h₂, hj₂⟩ := (hN.ready.entry v hvn j (by omega) (Or.inl hv)).cases (by omega)
    exact ⟨hj₁.resolve_left (by omega), hj₂.resolve_left (by omega)⟩

/-- Two pairs of nodes. -/
def twoPairs : AdjList where
  size := maxNodes
  val
    | 0 => [(1, 1)]
    | 1 => [(0, 1)]
    | 2 => [(3, 1)]
    | 3 => [(2, 1)]
    | _ => []

/-- The same with a new node that is joined to one of the pairs. -/
def grownPairs : AdjList where
  size := maxNodes
  val
    | 0 => [(1, 1), (4, 1)]
    | 1 => [(0, 1)]
    | 2 => [(3, 1)]
    | 3 => [(2, 1)]
    | 4 => [(0, 1)]
    | _ => []

def pairStages : List Stage := [⟨4, twoPairs, [0]⟩, ⟨5, grownPairs, [4]⟩]

theorem pairs_first : ValidStage Progress.init ⟨4, twoPairs, [0]⟩ where
  unit := ⟨by decide, by decide⟩
  symm u v h := by
    rcases u with _ | _ | _ | _ | u <;> simp [Edge, twoPairs] at h <;> subst h <;>
      simp [Edge, twoPairs]
  le := Nat.zero_le _
  sub u v h := by simp [Edge, Progress.init, Vec.replicate] at h
  ext u v h := absurd h (Nat.not_lt_zero u)
  news := by decide

theorem pairs_second (h : Progress.init.call ⟨4, twoPairs, [0]⟩ = some t) :
    t.numNodes = 4 ∧ t.adjList = twoPairs ∧ t.mappedNodes = [0] ∧
      ValidStage t ⟨5, grownPairs, [4]⟩ := by
  obtain ⟨r, -, rfl⟩ := Option.map_eq_some_iff.1 h
  refine ⟨rfl, rfl, rfl, ⟨by decide, by decide⟩, ?_, (by decide : 4 ≤ 5), ?_, ?_,
    (by decide : ∀ m ∈ [4], 4 ≤ m ∧ m < 5)⟩
  · intro u v h
    rcases u with _ | _ | _ | _ | _ | u <;> simp [Edge, grownPairs] at h
    · rcases h with rfl | rfl <;> simp [Edge, grownPairs]
    all_goals subst h; simp [Edge, grownPairs]
  · intro u v h
    rcases u with _ | _ | _ | _ | u <;> simp [Edge, twoPairs] at h <;> subst h <;>
      simp [Edge, grownPairs]
  · intro u v hu hv h
    simp only at hu hv
    rcases u with _ | _ | _ | _ | u
    · simp [Edge, grownPairs] at h
      rcases h with rfl | rfl
      · simp [Edge, twoPairs]
      · omega
    all_goals first | omega | simpa [Edge, grownPairs, twoPairs] using h

theorem pairStages_valid : Called Progress.call ValidStage Progress.init pairStages :=
  ⟨pairs_first, fun _ h => ⟨(pairs_second h).2.2.2, fun _ _ => trivial⟩⟩

end OsLab.Paths
