import OsLab.Lib.Algorithm
import OsLab.Lib.Loop
import OsLab.Lib.Vec

/-!
# Reading the graph (`readGraph`)

Each line of the file is an edge, which both its nodes get as a neighbour. `calcPriority` fills the
priorities in place, while other lists are being read: the priority of `v` in the list of `u` is the
number of pairs of equal nodes in the two lists (`common`), a number that only depends on the nodes
in the lists (`fillPriority_eq`). The sort comes last.

`int` is bounded: a count that passes `INT_MAX` is undefined (`none`). The first line of the file is
skipped, and `ctr` counts it.
-/

namespace OsLab.Feed

open Lib

/-- `degree` and `neighbors` of a `Node`. -/
structure GraphNode where
  degree : ℤ
  neighbors : List (ℕ × ℤ)

/-- `graph`, which has `NUM_NODES` nodes. -/
abbrev Graph := Vec GraphNode

/-- `initGraph`. -/
def initGraph (n : ℕ) : Graph := Vec.replicate n ⟨0, []⟩

/-- `graph[u].neighbors.push_back(make_pair(v, 0))`. -/
def pushNeighbor (g : Graph) (u v : ℕ) : Option Graph :=
  (g.at u).bind fun x => g.set u { x with neighbors := x.neighbors ++ [(v, 0)] }

/-- `graph[u].degree++`. -/
def incDegree (g : Graph) (u : ℕ) : Option Graph :=
  (g.at u).bind fun x => (addInt x.degree 1).bind fun d => g.set u { x with degree := d }

/-- A line of the file, after the first. -/
def readLine (st : Graph × ℤ) (e : ℕ × ℕ) : Option (Graph × ℤ) := do
  let ctr ← addInt st.2 1
  let g ← pushNeighbor st.1 e.1 e.2
  let g ← pushNeighbor g e.2 e.1
  let g ← incDegree g e.1
  let g ← incDegree g e.2
  some (g, ctr)

/-- `calcPriorityUtil`. -/
def calcPriorityUtil (n1 n2 : GraphNode) : Option ℤ :=
  forRange n1.degree.toNat (fun common i =>
    forRange n2.degree.toNat (fun common j => do
      let a ← n1.neighbors[i]?
      let b ← n2.neighbors[j]?
      if a.1 = b.1 then addInt common 1 else some common) common) 0

/-- The priority of neighbour `j` of node `i`. -/
def fillPriority (i : ℕ) (g : Graph) (j : ℕ) : Option Graph := do
  let x ← g.at i
  let a ← x.neighbors[j]?
  let y ← g.at a.1
  let priority ← calcPriorityUtil x y
  g.set i { x with neighbors := x.neighbors.set j (a.1, priority) }

/-- The priorities of the neighbours of node `i`. -/
def fillNode (g : Graph) (i : ℕ) : Option Graph :=
  (g.at i).bind fun x => forRange x.neighbors.length (fillPriority i) g

/-- `calcPriority`. -/
def calcPriority (g : Graph) : Option Graph := forRange g.size fillNode g

/-- The comparator of the sort. -/
def ByPriority (a b : ℕ × ℤ) : Prop := b.2 < a.2

instance : DecidableRel ByPriority := fun a b => inferInstanceAs (Decidable (b.2 < a.2))

/-- The sort of the neighbours of node `i`. -/
def sortNode (S : StdSort ByPriority) (g : Graph) (i : ℕ) : Option Graph :=
  (g.at i).bind fun x => g.set i { x with neighbors := S.sort x.neighbors }

/-- `readGraph`, on a file with these edges. -/
def readGraph (S : StdSort ByPriority) (n : ℕ) (edges : List (ℕ × ℕ)) : Option Graph := do
  let st ← edges.foldlM readLine (initGraph n, 1)
  let g ← calcPriority st.1
  forRange g.size (sortNode S) g

/-! ## The ends of the edges -/

/-- The other ends of the edges at `u`, a loop twice. -/
def ends (edges : List (ℕ × ℕ)) (u : ℕ) : List ℕ :=
  edges.flatMap fun e => (if e.1 = u then [e.2] else []) ++ if e.2 = u then [e.1] else []

/-- The number of pairs of equal nodes at the other ends of the edges at `u` and at `v`. -/
def common (edges : List (ℕ × ℕ)) (u v : ℕ) : ℕ :=
  ((ends edges u).map fun w => (ends edges v).count w).sum

/-- The counts of `readGraph` are in the range of `int`. -/
structure CountsFit (edges : List (ℕ × ℕ)) : Prop where
  lines : (edges.length : ℤ) < intMax
  degree : ∀ u, ((ends edges u).length : ℤ) ≤ intMax
  pairs : ∀ e ∈ edges, (common edges e.1 e.2 : ℤ) ≤ intMax

theorem mem_ends {edges : List (ℕ × ℕ)} {u v : ℕ} :
    v ∈ ends edges u ↔ (u, v) ∈ edges ∨ (v, u) ∈ edges := by
  unfold ends
  rw [List.mem_flatMap]
  constructor
  · rintro ⟨⟨a, b⟩, he, h⟩
    rcases List.mem_append.1 h with h | h
    · split_ifs at h with hu
      · obtain rfl := List.mem_singleton.1 h
        subst hu
        exact .inl he
      · exact absurd h List.not_mem_nil
    · split_ifs at h with hu
      · obtain rfl := List.mem_singleton.1 h
        subst hu
        exact .inr he
      · exact absurd h List.not_mem_nil
  · rintro (h | h)
    · exact ⟨_, h, by simp⟩
    · exact ⟨_, h, by simp⟩

theorem mem_ends_comm {edges : List (ℕ × ℕ)} {u v : ℕ} : v ∈ ends edges u ↔ u ∈ ends edges v := by
  rw [mem_ends, mem_ends, or_comm]

/-- A sum of ones and zeros counts. -/
theorem sum_indicator (l : List ℕ) (P : ℕ → Prop) [DecidablePred P] :
    (l.map fun w => if P w then 1 else 0).sum = l.countP fun w => P w := by
  induction l with
  | nil => rfl
  | cons b l ih =>
    rw [List.map_cons, List.sum_cons, ih, List.countP_cons, Nat.add_comm]
    simp only [decide_eq_true_eq]

/-- The pairs of two lists do not depend on which list comes first. -/
theorem sum_count_comm (l l' : List ℕ) :
    (l.map fun w => l'.count w).sum = (l'.map fun w => l.count w).sum := by
  induction l with
  | nil => simp
  | cons a l ih =>
    have hcons : ∀ w, (a :: l).count w = (if w = a then 1 else 0) + l.count w := by
      intro w
      rcases eq_or_ne w a with rfl | h
      · rw [if_pos rfl, List.count_cons_self, Nat.add_comm]
      · rw [if_neg h, List.count_cons_of_ne h.symm, Nat.zero_add]
    rw [List.map_cons, List.sum_cons, ih]
    simp only [hcons, List.sum_map_add, sum_indicator]
    rfl

theorem common_comm (edges : List (ℕ × ℕ)) (u v : ℕ) : common edges u v = common edges v u :=
  sum_count_comm _ _

theorem ends_snoc (edges : List (ℕ × ℕ)) (e : ℕ × ℕ) (u : ℕ) :
    ends (edges ++ [e]) u =
      ends edges u ++ ((if e.1 = u then [e.2] else []) ++ if e.2 = u then [e.1] else []) := by
  simp [ends]

/-! ## The lines -/

/-- The graph when some lines are read. -/
def rawGraph (n : ℕ) (edges : List (ℕ × ℕ)) : Graph :=
  ⟨n, fun u => ⟨(ends edges u).length, (ends edges u).map fun v => (v, 0)⟩⟩

theorem pushNeighbor_eq {g : Graph} {u : ℕ} (hu : u < g.size) (v : ℕ) :
    pushNeighbor g u v = some ⟨g.size, fun w =>
      ⟨(g.val w).degree, (g.val w).neighbors ++ if u = w then [(v, 0)] else []⟩⟩ := by
  rw [pushNeighbor, Vec.at_eq hu, Option.bind_some, Vec.set_eq hu, Option.some.injEq, Vec.mk.injEq]
  refine ⟨rfl, funext fun w => ?_⟩
  rcases eq_or_ne u w with rfl | h
  · simp
  · simp [h, Function.update_of_ne h.symm]

theorem incDegree_eq {g : Graph} {u : ℕ} (hu : u < g.size) (h0 : 0 ≤ (g.val u).degree) :
    incDegree g u = if (g.val u).degree + 1 ≤ intMax then some ⟨g.size, fun w =>
      ⟨(g.val w).degree + if u = w then 1 else 0, (g.val w).neighbors⟩⟩ else none := by
  have hmin : intMin ≤ (g.val u).degree + 1 := le_trans (by decide) (h0.trans (Int.le_add_one le_rfl))
  rw [incDegree, Vec.at_eq hu, Option.bind_some, addInt]
  by_cases h : (g.val u).degree + 1 ≤ intMax
  · rw [if_pos ⟨hmin, h⟩, if_pos h, Option.bind_some, Vec.set_eq hu, Option.some.injEq, Vec.mk.injEq]
    refine ⟨rfl, funext fun w => ?_⟩
    rcases eq_or_ne u w with rfl | h
    · simp
    · simp [h, Function.update_of_ne h.symm]
  · rw [if_neg fun h' => h h'.2, if_neg h]
    rfl

theorem length_ends_snoc (edges : List (ℕ × ℕ)) (e : ℕ × ℕ) (u : ℕ) :
    ((ends (edges ++ [e]) u).length : ℤ) =
      (ends edges u).length + (if e.1 = u then 1 else 0) + if e.2 = u then 1 else 0 := by
  rw [ends_snoc]
  split_ifs <;> simp [add_assoc]

/-- What the two pushes and the two increments make of the graph. -/
theorem rawGraph_snoc (n : ℕ) (edges : List (ℕ × ℕ)) (e : ℕ × ℕ) :
    rawGraph n (edges ++ [e]) = ⟨n, fun w =>
      ⟨(ends edges w).length + (if e.1 = w then 1 else 0) + (if e.2 = w then 1 else 0),
        (((ends edges w).map fun v => (v, 0)) ++ if e.1 = w then [(e.2, 0)] else []) ++
          if e.2 = w then [(e.1, 0)] else []⟩⟩ := by
  rw [rawGraph, Vec.mk.injEq]
  refine ⟨rfl, funext fun w => ?_⟩
  rw [length_ends_snoc, ends_snoc]
  split_ifs <;> simp

/-- One line. -/
theorem readLine_eq_some {n : ℕ} {edges : List (ℕ × ℕ)} {e : ℕ × ℕ} (h1 : e.1 < n) (h2 : e.2 < n)
    {ctr : ℤ} (hctr : 0 ≤ ctr) {r : Graph × ℤ} :
    readLine (rawGraph n edges, ctr) e = some r ↔
      (ctr + 1 ≤ intMax ∧ ((ends (edges ++ [e]) e.1).length : ℤ) ≤ intMax ∧
        ((ends (edges ++ [e]) e.2).length : ℤ) ≤ intMax) ∧
      r = (rawGraph n (edges ++ [e]), ctr + 1) := by
  have haddInt : addInt ctr 1 = if ctr + 1 ≤ intMax then some (ctr + 1) else none := by
    rw [addInt]
    simp only [show intMin ≤ ctr + 1 from le_trans (by decide) (hctr.trans (Int.le_add_one le_rfl)),
      true_and]
  rw [readLine, haddInt, rawGraph_snoc, length_ends_snoc, length_ends_snoc]
  simp only [Option.bind_eq_bind]
  by_cases hc : ctr + 1 ≤ intMax
  · rw [if_pos hc, Option.bind_some, pushNeighbor_eq (by exact h1), Option.bind_some,
      pushNeighbor_eq (by exact h2), Option.bind_some, incDegree_eq (by exact h1) (by simp [rawGraph])]
    simp only [rawGraph, hc, if_true, true_and]
    by_cases hd1 : ((ends edges e.1).length : ℤ) + 1 ≤ intMax
    · simp only [hd1, if_true, Option.bind_some]
      rw [incDegree_eq (by exact h2) (by dsimp only; split_ifs <;> omega)]
      by_cases hd2 : ((ends edges e.2).length : ℤ) + (if e.1 = e.2 then 1 else 0) + 1 ≤ intMax
      · -- a loop is counted twice at its node
        have hd1' : ((ends edges e.1).length : ℤ) + 1 + (if e.2 = e.1 then 1 else 0) ≤ intMax := by
          rcases eq_or_ne e.1 e.2 with h | h
          · rw [← h, if_pos rfl] at hd2
            rw [if_pos h.symm]
            exact hd2
          · rw [if_neg h.symm]
            omega
        rw [and_iff_right ⟨hd1', hd2⟩]
        simp only [hd2, if_true, Option.bind_some, Option.some.injEq]
        exact eq_comm
      · simp [hd2]
    · have hd1' : ¬ ((ends edges e.1).length : ℤ) + 1 + (if e.2 = e.1 then 1 else 0) ≤ intMax := by
        split_ifs <;> omega
      simp [hd1, hd1']
  · rw [if_neg hc]
    simp [hc]

/-- **The lines are read** exactly when the counts fit. -/
theorem readLines_eq_some {n : ℕ} {edges : List (ℕ × ℕ)} (he : ∀ e ∈ edges, e.1 < n ∧ e.2 < n)
    {r : Graph × ℤ} : edges.foldlM readLine (initGraph n, 1) = some r ↔
      ((edges.length : ℤ) < intMax ∧ ∀ u, ((ends edges u).length : ℤ) ≤ intMax) ∧
        r = (rawGraph n edges, 1 + (edges.length : ℤ)) := by
  induction edges using List.reverseRecOn generalizing r with
  | nil =>
    have hraw : initGraph n = rawGraph n [] := rfl
    have hmax : (0 : ℤ) < intMax := by decide
    simp [hraw, ends, hmax, hmax.le, eq_comm]
  | append_singleton edges e ih =>
    have hin := he e (by simp)
    have hmono : ∀ u, ((ends edges u).length : ℤ) ≤ (ends (edges ++ [e]) u).length := fun u => by
      rw [length_ends_snoc]
      split_ifs <;> omega
    rw [List.foldlM_append]
    simp only [List.foldlM_cons, List.foldlM_nil, Option.bind_eq_bind, Option.bind_eq_some_iff,
      ih fun f hf => he f (List.mem_append_left _ hf), Option.pure_def]
    constructor
    · rintro ⟨_, ⟨⟨hlen, hdeg⟩, rfl⟩, t, ht, hr⟩
      obtain ⟨⟨hctr, hd1, hd2⟩, rfl⟩ := (readLine_eq_some hin.1 hin.2 (by omega)).1 ht
      cases hr
      refine ⟨⟨by simp; omega, fun u => ?_⟩, by simp; omega⟩
      -- a node without the new edge has the degree it had
      by_cases hu : e.1 = u ∨ e.2 = u
      · rcases hu with rfl | rfl
        · exact hd1
        · exact hd2
      · push Not at hu
        rw [length_ends_snoc, if_neg hu.1, if_neg hu.2]
        simpa using hdeg u
    · rintro ⟨⟨hlen, hdeg⟩, rfl⟩
      rw [List.length_append, List.length_singleton] at hlen
      push_cast at hlen
      refine ⟨_, ⟨⟨by omega, fun u => (hmono u).trans (hdeg u)⟩, rfl⟩, _,
        (readLine_eq_some hin.1 hin.2 (by omega)).2 ⟨⟨by omega, hdeg _, hdeg _⟩, rfl⟩, ?_⟩
      simp [add_assoc]

/-! ## The priorities -/

/-- The nodes in the lists are those of the edges. -/
structure Listed (n : ℕ) (edges : List (ℕ × ℕ)) (g : Graph) : Prop where
  size : g.size = n
  degree : ∀ u, (g.val u).degree = (ends edges u).length
  nodes : ∀ u, (g.val u).neighbors.map Prod.fst = ends edges u

/-- The priorities are filled up to entry `j` of node `i`. -/
structure Filled (n : ℕ) (edges : List (ℕ × ℕ)) (i j : ℕ) (g : Graph) : Prop extends
    Listed n edges g where
  filled : ∀ u k a, (g.val u).neighbors[k]? = some a → u < i ∨ u = i ∧ k < j →
    a.2 = (common edges u a.1 : ℤ) ∧ (common edges u a.1 : ℤ) ≤ intMax

section

variable {n i j u v : ℕ} {edges : List (ℕ × ℕ)} {g g' : Graph}

theorem rawGraph_filled (n : ℕ) (edges : List (ℕ × ℕ)) : Filled n edges 0 0 (rawGraph n edges) where
  size := rfl
  degree _ := rfl
  nodes u := by simp [rawGraph, Function.comp_def]
  filled u k a _ h := by omega

theorem Listed.length (h : Listed n edges g) (u : ℕ) :
    (g.val u).neighbors.length = (ends edges u).length := by
  rw [← h.nodes u, List.length_map]

theorem Listed.getElem? (h : Listed n edges g) {k x : ℕ} (hx : (ends edges u)[k]? = some x) :
    ∃ a, (g.val u).neighbors[k]? = some a ∧ a.1 = x := by
  rw [← h.nodes u, List.getElem?_map, Option.map_eq_some_iff] at hx
  exact hx

/-- **The nested loops count the pairs**, as long as their number fits. -/
theorem calcPriorityUtil_eq (h : Listed n edges g) (u v : ℕ) :
    calcPriorityUtil (g.val u) (g.val v) =
      if (common edges u v : ℤ) ≤ intMax then some (common edges u v : ℤ) else none := by
  rw [calcPriorityUtil, h.degree, h.degree, Int.toNat_natCast, Int.toNat_natCast]
  have := forRange_sum (M := intMax) (fun x => (ends edges v).count x) (l := ends edges u)
    (f := fun c i => forRange (ends edges v).length (fun c j => do
      let a ← (g.val u).neighbors[i]?
      let b ← (g.val v).neighbors[j]?
      if a.1 = b.1 then addInt c 1 else some c) c) ?_ (c := 0) le_rfl (by decide)
  · rw [zero_add] at this
    exact this
  · intro i x hx c h0 hc
    obtain ⟨a, ha, rfl⟩ := h.getElem? hx
    have hcount : (ends edges v).count a.1 =
        ((ends edges v).map fun y => if y = a.1 then 1 else 0).sum :=
      (sum_indicator (ends edges v) fun y => y = a.1).symm
    rw [hcount]
    refine forRange_sum _ (fun j y hy c h0 hc => ?_) h0 hc
    obtain ⟨b, hb, rfl⟩ := h.getElem? hy
    simp only [ha, hb, Option.bind_eq_bind, Option.bind_some, @eq_comm ℕ b.1 a.1]
    by_cases hab : a.1 = b.1
    · have : intMin ≤ c + 1 := le_trans (by decide) (h0.trans (Int.le_add_one le_rfl))
      simp [hab, addInt, this]
    · simp [hab, hc]

/-- One entry. -/
theorem fillPriority_eq (h : Listed n edges g) (hi : i < n) (hv : v < n)
    (hj : (ends edges i)[j]? = some v) :
    fillPriority i g j = if (common edges i v : ℤ) ≤ intMax then some ⟨g.size, Function.update g.val i
      ⟨(g.val i).degree, (g.val i).neighbors.set j (v, (common edges i v : ℤ))⟩⟩ else none := by
  obtain ⟨a, ha, rfl⟩ := h.getElem? hj
  rw [← h.size] at hi hv
  simp only [fillPriority, Vec.at_eq hi, Option.bind_eq_bind, Option.bind_some, ha, Vec.at_eq hv,
    calcPriorityUtil_eq h]
  by_cases hc : (common edges i a.1 : ℤ) ≤ intMax
  · simp only [hc, if_true, Option.bind_some, Vec.set_eq hi]
  · simp only [hc, if_false, Option.bind_none]

/-- The entry is filled, and nothing else changes. -/
theorem Filled.fill (h : Filled n edges i j g) (hc : (common edges i v : ℤ) ≤ intMax)
    (hj : (ends edges i)[j]? = some v) :
    Filled n edges i (j + 1) ⟨g.size, Function.update g.val i
      ⟨(g.val i).degree, (g.val i).neighbors.set j (v, (common edges i v : ℤ))⟩⟩ := by
  obtain ⟨b, hb, rfl⟩ := h.getElem? hj
  have hlen : j < (g.val i).neighbors.length := (List.getElem?_eq_some_iff.1 hb).1
  refine ⟨⟨h.size, fun u => ?_, fun u => ?_⟩, fun u k a ha hk => ?_⟩
  · rcases eq_or_ne u i with rfl | hu
    · simpa using h.degree u
    · simpa [Function.update_of_ne hu] using h.degree u
  · rcases eq_or_ne u i with rfl | hu
    · simp only [Function.update_self, List.map_set, ← h.nodes u]
      refine List.ext_getElem? fun k => ?_
      rcases eq_or_ne j k with rfl | hk
      · rw [List.getElem?_set_self (by simpa using hlen), List.getElem?_map, hb]
        rfl
      · rw [List.getElem?_set_ne hk]
    · simpa [Function.update_of_ne hu] using h.nodes u
  · rcases eq_or_ne u i with rfl | hu
    · simp only [Function.update_self] at ha
      rcases eq_or_ne k j with rfl | hkj
      · rw [List.getElem?_set_self hlen, Option.some.injEq] at ha
        subst ha
        exact ⟨rfl, hc⟩
      · rw [List.getElem?_set_ne hkj.symm] at ha
        exact h.filled u k a ha (by omega)
    · simp only [Function.update_of_ne hu] at ha
      exact h.filled u k a ha (by omega)

theorem Filled.next (h : Filled n edges i (ends edges i).length g) : Filled n edges (i + 1) 0 g where
  toListed := h.toListed
  filled u k a ha hk := by
    refine h.filled u k a ha ?_
    rcases Nat.lt_succ_iff_lt_or_eq.1 (show u < i + 1 by omega) with hu | rfl
    · exact .inl hu
    · exact .inr ⟨rfl, h.length u ▸ (List.getElem?_eq_some_iff.1 ha).1⟩

theorem mem_ends_lt (he : ∀ e ∈ edges, e.1 < n ∧ e.2 < n) (hv : v ∈ ends edges u) : u < n ∧ v < n := by
  rcases mem_ends.1 hv with h | h
  · exact he _ h
  · exact (he _ h).symm

theorem fillNode_eq (h : Listed n edges g) (hi : i < n) :
    fillNode g i = forRange (ends edges i).length (fillPriority i) g := by
  rw [fillNode, Vec.at_eq (by rw [h.size]; exact hi), Option.bind_some, h.length]

/-- A node is filled when its pairs can be counted, -/
theorem fillNode_some (he : ∀ e ∈ edges, e.1 < n ∧ e.2 < n) (hi : i < n)
    (hc : ∀ v ∈ ends edges i, (common edges i v : ℤ) ≤ intMax) (h : Filled n edges i 0 g) :
    ∃ g', fillNode g i = some g' ∧ Filled n edges (i + 1) 0 g' := by
  rw [fillNode_eq h.toListed hi]
  have hstep : ∀ j t, j < (ends edges i).length → Filled n edges i j t →
      ∃ t', fillPriority i t j = some t' ∧ Filled n edges i (j + 1) t' := by
    intro j t hj ht
    have hv := List.getElem?_eq_getElem hj
    have hmem := List.mem_of_getElem? hv
    refine ⟨_, ?_, ht.fill (hc _ hmem) hv⟩
    rw [fillPriority_eq ht.toListed hi (mem_ends_lt he hmem).2 hv, if_pos (hc _ hmem)]
  obtain ⟨g', hg', hf⟩ := forRange_spec (P := fun j t => Filled n edges i j t) h hstep
  exact ⟨g', hg', hf.next⟩

/-- and only then. -/
theorem filled_of_fillNode (he : ∀ e ∈ edges, e.1 < n ∧ e.2 < n) (hi : i < n)
    (h : Filled n edges i 0 g) (hg : fillNode g i = some g') : Filled n edges (i + 1) 0 g' := by
  rw [fillNode_eq h.toListed hi] at hg
  refine (forRange_inv (P := fun j t => Filled n edges i j t) h (fun j t t' hj ht htt' => ?_) hg).next
  have hv := List.getElem?_eq_getElem hj
  rw [fillPriority_eq ht.toListed hi (mem_ends_lt he (List.mem_of_getElem? hv)).2 hv] at htt'
  split_ifs at htt' with hc
  obtain rfl := Option.some.inj htt'
  exact ht.fill hc hv

/-- **The priorities can be computed** exactly when all pairs can be counted. -/
theorem calcPriority_some (he : ∀ e ∈ edges, e.1 < n ∧ e.2 < n)
    (hc : ∀ e ∈ edges, (common edges e.1 e.2 : ℤ) ≤ intMax) :
    ∃ g, calcPriority (rawGraph n edges) = some g ∧ Filled n edges n 0 g := by
  have hloop : calcPriority (rawGraph n edges) = forRange n fillNode (rawGraph n edges) := rfl
  rw [hloop]
  refine forRange_spec (P := fun i t => Filled n edges i 0 t) (rawGraph_filled n edges)
    fun i t hi ht => fillNode_some he hi (fun v hv => ?_) ht
  rcases mem_ends.1 hv with h | h
  · exact hc (i, v) h
  · rw [common_comm]
    exact hc (v, i) h

theorem filled_of_calcPriority (he : ∀ e ∈ edges, e.1 < n ∧ e.2 < n)
    (hg : calcPriority (rawGraph n edges) = some g) : Filled n edges n 0 g := by
  have hloop : calcPriority (rawGraph n edges) = forRange n fillNode (rawGraph n edges) := rfl
  rw [hloop] at hg
  exact forRange_inv (P := fun i t => Filled n edges i 0 t) (rawGraph_filled n edges)
    (fun _ _ _ hi ht htt' => filled_of_fillNode he hi ht htt') hg

/-- Every pair that the finished graph has counted fits. -/
theorem Filled.pairs (h : Filled n edges n 0 g) (he : ∀ e ∈ edges, e.1 < n ∧ e.2 < n) :
    ∀ e ∈ edges, (common edges e.1 e.2 : ℤ) ≤ intMax := by
  intro e hmem
  obtain ⟨k, hk⟩ := List.getElem?_of_mem (mem_ends.2 (.inl hmem) : e.2 ∈ ends edges e.1)
  obtain ⟨a, ha, hae⟩ := h.getElem? hk
  have := (h.filled e.1 k a ha (.inl (he e hmem).1)).2
  rwa [hae] at this

end

end OsLab.Feed
