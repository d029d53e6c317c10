import Mathlib.Data.Finset.Card
import Mathlib.Data.Nat.Find
import Mathlib.Data.Finset.Range
import Mathlib.Tactic.Common

/-!
# Walks and distances

`Walk E a b n`: a walk of `n` edges along the relation `E`, and `Route E a b n l` one with its
nodes. `Dist E a b d`: the least number of edges of a walk from `a` to `b` is `d`.

* `Dist.unique`, `Dist.symm`, `exists_dist`.
* `Dist.lt`: in a graph over `n` nodes, distances are below `n`.
* `walk_split`: a walk in a graph that was extended by new nodes stays in the old graph or
  visits a new node.
* `Route.append`, `Route.reverse`: the nodes of two walks together, and of a walk backwards.
-/

namespace OsLab.Lib

variable {α : Type*} {E E' : α → α → Prop} {a b c : α} {m n d d' : ℕ}

/-- A walk of `n` edges. -/
inductive Walk (E : α → α → Prop) : α → α → ℕ → Prop where
  | nil (a : α) : Walk E a a 0
  | snoc {a b c : α} {n : ℕ} : Walk E a b n → E b c → Walk E a c (n + 1)

theorem Walk.append (h : Walk E a b m) (h' : Walk E b c n) : Walk E a c (m + n) := by
  induction h' with
  | nil => exact h
  | snoc _ he ih => exact ih.snoc he

theorem Walk.mono (hE : ∀ x y, E x y → E' x y) (h : Walk E a b n) : Walk E' a b n := by
  induction h with
  | nil => exact Walk.nil _
  | snoc _ he ih => exact ih.snoc (hE _ _ he)

theorem Walk.symm (hE : ∀ x y, E x y → E y x) (h : Walk E a b n) : Walk E b a n := by
  induction h with
  | nil => exact Walk.nil _
  | snoc _ he ih =>
    have := ((Walk.nil _).snoc (hE _ _ he)).append ih
    rwa [Nat.zero_add, Nat.add_comm] at this

/-- A walk of `n` edges, and the nodes it passes through. -/
inductive Route (E : α → α → Prop) : α → α → ℕ → List α → Prop where
  | nil (a : α) : Route E a a 0 [a]
  | snoc {a b c : α} {n : ℕ} {l : List α} :
      Route E a b n l → E b c → Route E a c (n + 1) (l ++ [c])

theorem Route.length {l : List α} (h : Route E a b n l) : l.length = n + 1 := by
  induction h with
  | nil => rfl
  | snoc _ _ ih => rw [List.length_append, ih, List.length_singleton]

/-- One walk after another: the node in the middle is listed once. -/
theorem Route.append {l l' : List α} (h : Route E a b m l) (h' : Route E b c n l') :
    Route E a c (m + n) (l ++ l'.tail) := by
  induction h' with
  | nil => rw [List.tail_cons, List.append_nil]; exact h
  | snoc h' he ih =>
    have hne : _ ≠ [] := List.ne_nil_of_length_pos (by rw [h'.length]; exact Nat.succ_pos _)
    rw [List.tail_append_of_ne_nil hne, ← List.append_assoc]
    exact ih.snoc he

theorem Route.cons {l : List α} (he : E a b) (h : Route E b c n l) : Route E a c (n + 1) (a :: l) := by
  induction h with
  | nil => exact (Route.nil a).snoc he
  | snoc _ he' ih => exact ih.snoc he'

/-- The walk backwards. -/
theorem Route.reverse (hE : ∀ x y, E x y → E y x) {l : List α} (h : Route E a b n l) :
    Route E b a n l.reverse := by
  induction h with
  | nil => exact Route.nil _
  | snoc _ he ih =>
    rw [List.reverse_append, List.reverse_singleton]
    exact ih.cons (hE _ _ he)

/-- What grows by at most 1 along every edge grows by at most the length of a walk. -/
theorem Walk.le_add {f : α → ℕ} (hf : ∀ x y, E x y → f y ≤ f x + 1) (h : Walk E a b n) :
    f b ≤ f a + n := by
  induction h with
  | nil => exact le_rfl
  | snoc _ he ih => have := hf _ _ he; omega

/-- The least number of edges of a walk from `a` to `b`. -/
structure Dist (E : α → α → Prop) (a b : α) (d : ℕ) : Prop where
  walk : Walk E a b d
  le : ∀ n, Walk E a b n → d ≤ n

theorem Dist.unique (h : Dist E a b d) (h' : Dist E a b d') : d = d' :=
  le_antisymm (h.le _ h'.walk) (h'.le _ h.walk)

theorem Dist.symm (hE : ∀ x y, E x y → E y x) (h : Dist E a b d) : Dist E b a d :=
  ⟨h.walk.symm hE, fun n hn => h.le n (hn.symm hE)⟩

theorem exists_dist (h : Walk E a b n) : ∃ d, Dist E a b d := by
  classical
  have hex : ∃ n, Walk E a b n := ⟨n, h⟩
  exact ⟨Nat.find hex, Nat.find_spec hex, fun m hm => Nat.find_min' hex hm⟩

theorem dist_self (E : α → α → Prop) (a : α) : Dist E a a 0 := ⟨Walk.nil a, fun _ _ => Nat.zero_le _⟩

/-- Every shorter distance occurs on the way. -/
theorem Dist.intermediate (h : Dist E a b d) (hd : d' ≤ d) : ∃ x, Dist E a x d' := by
  -- a walk passes through a node at every smaller number of edges
  have hsplit : ∀ {b n}, Walk E a b n → d' ≤ n → ∃ x, Walk E a x d' ∧ Walk E x b (n - d') := by
    intro b n hb
    induction hb with
    | nil =>
      intro hn
      obtain rfl : d' = 0 := by omega
      exact ⟨a, Walk.nil a, Walk.nil a⟩
    | @snoc b c n hb he ih =>
      intro hn
      rcases Nat.lt_or_ge n d' with hlt | hge
      · obtain rfl : d' = n + 1 := by omega
        exact ⟨c, hb.snoc he, by rw [Nat.sub_self]; exact Walk.nil c⟩
      · obtain ⟨x, h1, h2⟩ := ih hge
        exact ⟨x, h1, by rw [Nat.succ_sub hge]; exact h2.snoc he⟩
  obtain ⟨x, h1, h2⟩ := hsplit h.walk hd
  refine ⟨x, h1, ?_⟩
  intro n hn
  -- a shorter walk to `x` would make a shorter walk to `b`
  have := h.le _ (hn.append h2)
  omega

theorem Walk.mem {s : Finset α} (ha : a ∈ s) (hs : ∀ x ∈ s, ∀ y, E x y → y ∈ s)
    (h : Walk E a b n) : b ∈ s := by
  induction h with
  | nil => exact ha
  | snoc _ he ih => exact hs _ ih _ he

/-- **Distances are below the number of nodes.** -/
theorem Dist.lt (h : Dist E a b d) {s : Finset α} (ha : a ∈ s)
    (hs : ∀ x ∈ s, ∀ y, E x y → y ∈ s) : d < s.card := by
  have hex : ∀ k, ∃ x, k ≤ d → Dist E a x k := by
    intro k
    by_cases hk : k ≤ d
    · obtain ⟨x, hx⟩ := h.intermediate hk
      exact ⟨x, fun _ => hx⟩
    · exact ⟨a, fun h => absurd h hk⟩
  choose f hf using hex
  have hmem : ∀ k ∈ Finset.range (d + 1), f k ∈ s := by
    intro k hk
    exact (hf k (by have := Finset.mem_range.1 hk; omega)).walk.mem ha hs
  -- the distances `0, …, d` belong to as many different nodes
  have hinj : Set.InjOn f (Finset.range (d + 1)) := by
    intro i hi j hj hij
    have hi := hf i (by have := Finset.mem_range.1 hi; omega)
    have hj := hf j (by have := Finset.mem_range.1 hj; omega)
    rw [hij] at hi
    exact hi.unique hj
  have := Finset.card_le_card_of_injOn f hmem hinj
  rw [Finset.card_range] at this
  omega

/-- **A walk in an extended graph** stays in the old graph or visits a node that is not old. -/
theorem walk_split {old : α → Prop} (hold : ∀ x y, old x → old y → E' x y → E x y)
    (h : Walk E' a b n) : Walk E a b n ∨
      ∃ k x y, ¬ old k ∧ Walk E' a k x ∧ Walk E' k b y ∧ x + y = n := by
  induction h with
  | nil => exact Or.inl (Walk.nil a)
  | @snoc b c n hb he ih =>
    rcases ih with hE | ⟨k, x, y, hk, h1, h2, hxy⟩
    · -- the first node that is not old, at either end of the last edge
      by_cases hc : old c
      · by_cases hbo : old b
        · exact Or.inl (hE.snoc (hold b c hbo hc he))
        · exact Or.inr ⟨b, n, 1, hbo, hb, (Walk.nil b).snoc he, rfl⟩
      · exact Or.inr ⟨c, n + 1, 0, hc, hb.snoc he, Walk.nil c, rfl⟩
    · exact Or.inr ⟨k, x, y + 1, hk, h1, h2.snoc he, by omega⟩

end OsLab.Lib
