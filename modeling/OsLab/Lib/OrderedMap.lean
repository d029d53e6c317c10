import Mathlib.Data.List.Perm.Basic
import Mathlib.Data.List.Nodup
import Mathlib.Tactic.Common

/-!
# Ordered maps as association lists

A `std::map` is the list of its pairs in key order: `find`, `insert` and `erase`, over any
key type with a strict order `lt`. The order is what an iteration over the map sees; the
contents are described up to permutation (`insert_perm`, `erase_perm`).
-/

namespace OsLab.Lib

variable {κ β : Type*} [DecidableEq κ]

/-- `m.find(k)`. -/
def find (m : List (κ × β)) (k : κ) : Option β :=
  match m with
  | [] => none
  | p :: m => if p.1 = k then some p.2 else find m k

/-- `m.erase(k)`. -/
def erase (m : List (κ × β)) (k : κ) : List (κ × β) := m.filter fun p => p.1 ≠ k

/-- `m[k] = v`, in key order. -/
def insert (lt : κ → κ → Bool) (m : List (κ × β)) (k : κ) (v : β) : List (κ × β) :=
  match m with
  | [] => [(k, v)]
  | p :: m =>
    if lt k p.1 then (k, v) :: p :: m
    else if p.1 = k then (k, v) :: m
    else p :: insert lt m k v

/-- The keys of a map. -/
def keys (m : List (κ × β)) : List κ := m.map Prod.fst

variable {lt : κ → κ → Bool} {m : List (κ × β)} {k : κ} {v : β}

omit [DecidableEq κ] in
theorem mem_keys (h : (k, v) ∈ m) : k ∈ keys m := List.mem_map.2 ⟨_, h, rfl⟩

theorem mem_of_find (h : find m k = some v) : (k, v) ∈ m := by
  induction m with
  | nil => cases h
  | cons p m ih =>
    unfold find at h
    split_ifs at h with hk
    · cases h; subst hk; exact List.mem_cons_self
    · exact List.mem_cons_of_mem _ (ih h)

theorem find_eq_none_iff : find m k = none ↔ k ∉ keys m := by
  induction m with
  | nil => simp [find, keys]
  | cons p m ih =>
    rw [find]
    split_ifs with hk
    · simp [keys, hk]
    · rw [ih]; simp [keys, Ne.symm hk]

theorem find_of_mem (hn : (keys m).Nodup) (h : (k, v) ∈ m) : find m k = some v := by
  induction m with
  | nil => cases h
  | cons p m ih =>
    obtain ⟨hp, hm⟩ := List.nodup_cons.1 hn
    unfold find
    rcases List.mem_cons.1 h with h | h
    · subst h; rw [if_pos rfl]
    · rw [if_neg (by rintro rfl; exact hp (mem_keys h))]
      exact ih hm h

theorem find_perm {m' : List (κ × β)} (hn : (keys m).Nodup) (hp : m.Perm m') (k : κ) :
    find m' k = find m k := by
  have hn' : (keys m').Nodup := (hp.map _).nodup_iff.1 hn
  cases h : find m k with
  | none =>
    rw [find_eq_none_iff] at h ⊢
    intro hk
    exact h ((hp.map Prod.fst).mem_iff.2 hk)
  | some v => exact find_of_mem hn' (hp.mem_iff.1 (mem_of_find h))

theorem find_cons_self (m : List (κ × β)) (k : κ) (v : β) : find ((k, v) :: m) k = some v :=
  if_pos rfl

theorem find_cons_ne {k' : κ} (m : List (κ × β)) (v : β) (h : k' ≠ k) :
    find ((k, v) :: m) k' = find m k' := if_neg (Ne.symm h)

theorem find_insert_self (m : List (κ × β)) (k : κ) (v : β) : find (insert lt m k v) k = some v := by
  induction m with
  | nil => exact find_cons_self [] k v
  | cons p m ih =>
    unfold insert
    split_ifs with hlt hk
    · exact find_cons_self _ k v
    · exact find_cons_self _ k v
    · unfold find
      rw [if_neg hk]; exact ih

/-- Inserting an absent key adds one pair. -/
theorem insert_perm (h : find m k = none) : (insert lt m k v).Perm ((k, v) :: m) := by
  rw [find_eq_none_iff] at h
  induction m with
  | nil => exact List.Perm.refl _
  | cons p m ih =>
    have hp : p.1 ≠ k := fun e => h (e ▸ List.mem_cons_self)
    unfold insert
    split_ifs
    · exact List.Perm.refl _
    · exact ((ih (fun hk => h (List.mem_cons_of_mem _ hk))).cons p).trans (List.Perm.swap _ _ _)

/-- Erasing a present key removes one pair. -/
theorem erase_perm (hn : (keys m).Nodup) (h : find m k = some v) :
    m.Perm ((k, v) :: erase m k) := by
  have hm := mem_of_find h
  clear h
  induction m with
  | nil => cases hm
  | cons p m ih =>
    obtain ⟨hp, hn⟩ := List.nodup_cons.1 hn
    unfold erase
    rcases List.mem_cons.1 hm with h | h
    · -- the key is not in the rest
      subst h
      rw [List.filter_cons_of_neg (by simp), List.filter_eq_self.2]
      intro q hq
      have : q.1 ≠ k := fun e => hp (e ▸ mem_keys hq)
      simpa using this
    · have hk : p.1 ≠ k := fun e => hp (e ▸ mem_keys h)
      rw [List.filter_cons_of_pos (by simpa using hk)]
      exact ((ih hn h).cons p).trans (List.Perm.swap _ _ _)

/-- A pair inserted under an absent key is erased again without trace. -/
theorem erase_insert (h : find m k = none) : erase (insert lt m k v) k = m := by
  rw [find_eq_none_iff] at h
  induction m with
  | nil => simp [insert, erase]
  | cons p m ih =>
    have hp : p.1 ≠ k := fun e => h (e ▸ List.mem_cons_self)
    have hm : erase m k = m := by
      apply List.filter_eq_self.2
      intro q hq
      have : q.1 ≠ k := fun e => h (e ▸ List.mem_cons_of_mem _ (mem_keys hq))
      simpa using this
    unfold insert
    split_ifs
    · unfold erase at hm ⊢
      rw [List.filter_cons_of_neg (by simp), List.filter_cons_of_pos (by simpa using hp), hm]
    · unfold erase at ih ⊢
      rw [List.filter_cons_of_pos (by simpa using hp), ih (fun hk => h (List.mem_cons_of_mem _ hk))]

theorem mem_insert {p : κ × β} (h : p ∈ insert lt m k v) : p = (k, v) ∨ p ∈ m := by
  induction m with
  | nil => exact Or.inl (List.mem_singleton.1 h)
  | cons q m ih =>
    unfold insert at h
    split_ifs at h
    · exact List.mem_cons.1 h
    · exact (List.mem_cons.1 h).imp_right (List.mem_cons_of_mem q)
    · rcases List.mem_cons.1 h with rfl | h
      · exact Or.inr List.mem_cons_self
      · exact (ih h).imp_right (List.mem_cons_of_mem q)

/-- **Insertion keeps the key order.** -/
theorem insert_sorted (htrans : ∀ a b c, lt a b = true → lt b c = true → lt a c = true)
    (htri : ∀ a b, lt a b = true ∨ a = b ∨ lt b a = true)
    (h : m.Pairwise fun p q => lt p.1 q.1 = true) :
    (insert lt m k v).Pairwise fun p q => lt p.1 q.1 = true := by
  induction m with
  | nil => exact List.pairwise_singleton _ _
  | cons p m ih =>
    obtain ⟨hp, hm⟩ := List.pairwise_cons.1 h
    unfold insert
    split_ifs with hlt hk
    · refine List.pairwise_cons.2 ⟨?_, h⟩
      intro q hq
      rcases List.mem_cons.1 hq with rfl | hq
      · exact hlt
      · exact htrans _ _ _ hlt (hp q hq)
    · subst hk
      exact List.pairwise_cons.2 ⟨hp, hm⟩
    · refine List.pairwise_cons.2 ⟨?_, ih hm⟩
      intro q hq
      rcases mem_insert hq with rfl | hq
      · rcases htri k p.1 with h' | h' | h'
        · exact absurd h' hlt
        · exact absurd h'.symm hk
        · exact h'
      · exact hp q hq

theorem find_insert_ne {k' : κ} (h : find m k = none) (hk : (keys m).Nodup) (hne : k' ≠ k) :
    find (insert lt m k v) k' = find m k' := by
  have hp : (insert lt m k v).Perm ((k, v) :: m) := insert_perm h
  have hn : (keys ((k, v) :: m)).Nodup := List.nodup_cons.2 ⟨find_eq_none_iff.1 h, hk⟩
  rw [find_perm hn hp.symm, find_cons_ne m v hne]

theorem find_erase (m : List (κ × β)) (k k' : κ) :
    find (erase m k) k' = if k' = k then none else find m k' := by
  induction m with
  | nil => simp [erase, find]
  | cons p m ih =>
    unfold erase at ih ⊢
    rw [List.filter_cons]
    by_cases hp : p.1 = k
    · rw [if_neg (by simpa using hp), ih]
      split_ifs with hk
      · rfl
      · rw [find, if_neg (by rw [hp]; exact Ne.symm hk)]
    · rw [if_pos (by simpa using hp), find, ih, find]
      split_ifs with h1 h2
      · exact absurd (h1.trans h2) hp
      all_goals rfl

end OsLab.Lib
