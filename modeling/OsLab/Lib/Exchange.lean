import Mathlib.Data.List.Nodup
import Mathlib.Data.List.Range
import Mathlib.Logic.Equiv.Basic
import Mathlib.Order.Lattice
import Mathlib.Tactic.Common

/-!
# Exchange sort

The first `n` values of `f : ℕ → α` are sorted in place: pass `i` compares the value at `i` with each
later one, and exchanges the two when the later one is smaller.

* `exchangeSort_sorted`: the values are in order.
* `exchangeSort_perm`: they are the ones that were there.
-/

namespace OsLab.Lib

variable {α : Type*}

/-- The first `n` values are the same ones, maybe in another order. -/
def PermUpTo (f g : ℕ → α) (n : ℕ) : Prop := ((List.range n).map f).Perm ((List.range n).map g)

theorem PermUpTo.refl (f : ℕ → α) (n : ℕ) : PermUpTo f f n := List.Perm.refl _

theorem PermUpTo.trans {f g h : ℕ → α} {n : ℕ} (hfg : PermUpTo f g n) (hgh : PermUpTo g h n) :
    PermUpTo f h n := List.Perm.trans hfg hgh

variable [LinearOrder α] {f : ℕ → α} {n i j k : ℕ}

/-- `if (f[i] > f[j])` the two are exchanged. -/
def exchange (f : ℕ → α) (i j : ℕ) : ℕ → α := if f j < f i then f ∘ Equiv.swap i j else f

/-- Pass `i`, after `k` comparisons. -/
def exchangePass (f : ℕ → α) (i : ℕ) : ℕ → ℕ → α
  | 0 => f
  | k + 1 => exchange (exchangePass f i k) i (i + 1 + k)

/-- The sort of `n` values, after `m` passes. -/
def exchangeSort (f : ℕ → α) (n : ℕ) : ℕ → ℕ → α
  | 0 => f
  | m + 1 => exchangePass (exchangeSort f n m) m (n - (m + 1))

/-- The first `n` values are in order. -/
def SortedUpTo (f : ℕ → α) (n : ℕ) : Prop := ∀ a b, a ≤ b → b < n → f a ≤ f b

/-- The values before `i` are in order, and at most those after them. -/
def PlacedUpTo (f : ℕ → α) (n i : ℕ) : Prop := ∀ a b, a < i → a ≤ b → b < n → f a ≤ f b

theorem exchange_of_lt (h : f j < f i) : exchange f i j = f ∘ Equiv.swap i j := if_pos h

theorem exchange_of_le (h : f i ≤ f j) : exchange f i j = f := if_neg (not_lt.2 h)

theorem exchange_other (hi : k ≠ i) (hj : k ≠ j) : exchange f i j k = f k := by
  unfold exchange
  split_ifs
  · rw [Function.comp_apply, Equiv.swap_apply_of_ne_of_ne hi hj]
  · rfl

/-- The smaller value comes first. -/
theorem exchange_le (f : ℕ → α) (i j : ℕ) :
    exchange f i j i ≤ f i ∧ exchange f i j i ≤ f j ∧ exchange f i j i ≤ exchange f i j j := by
  rcases lt_or_ge (f j) (f i) with h | h
  · rw [exchange_of_lt h, Function.comp_apply, Function.comp_apply, Equiv.swap_apply_left,
      Equiv.swap_apply_right]
    exact ⟨h.le, le_rfl, h.le⟩
  · rw [exchange_of_le h]
    exact ⟨le_rfl, h, h⟩

/-- Every value is one that was there, at the same place or at one of the two. -/
theorem exchange_cases (f : ℕ → α) (i j k : ℕ) : exchange f i j k = f k ∨
    (k = i ∧ exchange f i j k = f j) ∨ (k = j ∧ exchange f i j k = f i) := by
  rcases lt_or_ge (f j) (f i) with h | h
  · rw [exchange_of_lt h, Function.comp_apply]
    by_cases hi : k = i
    · exact .inr (.inl ⟨hi, by rw [hi, Equiv.swap_apply_left]⟩)
    · by_cases hj : k = j
      · exact .inr (.inr ⟨hj, by rw [hj, Equiv.swap_apply_right]⟩)
      · exact .inl (by rw [Equiv.swap_apply_of_ne_of_ne hi hj])
  · exact .inl (by rw [exchange_of_le h])

theorem exchange_perm (f : ℕ → α) (hi : i < n) (hj : j < n) : PermUpTo (exchange f i j) f n := by
  unfold PermUpTo exchange
  split_ifs
  · have hswap : ((List.range n).map (Equiv.swap i j)).Perm (List.range n) := by
      refine (List.perm_ext_iff_of_nodup (List.Nodup.map (Equiv.swap i j).injective
        List.nodup_range) List.nodup_range).2 fun a => ?_
      rw [List.mem_map, List.mem_range]
      constructor
      · rintro ⟨b, hb, rfl⟩
        rw [List.mem_range] at hb
        rw [Equiv.swap_apply_def]
        split_ifs <;> assumption
      · intro ha
        refine ⟨Equiv.swap i j a, ?_, Equiv.swap_apply_self i j a⟩
        rw [List.mem_range, Equiv.swap_apply_def]
        split_ifs <;> assumption
    rw [← List.map_map]
    exact hswap.map f
  · exact List.Perm.refl _

theorem exchange_placed (h : PlacedUpTo f n i) (hij : i ≤ j) (hi : i < n) (hj : j < n) :
    PlacedUpTo (exchange f i j) n i := by
  intro a b ha hab hb
  rw [exchange_other (by omega) (by omega)]
  rcases exchange_cases f i j b with heq | ⟨-, heq⟩ | ⟨-, heq⟩
  · rw [heq]
    exact h a b ha hab hb
  · rw [heq]
    exact h a j ha (by omega) hj
  · rw [heq]
    exact h a i ha ha.le hi

/-- A pass keeps what is placed, and brings the least of the values compared to the front. -/
theorem exchangePass_spec (h : PlacedUpTo f n i) (hk : i + k < n) :
    PlacedUpTo (exchangePass f i k) n i ∧
      (∀ j, i ≤ j → j ≤ i + k → exchangePass f i k i ≤ exchangePass f i k j) ∧
      PermUpTo (exchangePass f i k) f n := by
  induction k with
  | zero =>
    refine ⟨h, fun j hij hj => ?_, PermUpTo.refl f n⟩
    rw [show j = i by omega]
  | succ k ih =>
    obtain ⟨hplaced, hleast, hperm⟩ := ih (by omega)
    have hstep : exchangePass f i (k + 1) = exchange (exchangePass f i k) i (i + 1 + k) := rfl
    rw [hstep]
    obtain ⟨hself, -, hlast⟩ := exchange_le (exchangePass f i k) i (i + 1 + k)
    refine ⟨exchange_placed hplaced (by omega) (by omega) (by omega), fun j hij hj => ?_,
      (exchange_perm _ (by omega) (by omega)).trans hperm⟩
    by_cases hend : j = i + 1 + k
    · rw [hend]
      exact hlast
    · by_cases hji : j = i
      · rw [hji]
      · rw [exchange_other hji hend]
        exact hself.trans (hleast j hij (by omega))

/-- **The passes** place one value after the other. -/
theorem exchangeSort_spec {m : ℕ} (hm : m ≤ n) :
    PlacedUpTo (exchangeSort f n m) n m ∧ PermUpTo (exchangeSort f n m) f n := by
  induction m with
  | zero => exact ⟨fun a b ha => absurd ha (Nat.not_lt_zero a), PermUpTo.refl f n⟩
  | succ m ih =>
    obtain ⟨hplaced, hperm⟩ := ih (by omega)
    have hend : m + (n - (m + 1)) < n := by omega
    obtain ⟨hplaced', hleast, hperm'⟩ := exchangePass_spec hplaced hend
    refine ⟨fun a b ha hab hb => ?_, hperm'.trans hperm⟩
    rcases Nat.lt_or_ge a m with hlt | hge
    · exact hplaced' a b hlt hab hb
    · obtain rfl : a = m := by omega
      exact hleast b hab (by omega)

/-- **The values are in order** after `n` passes. -/
theorem exchangeSort_sorted (f : ℕ → α) (n : ℕ) : SortedUpTo (exchangeSort f n n) n :=
  fun a b hab hb => (exchangeSort_spec le_rfl).1 a b (by omega) hab hb

/-- **The values are the same.** -/
theorem exchangeSort_perm (f : ℕ → α) (n : ℕ) : PermUpTo (exchangeSort f n n) f n :=
  (exchangeSort_spec le_rfl).2

end OsLab.Lib
