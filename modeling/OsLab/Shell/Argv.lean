import OsLab.Lib.Vec
import OsLab.Shell.Print
import Mathlib.Tactic.Positivity
import Mathlib.Tactic.Ring

/-!
# The array of the arguments (`vector.c`)

`cmd_parse` pushes the arguments into `args`, whose array the child gives to `execvp`. An entry of the
array is unwritten until a push writes it: `malloc` and `realloc` leave it as it is. A push writes the
entry of the new last argument, and nothing writes the one after it (`Holds.push`). So no array is
terminated (`not_terminated`).
-/

namespace OsLab.Shell

open Lib

/-- A pointer to a string, or `NULL`. -/
abbrev CharPtr := Option (List Char)

/-- `vector_string`. An entry that has not been written is `none`. -/
structure VectorString where
  data : Vec (Option CharPtr)
  size : ℤ
  capacity : ℤ

/-- `vector_string_init`. -/
def vectorStringInit (capacity : ℤ) : VectorString :=
  ⟨Vec.replicate capacity.toNat none, 0, capacity⟩

/-- `realloc`: what is past the old array is unwritten. -/
def reallocData (data : Vec (Option CharPtr)) (n : ℕ) : Vec (Option CharPtr) :=
  ⟨n, fun i => if i < data.size then data.val i else none⟩

/-- `if (v->size == v->capacity)`. -/
def growIfFull (v : VectorString) : Option VectorString :=
  if v.size = v.capacity then do
    let capacity ← addInt v.capacity v.capacity
    some { v with capacity := capacity, data := reallocData v.data capacity.toNat }
  else some v

/-- `vector_string_push_back`. -/
def vectorStringPushBack (v : VectorString) (s : List Char) : Option VectorString := do
  let v ← growIfFull v
  let data ← v.data.set v.size.toNat (some (some s))
  let size ← addInt v.size 1
  some { v with data := data, size := size }

/-- `MAX_ARGS`. -/
def maxArgs : ℤ := 32

/-- `c->args` after `cmd_parse` has found these arguments. -/
def argsVector (args : List (List Char)) : Option VectorString :=
  args.foldlM vectorStringPushBack (vectorStringInit maxArgs)

/-- The vector has these arguments, and no other entry is written. -/
structure Holds (v : VectorString) (args : List (List Char)) : Prop where
  size : v.size = args.length
  alloc : v.capacity = v.data.size
  fits : v.size ≤ v.capacity
  doubled : ∃ k : ℕ, v.capacity = maxArgs * 2 ^ k
  entries : ∀ i, v.data.val i = args[i]?.map some

/-- The array has the arguments in order, and a `NULL` after the last one. -/
def Terminated (args : List (List Char)) : Prop :=
  ∃ v, argsVector args = some v ∧ (∀ i s, args[i]? = some s → v.data.at i = some (some (some s))) ∧
    v.size < v.capacity ∧ v.data.at v.size.toNat = some (some none)

section

variable {v w : VectorString} {args : List (List Char)} {s : List Char}

theorem holds_init : Holds (vectorStringInit maxArgs) [] where
  size := rfl
  alloc := by decide
  fits := by decide
  doubled := ⟨0, by decide⟩
  entries i := by simp [vectorStringInit, Vec.replicate]

theorem Holds.grow (h : Holds v args) (hw : growIfFull v = some w) :
    Holds w args ∧ w.size < w.capacity := by
  unfold growIfFull at hw
  split_ifs at hw with hfull
  · obtain ⟨c, hc, hw⟩ := Option.bind_eq_some_iff.1 hw
    obtain ⟨-, rfl⟩ := addInt_eq_some.1 hc
    cases hw
    obtain ⟨k, hk⟩ := h.doubled
    have hpos : 0 < v.capacity := by
      rw [hk]
      exact mul_pos (by decide) (by positivity)
    have hdouble : v.capacity < v.capacity + v.capacity := by omega
    refine ⟨⟨h.size, ?_, h.fits.trans hdouble.le, ⟨k + 1, ?_⟩, fun i => ?_⟩,
      lt_of_le_of_lt h.fits hdouble⟩
    · exact (Int.toNat_of_nonneg (hpos.trans hdouble).le).symm
    · rw [hk, pow_succ]
      ring
    · have hentry := h.entries i
      by_cases hi : i < v.data.size
      · exact (if_pos hi).trans hentry
      · have hlen : args.length ≤ i := by
          have := h.size
          have := h.fits
          have := h.alloc
          omega
        rw [List.getElem?_eq_none hlen]
        exact if_neg hi
  · cases hw
    exact ⟨h, lt_of_le_of_ne h.fits hfull⟩

/-- **A push** writes the entry of its string. -/
theorem Holds.push (h : Holds v args) (hw : vectorStringPushBack v s = some w) :
    Holds w (args ++ [s]) := by
  obtain ⟨u, hu, hw⟩ := Option.bind_eq_some_iff.1 hw
  obtain ⟨data, hdata, hw⟩ := Option.bind_eq_some_iff.1 hw
  obtain ⟨size, hsize, hw⟩ := Option.bind_eq_some_iff.1 hw
  obtain ⟨-, rfl⟩ := addInt_eq_some.1 hsize
  obtain ⟨-, rfl⟩ := Vec.set_eq_some.1 hdata
  cases hw
  obtain ⟨hu, hlt⟩ := h.grow hu
  refine ⟨?_, hu.alloc, hlt, hu.doubled, fun i => ?_⟩
  · rw [hu.size]
    simp
  · have hlast : u.size.toNat = args.length := by
      rw [hu.size]
      rfl
    show Function.update u.data.val u.size.toNat (some (some s)) i = _
    rw [hlast]
    rcases lt_trichotomy i args.length with hi | rfl | hi
    · rw [Function.update_of_ne hi.ne, hu.entries, List.getElem?_append_left hi]
    · simp
    · rw [Function.update_of_ne hi.ne', hu.entries, List.getElem?_eq_none hi.le,
        List.getElem?_eq_none (by simpa using Nat.succ_le_of_lt hi)]

/-- **The vector** of the arguments. -/
theorem holds_argsVector (hv : argsVector args = some v) : Holds v args := by
  have hrun : ∀ (rest : List (List Char)) (done : List (List Char)) (u : VectorString),
      Holds u done → rest.foldlM vectorStringPushBack u = some v → Holds v (done ++ rest) := by
    intro rest
    induction rest with
    | nil =>
      intro done u hu hv
      cases hv
      rwa [List.append_nil]
    | cons s rest ih =>
      intro done u hu hv
      rw [List.foldlM_cons] at hv
      obtain ⟨w, hw, hv⟩ := Option.bind_eq_some_iff.1 hv
      have := ih (done ++ [s]) w (hu.push hw) hv
      rwa [List.append_assoc] at this
  exact hrun args [] _ holds_init hv

/-- A push succeeds if the sizes stay in the range of `int`. -/
theorem Holds.exists_push (h : Holds v args) (hlen : args.length < 2 ^ 30) (s : List Char) :
    ∃ w, vectorStringPushBack v s = some w := by
  have hsize := h.size
  have hmax : intMax = 2 * 2 ^ 30 - 1 := by decide
  have hmin : intMin ≤ 0 := by decide
  obtain ⟨u, hu⟩ : ∃ u, growIfFull v = some u := by
    unfold growIfFull
    split_ifs with hfull
    · exact ⟨_, Option.bind_eq_some_iff.2
        ⟨_, addInt_eq_some.2 ⟨⟨by omega, by omega⟩, rfl⟩, rfl⟩⟩
    · exact ⟨v, rfl⟩
  obtain ⟨hholds, hlt⟩ := h.grow hu
  have hroom : u.size.toNat < u.data.size := by
    have := hholds.size
    have := hholds.alloc
    omega
  have hnext : addInt u.size 1 = some (u.size + 1) :=
    addInt_eq_some.2 ⟨⟨by have := hholds.size; omega, by have := hholds.size; omega⟩, rfl⟩
  exact ⟨_, Option.bind_eq_some_iff.2 ⟨u, hu, Option.bind_eq_some_iff.2
    ⟨_, Vec.set_eq hroom _, Option.bind_eq_some_iff.2 ⟨_, hnext, rfl⟩⟩⟩⟩

/-- **The array** has up to 2³⁰ arguments in order, and ends with the last one or goes on with an
unwritten entry. -/
theorem args_in_order (hlen : args.length ≤ 2 ^ 30) : ∃ v, argsVector args = some v ∧
    (∀ i s, args[i]? = some s → v.data.at i = some (some (some s))) ∧
    (v.size = v.capacity ∨ v.data.at v.size.toNat = some none) := by
  have hrun : ∃ v, argsVector args = some v := by
    induction args using List.reverseRecOn with
    | nil => exact ⟨_, rfl⟩
    | append_singleton args s ih =>
      rw [List.length_append] at hlen
      obtain ⟨v, hv⟩ := ih (Nat.le_of_lt hlen)
      obtain ⟨w, hw⟩ := (holds_argsVector hv).exists_push hlen s
      refine ⟨w, ?_⟩
      rw [argsVector, List.foldlM_append]
      exact Option.bind_eq_some_iff.2 ⟨v, hv, Option.bind_eq_some_iff.2 ⟨w, hw, rfl⟩⟩
  obtain ⟨v, hv⟩ := hrun
  obtain ⟨hsize, halloc, hfits, -, hentries⟩ := holds_argsVector hv
  refine ⟨v, hv, fun i s hs => ?_, ?_⟩
  · have hi : i < v.data.size := by
      have := (List.getElem?_eq_some_iff.1 hs).1
      omega
    rw [Vec.at_eq hi, hentries, hs]
    rfl
  · rcases eq_or_lt_of_le hfits with heq | hlt
    · exact .inl heq
    · right
      rw [Vec.at_eq (by omega), hentries, List.getElem?_eq_none (by omega)]
      rfl

theorem last_unwritten (args : List (List Char)) : ¬ Terminated args := by
  rintro ⟨v, hv, -, -, hnull⟩
  have hholds := holds_argsVector hv
  have hlast : v.size.toNat = args.length := by
    rw [hholds.size]
    rfl
  rw [Vec.at_eq_some, hholds.entries, hlast, List.getElem?_eq_none le_rfl] at hnull
  exact absurd hnull.2 (by simp)

/-- **No array of arguments is terminated.** -/
theorem not_terminated (glob : List Char → Except GlobErr (List (List Char))) (s : List Char)
    (bg : Bool) :
    ¬ ∃ y, cmdParse glob { cmdInit s with background := bg } = .ok y ∧ Terminated y.args := by
  rintro ⟨y, -, h⟩
  exact last_unwritten y.args h

/-- The array of `ls` has one argument, and what `malloc` left after it. -/
theorem ls_not_terminated : ¬ ∀ (glob : List Char → Except GlobErr (List (List Char)))
    (s : List Char) (bg : Bool) (y : Cmd),
    cmdParse glob { cmdInit s with background := bg } = .ok y → Terminated y.args := by
  intro hclaim
  have hok : (cmdParse (fun _ => .error .nomatch)
      { cmdInit "ls".toList with background := false }).toOption.isSome := by decide +kernel
  obtain ⟨y, hy⟩ := exists_ok hok
  exact last_unwritten y.args (hclaim _ _ _ y hy)

end

end OsLab.Shell
