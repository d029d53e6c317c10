import OsLab.Lib.Machine
import Mathlib.Logic.Relation

/-!
# Mutexes and lock orders

Threads run some code over shared data, one step at a time, and each point of the code is labelled
with what the thread does there next: lock a mutex, unlock one, or neither. A wait on a condition
variable is an unlock, followed by a point at which the thread waits, and a lock.

`held p` lists the mutexes that a thread has to hold at point `p`. If the steps of the code keep to
it, the owners of the mutexes are given by it in every reachable state (`owner_iff`), and if every
mutex comes after those that are held where it is locked, no threads wait for each other in a circle
(`no_wait_cycle`).
-/

namespace OsLab.Lib

variable {T M P D : Type*}

/-- What a thread does at a point of its code. -/
inductive LockOp (M : Type*) where
  | lock (m : M)
  | unlock (m : M)
  | none

/-- The owners of the mutexes, the points that the threads have reached, and the data. -/
structure Locked (T M P D : Type*) where
  owner : M → Option T
  pc : T → P
  data : D

/-- Code: what is done at each point, and how thread `t` goes from a point to the next one. -/
structure LockCode (T M P D : Type*) where
  op : P → LockOp M
  Flow : T → D → P → D → P → Prop

/-- Thread `t` waits for a mutex that `u` holds. -/
def LockCode.WaitsFor (C : LockCode T M P D) (s : Locked T M P D) (t u : T) : Prop :=
  ∃ m, C.op (s.pc t) = .lock m ∧ s.owner m = some u

/-- A thread that holds `l` before the operation holds `l'` after it. -/
def LockOp.Holds (l l' : List M) : LockOp M → Prop
  | .lock m => ∀ x, x ∈ l' ↔ x = m ∨ x ∈ l
  | .unlock m => ∀ x, x ∈ l' ↔ x ≠ m ∧ x ∈ l
  | .none => ∀ x, x ∈ l' ↔ x ∈ l

/-- The code keeps to `held`, and locks in the order `rank`. -/
structure LockCode.Disciplined (C : LockCode T M P D) (held : P → List M) (rank : M → ℕ) : Prop where
  flow : ∀ {t d p d' q}, C.Flow t d p d' q → (C.op p).Holds (held p) (held q)
  own : ∀ {p m}, C.op p = .unlock m → m ∈ held p
  order : ∀ {p m}, C.op p = .lock m → ∀ x ∈ held p, rank x < rank m

variable {C : LockCode T M P D} {held : P → List M} {rank : M → ℕ} {s s' : Locked T M P D} {t : T}

/-- A mutex belongs to the thread that has to hold it. -/
def OwnersHold (held : P → List M) (s : Locked T M P D) : Prop :=
  ∀ m t, s.owner m = some t ↔ m ∈ held (s.pc t)

/-- Along a chain of waiting threads the mutexes they wait for come later and later. -/
theorem waits_rank (hC : C.Disciplined held rank) (h : OwnersHold held s) {u : T}
    (hw : Relation.TransGen (C.WaitsFor s) t u) {m m' : M} (hm : C.op (s.pc t) = .lock m)
    (hm' : C.op (s.pc u) = .lock m') : rank m < rank m' := by
  induction hw generalizing m' with
  | single hw =>
    obtain ⟨m₁, h₁, hown⟩ := hw
    obtain rfl : m₁ = m := LockOp.lock.inj (h₁.symm.trans hm)
    exact hC.order hm' m₁ ((h _ _).1 hown)
  | tail _ hw ih =>
    obtain ⟨m₁, h₁, hown⟩ := hw
    exact Nat.lt_trans (ih h₁) (hC.order hm' m₁ ((h _ _).1 hown))

/-- **No circular wait**: no thread waits, over other threads, for itself. -/
theorem no_wait_cycle (hC : C.Disciplined held rank) (h : OwnersHold held s) (t : T) :
    ¬ Relation.TransGen (C.WaitsFor s) t t := by
  intro hw
  obtain ⟨m, hm⟩ : ∃ m, C.op (s.pc t) = .lock m := by
    obtain ⟨u, ⟨m, hm, -⟩, -⟩ := Relation.TransGen.head'_iff.1 hw
    exact ⟨m, hm⟩
  exact Nat.lt_irrefl _ (waits_rank hC h hw hm hm)

/-- A thread does not lock a mutex that it holds. -/
theorem lock_not_own (hC : C.Disciplined held rank) (h : OwnersHold held s) {m : M}
    (hm : C.op (s.pc t) = .lock m) : s.owner m ≠ some t := fun hown =>
  Nat.lt_irrefl _ (hC.order hm m ((h m t).1 hown))

/-- A thread unlocks only a mutex that it holds. -/
theorem unlock_own (hC : C.Disciplined held rank) (h : OwnersHold held s) {m : M}
    (hm : C.op (s.pc t) = .unlock m) : s.owner m = some t := (h m t).2 (hC.own hm)

variable [DecidableEq T] [DecidableEq M]

/-- A step of a thread. Whoever unlocks a mutex, it has no owner afterwards. -/
inductive LockCode.Step (C : LockCode T M P D) : Locked T M P D → T → Locked T M P D → Prop where
  | lock {s : Locked T M P D} {t : T} {m : M} {d : D} {q : P} (h : C.op (s.pc t) = .lock m)
      (hfree : s.owner m = Option.none) (hf : C.Flow t s.data (s.pc t) d q) :
      C.Step s t ⟨Function.update s.owner m (some t), Function.update s.pc t q, d⟩
  | unlock {s : Locked T M P D} {t : T} {m : M} {d : D} {q : P} (h : C.op (s.pc t) = .unlock m)
      (hf : C.Flow t s.data (s.pc t) d q) :
      C.Step s t ⟨Function.update s.owner m Option.none, Function.update s.pc t q, d⟩
  | none {s : Locked T M P D} {t : T} {d : D} {q : P} (h : C.op (s.pc t) = .none)
      (hf : C.Flow t s.data (s.pc t) d q) :
      C.Step s t ⟨s.owner, Function.update s.pc t q, d⟩

omit [DecidableEq M] in
/-- Thread `t` goes to `q`: its mutexes are those that `q` has to hold, and no other thread's mutexes
change. -/
theorem OwnersHold.update {q : P} {owner : M → Option T} {d : D} (h : OwnersHold held s)
    (hown : ∀ m, owner m = some t ↔ m ∈ held q)
    (hother : ∀ m u, u ≠ t → (owner m = some u ↔ s.owner m = some u)) :
    OwnersHold held ⟨owner, Function.update s.pc t q, d⟩ := by
  intro m u
  dsimp only
  by_cases hu : u = t
  · subst hu
    rw [Function.update_self]
    exact hown m
  · rw [Function.update_of_ne hu]
    exact (hother m u hu).trans (h m u)

theorem step_ownersHold (hC : C.Disciplined held rank) (h : OwnersHold held s) (hst : C.Step s t s') :
    OwnersHold held s' := by
  cases hst with
  | @lock m₀ d q hop hfree hf =>
    have hq : ∀ x, x ∈ held q ↔ x = m₀ ∨ x ∈ held (s.pc t) := by
      have := hC.flow hf
      rwa [hop] at this
    refine h.update (fun m => ?_) fun m u hu => ?_
    · rw [hq, ← h m t]
      rcases eq_or_ne m m₀ with rfl | hm
      · simp
      · simp [hm]
    · rcases eq_or_ne m m₀ with rfl | hm
      · rw [Function.update_self, hfree]
        simp [Ne.symm hu]
      · rw [Function.update_of_ne hm]
  | @unlock m₀ d q hop hf =>
    have hq : ∀ x, x ∈ held q ↔ x ≠ m₀ ∧ x ∈ held (s.pc t) := by
      have := hC.flow hf
      rwa [hop] at this
    refine h.update (fun m => ?_) fun m u hu => ?_
    · rw [hq, ← h m t]
      rcases eq_or_ne m m₀ with rfl | hm
      · simp
      · simp [hm]
    · rcases eq_or_ne m m₀ with rfl | hm
      · rw [Function.update_self, unlock_own hC h hop]
        simp [Ne.symm hu]
      · rw [Function.update_of_ne hm]
  | @none d q hop hf =>
    have hq : ∀ x, x ∈ held q ↔ x ∈ held (s.pc t) := by
      have := hC.flow hf
      rwa [hop] at this
    exact h.update (fun m => (h m t).trans (hq m).symm) fun _ _ _ => Iff.rfl

/-- **The owners of the mutexes** in every reachable state. -/
theorem owner_iff (hC : C.Disciplined held rank) (h : OwnersHold held s) (hr : Reaches C.Step s s') :
    OwnersHold held s' :=
  reaches_inv (I := OwnersHold held) (fun _ _ _ hs hst => step_ownersHold hC hs hst) h hr

end OsLab.Lib
