import OsLab.Lib.Locks
import Mathlib.Logic.Function.Basic

/-!
# Regions under a mutex

The data of the threads is divided among mutexes, `E m` to mutex `m`. The region of a thread begins
where it locks such a mutex and ends where it unlocks it. In between the thread uses that part of the
data, and outside its regions none; it may lock further mutexes inside.

`RegionCode.code` takes one step for each statement, and `Atomic` one for each region.

* `regions_atomic`: whatever is reached statement by statement is reached region by region, but for the
  regions that are still open (`Behind`).
* `regions_reached`: what is reached region by region is reached statement by statement.
-/

namespace OsLab.Lib

/-- The mutex that is locked. -/
def LockOp.lockOf {M : Type*} : LockOp M → Option M
  | .lock m => some m
  | _ => Option.none

/-- The mutex that is unlocked. -/
def LockOp.unlockOf {M : Type*} : LockOp M → Option M
  | .unlock m => some m
  | _ => Option.none

theorem LockOp.holds_lock {M : Type*} (m : M) (l : List M) : LockOp.Holds l (m :: l) (.lock m) :=
  fun _ => List.mem_cons

theorem LockOp.holds_unlock {M : Type*} {m : M} {l : List M} (h : m ∉ l) :
    LockOp.Holds (m :: l) l (.unlock m) := by
  intro x
  rw [List.mem_cons]
  constructor
  · intro hx
    exact ⟨fun heq => h (heq ▸ hx), .inr hx⟩
  · rintro ⟨hne, hx⟩
    exact hx.resolve_left hne

/-- Code with regions: the mutex of the region that a point is in, and the steps of a thread from the
points outside and inside. -/
structure RegionCode (T M P : Type*) (E : M → Type*) where
  op : P → LockOp M
  region : P → Option M
  outside : T → P → P → Prop
  inside : (m : M) → T → E m × P → E m × P → Prop

variable {T M P : Type*} {E : M → Type*} [DecidableEq T] [DecidableEq M]

/-- A step inside a region that does not end it. -/
def RegionCode.Body (C : RegionCode T M P E) (m : M) (t : T) (a b : E m × P) : Prop :=
  C.inside m t a b ∧ (C.op a.2).unlockOf ≠ some m

/-- A statement of thread `t`. -/
inductive RegionCode.Flow (C : RegionCode T M P E) (t : T) :
    (∀ m, E m) → P → (∀ m, E m) → P → Prop where
  | outside {d p q} (hp : C.region p = none) (h : C.outside t p q) : C.Flow t d p d q
  | inside {d p q m x} (hp : C.region p = some m) (h : C.inside m t (d m, p) (x, q)) :
      C.Flow t d p (Function.update d m x) q

/-- Statement by statement. -/
def RegionCode.code (C : RegionCode T M P E) : LockCode T M P (∀ m, E m) where
  op := C.op
  Flow := C.Flow

/-- Region by region: where the threads are, and the data. -/
inductive RegionCode.Atomic (C : RegionCode T M P E) :
    (T → P) × (∀ m, E m) → T → (T → P) × (∀ m, E m) → Prop where
  | outside {a t q} (hp : C.region (a.1 t) = none) (hop : (C.op (a.1 t)).lockOf = none)
      (h : C.outside t (a.1 t) q) : C.Atomic a t (Function.update a.1 t q, a.2)
  | region {a t m p x p' y q} (hp : C.region (a.1 t) = none) (hop : (C.op (a.1 t)).lockOf = some m)
      (henter : C.outside t (a.1 t) p) (hbody : Relation.ReflTransGen (C.Body m t) (a.2 m, p) (x, p'))
      (hop' : (C.op p').unlockOf = some m) (hleave : C.inside m t (x, p') (y, q)) :
      C.Atomic a t (Function.update a.1 t q, Function.update a.2 m y)

/-- Regions begin and end at their mutex, which is held in between, and outside them nothing is. -/
structure RegionCode.Bracketed (C : RegionCode T M P E) (held : P → List M) (rank : M → ℕ) : Prop where
  disciplined : C.code.Disciplined held rank
  enter : ∀ {t p q}, C.region p = none → C.outside t p q → C.region q = (C.op p).lockOf
  stay : ∀ {m t x p y q}, C.region p = some m → C.Body m t (x, p) (y, q) → C.region q = some m
  leave : ∀ {m t x p y q}, C.region p = some m → C.inside m t (x, p) (y, q) →
    (C.op p).unlockOf = some m → C.region q = none
  mem_held : ∀ {p m}, C.region p = some m → m ∈ held p
  idle : ∀ {p}, C.region p = none → held p = []

variable {C : RegionCode T M P E} {held : P → List M} {rank : M → ℕ}
  {s s' : Locked T M P (∀ m, E m)} {a : (T → P) × (∀ m, E m)} {t u : T} {m : M}

/-! ## From the statements to the regions -/

/-- Thread `t` has opened the region of `m`, and come to `p` in it, with `x` in its part of the data. -/
def RegionCode.Opened (C : RegionCode T M P E) (a : (T → P) × (∀ m, E m)) (t : T) (m : M) (x : E m)
    (p : P) : Prop :=
  C.region (a.1 t) = none ∧ (C.op (a.1 t)).lockOf = some m ∧
    ∃ p₀, C.outside t (a.1 t) p₀ ∧ Relation.ReflTransGen (C.Body m t) (a.2 m, p₀) (x, p)

/-- `a` is `s` without what the open regions have done so far. -/
structure RegionCode.Behind (C : RegionCode T M P E) (a : (T → P) × (∀ m, E m))
    (s : Locked T M P (∀ m, E m)) : Prop where
  closed : ∀ t, C.region (s.pc t) = none → a.1 t = s.pc t
  opened : ∀ t m, C.region (s.pc t) = some m → C.Opened a t m (s.data m) (s.pc t)
  data : ∀ m, (∀ t, C.region (s.pc t) ≠ some m) → a.2 m = s.data m

omit [DecidableEq T] in
/-- At most one thread is in the region of a mutex. -/
theorem region_unique (hC : C.Bracketed held rank) (h : OwnersHold held s)
    (ht : C.region (s.pc t) = some m) (hu : C.region (s.pc u) = some m) : t = u := by
  have htown := (h m t).2 (hC.mem_held ht)
  have huown := (h m u).2 (hC.mem_held hu)
  exact Option.some.inj (htown.symm.trans huown)

theorem step_flow (h : C.code.Step s t s') :
    ∃ q, C.Flow t s.data (s.pc t) s'.data q ∧ s'.pc = Function.update s.pc t q := by
  cases h with
  | lock _ _ hf => exact ⟨_, hf, rfl⟩
  | unlock _ hf => exact ⟨_, hf, rfl⟩
  | none _ hf => exact ⟨_, hf, rfl⟩

/-- A step of thread `t`, which has its region for itself. -/
theorem RegionCode.Behind.step {a' : (T → P) × (∀ m, E m)} (hb : C.Behind a s)
    (huniq : ∀ u, u ≠ t → ∀ m, C.region (s.pc t) = some m → C.region (s.pc u) ≠ some m)
    (hpc : ∀ u, u ≠ t → s'.pc u = s.pc u ∧ a'.1 u = a.1 u)
    (hdata : ∀ m, C.region (s.pc t) ≠ some m → s'.data m = s.data m ∧ a'.2 m = a.2 m)
    (hclosed : C.region (s'.pc t) = none → a'.1 t = s'.pc t)
    (hopened : ∀ m, C.region (s'.pc t) = some m → C.Opened a' t m (s'.data m) (s'.pc t))
    (hleft : ∀ m, C.region (s.pc t) = some m → C.region (s'.pc t) ≠ some m → a'.2 m = s'.data m) :
    C.Behind a' s' := by
  constructor
  · intro u hu
    by_cases hut : u = t
    · subst hut
      exact hclosed hu
    · rw [(hpc u hut).1] at hu ⊢
      rw [(hpc u hut).2]
      exact hb.closed u hu
  · intro u m hu
    by_cases hut : u = t
    · subst hut
      exact hopened m hu
    · rw [(hpc u hut).1] at hu ⊢
      have hm := hdata m fun ht => huniq u hut m ht hu
      have hopen := hb.opened u m hu
      rw [RegionCode.Opened, (hpc u hut).2, hm.1, hm.2]
      exact hopen
  · intro m hm
    by_cases ht : C.region (s.pc t) = some m
    · exact hleft m ht (hm t)
    · rw [(hdata m ht).1, (hdata m ht).2]
      refine hb.data m fun u hu => ?_
      by_cases hut : u = t
      · exact ht (hut ▸ hu)
      · exact hm u ((hpc u hut).1 ▸ hu)

/-- **One statement** is a part of a region, or ends one, or is outside. -/
theorem step_behind (hC : C.Bracketed held rank) (h : OwnersHold held s) (hb : C.Behind a s)
    (hst : C.code.Step s t s') : ∃ a', (a' = a ∨ C.Atomic a t a') ∧ C.Behind a' s' := by
  have h' := step_ownersHold hC.disciplined h hst
  obtain ⟨q, hf, hq⟩ := step_flow hst
  have hself : s'.pc t = q := by rw [hq, Function.update_self]
  have hother : ∀ u, u ≠ t → s'.pc u = s.pc u := fun u hu => by rw [hq, Function.update_of_ne hu]
  have huniq : ∀ u, u ≠ t → ∀ m, C.region (s.pc t) = some m → C.region (s.pc u) ≠ some m :=
    fun u hu m ht hm => hu (region_unique hC h hm ht)
  generalize hd : s'.data = d at hf
  cases hf with
  | outside hp ho =>
    have ha := hb.closed t hp
    have hregion := hC.enter hp ho
    rw [← hself] at hregion
    have hout : ∀ m, C.region (s.pc t) ≠ some m := fun m hm => by rw [hp] at hm; cases hm
    cases hop : (C.op (s.pc t)).lockOf with
    | none =>
      rw [hop] at hregion
      refine ⟨(Function.update a.1 t q, a.2), .inr (.outside (ha ▸ hp) (ha ▸ hop) (ha ▸ ho)), ?_⟩
      refine hb.step huniq (fun u hu => ⟨hother u hu, Function.update_of_ne hu _ _⟩)
        (fun m _ => ⟨congrFun hd m, rfl⟩) (fun _ => ?_) (fun m hm => ?_)
        (fun m hm => absurd hm (hout m))
      · exact (Function.update_self ..).trans hself.symm
      · rw [hregion] at hm
        cases hm
    | some m =>
      -- the thread opens a region that nobody else is in
      rw [hop] at hregion
      refine ⟨a, .inl rfl, hb.step huniq (fun u hu => ⟨hother u hu, rfl⟩)
        (fun m _ => ⟨congrFun hd m, rfl⟩) (fun hq => ?_) (fun m' hm => ?_)
        (fun m hm => absurd hm (hout m))⟩
      · rw [hregion] at hq
        cases hq
      · obtain rfl : m = m' := Option.some.inj (hregion.symm.trans hm)
        have hfree : a.2 m = s.data m := by
          refine hb.data m fun u hu => ?_
          by_cases hut : u = t
          · exact hout m (hut ▸ hu)
          · exact hut (region_unique hC h' (by rw [hother u hut]; exact hu) hregion)
        refine ⟨ha ▸ hp, ha ▸ hop, q, ha ▸ ho, ?_⟩
        rw [hself, congrFun hd m, hfree]
  | @inside _ m x hp hi =>
    obtain ⟨hclosed, hlock, p₀, henter, hbody⟩ := hb.opened t m hp
    have hdm : s'.data m = x := by rw [hd, Function.update_self]
    have hne : ∀ m', C.region (s.pc t) ≠ some m' → m' ≠ m := fun m' hm heq => hm (heq ▸ hp)
    have hdata : ∀ m', C.region (s.pc t) ≠ some m' → s'.data m' = s.data m' := fun m' hm => by
      rw [hd, Function.update_of_ne (hne m' hm)]
    by_cases hun : (C.op (s.pc t)).unlockOf = some m
    · -- the thread leaves the region, which is taken as a whole now
      have hregion := hC.leave hp hi hun
      refine ⟨(Function.update a.1 t q, Function.update a.2 m x),
        .inr (.region hclosed hlock henter hbody hun hi), ?_⟩
      refine hb.step huniq (fun u hu => ⟨hother u hu, Function.update_of_ne hu _ _⟩)
        (fun m' hm => ⟨hdata m' hm, Function.update_of_ne (hne m' hm) _ _⟩)
        (fun _ => ?_) (fun m' hm => ?_) (fun m' hm _ => ?_)
      · exact (Function.update_self ..).trans hself.symm
      · rw [hself] at hm
        rw [hregion] at hm
        cases hm
      · obtain rfl : m = m' := Option.some.inj (hp.symm.trans hm)
        exact (Function.update_self ..).trans hdm.symm
    · have hregion := hC.stay hp ⟨hi, hun⟩
      refine ⟨a, .inl rfl, hb.step huniq (fun u hu => ⟨hother u hu, rfl⟩)
        (fun m' hm => ⟨hdata m' hm, rfl⟩) (fun hq => ?_) (fun m' hm => ?_) (fun m' hm hn => ?_)⟩
      · rw [hself] at hq
        rw [hregion] at hq
        cases hq
      · rw [hself] at hm ⊢
        obtain rfl : m = m' := Option.some.inj (hregion.symm.trans hm)
        rw [hdm]
        exact ⟨hclosed, hlock, p₀, henter, hbody.tail ⟨hi, hun⟩⟩
      · obtain rfl : m = m' := Option.some.inj (hp.symm.trans hm)
        exact absurd (hself ▸ hregion) hn

/-- **Regions are atomic**: what is reached statement by statement is reached region by region. -/
theorem regions_atomic (hC : C.Bracketed held rank) (h : OwnersHold held s) (hb : C.Behind a s)
    (hr : Reaches C.code.Step s s') : ∃ a', Reaches C.Atomic a a' ∧ C.Behind a' s' := by
  have hinv : OwnersHold held s' ∧ ∃ a', Reaches C.Atomic a a' ∧ C.Behind a' s' := by
    refine reaches_inv
      (I := fun s' => OwnersHold held s' ∧ ∃ a', Reaches C.Atomic a a' ∧ C.Behind a' s')
      (fun s₁ t s₂ hI hst => ?_) ⟨h, a, .refl a, hb⟩ hr
    obtain ⟨hown, a₁, hr₁, hb₁⟩ := hI
    obtain ⟨a₂, hstep, hb₂⟩ := step_behind hC hown hb₁ hst
    refine ⟨step_ownersHold hC.disciplined hown hst, a₂, ?_, hb₂⟩
    rcases hstep with rfl | hstep
    · exact hr₁
    · exact hr₁.snoc hstep
  exact hinv.2

/-! ## From the regions to the statements -/

/-- No thread is in a region. -/
def RegionCode.Quiet (C : RegionCode T M P E) (pc : T → P) : Prop := ∀ t, C.region (pc t) = none

/-- A thread that is alone in a region does not wait for a mutex. -/
theorem flow_step (hC : C.Bracketed held rank) (h : OwnersHold held s)
    (halone : ∀ u, u ≠ t → C.region (s.pc u) = none) {d : ∀ m, E m} {q : P}
    (hf : C.Flow t s.data (s.pc t) d q) :
    ∃ s', C.code.Step s t s' ∧ s'.pc = Function.update s.pc t q ∧ s'.data = d := by
  cases hop : C.op (s.pc t) with
  | lock m =>
    cases hown : s.owner m with
    | none => exact ⟨_, .lock hop hown hf, rfl, rfl⟩
    | some u =>
      by_cases hu : u = t
      · exact absurd (hu ▸ hown) (lock_not_own hC.disciplined h hop)
      · have hm := (h m u).1 hown
        rw [hC.idle (halone u hu)] at hm
        cases hm
  | unlock m => exact ⟨_, .unlock hop hf, rfl, rfl⟩
  | none => exact ⟨_, .none hop hf, rfl, rfl⟩

theorem body_reaches (hC : C.Bracketed held rank) (h : OwnersHold held s)
    (halone : ∀ u, u ≠ t → C.region (s.pc u) = none) (hp : C.region (s.pc t) = some m) {b : E m × P}
    (hbody : Relation.ReflTransGen (C.Body m t) (s.data m, s.pc t) b) :
    C.region b.2 = some m ∧ ∃ s', Reaches C.code.Step s s' ∧ s'.pc = Function.update s.pc t b.2 ∧
      s'.data = Function.update s.data m b.1 := by
  induction hbody with
  | refl => exact ⟨hp, s, .refl s, (Function.update_eq_self ..).symm, (Function.update_eq_self ..).symm⟩
  | @tail b c _ hstep ih =>
    obtain ⟨hb, s₁, hr, hpc, hdata⟩ := ih
    have hpct : s₁.pc t = b.2 := by rw [hpc, Function.update_self]
    have hown := owner_iff hC.disciplined h hr
    have hbody : C.Body m t (s₁.data m, s₁.pc t) (c.1, c.2) := by
      rw [hpct, hdata, Function.update_self]
      exact hstep
    rw [← hpct] at hb
    obtain ⟨s₂, hst, hpc₂, hdata₂⟩ := flow_step hC hown
      (fun u hu => by rw [hpc, Function.update_of_ne hu]; exact halone u hu) (.inside hb hbody.1)
    refine ⟨hC.stay hb hbody, s₂, hr.snoc hst, ?_, ?_⟩
    · rw [hpc₂, hpc, Function.update_idem]
    · rw [hdata₂, hdata, Function.update_idem]

theorem atomic_reached {a' : (T → P) × (∀ m, E m)} (hC : C.Bracketed held rank)
    (h : OwnersHold held s) (hquiet : C.Quiet s.pc) (hst : C.Atomic (s.pc, s.data) t a') :
    C.Quiet a'.1 ∧ ∃ s', Reaches C.code.Step s s' ∧ s'.pc = a'.1 ∧ s'.data = a'.2 := by
  have hset : ∀ {q}, C.region q = none → C.Quiet (Function.update s.pc t q) := fun {q} hq u => by
    by_cases hu : u = t
    · rw [hu, Function.update_self, hq]
    · rw [Function.update_of_ne hu, hquiet u]
  have halone : ∀ u, u ≠ t → C.region (s.pc u) = none := fun u _ => hquiet u
  generalize ha : (s.pc, s.data) = a at hst
  cases hst with
  | @outside q hp hop ho =>
    subst ha
    obtain ⟨s', hst, hpc, hdata⟩ := flow_step hC h halone (.outside hp ho)
    exact ⟨hset ((hC.enter hp ho).trans hop), s', (Reaches.refl s).snoc hst, hpc, hdata⟩
  | @region m p x p' y q hp hop henter hbody hop' hleave =>
    subst ha
    -- the lock, what is done inside, and the unlock
    obtain ⟨s₁, hst₁, hpc₁, hdata₁⟩ := flow_step hC h halone (.outside hp henter)
    have hown₁ := step_ownersHold hC.disciplined h hst₁
    have halone₁ : ∀ u, u ≠ t → C.region (s₁.pc u) = none := fun u hu => by
      rw [hpc₁, Function.update_of_ne hu, hquiet u]
    have hpct₁ : s₁.pc t = p := by rw [hpc₁, Function.update_self]
    have hregion₁ : C.region (s₁.pc t) = some m := by rw [hpct₁, hC.enter hp henter, hop]
    obtain ⟨hregion₂, s₂, hr₂, hpc₂, hdata₂⟩ := body_reaches (b := (x, p')) hC hown₁ halone₁ hregion₁
      (by rw [hpct₁, hdata₁]; exact hbody)
    have hpct₂ : s₂.pc t = p' := by rw [hpc₂, Function.update_self]
    have hdatam₂ : s₂.data m = x := by rw [hdata₂, Function.update_self]
    rw [← hpct₂] at hregion₂ hop' hleave
    rw [← hdatam₂] at hleave
    obtain ⟨s₃, hst₃, hpc₃, hdata₃⟩ := flow_step hC (owner_iff hC.disciplined hown₁ hr₂)
      (fun u hu => by rw [hpc₂, Function.update_of_ne hu]; exact halone₁ u hu) (.inside hregion₂ hleave)
    refine ⟨hset (hC.leave hregion₂ hleave hop'), s₃,
      (((Reaches.refl s).snoc hst₁).trans hr₂).snoc hst₃, ?_, ?_⟩
    · rw [hpc₃, hpc₂, hpc₁, Function.update_idem, Function.update_idem]
    · rw [hdata₃, hdata₂, hdata₁, Function.update_idem]

theorem regions_reached {a' : (T → P) × (∀ m, E m)} (hC : C.Bracketed held rank)
    (h : OwnersHold held s) (hquiet : C.Quiet s.pc) (hr : Reaches C.Atomic (s.pc, s.data) a') :
    C.Quiet a'.1 ∧ ∃ s', Reaches C.code.Step s s' ∧ s'.pc = a'.1 ∧ s'.data = a'.2 := by
  refine reaches_inv (I := fun a' => C.Quiet a'.1 ∧ ∃ s', Reaches C.code.Step s s' ∧ s'.pc = a'.1 ∧
    s'.data = a'.2) (fun a₁ t a₂ hI hst => ?_) ⟨hquiet, s, .refl s, rfl, rfl⟩ hr
  obtain ⟨hq₁, s₁, hr₁, hpc₁, hdata₁⟩ := hI
  obtain ⟨hq₂, s₂, hr₂, heq⟩ := atomic_reached hC (owner_iff hC.disciplined h hr₁) (hpc₁ ▸ hq₁)
    (show C.Atomic (s₁.pc, s₁.data) t a₂ by rw [hpc₁, hdata₁]; exact hst)
  exact ⟨hq₂, s₂, hr₁.trans hr₂, heq⟩

omit [DecidableEq T] [DecidableEq M] in
theorem behind_quiet (hquiet : C.Quiet s.pc) : C.Behind a s ↔ a = (s.pc, s.data) := by
  constructor
  · intro hb
    refine Prod.ext (funext fun t => hb.closed t (hquiet t)) (funext fun m => hb.data m fun t hm => ?_)
    rw [hquiet t] at hm
    cases hm
  · rintro rfl
    exact ⟨fun _ _ => rfl, fun t m hm => absurd ((hquiet t).symm.trans hm) (Option.some_ne_none m).symm,
      fun _ _ => rfl⟩

end OsLab.Lib
