import OsLab.Chaos.Model
import OsLab.Lib.Regions

/-!
# The statements of the chaos and order threads (`problem3.cpp`)

The regions of `Chaos.Model` are opened up here: each lock, each unlock and each statement under a mutex
is a step of its own, for any number of order threads. `mat_mutex` has the matrix, and `A_mutex` both of
the arrays, as `B_mutex` is locked under it only.

* `code_bracketed`: the regions begin and end at their mutexes.
* `chaos_waits`: no threads wait for each other in a circle, and nobody ever waits for `B_mutex`.
-/

namespace OsLab.Chaos.Statements

open Lib

inductive Mutex where
  | mat
  | a
  | b
  deriving DecidableEq

inductive Thread where
  | chaos
  | order (i : ℕ)
  deriving DecidableEq

/-- The data that a mutex stands for; `A_mutex` stands for `A` and `B`. -/
abbrev Part : Mutex → Type
  | .mat => Grid ℤ
  | .a => Vec ℤ × Vec ℤ
  | .b => Unit

/-- Where the chaos thread is, with `itr` rounds left after this one; `x`, `y` and `z` are what `rand`
has returned. -/
inductive ChaosPoint where
  /-- before `while(itr > 0)`, with `itr` rounds left -/
  | draw (itr : ℕ)
  /-- before the lock of `mat_mutex`, the write and the unlock -/
  | matLock (itr x y z : ℕ)
  | write (itr x y z : ℕ)
  | matUnlock (itr x : ℕ)
  /-- before the lock of `A_mutex`, the test of `A[i]`, and `A[i] = rand_r` -/
  | aLock (itr randR : ℕ)
  | aTest (itr randR i : ℕ)
  | aSet (itr randR i : ℕ)
  /-- before the lock of `B_mutex`, the write and the unlock -/
  | bLock (itr randR : ℕ)
  | bSet (itr randR : ℕ)
  | bUnlock (itr randR : ℕ)
  | aUnlock (itr randR : ℕ)

/-- Where an order thread is; `j` is `i + 1 + k`. -/
inductive OrderPoint where
  /-- before `while (itr > 0)`, with `itr` rounds left -/
  | loop (itr : ℕ)
  /-- before the lock of `A_mutex`, where `r` is `r0`, and the test of `A[i]` -/
  | aLock (itr : ℕ) (r0 : ℤ)
  | aTest (itr : ℕ) (r0 : ℤ) (i : ℕ)
  /-- before `r = A[i]`, and before `A[i] = -1` -/
  | aRead (itr i : ℕ)
  | aClear (itr i : ℕ) (r : ℤ)
  /-- before the lock of `B_mutex`, the write and the unlock -/
  | bLock (itr : ℕ) (r : ℤ)
  | bSet (itr : ℕ) (r : ℤ)
  | bUnlock (itr : ℕ) (r : ℤ)
  | aUnlock (itr : ℕ) (r : ℤ)
  /-- before the lock of `mat_mutex` -/
  | matLock (itr : ℕ) (r : ℤ)
  /-- in the loop that fills `arr` -/
  | copy (itr : ℕ) (r : ℤ) (i : ℕ) (arr : List ℤ)
  /-- before the comparison, and before each of the three statements that exchange -/
  | test (itr : ℕ) (r : ℤ) (i k : ℕ) (arr : List ℤ)
  | temp (itr : ℕ) (r : ℤ) (i k : ℕ) (arr : List ℤ)
  | move (itr : ℕ) (r : ℤ) (i k : ℕ) (temp : ℤ) (arr : List ℤ)
  | put (itr : ℕ) (r : ℤ) (i k : ℕ) (temp : ℤ) (arr : List ℤ)
  /-- in the loop that fills `arr1`, and before the unlock -/
  | copy1 (itr : ℕ) (r : ℤ) (i : ℕ) (arr arr1 : List ℤ)
  | matUnlock (itr : ℕ) (r : ℤ) (arr arr1 : List ℤ)

inductive Point where
  | chaos (p : ChaosPoint)
  | order (p : OrderPoint)

/-- What is done at a point. -/
def Point.op : Point → LockOp Mutex
  | .chaos (.matLock ..) | .order (.matLock ..) => .lock .mat
  | .chaos (.matUnlock ..) | .order (.matUnlock ..) => .unlock .mat
  | .chaos (.aLock ..) | .order (.aLock ..) => .lock .a
  | .chaos (.aUnlock ..) | .order (.aUnlock ..) => .unlock .a
  | .chaos (.bLock ..) | .order (.bLock ..) => .lock .b
  | .chaos (.bUnlock ..) | .order (.bUnlock ..) => .unlock .b
  | _ => .none

/-- The region that a point is in. -/
def Point.region : Point → Option Mutex
  | .chaos (.draw ..) | .chaos (.matLock ..) | .chaos (.aLock ..) => none
  | .chaos (.write ..) | .chaos (.matUnlock ..) => some .mat
  | .chaos _ => some .a
  | .order (.loop ..) | .order (.aLock ..) | .order (.matLock ..) => none
  | .order (.aTest ..) | .order (.aRead ..) | .order (.aClear ..) | .order (.bLock ..)
  | .order (.bSet ..) | .order (.bUnlock ..) | .order (.aUnlock ..) => some .a
  | .order _ => some .mat

/-! ## The code -/

/-- `chaos_func` outside its regions. -/
inductive ChaosOutside : ChaosPoint → ChaosPoint → Prop where
  | draw {itr} (x y z : ℕ) : ChaosOutside (.draw (itr + 1)) (.matLock itr x y z)
  | matLock {itr x y z} : ChaosOutside (.matLock itr x y z) (.write itr x y z)
  | aLock {itr r} : ChaosOutside (.aLock itr r) (.aTest itr r 0)

/-- `chaos_func` under `mat_mutex`. -/
inductive ChaosMat (rows cols : ℕ) : Grid ℤ × ChaosPoint → Grid ℤ × ChaosPoint → Prop where
  | write {M M' : Grid ℤ} {itr x y z} (h : M.set (draw x rows) (draw y cols) (draw z 1000) = some M') :
      ChaosMat rows cols (M, .write itr x y z) (M', .matUnlock itr x)
  | matUnlock {M itr x} : ChaosMat rows cols (M, .matUnlock itr x) (M, .aLock itr (draw x rows))

/-- `chaos_func` under `A_mutex`. -/
inductive ChaosArrays :
    (Vec ℤ × Vec ℤ) × ChaosPoint → (Vec ℤ × Vec ℤ) × ChaosPoint → Prop where
  | skip {A B itr r i x} (hi : i < 1000) (hx : A.at i = some x) (hne : x ≠ -1) :
      ChaosArrays ((A, B), .aTest itr r i) ((A, B), .aTest itr r (i + 1))
  | found {A B itr r i x} (hi : i < 1000) (hx : A.at i = some x) (heq : x = -1) :
      ChaosArrays ((A, B), .aTest itr r i) ((A, B), .aSet itr r i)
  | aSet {A A' : Vec ℤ} {B itr i} {r : ℕ} (h : A.set i r = some A') :
      ChaosArrays ((A, B), .aSet itr r i) ((A', B), .bLock itr r)
  | full {A B itr r i} (hi : ¬ i < 1000) : ChaosArrays ((A, B), .aTest itr r i) ((A, B), .bLock itr r)
  | bLock {A B itr r} : ChaosArrays ((A, B), .bLock itr r) ((A, B), .bSet itr r)
  | bSet {A B B' itr} {r : ℕ} (h : setFlag B r unprocessed = some B') :
      ChaosArrays ((A, B), .bSet itr r) ((A, B'), .bUnlock itr r)
  | bUnlock {A B itr r} : ChaosArrays ((A, B), .bUnlock itr r) ((A, B), .aUnlock itr r)
  | aUnlock {A B itr r} : ChaosArrays ((A, B), .aUnlock itr r) ((A, B), .draw itr)

/-- `order_func` outside its regions; `r` is not initialised. -/
inductive OrderOutside : OrderPoint → OrderPoint → Prop where
  | loop {itr} (r0 : ℤ) : OrderOutside (.loop (itr + 1)) (.aLock itr r0)
  | aLock {itr r0} : OrderOutside (.aLock itr r0) (.aTest itr r0 0)
  | matLock {itr r} : OrderOutside (.matLock itr r) (.copy itr r 0 [])

/-- `order_func` under `A_mutex`. -/
inductive OrderArrays :
    (Vec ℤ × Vec ℤ) × OrderPoint → (Vec ℤ × Vec ℤ) × OrderPoint → Prop where
  | skip {A B itr r0 i x} (hi : i < 1000) (hx : A.at i = some x) (hneg : ¬ 0 ≤ x) :
      OrderArrays ((A, B), .aTest itr r0 i) ((A, B), .aTest itr r0 (i + 1))
  | found {A B itr r0 i x} (hi : i < 1000) (hx : A.at i = some x) (hnonneg : 0 ≤ x) :
      OrderArrays ((A, B), .aTest itr r0 i) ((A, B), .aRead itr i)
  | aRead {A B itr i r} (h : A.at i = some r) :
      OrderArrays ((A, B), .aRead itr i) ((A, B), .aClear itr i r)
  | aClear {A A' : Vec ℤ} {B itr i r} (h : A.set i (-1) = some A') :
      OrderArrays ((A, B), .aClear itr i r) ((A', B), .bLock itr r)
  | missed {A B itr r0 i} (hi : ¬ i < 1000) :
      OrderArrays ((A, B), .aTest itr r0 i) ((A, B), .bLock itr r0)
  | bLock {A B itr r} : OrderArrays ((A, B), .bLock itr r) ((A, B), .bSet itr r)
  | bSet {A B B' itr r} (h : setFlag B r processed = some B') :
      OrderArrays ((A, B), .bSet itr r) ((A, B'), .bUnlock itr r)
  | bUnlock {A B itr r} : OrderArrays ((A, B), .bUnlock itr r) ((A, B), .aUnlock itr r)
  | aUnlock {A B itr r} : OrderArrays ((A, B), .aUnlock itr r) ((A, B), .matLock itr r)

/-- `order_func` under `mat_mutex`. -/
inductive OrderMat (cols : ℕ) : Grid ℤ × OrderPoint → Grid ℤ × OrderPoint → Prop where
  | copy {M itr r i arr x} (hi : i < cols) (hx : cell M r i = some x) :
      OrderMat cols (M, .copy itr r i arr) (M, .copy itr r (i + 1) (arr ++ [x]))
  | copied {M itr r i arr} (hi : ¬ i < cols) :
      OrderMat cols (M, .copy itr r i arr) (M, .test itr r 0 0 arr)
  | keep {M itr r i k arr x y} (hi : i < cols) (hj : i + 1 + k < cols) (hx : cell M r i = some x)
      (hy : cell M r (i + 1 + k) = some y) (hle : ¬ x > y) :
      OrderMat cols (M, .test itr r i k arr) (M, .test itr r i (k + 1) arr)
  | swap {M itr r i k arr x y} (hi : i < cols) (hj : i + 1 + k < cols) (hx : cell M r i = some x)
      (hy : cell M r (i + 1 + k) = some y) (hgt : x > y) :
      OrderMat cols (M, .test itr r i k arr) (M, .temp itr r i k arr)
  | temp {M itr r i k arr x} (hx : cell M r i = some x) :
      OrderMat cols (M, .temp itr r i k arr) (M, .move itr r i k x arr)
  | move {M M' itr r i k x y arr} (hy : cell M r (i + 1 + k) = some y)
      (h : setCell M r i y = some M') :
      OrderMat cols (M, .move itr r i k x arr) (M', .put itr r i k x arr)
  | put {M M' itr r i k x arr} (h : setCell M r (i + 1 + k) x = some M') :
      OrderMat cols (M, .put itr r i k x arr) (M', .test itr r i (k + 1) arr)
  | next {M itr r i k arr} (hi : i < cols) (hj : ¬ i + 1 + k < cols) :
      OrderMat cols (M, .test itr r i k arr) (M, .test itr r (i + 1) 0 arr)
  | sorted {M itr r i k arr} (hi : ¬ i < cols) :
      OrderMat cols (M, .test itr r i k arr) (M, .copy1 itr r 0 arr [])
  | copy1 {M itr r i arr arr1 x} (hi : i < cols) (hx : cell M r i = some x) :
      OrderMat cols (M, .copy1 itr r i arr arr1) (M, .copy1 itr r (i + 1) arr (arr1 ++ [x]))
  | copied1 {M itr r i arr arr1} (hi : ¬ i < cols) :
      OrderMat cols (M, .copy1 itr r i arr arr1) (M, .matUnlock itr r arr arr1)
  | matUnlock {M itr r arr arr1} : OrderMat cols (M, .matUnlock itr r arr arr1) (M, .loop itr)

inductive Outside (n : ℕ) : Thread → Point → Point → Prop where
  | chaos {p q} (h : ChaosOutside p q) : Outside n .chaos (.chaos p) (.chaos q)
  | order {i p q} (hi : i < n) (h : OrderOutside p q) : Outside n (.order i) (.order p) (.order q)

inductive Inside (rows cols n : ℕ) :
    (m : Mutex) → Thread → Part m × Point → Part m × Point → Prop where
  | chaosMat {M p M' q} (h : ChaosMat rows cols (M, p) (M', q)) :
      Inside rows cols n .mat .chaos (M, .chaos p) (M', .chaos q)
  | chaosArrays {x p x' q} (h : ChaosArrays (x, p) (x', q)) :
      Inside rows cols n .a .chaos (x, .chaos p) (x', .chaos q)
  | orderMat {i M p M' q} (hi : i < n) (h : OrderMat cols (M, p) (M', q)) :
      Inside rows cols n .mat (.order i) (M, .order p) (M', .order q)
  | orderArrays {i x p x' q} (hi : i < n) (h : OrderArrays (x, p) (x', q)) :
      Inside rows cols n .a (.order i) (x, .order p) (x', .order q)

def code (rows cols n : ℕ) : RegionCode Thread Mutex Point Part where
  op := Point.op
  region := Point.region
  outside := Outside n
  inside := Inside rows cols n

/-- The threads before their first step. -/
def start (M : Grid ℤ) : Locked Thread Mutex Point (∀ m, Part m) where
  owner _ := none
  pc t := match t with
    | .chaos => .chaos (.draw 30)
    | .order _ => .order (.loop 30)
  data m := match m with
    | .mat => M
    | .a => (Vec.replicate 1000 (-1), Vec.replicate 1000 (-1))
    | .b => ()

/-! ## The mutexes -/

/-- The mutexes that a thread holds at a point. -/
def Point.held : Point → List Mutex
  | .chaos (.bSet ..) | .chaos (.bUnlock ..) | .order (.bSet ..) | .order (.bUnlock ..) => [.b, .a]
  | p => p.region.toList

/-- `B_mutex` comes last. -/
def Mutex.rank : Mutex → ℕ
  | .b => 1
  | .a | .mat => 0

variable {rows cols n : ℕ}

theorem outside_region {t : Thread} {p q : Point} (h : Outside n t p q) :
    q.region = p.op.lockOf ∧ p.region = none := by
  cases h with
  | chaos h => cases h <;> exact ⟨rfl, rfl⟩
  | order _ h => cases h <;> exact ⟨rfl, rfl⟩

theorem inside_region {m : Mutex} {t : Thread} {a b : Part m × Point}
    (h : Inside rows cols n m t a b) :
    a.2.region = some m ∧ (b.2.region = if a.2.op.unlockOf = some m then none else some m) := by
  cases h with
  | chaosMat h => cases h <;> exact ⟨rfl, rfl⟩
  | chaosArrays h => cases h <;> exact ⟨rfl, rfl⟩
  | orderMat _ h => cases h <;> exact ⟨rfl, rfl⟩
  | orderArrays _ h => cases h <;> exact ⟨rfl, rfl⟩

theorem outside_holds {t : Thread} {p q : Point} (h : Outside n t p q) : p.op.Holds p.held q.held := by
  cases h with
  | chaos h => cases h <;> first | exact fun _ => Iff.rfl | exact LockOp.holds_lock _ _
  | order _ h => cases h <;> first | exact fun _ => Iff.rfl | exact LockOp.holds_lock _ _

theorem inside_holds {m : Mutex} {t : Thread} {a b : Part m × Point} (h : Inside rows cols n m t a b) :
    a.2.op.Holds a.2.held b.2.held := by
  cases h with
  | chaosMat h =>
    cases h with
    | matUnlock => exact LockOp.holds_unlock (by decide)
    | _ => exact fun _ => Iff.rfl
  | chaosArrays h =>
    cases h with
    | bLock => exact LockOp.holds_lock _ _
    | bUnlock | aUnlock => exact LockOp.holds_unlock (by decide)
    | _ => exact fun _ => Iff.rfl
  | orderMat _ h =>
    cases h with
    | matUnlock => exact LockOp.holds_unlock (by decide)
    | _ => exact fun _ => Iff.rfl
  | orderArrays _ h =>
    cases h with
    | bLock => exact LockOp.holds_lock _ _
    | bUnlock | aUnlock => exact LockOp.holds_unlock (by decide)
    | _ => exact fun _ => Iff.rfl

theorem region_held {p : Point} {m : Mutex} (h : p.region = some m) : m ∈ p.held := by
  cases p with
  | chaos p => cases p <;> cases h <;> simp [Point.held, Point.region]
  | order p => cases p <;> cases h <;> simp [Point.held, Point.region]

theorem idle_held {p : Point} (h : p.region = none) : p.held = [] := by
  cases p with
  | chaos p => cases p <;> first | rfl | cases h
  | order p => cases p <;> first | rfl | cases h

theorem unlock_held {p : Point} {m : Mutex} (h : p.op = .unlock m) : m ∈ p.held := by
  cases p with
  | chaos p => cases p <;> cases h <;> simp [Point.held, Point.region]
  | order p => cases p <;> cases h <;> simp [Point.held, Point.region]

/-- `B_mutex` is locked under `A_mutex`, and the others where nothing is held. -/
theorem lock_held {p : Point} {m : Mutex} (h : p.op = .lock m) :
    (m = .b ∧ p.held = [.a]) ∨ p.held = [] := by
  cases p with
  | chaos p => cases p <;> cases h <;> first | exact .inl ⟨rfl, rfl⟩ | exact .inr rfl
  | order p => cases p <;> cases h <;> first | exact .inl ⟨rfl, rfl⟩ | exact .inr rfl

theorem lock_b {p : Point} (h : p.op = .lock .b) : p.region = some .a := by
  cases p with
  | chaos p => cases p <;> cases h <;> rfl
  | order p => cases p <;> cases h <;> rfl

theorem held_b {p : Point} (h : .b ∈ p.held) : p.region = some .a := by
  cases p with
  | chaos p => cases p <;> first | rfl | simp [Point.held, Point.region] at h
  | order p => cases p <;> first | rfl | simp [Point.held, Point.region] at h

/-- **The regions** begin and end at their mutexes. -/
theorem code_bracketed (rows cols n : ℕ) : (code rows cols n).Bracketed Point.held Mutex.rank where
  disciplined :=
    { flow := fun h => by
        cases h with
        | outside _ h => exact outside_holds h
        | inside _ h => exact inside_holds h
      own := unlock_held
      order := fun h x hx => by
        rcases lock_held h with ⟨rfl, ha⟩ | hnone
        · rw [ha, List.mem_singleton] at hx
          subst hx
          exact Nat.zero_lt_one
        · rw [hnone] at hx
          cases hx }
  enter _ h := (outside_region h).1
  stay _ h := (inside_region h.1).2.trans (if_neg h.2)
  leave _ h hop := (inside_region h).2.trans (if_pos hop)
  mem_held := region_held
  idle := idle_held

theorem start_ownersHold (M : Grid ℤ) : OwnersHold Point.held (start M) := by
  intro m t
  cases t <;> simp [start, Point.held, Point.region]

/-- **The mutexes**: nobody ever waits for `B_mutex`, no threads wait for each other in a circle, no
thread locks a mutex that it holds, and none unlocks a mutex that it does not hold. -/
theorem chaos_waits {M : Grid ℤ} {s : Locked Thread Mutex Point (∀ m, Part m)}
    (h : Reaches (code rows cols n).code.Step (start M) s) :
    (∀ t, (s.pc t).op = .lock .b → s.owner .b = none) ∧
      (∀ t, ¬ Relation.TransGen ((code rows cols n).code.WaitsFor s) t t) ∧
      (∀ t m, (s.pc t).op = .lock m → s.owner m ≠ some t) ∧
      ∀ t m, (s.pc t).op = .unlock m → s.owner m = some t := by
  have hC := code_bracketed rows cols n
  have hown := owner_iff hC.disciplined (start_ownersHold M) h
  refine ⟨fun t ht => ?_, no_wait_cycle hC.disciplined hown,
    fun _ _ hm => lock_not_own hC.disciplined hown hm, fun _ _ hm => unlock_own hC.disciplined hown hm⟩
  by_contra hne
  obtain ⟨u, hu⟩ := Option.ne_none_iff_exists'.1 hne
  -- whoever holds it is in the region of `A_mutex`, as `t` is
  have hb := held_b ((hown .b u).1 hu)
  obtain rfl := region_unique hC hown (lock_b ht) hb
  exact lock_not_own hC.disciplined hown ht hu

/-- One order thread has locked `A_mutex`, and another one waits for it. -/
theorem chaos_waits_twoOrders : ∃ s, (code 2 2 2).code.WaitsFor s (.order 1) (.order 0) ∧
    ¬ Relation.TransGen ((code 2 2 2).code.WaitsFor s) (.order 0) (.order 0) := by
  let M : Grid ℤ := .replicate 2 2 0
  let pc₁ := Function.update (start M).pc (.order 0) (.order (.aLock 29 0))
  let pc₂ := Function.update pc₁ (.order 1) (.order (.aLock 29 0))
  have h₁ : Reaches (code 2 2 2).code.Step (start M) ⟨fun _ => none, pc₁, (start M).data⟩ :=
    (Reaches.refl (start M)).snoc (.none rfl (.outside rfl (.order Nat.zero_lt_two (.loop 0))))
  have h₂ : Reaches (code 2 2 2).code.Step (start M) ⟨fun _ => none, pc₂, (start M).data⟩ :=
    h₁.snoc (.none rfl (.outside rfl (.order Nat.one_lt_two (.loop 0))))
  have h₃ : Reaches (code 2 2 2).code.Step (start M)
      ⟨Function.update (fun _ => none) .a (some (.order 0)),
        Function.update pc₂ (.order 0) (.order (.aTest 29 0 0)), (start M).data⟩ :=
    h₂.snoc (.lock rfl rfl (.outside rfl (.order Nat.zero_lt_two .aLock)))
  exact ⟨_, ⟨.a, rfl, rfl⟩, (chaos_waits h₃).2.1 (.order 0)⟩

end OsLab.Chaos.Statements
