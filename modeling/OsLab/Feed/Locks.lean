import OsLab.Feed.Model
import OsLab.Lib.Locks

/-!
# The mutexes of the feed system

The regions under the mutexes are opened up here: each lock, each unlock and each
`pthread_cond_wait` is a step of its own, for any numbers of the three kinds of threads. A wait may
return at any time, so the broadcasts do nothing. What `userSimulator` generates is any list of
actions of the node.

A thread holds at most one mutex where it locks another, and then the other one is `logfile_mutex`,
which is never held where a mutex is locked. So no threads wait for each other in a circle
(`no_circular_wait`).
-/

namespace OsLab.Feed.Locks

open Lib

/-- The mutexes; the last one is that of a node. -/
inductive Mutex where
  | actionQ
  | feedUpdateQ
  | logfile
  | feed (v : ℕ)
  deriving DecidableEq

/-- The threads of `userSimulator`, `pushUpdate` and `readPost`. -/
inductive Worker where
  | user (i : ℕ)
  | push (p : ℕ)
  | read (r : ℕ)
  deriving DecidableEq

/-- The queues, and `thread_to_join`. -/
structure Shared where
  newActionQ : List Action
  feedUpdateQ : List ℕ
  feedQueue : ℕ → List Action
  priorityFeedQueue : ℕ → List (ℤ × Action)
  threadToJoin : ℕ

/-- The points of the code outside the regions that write to the log. -/
inductive Point where
  /-- `userSimulator`, before it selects a node -/
  | select (itr : ℕ) (nodeIds : List ℕ)
  /-- before it generates the next action of `v` -/
  | generate (itr : ℕ) (nodeIds : List ℕ) (v : ℕ) (actions : List Action)
  /-- before it queues the next action -/
  | push (itr : ℕ) (nodeIds : List ℕ) (actions : List Action)
  /-- before the lock of `action_q_mutex` -/
  | pushLock (itr : ℕ) (nodeIds : List ℕ) (a : Action) (actions : List Action)
  /-- before the push and the unlock -/
  | pushUnlock (itr : ℕ) (nodeIds : List ℕ) (a : Action) (actions : List Action)
  /-- before `sleep(120)` -/
  | sleep (itr : ℕ)
  /-- before `itr++` -/
  | endIter (itr : ℕ)
  /-- before the lock of `action_q_mutex` at the end -/
  | lastLock
  | lastUnlock
  | userDone
  /-- `pushUpdate`, before the lock of `action_q_mutex` -/
  | actionLock
  /-- before the test `new_action_q.empty()` -/
  | actionTest
  /-- before the call of `pthread_cond_wait`, in it, and before the lock with which it returns -/
  | actionWait
  | actionWaiting
  | actionWoken
  /-- before the test of `thread_to_join` -/
  | actionJoin
  /-- before the unlock with `flag` set -/
  | actionLeave
  /-- has popped `a` and written to the log, before the unlock -/
  | actionUnlock (a : Action)
  /-- before the test `i < degree` -/
  | neighbor (a : Action) (i : ℕ)
  /-- before the lock of `feed_update_q_mutex`, and before the push and the unlock -/
  | notifyLock (a : Action) (i : ℕ)
  | notifyUnlock (a : Action) (i : ℕ)
  /-- before the lock of the `feed_mutex` of neighbour `i`, and before the push and the unlock -/
  | feedLock (a : Action) (i : ℕ)
  | feedUnlock (a : Action) (i : ℕ)
  /-- after the loop -/
  | joinLock
  | joinUnlock
  | pushDone
  /-- `readPost`, before the lock of `feed_update_q_mutex` -/
  | updateLock
  /-- before the test `feed_update_q.empty()` -/
  | updateTest
  /-- before the call of `pthread_cond_wait`, in it, and before the lock with which it returns -/
  | updateWait
  | updateWaiting
  | updateWoken
  /-- before the test of `thread_to_join` and of the queue -/
  | updateJoin
  /-- before the unlock with `flag` set -/
  | updateLeave
  /-- before the pop and the unlock -/
  | updateUnlock
  /-- before the lock of the `feed_mutex` of `v` -/
  | readLock (v : ℕ)
  /-- before the test of the queue of `v` -/
  | readTest (v : ℕ)
  /-- before the unlock -/
  | readUnlock (v : ℕ)
  | readDone

/-- A point of the code; a region that writes to the log ends at a point outside. -/
inductive Place where
  | run (a : Point)
  /-- before the lock of `logfile_mutex` -/
  | log (a : Point)
  /-- before its unlock -/
  | unlog (a : Point)

/-- What is done at a point. -/
def Point.op (c : Config) : Point → LockOp Mutex
  | .pushLock .. | .lastLock | .actionLock | .actionWoken => .lock .actionQ
  | .pushUnlock .. | .lastUnlock | .actionWait | .actionLeave | .actionUnlock _ => .unlock .actionQ
  | .notifyLock .. | .joinLock | .updateLock | .updateWoken => .lock .feedUpdateQ
  | .notifyUnlock .. | .joinUnlock | .updateWait | .updateLeave | .updateUnlock => .unlock .feedUpdateQ
  | .feedLock a i => .lock (.feed (c.neighbor a.userId i).1)
  | .feedUnlock a i => .unlock (.feed (c.neighbor a.userId i).1)
  | .readLock v => .lock (.feed v)
  | .readUnlock v => .unlock (.feed v)
  | .select .. | .generate .. | .push .. | .sleep _ | .endIter _ | .userDone | .actionTest
  | .actionWaiting | .actionJoin | .neighbor .. | .pushDone | .updateTest | .updateWaiting
  | .updateJoin | .readTest _ | .readDone => .none

def Place.op (c : Config) : Place → LockOp Mutex
  | .run a => a.op c
  | .log _ => .lock .logfile
  | .unlog _ => .unlock .logfile

/-! ## The code -/

/-- `userSimulator`. -/
inductive UserFlow (c : Config) : Shared → Point → Shared → Place → Prop where
  | select {d itr ids v} (hlen : ids.length < nodesPerIter) (hv : v < c.numNodes) (hnew : v ∉ ids)
      (hd : 0 < (c.graph v).degree) :
      UserFlow c d (.select itr ids) d (.log (.generate itr (v :: ids) v []))
  | generate {d itr ids v as} (a : Action) (ha : a.userId = v)
      (hlen : as.length < numActions (c.graph v).degree) :
      UserFlow c d (.generate itr ids v as) d (.log (.generate itr ids v (as ++ [a])))
  | generated {d itr ids v as} (hlen : ¬ as.length < numActions (c.graph v).degree) :
      UserFlow c d (.generate itr ids v as) d (.run (.push itr ids as))
  | push {d itr ids a as} : UserFlow c d (.push itr ids (a :: as)) d (.run (.pushLock itr ids a as))
  | pushLock {d itr ids a as} :
      UserFlow c d (.pushLock itr ids a as) d (.run (.pushUnlock itr ids a as))
  | pushUnlock {d itr ids a as} : UserFlow c d (.pushUnlock itr ids a as)
      { d with newActionQ := d.newActionQ ++ [a] } (.run (.push itr ids as))
  | pushed {d itr ids} : UserFlow c d (.push itr ids []) d (.run (.select itr ids))
  | selected {d itr ids} (hlen : ¬ ids.length < nodesPerIter) :
      UserFlow c d (.select itr ids) d (.log (.sleep itr))
  | sleep {d itr} : UserFlow c d (.sleep itr) d (.log (.endIter itr))
  | endIter {d itr} (h : itr + 1 ≠ maxIters) :
      UserFlow c d (.endIter itr) d (.log (.select (itr + 1) []))
  | endLast {d itr} (h : itr + 1 = maxIters) : UserFlow c d (.endIter itr) d (.log .lastLock)
  | lastLock {d} : UserFlow c d .lastLock d (.run .lastUnlock)
  | lastUnlock {d} : UserFlow c d .lastUnlock { d with threadToJoin := d.threadToJoin + 1 } (.run .userDone)

/-- The push of `a` to the feed of neighbour `i` of its poster. -/
def Shared.pushFeed (c : Config) (d : Shared) (a : Action) (i : ℕ) : Shared :=
  let (v, priority) := c.neighbor a.userId i
  if (c.graph v).orderBy = 1 then
    { d with feedQueue := Function.update d.feedQueue v (d.feedQueue v ++ [a]) }
  else if (c.graph v).orderBy = 0 then
    { d with
      priorityFeedQueue := Function.update d.priorityFeedQueue v
        ((priority, a) :: d.priorityFeedQueue v) }
  else d

/-- `pushUpdate`, with `users` threads of `userSimulator`. -/
inductive PushFlow (c : Config) (users : ℕ) : Shared → Point → Shared → Place → Prop where
  | actionLock {d} : PushFlow c users d .actionLock d (.run .actionTest)
  | wait {d} (hq : d.newActionQ = []) : PushFlow c users d .actionTest d (.run .actionWait)
  | actionWait {d} : PushFlow c users d .actionWait d (.run .actionWaiting)
  | actionWaiting {d} : PushFlow c users d .actionWaiting d (.run .actionWoken)
  | actionWoken {d} : PushFlow c users d .actionWoken d (.run .actionJoin)
  | leave {d} (h : users ≤ d.threadToJoin) : PushFlow c users d .actionJoin d (.run .actionLeave)
  | stay {d} (h : ¬ users ≤ d.threadToJoin) : PushFlow c users d .actionJoin d (.run .actionTest)
  | actionLeave {d} : PushFlow c users d .actionLeave d (.run .joinLock)
  | pop {d a q} (hq : d.newActionQ = a :: q) :
      PushFlow c users d .actionTest { d with newActionQ := q } (.log (.actionUnlock a))
  | actionUnlock {d a} : PushFlow c users d (.actionUnlock a) d (.run (.neighbor a 0))
  | neighbor {d a i} (h : i < (c.graph a.userId).degree) :
      PushFlow c users d (.neighbor a i) d (.run (.notifyLock a i))
  | notifyLock {d a i} : PushFlow c users d (.notifyLock a i) d (.run (.notifyUnlock a i))
  | notifyUnlock {d a i} : PushFlow c users d (.notifyUnlock a i)
      { d with feedUpdateQ := d.feedUpdateQ ++ [(c.neighbor a.userId i).1] } (.run (.feedLock a i))
  | feedLock {d a i} : PushFlow c users d (.feedLock a i) d (.run (.feedUnlock a i))
  | feedUnlock {d a i} :
      PushFlow c users d (.feedUnlock a i) (d.pushFeed c a i) (.run (.neighbor a (i + 1)))
  | neighbors {d a i} (h : ¬ i < (c.graph a.userId).degree) :
      PushFlow c users d (.neighbor a i) d (.log .actionLock)
  | joinLock {d} : PushFlow c users d .joinLock d (.run .joinUnlock)
  | joinUnlock {d} : PushFlow c users d .joinUnlock { d with threadToJoin := d.threadToJoin + 1 }
      (.log .pushDone)

/-- `readPost`, with `users` threads of `userSimulator`. -/
inductive ReadFlow (c : Config) (users : ℕ) : Shared → Point → Shared → Place → Prop where
  | updateLock {d} : ReadFlow c users d .updateLock d (.run .updateTest)
  | wait {d} (hq : d.feedUpdateQ = []) : ReadFlow c users d .updateTest d (.run .updateWait)
  | updateWait {d} : ReadFlow c users d .updateWait d (.run .updateWaiting)
  | updateWaiting {d} : ReadFlow c users d .updateWaiting d (.run .updateWoken)
  | updateWoken {d} : ReadFlow c users d .updateWoken d (.run .updateJoin)
  | leave {d} (h : users + c.numPushUpdateThreads ≤ d.threadToJoin ∧ d.feedUpdateQ = []) :
      ReadFlow c users d .updateJoin d (.run .updateLeave)
  | stay {d} (h : ¬ (users + c.numPushUpdateThreads ≤ d.threadToJoin ∧ d.feedUpdateQ = [])) :
      ReadFlow c users d .updateJoin d (.run .updateTest)
  | updateLeave {d} : ReadFlow c users d .updateLeave d (.log .readDone)
  | found {d} (hq : d.feedUpdateQ ≠ []) : ReadFlow c users d .updateTest d (.log .updateUnlock)
  | pop {d v q} (hq : d.feedUpdateQ = v :: q) :
      ReadFlow c users d .updateUnlock { d with feedUpdateQ := q } (.run (.readLock v))
  | readLock {d v} : ReadFlow c users d (.readLock v) d (.run (.readTest v))
  | readChrono {d v a q} (ho : (c.graph v).orderBy = 1) (hq : d.feedQueue v = a :: q) :
      ReadFlow c users d (.readTest v) { d with feedQueue := Function.update d.feedQueue v q }
        (.log (.readTest v))
  /-- A copy of the largest priority is popped. -/
  | readPriority {d v x q} (ho : (c.graph v).orderBy = 0) (hq : (d.priorityFeedQueue v).Perm (x :: q))
      (hmax : ∀ y ∈ q, y.1 ≤ x.1) :
      ReadFlow c users d (.readTest v)
        { d with priorityFeedQueue := Function.update d.priorityFeedQueue v q } (.log (.readTest v))
  | readEmpty {d v} (hc : (c.graph v).orderBy = 1 → d.feedQueue v = [])
      (hp : (c.graph v).orderBy = 0 → d.priorityFeedQueue v = []) :
      ReadFlow c users d (.readTest v) d (.run (.readUnlock v))
  | readUnlock {d v} : ReadFlow c users d (.readUnlock v) d (.run .updateLock)

/-- The code of the threads. -/
inductive Flow (c : Config) (users : ℕ) : Worker → Shared → Place → Shared → Place → Prop where
  | user {d a d' q i} (hi : i < users) (h : UserFlow c d a d' q) : Flow c users (.user i) d (.run a) d' q
  | push {d a d' q p} (hp : p < c.numPushUpdateThreads) (h : PushFlow c users d a d' q) :
      Flow c users (.push p) d (.run a) d' q
  | read {d a d' q r} (hr : r < c.numReadPostThreads) (h : ReadFlow c users d a d' q) :
      Flow c users (.read r) d (.run a) d' q
  | log {d a t} : Flow c users t d (.log a) d (.unlog a)
  | unlog {d a t} : Flow c users t d (.unlog a) d (.run a)

def code (c : Config) (users : ℕ) : LockCode Worker Mutex Place Shared where
  op := Place.op c
  Flow := Flow c users

/-- The threads when `main` has created them. -/
def start : Locked Worker Mutex Place Shared where
  owner _ := none
  pc t := match t with
    | .user _ => .log (.select 0 [])
    | .push _ => .run .actionLock
    | .read _ => .run .updateLock
  data := ⟨[], [], fun _ => [], fun _ => [], 0⟩

/-! ## What the threads hold -/

/-- The mutexes that a thread holds at a point, -/
def Point.held (c : Config) : Point → List Mutex
  | .pushUnlock .. | .lastUnlock | .actionTest | .actionWait | .actionJoin | .actionLeave
  | .actionUnlock _ => [.actionQ]
  | .notifyUnlock .. | .joinUnlock | .updateTest | .updateWait | .updateJoin | .updateLeave
  | .updateUnlock => [.feedUpdateQ]
  | .feedUnlock a i => [.feed (c.neighbor a.userId i).1]
  | .readTest v | .readUnlock v => [.feed v]
  | .select .. | .generate .. | .push .. | .pushLock .. | .sleep _ | .endIter _ | .lastLock | .userDone
  | .actionLock | .actionWaiting | .actionWoken | .neighbor .. | .notifyLock .. | .feedLock ..
  | .joinLock | .pushDone | .updateLock | .updateWaiting | .updateWoken | .readLock _ | .readDone => []

/-- and in a region that writes to the log. -/
def Place.held (c : Config) : Place → List Mutex
  | .run a | .log a => a.held c
  | .unlog a => .logfile :: a.held c

/-- `logfile_mutex` comes last. -/
def Mutex.rank : Mutex → ℕ
  | .logfile => 1
  | .actionQ | .feedUpdateQ | .feed _ => 0

variable {c : Config} {users : ℕ}

theorem logfile_not_held (a : Point) : Mutex.logfile ∉ a.held c := by
  cases a <;> simp [Point.held]

theorem userFlow_holds {d d' : Shared} {a : Point} {q : Place} (h : UserFlow c d a d' q) :
    (a.op c).Holds (a.held c) (q.held c) := by
  cases h <;> simp [Point.op, Point.held, Place.held, LockOp.Holds]

theorem pushFlow_holds {d d' : Shared} {a : Point} {q : Place} (h : PushFlow c users d a d' q) :
    (a.op c).Holds (a.held c) (q.held c) := by
  cases h <;> simp [Point.op, Point.held, Place.held, LockOp.Holds]

theorem readFlow_holds {d d' : Shared} {a : Point} {q : Place} (h : ReadFlow c users d a d' q) :
    (a.op c).Holds (a.held c) (q.held c) := by
  cases h <;> simp [Point.op, Point.held, Place.held, LockOp.Holds]

theorem point_own {a : Point} {m : Mutex} (h : a.op c = .unlock m) : m ∈ a.held c := by
  cases a <;> simp_all [Point.op, Point.held]

/-- Outside the log, a thread holds nothing where it locks a mutex. -/
theorem point_order {a : Point} {m : Mutex} (h : a.op c = .lock m) : a.held c = [] := by
  cases a <;> simp_all [Point.op, Point.held]

/-- **The code keeps to `held`**, and locks in the order of `rank`. -/
theorem code_disciplined (c : Config) (users : ℕ) :
    (code c users).Disciplined (Place.held c) Mutex.rank where
  flow h := by
    cases h with
    | user _ h => exact userFlow_holds h
    | push _ h => exact pushFlow_holds h
    | read _ h => exact readFlow_holds h
    | log => exact fun x => List.mem_cons
    | unlog =>
      intro x
      simp only [Place.held, List.mem_cons]
      have : ∀ a : Point, x ∈ a.held c → x ≠ .logfile := fun a hx hl => logfile_not_held a (hl ▸ hx)
      grind
  own {p m} h := by
    cases p with
    | run a => exact point_own h
    | log a => cases h
    | unlog a =>
      cases h
      exact List.mem_cons_self
  order {p m} h x hx := by
    cases p with
    | run a =>
      have hnone : x ∈ a.held c := hx
      rw [point_order h] at hnone
      cases hnone
    | log a =>
      cases h
      have : x ∈ a.held c := hx
      cases x with
      | logfile => exact absurd this (logfile_not_held a)
      | actionQ | feedUpdateQ | feed v => exact Nat.zero_lt_one
    | unlog a => cases h

theorem start_ownersHold (c : Config) : OwnersHold (Place.held c) start := by
  intro m t
  cases t <;> simp [start, Place.held, Point.held]

/-- **No circular wait for mutexes**: in every reachable state no thread waits, over other threads,
for itself, no thread locks a mutex that it holds, and none unlocks a mutex that it does not hold. -/
theorem no_circular_wait {s : Locked Worker Mutex Place Shared}
    (h : Reaches (code c users).Step start s) :
    (∀ t, ¬ Relation.TransGen ((code c users).WaitsFor s) t t) ∧
      (∀ t m, (s.pc t).op c = .lock m → s.owner m ≠ some t) ∧
      ∀ t m, (s.pc t).op c = .unlock m → s.owner m = some t := by
  have hown := owner_iff (code_disciplined c users) (start_ownersHold c) h
  exact ⟨no_wait_cycle (code_disciplined c users) hown,
    fun _ _ hm => lock_not_own (code_disciplined c users) hown hm,
    fun _ _ hm => unlock_own (code_disciplined c users) hown hm⟩

/-- Two threads of `pushUpdate` and one each of the others, with nobody to write to. -/
def twoPushers : Config where
  numNodes := 1
  numPushUpdateThreads := 2
  numReadPostThreads := 1
  graph _ := ⟨0, 1, [], rfl, Nat.one_lt_two⟩

/-- One thread of `pushUpdate` has locked `action_q_mutex`, and the other waits for it. -/
theorem no_circular_wait_twoPushers : ∃ s, (code twoPushers 1).WaitsFor s (.push 1) (.push 0) ∧
    ¬ Relation.TransGen ((code twoPushers 1).WaitsFor s) (.push 0) (.push 0) := by
  have hflow : (code twoPushers 1).Flow (.push 0) start.data (start.pc (.push 0)) start.data
      (.run .actionTest) := Flow.push (by decide) PushFlow.actionLock
  have hlock := LockCode.Step.lock (C := code twoPushers 1) (s := start) (m := .actionQ) rfl rfl hflow
  refine ⟨⟨Function.update start.owner .actionQ (some (.push 0)),
    Function.update start.pc (.push 0) (.run .actionTest), start.data⟩, ⟨.actionQ, rfl, ?_⟩, ?_⟩
  · rfl
  · exact (no_circular_wait ((Reaches.refl start).snoc hlock)).1 (.push 0)

end OsLab.Feed.Locks
