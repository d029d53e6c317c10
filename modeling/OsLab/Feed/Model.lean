import OsLab.Lib.Machine
import OsLab.Lib.Threads
import Mathlib.Data.Nat.Log

/-!
# The feed system (`sns.cpp`)

`userSimulator` generates actions and queues them in `new_action_q`, the `pushUpdate` threads
pop them and push them to the feeds of the neighbours, and the `readPost` threads read the
feeds of the nodes named in `feed_update_q`. Each region under a mutex is one step, split at
`pthread_cond_wait`: a wait returns after a broadcast made while the thread waits, at any
later time. The local state of a thread is the place in the code that it has reached.

The log is left out, except that `reads` lists what the readers have read. `queued` lists what
`userSimulator` has queued; no step looks at either of them.
-/

namespace OsLab.Feed

open Lib

/-- `Action`. -/
structure Action where
  userId : ℕ
  actionId : ℕ
  actionType : Fin 3
  timestamp : ℤ
  deriving DecidableEq

/-- What `initGraph` and `readGraph` have made of a node: `neighbors` with their priorities. -/
structure Node where
  degree : ℕ
  orderBy : ℕ
  neighbors : List (ℕ × ℤ)
  degree_eq : degree = neighbors.length
  orderBy_lt : orderBy < 2

/-- `NUM_NODES`, the numbers of threads, and the graph. -/
structure Config where
  numNodes : ℕ
  numPushUpdateThreads : ℕ
  numReadPostThreads : ℕ
  graph : ℕ → Node

/-- `NUM_USER_SIM_THREADS`. -/
def numUserSimThreads : ℕ := 1

/-- `MAX_ITERS`. -/
def maxIters : ℕ := 5

/-- The nodes that `userSimulator` selects in an iteration. -/
def nodesPerIter : ℕ := 100

/-- `int num_actions = 10 * (1 + log2(degree))`, for a positive degree. -/
def numActions (degree : ℕ) : ℕ := Nat.log 2 ((2 * degree) ^ 10)

/-- `graph[u].neighbors[i]`. -/
def Config.neighbor (c : Config) (u i : ℕ) : ℕ × ℤ := (c.graph u).neighbors.getD i (0, 0)

/-- An action in a feed. The position of the feed's node among the neighbours of the poster is
not in the source; it tells the copies of an action apart. -/
structure Copy where
  action : Action
  position : ℕ
  deriving DecidableEq

/-- A thread `reader` has read `copy` from the feed of `node`. -/
structure Read where
  reader : ℕ
  node : ℕ
  copy : Copy
  deriving DecidableEq

/-- Where `userSimulator` is. -/
inductive UserPc where
  /-- before it selects a node, or ends the iteration -/
  | selecting
  /-- has generated `actions` for node `v` -/
  | generating (v : ℕ) (actions : List Action)
  /-- has still to queue `actions` -/
  | pushing (actions : List Action)
  /-- has left the loop, before the last region -/
  | finishing
  | finished
  deriving DecidableEq

/-- Where a thread is in `pushUpdate`. -/
inductive PushPc where
  /-- before the lock of `action_q_mutex` -/
  | top
  /-- waiting on `action_q_cond` -/
  | waiting
  /-- notified, before the mutex is taken again -/
  | woken
  /-- before the push of neighbour `i` to `feed_update_q` -/
  | notifying (a : Action) (i : ℕ)
  /-- before the push of `a` to the feed of neighbour `i` -/
  | feeding (a : Action) (i : ℕ)
  /-- has left the loop, before the last region -/
  | leaving
  | finished
  deriving DecidableEq

/-- Where a thread is in `readPost`. -/
inductive ReadPc where
  /-- before the lock of `feed_update_q_mutex` -/
  | top
  /-- waiting on `feed_update_q_cond` -/
  | waiting
  /-- notified, before the mutex is taken again -/
  | woken
  /-- has popped `v`, before the lock of the `feed_mutex` of `v` -/
  | popped (v : ℕ)
  | finished
  deriving DecidableEq

/-- The globals, the locals `itr` and `node_ids` of `userSimulator`, the clock, and the places
of the threads. The priority queues are lists in no order. -/
structure State where
  actionCtr : ℕ → Fin 3 → ℕ
  wallQueue : ℕ → List Action
  feedQueue : ℕ → List Copy
  priorityFeedQueue : ℕ → List (ℤ × Copy)
  newActionQ : List Action
  feedUpdateQ : List ℕ
  threadToJoin : ℕ
  clock : ℤ
  itr : ℕ
  nodeIds : List ℕ
  user : UserPc
  pushers : ℕ → PushPc
  readers : ℕ → ReadPc
  queued : List Action
  reads : List Read

/-- `main` when it has read the graph. -/
def State.init : State where
  actionCtr := fun _ _ => 0
  wallQueue := fun _ => []
  feedQueue := fun _ => []
  priorityFeedQueue := fun _ => []
  newActionQ := []
  feedUpdateQ := []
  threadToJoin := 0
  clock := 0
  itr := 0
  nodeIds := []
  user := .selecting
  pushers := fun _ => .top
  readers := fun _ => .top
  queued := []
  reads := []

/-- Thread `p` of `pushUpdate` goes to `pc`. -/
def State.pushTo (s : State) (p : ℕ) (pc : PushPc) : State :=
  { s with pushers := Function.update s.pushers p pc }

@[simp] theorem pushTo_self (s : State) (p : ℕ) (pc : PushPc) : (s.pushTo p pc).pushers p = pc :=
  Function.update_self ..

theorem pushTo_ne (s : State) {p q : ℕ} (pc : PushPc) (h : q ≠ p) :
    (s.pushTo p pc).pushers q = s.pushers q := Function.update_of_ne h ..

/-- Thread `r` of `readPost` goes to `pc`. -/
def State.readTo (s : State) (r : ℕ) (pc : ReadPc) : State :=
  { s with readers := Function.update s.readers r pc }

@[simp] theorem readTo_self (s : State) (r : ℕ) (pc : ReadPc) : (s.readTo r pc).readers r = pc :=
  Function.update_self ..

theorem readTo_ne (s : State) {r q : ℕ} (pc : ReadPc) (h : q ≠ r) :
    (s.readTo r pc).readers q = s.readers q := Function.update_of_ne h ..

/-- `pthread_cond_broadcast(&action_q_cond)`. -/
def State.wakePushers (s : State) : State := { s with pushers := wake s.pushers .waiting .woken }

/-- `pthread_cond_broadcast(&feed_update_q_cond)`. -/
def State.wakeReaders (s : State) : State := { s with readers := wake s.readers .waiting .woken }

/-- The next action of type `t` of node `v`, at time `now`. -/
def State.newAction (s : State) (v : ℕ) (t : Fin 3) (now : ℤ) : Action :=
  ⟨v, s.actionCtr v t + 1, t, now⟩

/-- `action_ctr[action_type] += 1` and the push to the wall queue. -/
def State.addAction (s : State) (a : Action) : State :=
  { s with
    actionCtr := Function.update s.actionCtr a.userId
      (Function.update (s.actionCtr a.userId) a.actionType a.actionId)
    wallQueue := Function.update s.wallQueue a.userId (s.wallQueue a.userId ++ [a])
    clock := a.timestamp }

/-- The steps of `userSimulator`. -/
inductive UserStep (c : Config) : State → State → Prop where
  /-- A node that was not selected before in the iteration. -/
  | select {s v} (h : s.user = .selecting) (hlen : s.nodeIds.length < nodesPerIter)
      (hv : v < c.numNodes) (hnew : v ∉ s.nodeIds) (hd : 0 < (c.graph v).degree) :
      UserStep c s { s with nodeIds := v :: s.nodeIds, user := .generating v [] }
  /-- `actions[j]`; the clock does not go backwards. -/
  | generate {s v as} (t : Fin 3) (now : ℤ) (h : s.user = .generating v as)
      (hlen : as.length < numActions (c.graph v).degree) (hnow : s.clock ≤ now) :
      UserStep c s { s.addAction (s.newAction v t now) with
        user := .generating v (as ++ [s.newAction v t now]) }
  | generated {s v as} (h : s.user = .generating v as)
      (hlen : ¬ as.length < numActions (c.graph v).degree) :
      UserStep c s { s with user := .pushing as }
  /-- `new_action_q.push(actions[j])` and the broadcast. -/
  | push {s a as} (h : s.user = .pushing (a :: as)) :
      UserStep c s { s.wakePushers with
        newActionQ := s.newActionQ ++ [a], queued := s.queued ++ [a], user := .pushing as }
  | pushed {s} (h : s.user = .pushing []) : UserStep c s { s with user := .selecting }
  /-- `itr++`, and the test against `MAX_ITERS`. -/
  | endIter {s} (h : s.user = .selecting) (hlen : ¬ s.nodeIds.length < nodesPerIter) :
      UserStep c s { s with
        itr := s.itr + 1
        nodeIds := []
        user := if s.itr + 1 = maxIters then .finishing else .selecting }
  /-- `thread_to_join++` and the last broadcast. -/
  | finish {s} (h : s.user = .finishing) :
      UserStep c s { s.wakePushers with threadToJoin := s.threadToJoin + 1, user := .finished }

/-- The test `i < degree` of the loop over the neighbours. -/
def nextNeighbor (c : Config) (a : Action) (i : ℕ) : PushPc :=
  if i < (c.graph a.userId).degree then .notifying a i else .top

/-- The push of `a` to the feed of neighbour `i` of its poster. -/
def State.pushFeed (c : Config) (s : State) (a : Action) (i : ℕ) : State :=
  let (v, priority) := c.neighbor a.userId i
  if (c.graph v).orderBy = 1 then
    { s with feedQueue := Function.update s.feedQueue v (s.feedQueue v ++ [⟨a, i⟩]) }
  else if (c.graph v).orderBy = 0 then
    { s with
      priorityFeedQueue := Function.update s.priorityFeedQueue v
        ((priority, ⟨a, i⟩) :: s.priorityFeedQueue v) }
  else s

/-- Thread `p` tests `new_action_q.empty()`: it has just taken the mutex, or a wait has
returned and `thread_to_join >= NUM_USER_SIM_THREADS` was false. -/
def PushTests (s : State) (p : ℕ) : Prop :=
  s.pushers p = .top ∨ s.pushers p = .woken ∧ ¬ numUserSimThreads ≤ s.threadToJoin

/-- The steps of thread `p` of `pushUpdate`. -/
inductive PushStep (c : Config) (p : ℕ) : State → State → Prop where
  | wait {s} (h : PushTests s p) (hq : s.newActionQ = []) : PushStep c p s (s.pushTo p .waiting)
  | pop {s a q} (h : PushTests s p) (hq : s.newActionQ = a :: q) :
      PushStep c p s ({ s with newActionQ := q }.pushTo p (nextNeighbor c a 0))
  /-- The wait has returned and `flag` is set. -/
  | leave {s} (h : s.pushers p = .woken) (hj : numUserSimThreads ≤ s.threadToJoin) :
      PushStep c p s (s.pushTo p .leaving)
  /-- `feed_update_q.push(neighbor_id)` and the broadcast. -/
  | notify {s a i} (h : s.pushers p = .notifying a i) :
      PushStep c p s ({ s.wakeReaders with
        feedUpdateQ := s.feedUpdateQ ++ [(c.neighbor a.userId i).1] }.pushTo p (.feeding a i))
  | feed {s a i} (h : s.pushers p = .feeding a i) :
      PushStep c p s ((s.pushFeed c a i).pushTo p (nextNeighbor c a (i + 1)))
  /-- `thread_to_join++` and the last broadcast of the thread. -/
  | finish {s} (h : s.pushers p = .leaving) :
      PushStep c p s ({ s.wakeReaders with threadToJoin := s.threadToJoin + 1 }.pushTo p .finished)

/-- `thread_to_join >= NUM_USER_SIM_THREADS + NUM_PUSH_UPDATE_THREADS`. -/
def allJoined (c : Config) (s : State) : Prop :=
  numUserSimThreads + c.numPushUpdateThreads ≤ s.threadToJoin

/-- The steps of thread `r` of `readPost`. -/
inductive ReadStep (c : Config) (r : ℕ) : State → State → Prop where
  | wait {s} (h : s.readers r = .top ∨ s.readers r = .woken ∧ ¬ allJoined c s)
      (hq : s.feedUpdateQ = []) : ReadStep c r s (s.readTo r .waiting)
  | pop {s v q} (h : s.readers r = .top ∨ s.readers r = .woken) (hq : s.feedUpdateQ = v :: q) :
      ReadStep c r s ({ s with feedUpdateQ := q }.readTo r (.popped v))
  /-- The wait has returned and `flag` is set. -/
  | leave {s} (h : s.readers r = .woken) (hj : allJoined c s) (hq : s.feedUpdateQ = []) :
      ReadStep c r s (s.readTo r .finished)
  /-- All of `feed_queue` is read. -/
  | readChrono {s v} (h : s.readers r = .popped v) (ho : (c.graph v).orderBy = 1) :
      ReadStep c r s ({ s with
        feedQueue := Function.update s.feedQueue v []
        reads := s.reads ++ (s.feedQueue v).map (Read.mk r v) }.readTo r .top)
  /-- All of `priority_feed_queue` is read, in an order of decreasing priority. -/
  | readPriority {s v} {l : List (ℤ × Copy)} (h : s.readers r = .popped v) (ho : (c.graph v).orderBy = 0)
      (hl : l.Perm (s.priorityFeedQueue v)) (hsort : l.Pairwise fun x y => y.1 ≤ x.1) :
      ReadStep c r s ({ s with
        priorityFeedQueue := Function.update s.priorityFeedQueue v []
        reads := s.reads ++ l.map fun (x : ℤ × Copy) => Read.mk r v x.2 }.readTo r .top)

/-- A thread. -/
inductive Thread where
  | user
  | push (p : ℕ)
  | read (r : ℕ)

/-- One step of one thread. -/
inductive Step (c : Config) : State → Thread → State → Prop where
  | user {s t} (h : UserStep c s t) : Step c s .user t
  | push {s t p} (hp : p < c.numPushUpdateThreads) (h : PushStep c p s t) : Step c s (.push p) t
  | read {s t r} (hr : r < c.numReadPostThreads) (h : ReadStep c r s t) : Step c s (.read r) t

end OsLab.Feed
