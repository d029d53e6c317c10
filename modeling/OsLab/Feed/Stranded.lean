import OsLab.Feed.Delivery
import OsLab.Feed.PushRun

/-!
# Stranded copies

`pushUpdate` announces a node in `feed_update_q` before it pushes to the node's feed. A feed
that holds a copy is `Pending`: its node is in `feed_update_q`, or a reader has popped it and
has still to read the feed. Reading keeps this, but a push to a feed whose announcement a
reader has already followed does not.

* `covered_step`: every other step keeps every feed in use pending.
* `no_stranded`: what the claim of an empty system needs is that each push comes in time.
-/

namespace OsLab.Feed

open Lib

variable {c : Config} {s t : State} {p r v i : ℕ} {a : Action}

/-- The feed of `v` is going to be read. -/
def Pending (c : Config) (s : State) (v : ℕ) : Prop :=
  v ∈ s.feedUpdateQ ∨ ∃ r < c.numReadPostThreads, s.readers r = .popped v

/-- A thread that is about to push to the feed of a node has its announcement still pending. -/
def InTime (c : Config) (s : State) : Thread → Prop
  | .push p => ∀ a i, s.pushers p = .feeding a i → Pending c s (c.neighbor a.userId i).1
  | _ => True

/-- Nothing is under way. -/
structure Quiescent (c : Config) (s : State) : Prop where
  newActionQ : s.newActionQ = []
  feedUpdateQ : s.feedUpdateQ = []
  pushers : ∀ p < c.numPushUpdateThreads, (s.pushers p).holds = none
  readers : ∀ r < c.numReadPostThreads, ∀ v, s.readers r ≠ .popped v

/-- A feed in use is going to be read. -/
def Covered (c : Config) (s : State) : Prop := ∀ v, feed c s v ≠ [] → Pending c s v

theorem Pending.mono (h : Pending c s v) (hq : s.feedUpdateQ ⊆ t.feedUpdateQ)
    (hr : ∀ r, s.readers r = .popped v → t.readers r = .popped v) : Pending c t v := by
  rcases h with h | ⟨r, hlt, h⟩
  · exact .inl (hq h)
  · exact .inr ⟨r, hlt, hr r h⟩

theorem Covered.same (h : Covered c s) (hf : ∀ v, feed c t v = feed c s v)
    (hp : ∀ v, Pending c s v → Pending c t v) : Covered c t :=
  fun v hv => hp v (h v (by rwa [hf] at hv))

theorem wake_popped {f : ℕ → ReadPc} (h : f r = .popped v) : wake f .waiting .woken r = .popped v := by
  rw [wake_of_ne (by rw [h]; nofun), h]

theorem covered_push (h : Covered c s) (hst : PushStep c p s t)
    (hin : InTime c s (.push p)) : Covered c t := by
  cases hst with
  | notify _ =>
    exact h.same (fun _ => rfl) fun v hv =>
      hv.mono (List.subset_append_left _ _) fun r hr => wake_popped hr
  | finish _ =>
    exact h.same (fun _ => rfl) fun v hv => hv.mono (List.Subset.refl _) fun r hr => wake_popped hr
  | @feed a i hpc =>
    intro v hv
    -- this is where the announcement has to be there still
    have hpend : Pending c s v := by
      by_cases hn : v = (c.neighbor a.userId i).1
      · subst hn
        exact hin a i hpc
      · exact h v (by rwa [← feed_pushFeed_ne hn])
    apply hpend.mono
    · show s.feedUpdateQ ⊆ (s.pushFeed c a i).feedUpdateQ
      rw [pushFeed_feedUpdateQ]
      exact List.Subset.refl _
    · intro r hr
      show (s.pushFeed c a i).readers r = _
      rw [pushFeed_readers]
      exact hr
  | _ => exact h.same (fun _ => rfl) fun v hv => hv

/-- A reader that has popped nothing goes on. -/
theorem Covered.readTo (h : Covered c s) (hr : ∀ w, s.readers r ≠ .popped w) (pc : ReadPc) :
    Covered c (s.readTo r pc) := by
  refine h.same (fun _ => rfl) ?_
  intro v hv
  refine hv.mono (List.Subset.refl _) ?_
  intro j hj
  have hne : j ≠ r := by
    rintro rfl
    exact hr v hj
  exact (Function.update_of_ne hne ..).trans hj

/-- A reader empties the feed of the node it has popped. -/
theorem Covered.read (h : Covered c s) (hpc : s.readers r = .popped v)
    (hf : ∀ w, feed c t w = if w = v then [] else feed c s w) (hq : t.feedUpdateQ = s.feedUpdateQ)
    (hr : t.readers = Function.update s.readers r .top) : Covered c t := by
  intro w hw
  rw [hf] at hw
  have hne : w ≠ v := fun hwv => hw (if_pos hwv)
  rw [if_neg hne] at hw
  -- the feed of `w` is not read, so whoever has popped `w` still has it
  apply (h w hw).mono (hq ▸ List.Subset.refl _)
  intro j hj
  have hjr : j ≠ r := by
    rintro rfl
    rw [hpc] at hj
    exact hne (ReadPc.popped.inj hj).symm
  rw [hr, Function.update_of_ne hjr]
  exact hj

theorem covered_read (h : Covered c s) (hr : r < c.numReadPostThreads)
    (hst : ReadStep c r s t) : Covered c t := by
  cases hst with
  | wait hpc _ => exact h.readTo (fun w => by rcases hpc with hpc | ⟨hpc, -⟩ <;> rw [hpc] <;> nofun) _
  | leave hpc _ _ => exact h.readTo (fun w => by rw [hpc]; nofun) _
  | @pop v q hpc hq =>
    refine h.same (fun _ => rfl) ?_
    intro w hw
    rcases hw with hw | ⟨j, hlt, hj⟩
    · -- the popped node passes from the queue to the reader
      rw [hq] at hw
      rcases List.mem_cons.1 hw with rfl | hw
      · exact .inr ⟨r, hr, Function.update_self ..⟩
      · exact .inl hw
    · have hne : j ≠ r := by
        rintro rfl
        rcases hpc with hpc | hpc <;> rw [hpc] at hj <;> cases hj
      exact .inr ⟨j, hlt, (Function.update_of_ne hne ..).trans hj⟩
  | readChrono hpc ho => exact h.read hpc (feed_readChrono ho _ _) rfl rfl
  | readPriority hpc ho _ _ => exact h.read hpc (feed_readPriority ho _ _) rfl rfl

/-- **A step keeps every feed in use pending** when a push to a feed comes in time. -/
theorem covered_step {th : Thread} (h : Covered c s) (hin : InTime c s th) (hst : Step c s th t) :
    Covered c t := by
  cases hst with
  | user hst => cases hst <;> exact h.same (fun _ => rfl) fun v hv => hv
  | push _ hst => exact covered_push h hst hin
  | read hr hst => exact covered_read h hr hst

/-- **No stranded copies.** When every push to a feed comes while the announcement of its node
is pending, every feed is empty as soon as nothing is under way, and every copy of every queued
action has been read. -/
theorem no_stranded (h : Reaches (Guarded (InTime c) (Step c)) State.init s)
    (hq : Quiescent c s) :
    (∀ v, s.feedQueue v = [] ∧ s.priorityFeedQueue v = []) ∧
      ∀ a ∈ s.queued, ∀ i < (c.graph a.userId).degree, (⟨a, i⟩ : Copy) ∈ s.reads.map Read.copy := by
  have hinit : Covered c State.init := by
    intro v hv
    exfalso
    apply hv
    rcases orderBy_cases c v with ho | ho
    · exact feed_chrono ho
    · exact feed_priority ho
  have hcov : Covered c s :=
    reaches_inv (I := Covered c) (fun _ _ _ hI hst => covered_step hI hst.1 hst.2) hinit h
  -- a copy that is left in a feed is pending, and nothing is
  have hempty : ∀ v, feed c s v = [] := by
    intro v
    by_contra hv
    rcases hcov v hv with hmem | ⟨r, hlt, hr⟩
    · rw [hq.feedUpdateQ] at hmem
      exact absurd hmem List.not_mem_nil
    · exact hq.readers r hlt v hr
  refine ⟨fun v => (oneFeed h.of_guarded).containers_eq_nil (hempty v), ?_⟩
  intro a ha i hi
  rcases delivered h.of_guarded hq.newActionQ hq.pushers ha hi with hfeed | hread
  · rw [hempty] at hfeed
    exact absurd hfeed List.not_mem_nil
  · exact hread

/-! ## In `pairs` -/

theorem inTime_of_pc {pc : PushPc} (h : s.pushers p = pc) (hpc : ∀ a i, pc ≠ .feeding a i) :
    InTime c s (.push p) := fun a i hf => absurd (h.symm.trans hf) (hpc a i)

/-- The first action of node 0 is queued. -/
theorem pairs_queued : ∃ a s, a.userId = 0 ∧
    Reaches (Guarded (InTime pairs) (Step pairs)) State.init s ∧ s.newActionQ = [a] ∧
      a ∈ s.queued ∧ s.feedUpdateQ = [] ∧ s.pushers 0 = .top ∧
        s.readers 0 = .top := by
  have hsel : UserStep pairs State.init _ := .select (v := 0) rfl (by decide) (by decide) (by decide)
    (by decide)
  obtain ⟨t, as, hgen, ht, has, huser, hq, hp, -, -⟩ := generate_run (c := pairs)
    (s := { State.init with nodeIds := [0], user := .generating 0 [] })
    (show _ = UserPc.generating 0 [] from rfl) (Nat.zero_le _) nofun
  have hrun : UserRun pairs State.init t := (UserRun.of_step hsel (by nofun)).trans hgen
  cases as with
  | nil => exact absurd has (Nat.ne_of_lt (numActions_pos (by decide)))
  | cons a as =>
    have h0 := hrun.guarded (C := InTime pairs) fun _ _ => trivial
    have h1 := h0.snoc (a := Thread.user) ⟨trivial, .user (.push ht)⟩
    refine ⟨a, _, huser a List.mem_cons_self, h1, congrArg (· ++ [a]) hq, ?_, hgen.only.feedUpdateQ,
      ?_, ?_⟩
    · exact List.mem_append_right _ List.mem_cons_self
    · exact congrFun (congrArg (wake · .waiting .woken) hp) 0
    · exact congrFun hgen.only.readers 0

/-- Node 1 has been announced, and the action is not in its feed yet. -/
theorem pairs_announced : ∃ a s, a.userId = 0 ∧
    Reaches (Guarded (InTime pairs) (Step pairs)) State.init s ∧ s.newActionQ = [] ∧
      a ∈ s.queued ∧ s.feedUpdateQ = [1] ∧ s.pushers 0 = .feeding a 0 ∧ s.readers 0 = .top := by
  obtain ⟨a, s, ha, h0, hact, hqueued, hupd, hpc, hread⟩ := pairs_queued
  have hnext : nextNeighbor pairs a 0 = .notifying a 0 :=
    if_pos (show 0 < (pairs.graph a.userId).degree from Nat.zero_lt_one)
  have h1 := h0.snoc (a := Thread.push 0) ⟨inTime_of_pc hpc nofun,
    .push (by decide) (.pop (a := a) (q := []) (.inl hpc) hact)⟩
  have hpc1 := (pushTo_self { s with newActionQ := [] } 0 (nextNeighbor pairs a 0)).trans hnext
  have h2 := h1.snoc (a := Thread.push 0) ⟨inTime_of_pc hpc1 nofun, .push (by decide) (.notify hpc1)⟩
  refine ⟨a, _, ha, h2, rfl, hqueued, ?_, pushTo_self .., ?_⟩
  · show s.feedUpdateQ ++ [(pairs.neighbor a.userId 0).1] = [1]
    rw [hupd, ha]
    rfl
  · show wake s.readers .waiting .woken 0 = .top
    rw [wake_of_ne (by rw [hread]; nofun), hread]

theorem pairs_last (a : Action) : nextNeighbor pairs a 1 = .top :=
  if_neg (show ¬ 1 < (pairs.graph a.userId).degree from Nat.lt_irrefl 1)

theorem pairs_quiescent (hact : s.newActionQ = []) (hupd : s.feedUpdateQ = [])
    (hpc : s.pushers 0 = .top) (hread : s.readers 0 = .top) : Quiescent pairs s where
  newActionQ := hact
  feedUpdateQ := hupd
  pushers p hp := by
    obtain rfl : p = 0 := Nat.lt_one_iff.1 hp
    rw [hpc]
    rfl
  readers r hr v := by
    obtain rfl : r = 0 := Nat.lt_one_iff.1 hr
    rw [hread]
    nofun

/-- The last push of the action. -/
theorem pairs_feed (ha : a.userId = 0) (hpc : s.pushers 0 = .feeding a 0) :
    ∃ t, Step pairs s (.push 0) t ∧ t.pushers 0 = .top ∧ t.feedQueue 1 ≠ [] ∧
      t.newActionQ = s.newActionQ ∧ t.queued = s.queued ∧ t.feedUpdateQ = s.feedUpdateQ ∧
        t.readers = s.readers := by
  refine ⟨_, .push (by decide) (.feed hpc), (pushTo_self ..).trans (pairs_last a), ?_,
    pushFeed_newActionQ, pushFeed_queued, pushFeed_feedUpdateQ, pushFeed_readers⟩
  have hhome : (pairs.neighbor a.userId 0).1 = 1 := by rw [ha]; rfl
  have hperm := feed_pushFeed_self (c := pairs) (s := s) (a := a) (i := 0)
  rw [hhome] at hperm
  intro hnil
  have hfeed : feed pairs (s.pushFeed pairs a 0) 1 = [] := hnil
  rw [hfeed] at hperm
  exact absurd hperm.length_eq (by simp)

/-- Node 1 is read. -/
theorem pairs_read (hupd : s.feedUpdateQ = [1]) (hread : s.readers 0 = .top) :
    ∃ t, Reaches (Guarded (InTime pairs) (Step pairs)) s t ∧ t.readers 0 = .top ∧
      t.feedUpdateQ = [] ∧ t.newActionQ = s.newActionQ ∧ t.queued = s.queued ∧
        t.pushers = s.pushers := by
  have h1 : Reaches (Guarded (InTime pairs) (Step pairs)) s _ := (Reaches.refl s).snoc
    (a := Thread.read 0) ⟨trivial, .read (by decide) (.pop (.inl hread) hupd)⟩
  have h2 := h1.snoc (a := Thread.read 0) ⟨trivial, .read (by decide)
    (.readChrono (readTo_self ..) rfl)⟩
  exact ⟨_, h2, readTo_self .., rfl, rfl, rfl, rfl⟩

/-- The copy is pushed in time, and read. -/
theorem no_stranded_pairs : ∃ (a : Action) (s : State), a ∈ s.queued ∧ s.feedQueue 1 = [] ∧
    (⟨a, 0⟩ : Copy) ∈ s.reads.map Read.copy := by
  obtain ⟨a, s, ha, h0, hact, hqueued, hupd, hpc, hread⟩ := pairs_announced
  have hin : InTime pairs s (.push 0) := by
    intro b j hb
    rw [hpc] at hb
    cases hb
    exact .inl (by rw [ha, hupd]; exact List.mem_cons_self)
  obtain ⟨t, hfeed, htop, -, hact', hqueued', hupd', hread'⟩ := pairs_feed ha hpc
  obtain ⟨u, hrun, htop', hupd'', hact'', hqueued'', hpush⟩ := pairs_read (hupd'.trans hupd)
    ((congrFun hread' 0).trans hread)
  have hq := pairs_quiescent ((hact''.trans hact').trans hact) hupd''
    ((congrFun hpush 0).trans htop) htop'
  have hmem : a ∈ u.queued := by rwa [hqueued'', hqueued']
  obtain ⟨hempty, hreads⟩ := no_stranded ((h0.snoc ⟨hin, hfeed⟩).trans hrun) hq
  exact ⟨a, u, hmem, (hempty 1).1, hreads a hmem 0 Nat.zero_lt_one⟩

/-- **A stranded copy**: the reader follows the announcement before the copy is there. -/
theorem copy_stranded : ¬ ∀ s, Reaches (Step pairs) State.init s → Quiescent pairs s →
    ∀ v, s.feedQueue v = [] ∧ s.priorityFeedQueue v = [] := by
  intro hclaim
  obtain ⟨a, s, ha, h0, hact, -, hupd, hpc, hread⟩ := pairs_announced
  obtain ⟨t, hrun, htop, hupd', hact', -, hpush⟩ := pairs_read hupd hread
  obtain ⟨u, hfeed, htop', hfed, hact'', -, hupd'', hread'⟩ :=
    pairs_feed ha ((congrFun hpush 0).trans hpc)
  have hq := pairs_quiescent ((hact''.trans hact').trans hact) (hupd''.trans hupd') htop'
    ((congrFun hread' 0).trans htop)
  have hnil := (hclaim u ((h0.trans hrun).of_guarded.snoc hfeed) hq 1).1
  exact hfed hnil

end OsLab.Feed
