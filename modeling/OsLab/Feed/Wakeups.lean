import OsLab.Feed.Joins
import OsLab.Feed.PushRun

/-!
# Lost wake-ups at shutdown

`thread_to_join` is tested only when a wait returns. A thread that comes to its wait after the
last broadcast of the condition it waits on is never woken. When all threads of `pushUpdate`
are inside their wait at the last broadcast of `userSimulator`, and all threads of `readPost`
are inside theirs with nothing left in `feed_update_q` at the last one of `pushUpdate`, all of
them wake up and leave.

* `shutdown_step`: what then holds after each of the two broadcasts.
* `push_progress`, `read_progress`: only a wait keeps a thread from going on.
* `stepsLeft_lt`: after the first broadcast only so many steps are left.
* `no_lost_wakeup`, and a run of `pairs` in which a reader waits for ever.
-/

namespace OsLab.Feed

open Lib

variable {c : Config} {s t : State} {p r : ℕ}

/-- Who waits at the two last broadcasts. -/
def AllWait (c : Config) (s : State) : Thread → Prop
  | .user => s.user = .finishing → ∀ p < c.numPushUpdateThreads, (s.pushers p).InWait
  | .push p => s.pushers p = .leaving →
      (∀ q < c.numPushUpdateThreads, q ≠ p → s.pushers q = .finished) →
        ∀ r < c.numReadPostThreads, s.feedUpdateQ = [] ∧ (s.readers r).InWait
  | .read _ => True

/-- No thread waits un-notified for a broadcast that does not come any more. -/
def NoLostWakeup (c : Config) (s : State) : Prop :=
  (s.user = .finished → ∀ p < c.numPushUpdateThreads, s.pushers p ≠ .waiting) ∧
    ((∀ p < c.numPushUpdateThreads, s.pushers p = .finished) →
      ∀ r < c.numReadPostThreads, s.readers r ≠ .waiting)

/-- After the two broadcasts. -/
structure Shutdown (c : Config) (s : State) : Prop where
  pushers : s.user = .finished →
    ∀ p < c.numPushUpdateThreads, s.pushers p = .woken ∨ (s.pushers p).HasLeft
  readers : (∀ p < c.numPushUpdateThreads, s.pushers p = .finished) →
    ∀ r < c.numReadPostThreads,
      s.feedUpdateQ = [] ∧ (s.readers r = .woken ∨ s.readers r = .finished)

theorem Shutdown.noLostWakeup (h : Shutdown c s) : NoLostWakeup c s := by
  constructor
  · intro hu p hp hw
    rcases h.pushers hu p hp with hp | hp | hp <;> rw [hw] at hp <;> cases hp
  · intro hf r hr hw
    rcases (h.readers hf r hr).2 with hr | hr <;> rw [hw] at hr <;> cases hr

/-! ## The steps -/

/-- A thread of `pushUpdate` that is notified or has left does nothing but leave. -/
theorem Shutdown.push_cases (h : Shutdown c s) (hj : Joins c s) (hu : s.user = .finished)
    (hp : p < c.numPushUpdateThreads) (hst : PushStep c p s t) :
    s.pushers p = .woken ∧ t = s.pushTo p .leaving ∨ s.pushers p = .leaving ∧
      t = { s.wakeReaders with threadToJoin := s.threadToJoin + 1 }.pushTo p .finished := by
  have hin := h.pushers hu p hp
  have htest : ¬ PushTests s p := by
    intro ht
    rcases ht with ht | ⟨-, hn⟩
    · rcases hin with hin | hin | hin <;> rw [ht] at hin <;> cases hin
    · exact hn (hj.user_iff.2 hu)
  cases hst with
  | wait ht _ | pop ht _ => exact absurd ht htest
  | leave hpc _ => exact .inl ⟨hpc, rfl⟩
  | notify hpc | feed hpc => rcases hin with hin | hin | hin <;> rw [hpc] at hin <;> cases hin
  | finish hpc => exact .inr ⟨hpc, rfl⟩

theorem shutdown_user (hP : 0 < c.numPushUpdateThreads) (hj : Joins c s)
    (hin : AllWait c s .user) (hst : UserStep c s t) : Shutdown c t := by
  have hrun : s.user ≠ .finished := by
    cases hst <;> simp_all
  -- no thread of `pushUpdate` has finished before, so the second half says nothing
  have hnot : ¬ s.pushers 0 = .finished := fun hf => hj.not_left hrun hP (.inr hf)
  have hreaders : t.pushers 0 ≠ .finished → (∀ p < c.numPushUpdateThreads, t.pushers p = .finished) →
      ∀ r < c.numReadPostThreads,
        t.feedUpdateQ = [] ∧ (t.readers r = .woken ∨ t.readers r = .finished) :=
    fun hne hall => absurd (hall 0 hP) hne
  have hwake : wake s.pushers .waiting .woken 0 ≠ .finished := fun hf => hnot (of_wake_eq hf nofun)
  cases hst with
  | finish hpc =>
    refine ⟨?_, hreaders hwake⟩
    intro _ p hp
    apply Or.inl
    show wake s.pushers .waiting .woken p = .woken
    rcases hin hpc p hp with hw | hw
    · exact if_pos hw
    · rw [wake_of_ne (by rw [hw]; nofun), hw]
  | push _ => exact ⟨nofun, hreaders hwake⟩
  | endIter _ _ =>
    refine ⟨?_, hreaders hnot⟩
    intro hf
    dsimp only at hf
    split_ifs at hf
  | _ => exact ⟨nofun, hreaders hnot⟩

theorem push_finished (hst : PushStep c p s t) (hf : t.pushers p = .finished) :
    s.pushers p = .leaving ∧
      t = { s.wakeReaders with threadToJoin := s.threadToJoin + 1 }.pushTo p .finished := by
  have hnext : ∀ a i, nextNeighbor c a i ≠ .finished := by
    intro a i
    unfold nextNeighbor
    split_ifs <;> nofun
  cases hst with
  | finish hpc => exact ⟨hpc, rfl⟩
  | pop _ _ | feed _ => rw [pushTo_self] at hf; exact absurd hf (hnext _ _)
  | _ => rw [pushTo_self] at hf; cases hf

theorem shutdown_push (h : Shutdown c s) (hj : Joins c s) (hp : p < c.numPushUpdateThreads)
    (hin : AllWait c s (.push p)) (hst : PushStep c p s t) : Shutdown c t where
  pushers hu q hq := by
    rw [push_user hst] at hu
    by_cases hqp : q = p
    · subst hqp
      rcases h.push_cases hj hu hp hst with ⟨-, rfl⟩ | ⟨-, rfl⟩
      · exact .inr (.inl (pushTo_self ..))
      · exact .inr (.inr (pushTo_self ..))
    · rw [push_pushers_ne hst hqp]
      exact h.pushers hu q hq
  readers hall := by
    -- the thread that took the step was the last one
    obtain ⟨hpc, rfl⟩ := push_finished hst (hall p hp)
    intro r hr
    obtain ⟨hq, hw⟩ :=
      hin hpc (fun q hq hne => (push_pushers_ne hst hne).symm.trans (hall q hq)) r hr
    refine ⟨hq, .inl ?_⟩
    -- its broadcast wakes every reader
    show wake s.readers .waiting .woken r = .woken
    rcases hw with hw | hw
    · exact if_pos hw
    · rw [wake_of_ne (by rw [hw]; nofun), hw]

theorem shutdown_read (hP : 0 < c.numPushUpdateThreads) (h : Shutdown c s) (hj : Joins c s)
    (hr : r < c.numReadPostThreads) (hst : ReadStep c r s t) : Shutdown c t := by
  have hpush : t.pushers = s.pushers := by cases hst <;> rfl
  have huser : t.user = s.user := by cases hst <;> rfl
  refine ⟨by rw [hpush, huser]; exact h.pushers, ?_⟩
  intro hall
  rw [hpush] at hall
  obtain ⟨hq, hin⟩ := h.readers hall r hr
  -- a wait that returns from now on returns for good
  have hjoined : allJoined c s := hj.all_iff.2 ⟨hj.left 0 hP (.inr (hall 0 hP)), hall⟩
  cases hst with
  | wait hpc _ =>
    rcases hpc with hpc | ⟨-, hn⟩
    · rcases hin with hin | hin <;> rw [hpc] at hin <;> cases hin
    · exact absurd hjoined hn
  | pop _ hpop => rw [hq] at hpop; cases hpop
  | leave _ _ _ =>
    intro q hqr
    by_cases hne : q = r
    · subst hne
      exact ⟨hq, .inr (readTo_self ..)⟩
    · rw [readTo_ne _ _ hne]
      exact h.readers hall q hqr
  | readChrono hpc _ | readPriority hpc _ _ _ =>
    rcases hin with hin | hin <;> rw [hpc] at hin <;> cases hin

/-- **What the two broadcasts bring about lasts.** -/
theorem shutdown_step {th : Thread} (hP : 0 < c.numPushUpdateThreads) (hj : Joins c s)
    (h : Shutdown c s) (hin : AllWait c s th) (hst : Step c s th t) : Shutdown c t := by
  cases hst with
  | user hst => exact shutdown_user hP hj hin hst
  | push hp hst => exact shutdown_push h hj hp hin hst
  | read hr hst => exact shutdown_read hP h hj hr hst

/-! ## Progress -/

/-- Only a wait keeps a thread of `pushUpdate` from going on. -/
theorem push_progress (hw : s.pushers p ≠ .waiting) (hf : s.pushers p ≠ .finished) :
    ∃ t, PushStep c p s t := by
  have htests : PushTests s p → ∃ t, PushStep c p s t := by
    intro h
    cases hq : s.newActionQ with
    | nil => exact ⟨_, .wait h hq⟩
    | cons a q => exact ⟨_, .pop h hq⟩
  cases hpc : s.pushers p with
  | top => exact htests (.inl hpc)
  | waiting => exact absurd hpc hw
  | woken =>
    by_cases hj : numUserSimThreads ≤ s.threadToJoin
    · exact ⟨_, .leave hpc hj⟩
    · exact htests (.inr ⟨hpc, hj⟩)
  | notifying a i => exact ⟨_, .notify hpc⟩
  | feeding a i => exact ⟨_, .feed hpc⟩
  | leaving => exact ⟨_, .finish hpc⟩
  | finished => exact absurd hpc hf

/-- Only a wait keeps a thread of `readPost` from going on. -/
theorem read_progress (hw : s.readers r ≠ .waiting) (hf : s.readers r ≠ .finished) :
    ∃ t, ReadStep c r s t := by
  cases hpc : s.readers r with
  | top =>
    cases hq : s.feedUpdateQ with
    | nil => exact ⟨_, .wait (.inl hpc) hq⟩
    | cons v q => exact ⟨_, .pop (.inl hpc) hq⟩
  | waiting => exact absurd hpc hw
  | woken =>
    cases hq : s.feedUpdateQ with
    | nil =>
      by_cases hj : allJoined c s
      · exact ⟨_, .leave hpc hj hq⟩
      · exact ⟨_, .wait (.inr ⟨hpc, hj⟩) hq⟩
    | cons v q => exact ⟨_, .pop (.inr hpc) hq⟩
  | popped v =>
    rcases orderBy_cases c v with ho | ho
    · exact ⟨_, .readChrono hpc ho⟩
    · refine ⟨_, .readPriority hpc ho
        (List.mergeSort_perm (s.priorityFeedQueue v) fun x y => decide (y.1 ≤ x.1)) ?_⟩
      apply (List.pairwise_mergeSort _ _ _).imp fun h => of_decide_eq_true h
      · intro x y z hxy hyz
        simp only [decide_eq_true_eq] at hxy hyz ⊢
        omega
      · intro x y
        simp only [Bool.or_eq_true, decide_eq_true_eq]
        omega
  | finished => exact absurd hpc hf

/-! ## The rest of a run -/

/-- What thread `p` of `pushUpdate` has still to do, and to make the readers do. -/
def pushLeft (c : Config) : PushPc → ℕ
  | .woken => c.numReadPostThreads + 2
  | .leaving => c.numReadPostThreads + 1
  | _ => 0

def readLeft : ReadPc → ℕ
  | .top | .woken => 1
  | .popped _ => 2
  | _ => 0

/-- A bound on the steps that are left after the last broadcast of `userSimulator`. -/
def stepsLeft (c : Config) (s : State) : ℕ :=
  (∑ p ∈ Finset.range c.numPushUpdateThreads, pushLeft c (s.pushers p)) +
    (∑ r ∈ Finset.range c.numReadPostThreads, readLeft (s.readers r)) + 2 * s.feedUpdateQ.length

theorem stepsLeft_pushTo (hp : p < c.numPushUpdateThreads) (pc : PushPc) :
    stepsLeft c (s.pushTo p pc) + pushLeft c (s.pushers p) = stepsLeft c s + pushLeft c pc := by
  have h := sum_update s.pushers (pushLeft c) hp pc
  unfold stepsLeft State.pushTo
  dsimp only
  omega

theorem stepsLeft_readTo (hr : r < c.numReadPostThreads) (pc : ReadPc) :
    stepsLeft c (s.readTo r pc) + readLeft (s.readers r) = stepsLeft c s + readLeft pc := by
  have h := sum_update s.readers readLeft hr pc
  unfold stepsLeft State.readTo
  dsimp only
  omega

theorem stepsLeft_lt {th : Thread} (h : Shutdown c s) (hj : Joins c s) (hu : s.user = .finished)
    (hst : Step c s th t) : stepsLeft c t < stepsLeft c s := by
  cases hst with
  | user hst => cases hst <;> simp_all
  | @push _ p hp hst =>
    rcases h.push_cases hj hu hp hst with ⟨hpc, rfl⟩ | ⟨hpc, rfl⟩
    · have hmove := stepsLeft_pushTo (s := s) hp .leaving
      rw [hpc] at hmove
      simp only [pushLeft] at hmove
      omega
    · -- the broadcast wakes at most all of the readers
      have hwake : stepsLeft c { s.wakeReaders with threadToJoin := s.threadToJoin + 1 } ≤
          stepsLeft c s + c.numReadPostThreads := by
        have := sum_wake_le s.readers (w := readLeft)
          (show readLeft .woken ≤ readLeft .waiting + 1 from le_rfl) c.numReadPostThreads
        unfold stepsLeft State.wakeReaders
        dsimp only
        omega
      have hfinish : ∀ u : State, u.pushers = s.pushers →
          stepsLeft c u ≤ stepsLeft c s + c.numReadPostThreads →
          stepsLeft c (u.pushTo p .finished) < stepsLeft c s := by
        intro u hpush hle
        have hmove := stepsLeft_pushTo (s := u) hp .finished
        rw [hpush, hpc] at hmove
        simp only [pushLeft] at hmove
        omega
      exact hfinish _ rfl hwake
  | @read _ r hr hst =>
    cases hst with
    | wait hpc _ =>
      have hmove := stepsLeft_readTo (s := s) hr .waiting
      rcases hpc with hpc | ⟨hpc, -⟩ <;> rw [hpc] at hmove <;> simp only [readLeft] at hmove <;> omega
    | @pop v q hpc hq =>
      have hmove := stepsLeft_readTo (s := { s with feedUpdateQ := q }) hr (.popped v)
      have hlen : stepsLeft c { s with feedUpdateQ := q } + 2 = stepsLeft c s := by
        unfold stepsLeft
        rw [hq, List.length_cons]
        dsimp only
        omega
      rcases hpc with hpc | hpc <;> simp only [hpc, readLeft] at hmove <;> omega
    | leave hpc _ _ =>
      have hmove := stepsLeft_readTo (s := s) hr .finished
      rw [hpc] at hmove
      simp only [readLeft] at hmove
      omega
    | readChrono hpc _ | readPriority hpc _ _ _ =>
      have hmove := stepsLeft_readTo (s := s) hr .top
      rw [hpc] at hmove
      simp only [readLeft] at hmove
      exact Nat.lt_of_succ_le (le_of_eq (by
        show stepsLeft c (s.readTo r .top) + 1 = _
        omega))

/-! ## Shutdown -/

theorem shutdown (hP : 0 < c.numPushUpdateThreads)
    (h : Reaches (Guarded (AllWait c) (Step c)) State.init s) : Joins c s ∧ Shutdown c s := by
  have hinit : Shutdown c State.init := ⟨nofun, fun hall => by cases hall 0 hP⟩
  exact reaches_inv (I := fun s => Joins c s ∧ Shutdown c s)
    (fun _ _ _ hI hst => ⟨joins_step hI.1 hst.2, shutdown_step hP hI.1 hI.2 hst.1 hst.2⟩)
    ⟨joins_init c, hinit⟩ h

/-- **No lost wake-up.** In a run in which the threads wait at the two last broadcasts, no thread
waits for a broadcast that does not come any more. So the joins of `main` return: once
`userSimulator` has finished no run goes on for ever, and it stops only when all threads have
finished. -/
theorem no_lost_wakeup (hP : 0 < c.numPushUpdateThreads)
    (h : Reaches (Guarded (AllWait c) (Step c)) State.init s) :
    NoLostWakeup c s ∧ (s.user = .finished →
      Acc (fun v u => ∃ th, Guarded (AllWait c) (Step c) u th v) s ∧
        ((∀ th t, ¬ Step c s th t) → (∀ p < c.numPushUpdateThreads, s.pushers p = .finished) ∧
          ∀ r < c.numReadPostThreads, s.readers r = .finished)) := by
  obtain ⟨hj, hs⟩ := shutdown hP h
  have hno := hs.noLostWakeup
  refine ⟨hno, ?_⟩
  intro hu
  constructor
  · -- no run goes on for ever
    refine acc_of_measure (I := fun s => Joins c s ∧ Shutdown c s ∧ s.user = .finished) (stepsLeft c)
      ?_ ⟨hj, hs, hu⟩
    intro s th t hI hst
    obtain ⟨hj, hs, hu⟩ := hI
    refine ⟨⟨joins_step hj hst.2, shutdown_step hP hj hs hst.1 hst.2, ?_⟩,
      stepsLeft_lt hs hj hu hst.2⟩
    cases hst.2 with
    | user hst => cases hst <;> simp_all
    | push _ hst => exact (push_user hst).trans hu
    | read _ hst => cases hst <;> exact hu
  · -- and it stops only when all threads have finished
    intro hstuck
    have hpush : ∀ p < c.numPushUpdateThreads, s.pushers p = .finished := by
      intro p hp
      by_contra hf
      obtain ⟨t, ht⟩ := push_progress (c := c) (hno.1 hu p hp) hf
      exact hstuck _ _ (.push hp ht)
    refine ⟨hpush, ?_⟩
    intro r hr
    by_contra hf
    obtain ⟨t, ht⟩ := read_progress (c := c) (hno.2 hpush r hr) hf
    exact hstuck _ _ (.read hr ht)

/-! ## In `pairs` -/

/-- Both threads wait before the first action comes, and wake up when `userSimulator` has finished,
the one after the other. -/
theorem no_lost_wakeup_pairs : ∃ s, s.user = .finished ∧ s.pushers 0 = .finished ∧
    NoLostWakeup pairs s := by
  have h0 : Reaches (Guarded (AllWait pairs) (Step pairs)) State.init _ := (Reaches.refl _).snoc
    (a := Thread.push 0) ⟨nofun, .push (by decide) (.wait (.inl rfl) rfl)⟩
  have h1 := h0.snoc (a := Thread.read 0) ⟨trivial, .read (by decide) (.wait (.inl rfl) rfl)⟩
  obtain ⟨s, hgen, hfin, -⟩ := pairs_generated (s := (State.init.pushTo 0 .waiting).readTo 0 .waiting)
    rfl rfl rfl
  have hw : wake s.pushers .waiting .woken 0 = .woken := congrFun hgen.only.pushers 0
  -- the thread of `pushUpdate` is still inside its wait
  have hin : AllWait pairs s .user := by
    intro _ p hp
    obtain rfl : p = 0 := Nat.lt_one_iff.1 hp
    by_cases hpc : s.pushers 0 = .waiting
    · exact .inl hpc
    · exact .inr ((wake_of_ne hpc).symm.trans hw)
  have h2 := h1.trans (hgen.guarded fun s hs hf => absurd hf hs)
  obtain ⟨t, u, hfinish, hleave, hpc, hu, -, hq, hread⟩ := pairs_leaves hfin hw
  have hwoken : t.pushers 0 ≠ .leaving := by
    cases hfinish with
    | user hst => cases hst with
      | finish _ => exact fun hf => by cases hw.symm.trans hf
      | _ => simp_all
  have h3 := (h2.snoc ⟨hin, hfinish⟩).snoc (a := Thread.push 0) ⟨fun hf => absurd hf hwoken, hleave⟩
  have hlast : AllWait pairs u (.push 0) := by
    intro _ _ r hr
    obtain rfl : r = 0 := Nat.lt_one_iff.1 hr
    rw [hread, hgen.only.readers]
    exact ⟨hq.trans hgen.only.feedUpdateQ, .inl rfl⟩
  have h4 := h3.snoc ⟨hlast, .push (by decide) (.finish hpc)⟩
  refine ⟨_, ?_, ?_, (no_lost_wakeup (by decide) h4).1⟩
  · exact hu
  · exact pushTo_self ..

/-- **A lost wake-up**: the reader comes to its wait after the last broadcast. -/
theorem wakeup_lost : ¬ ∀ s, Reaches (Step pairs) State.init s → NoLostWakeup pairs s := by
  intro hclaim
  have h0 : Reaches (Step pairs) State.init (State.init.pushTo 0 .waiting) :=
    (Reaches.refl _).snoc (.push (by decide) (.wait (.inl rfl) rfl))
  obtain ⟨s, hgen, hfin, -⟩ := pairs_generated (s := State.init.pushTo 0 .waiting) rfl rfl rfl
  have hw : wake s.pushers .waiting .woken 0 = .woken := congrFun hgen.only.pushers 0
  obtain ⟨t, u, hfinish, hleave, hpc, -, -, hq, hread⟩ := pairs_leaves hfin hw
  have h1 := (((h0.trans hgen.reaches).snoc hfinish).snoc hleave).snoc (.push (by decide) (.finish hpc))
  -- the reader has not taken a step up to here
  have htop : wake u.readers .waiting .woken 0 = .top := by
    rw [hread, hgen.only.readers]
    rfl
  have hempty : u.feedUpdateQ = [] := hq.trans hgen.only.feedUpdateQ
  have h2 := h1.snoc (.read (by decide) (.wait (.inl htop) hempty))
  apply (hclaim _ h2).2 _ 0 (by decide) (readTo_self ..)
  intro p hp
  obtain rfl : p = 0 := Nat.lt_one_iff.1 hp
  simp [State.readTo]

end OsLab.Feed
