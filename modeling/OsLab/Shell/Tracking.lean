import OsLab.Shell.Children
import Mathlib.Data.List.Nodup

/-!
# The processes that the shell keeps track of (`manage_child` and `handle_process` of `shell_main.cpp`)

The shell knows its children by `fg_processes_pid`, `bg_processes_pid` and `suspended_proc_pid`. A
child is lost or kept twice in five places, and `Orderly` says what avoids each of them.

* `children_tracked`: orderly steps keep every live child in exactly one of the three containers, and
  no other step does.
* `first_command_lost`: a pipeline whose last command ends first.
-/

namespace OsLab.Shell

open Lib

/-! ## The law -/

/-- The process has not terminated. -/
def Child.live : Child → Bool
  | .running | .stopped _ => true
  | .none | .exited => false

inductive Container where
  | fgProcesses
  | bgProcesses
  | suspended

def Session.Holds (s : Session) : Container → ℕ → Prop
  | .fgProcesses, p => p ∈ s.fgProcesses
  | .bgProcesses, p => p ∈ s.bgProcesses
  | .suspended, p => p ∈ s.suspended

/-- `fork` has returned `p`, which was not yet inserted. -/
def JustForked (s : Session) (p : ℕ) : Prop := s.pc = .forked ∧ s.childPid = p

/-- Every child that has not terminated is in exactly one container. -/
def Tracked (s : Session) : Prop :=
  ∀ p, (s.children p).live = true → ¬ JustForked s p → ∃! c, s.Holds c p

/-- A process id that leaves the containers in the step is one of a process that has terminated. -/
def LeavesTerminated (s t : Session) : Prop :=
  ∀ p, (∃ c, s.Holds c p) → (∀ c, ¬ t.Holds c p) → (s.children p).live = false

/-- What the step has to find:

* `manage_child`: no stop of a background process, which it takes for an exit;
* the insertion of a live child in the foreground: no older entry with its process id;
* the insertion of the top of `suspended_proc_pid`, and each `pop`: that it has terminated;
* `fg_processes_pid.clear()` after the wait: that all its processes have. -/
def Orderly (s : Session) : Event → Prop
  | .deliver => ∀ p ∈ s.bgProcesses, s.children p ≠ .stopped false
  | .shell =>
    match s.pc with
    | .forked => s.background = false → (s.children s.childPid).live = true →
        s.childPid ∉ s.bgProcesses ∧ s.childPid ∉ s.suspended
    | .resuming | .continued | .clearing =>
        ∀ p, s.suspended.head? = some p → (s.children p).live = false
    | .leaving => ∀ p ∈ s.fgProcesses, (s.children p).live = false
    | _ => True
  | _ => True

variable {s t : Session} {p : ℕ}

/-! ## The containers -/

theorem existsUnique_container : (∃! c, s.Holds c p) ↔
    (p ∈ s.fgProcesses ∧ p ∉ s.bgProcesses ∧ p ∉ s.suspended) ∨
      (p ∉ s.fgProcesses ∧ p ∈ s.bgProcesses ∧ p ∉ s.suspended) ∨
        (p ∉ s.fgProcesses ∧ p ∉ s.bgProcesses ∧ p ∈ s.suspended) := by
  constructor
  · intro h
    obtain ⟨c, hc, honly⟩ := h
    have hnot : ∀ d, d ≠ c → ¬ s.Holds d p := fun d hne hd => hne (honly d hd)
    cases c with
    | fgProcesses =>
      exact .inl ⟨hc, hnot .bgProcesses (by nofun), hnot .suspended (by nofun)⟩
    | bgProcesses =>
      exact .inr (.inl ⟨hnot .fgProcesses (by nofun), hc, hnot .suspended (by nofun)⟩)
    | suspended =>
      exact .inr (.inr ⟨hnot .fgProcesses (by nofun), hnot .bgProcesses (by nofun), hc⟩)
  · intro h
    rcases h with ⟨hf, hb, hs⟩ | ⟨hf, hb, hs⟩ | ⟨hf, hb, hs⟩
    · refine ⟨.fgProcesses, hf, ?_⟩
      intro c hc
      cases c with
      | fgProcesses => rfl
      | bgProcesses => exact absurd hc hb
      | suspended => exact absurd hc hs
    · refine ⟨.bgProcesses, hb, ?_⟩
      intro c hc
      cases c with
      | fgProcesses => exact absurd hc hf
      | bgProcesses => rfl
      | suspended => exact absurd hc hs
    · refine ⟨.suspended, hs, ?_⟩
      intro c hc
      cases c with
      | fgProcesses => exact absurd hc hf
      | bgProcesses => exact absurd hc hb
      | suspended => rfl

/-- Where a live child is, outside of the window. -/
theorem Tracked.inOne (h : Tracked s) (hpc : s.pc ≠ .forked) (hl : (s.children p).live = true) :
    (p ∈ s.fgProcesses ∧ p ∉ s.bgProcesses ∧ p ∉ s.suspended) ∨
      (p ∉ s.fgProcesses ∧ p ∈ s.bgProcesses ∧ p ∉ s.suspended) ∨
        (p ∉ s.fgProcesses ∧ p ∉ s.bgProcesses ∧ p ∈ s.suspended) :=
  existsUnique_container.1 (h p hl fun hw => hpc hw.1)

/-- A state with the same containers has the same holders. -/
theorem holds_congr (hf : t.fgProcesses = s.fgProcesses) (hb : t.bgProcesses = s.bgProcesses)
    (hs : t.suspended = s.suspended) (c : Container) (p : ℕ) : t.Holds c p ↔ s.Holds c p := by
  cases c with
  | fgProcesses => rw [Session.Holds, hf]; rfl
  | bgProcesses => rw [Session.Holds, hb]; rfl
  | suspended => rw [Session.Holds, hs]; rfl

/-- A step between places outside of the window that terminates nobody, into a tracked state. -/
theorem Tracked.leaves (h : Tracked t) (hl : ∀ p, (t.children p).live = (s.children p).live)
    (hpc : t.pc ≠ .forked) : LeavesTerminated s t := by
  intro p _ hleft
  rw [Bool.eq_false_iff]
  intro hlive
  obtain ⟨c, hc, -⟩ := h p ((hl p).trans hlive) fun hw => hpc hw.1
  exact hleft c hc

/-- A step that removes nothing. -/
theorem leaves_of_kept (h : ∀ c p, s.Holds c p → t.Holds c p) : LeavesTerminated s t := by
  intro p hp hleft
  obtain ⟨c, hc⟩ := hp
  exact absurd (h c p hc) (hleft c)

/-- A step that leaves the containers as they are. -/
theorem Tracked.same (h : Tracked s) (hf : t.fgProcesses = s.fgProcesses)
    (hb : t.bgProcesses = s.bgProcesses) (hs : t.suspended = s.suspended)
    (hl : ∀ p, ¬ JustForked t p → (t.children p).live = true → (s.children p).live = true)
    (hw : ∀ p, JustForked s p → JustForked t p) : Tracked t ∧ LeavesTerminated s t := by
  have hholds := holds_congr hf hb hs
  constructor
  · intro p hlive hnot
    obtain ⟨c, hc, honly⟩ := h p (hl p hnot hlive) fun hwin => hnot (hw p hwin)
    exact ⟨c, (hholds c p).2 hc, fun d hd => honly d ((hholds d p).1 hd)⟩
  · exact leaves_of_kept fun c p => (hholds c p).2

/-! ## What `manage_child` does to them -/

@[simp] theorem report_report (x : Child) : x.report.report = x.report := by
  cases x <;> rfl

@[simp] theorem report_live (x : Child) : x.report.live = x.live := by
  cases x <;> rfl

/-- A live child whose change was not yet reported has stopped. -/
theorem stopped_of_live {x : Child} (hl : x.live = true) (hu : x.unreported = true) :
    x = .stopped false := by
  cases x with
  | stopped r =>
    cases r with
    | false => rfl
    | true => cases hu
  | running => cases hu
  | none | exited => cases hl

/-- Every change is reported: a foreground process that has stopped is suspended, and the other
changed processes are removed. -/
structure Swept (s t : Session) : Prop where
  children : ∀ p, t.children p = (s.children p).report
  fgProcesses : ∀ p, p ∈ t.fgProcesses ↔ p ∈ s.fgProcesses ∧ (s.children p).unreported = false
  bgProcesses : ∀ p, p ∈ t.bgProcesses ↔ p ∈ s.bgProcesses ∧ (s.children p).unreported = false
  suspended : ∀ p, p ∈ t.suspended ↔
    p ∈ s.suspended ∨ (p ∈ s.fgProcesses ∧ s.children p = .stopped false)
  nodup : s.suspended.Nodup →
    (∀ p ∈ s.fgProcesses, s.children p = .stopped false → p ∉ s.suspended) → t.suspended.Nodup

theorem collect_children_self (s : Session) (p : ℕ) :
    (collect s p).children p = (s.children p).report := by simp [collect]

theorem collect_children_ne {q : ℕ} (h : p ≠ q) : (collect s q).children p = s.children p := by
  simp [collect, Function.update_of_ne h]

theorem mem_collect_suspended {q : ℕ} : p ∈ (collect s q).suspended ↔
    p ∈ s.suspended ∨ (p = q ∧ p ∈ s.fgProcesses ∧ s.children p = .stopped false) := by
  show p ∈ (if q ∈ s.fgProcesses ∧ s.children q = .stopped false then q :: s.suspended
    else s.suspended) ↔ _
  split_ifs with h
  · rw [List.mem_cons]
    constructor
    · rintro (rfl | hp)
      · exact .inr ⟨rfl, h⟩
      · exact .inl hp
    · rintro (hp | ⟨rfl, -⟩)
      · exact .inr hp
      · exact .inl rfl
  · constructor
    · exact .inl
    · rintro (hp | ⟨rfl, hstop⟩)
      · exact hp
      · exact absurd hstop h

theorem manageChild_swept (h : ManageChild s t) : Swept s t := by
  induction h with
  | @done s h =>
    have hreport : ∀ p, (s.children p).report = s.children p := by
      intro p
      have hp := h p
      cases hx : s.children p with
      | stopped r =>
        rw [hx] at hp
        cases r with
        | false => cases hp
        | true => rfl
      | exited => rw [hx] at hp; cases hp
      | none | running => rfl
    refine ⟨fun p => (hreport p).symm, by simp [h], by simp [h], ?_, fun hnd _ => hnd⟩
    intro p
    refine ⟨.inl, ?_⟩
    rintro (hp | ⟨-, hstop⟩)
    · exact hp
    · have hp := h p
      rw [hstop] at hp
      cases hp
  | @round s t q hq _ ih =>
    have hset : ∀ (A : Finset ℕ) (p : ℕ),
        p ∈ A.erase q ∧ ((collect s q).children p).unreported = false ↔
          p ∈ A ∧ (s.children p).unreported = false := by
      intro A p
      by_cases hpq : p = q
      · subst hpq
        simp [hq]
      · rw [collect_children_ne hpq, Finset.mem_erase]
        simp [hpq]
    refine ⟨?_, ?_, ?_, ?_, ?_⟩
    · intro p
      rw [ih.children]
      by_cases hpq : p = q
      · subst hpq
        rw [collect_children_self, report_report]
      · rw [collect_children_ne hpq]
    · exact fun p => (ih.fgProcesses p).trans (hset s.fgProcesses p)
    · exact fun p => (ih.bgProcesses p).trans (hset s.bgProcesses p)
    · intro p
      rw [ih.suspended, mem_collect_suspended]
      show _ ∨ (p ∈ s.fgProcesses.erase q ∧ _) ↔ _
      by_cases hpq : p = q
      · subst hpq
        simp
      · rw [collect_children_ne hpq, Finset.mem_erase]
        simp [hpq]
    · intro hnd hfresh
      apply ih.nodup
      · show (if q ∈ s.fgProcesses ∧ s.children q = .stopped false then q :: s.suspended
          else s.suspended).Nodup
        split_ifs with hstop
        · exact List.nodup_cons.2 ⟨hfresh q hstop.1 hstop.2, hnd⟩
        · exact hnd
      · intro p hp hstop hmem
        obtain ⟨hpq, hp⟩ := Finset.mem_erase.1 hp
        rw [collect_children_ne hpq] at hstop
        rcases mem_collect_suspended.1 hmem with hmem | ⟨heq, -⟩
        · exact hfresh p hp hstop hmem
        · exact hpq heq

/-- `manage_child` outside of the window loses the background processes that have stopped, and no
other one. -/
theorem Tracked.swept_iff (h : Tracked s) (hsw : Swept s t) (hs : s.pc ≠ .forked)
    (ht : t.pc ≠ .forked) :
    (∀ p ∈ s.bgProcesses, s.children p ≠ .stopped false) ↔ Tracked t ∧ LeavesTerminated s t := by
  have hlive : ∀ p, (t.children p).live = (s.children p).live := by
    intro p
    rw [hsw.children, report_live]
  constructor
  · intro hno
    have htracked : Tracked t := by
      intro p hl _
      rw [hlive] at hl
      have hin := h.inOne hs hl
      rw [existsUnique_container, hsw.fgProcesses, hsw.bgProcesses, hsw.suspended]
      cases hun : (s.children p).unreported with
      | false =>
        have hnot : s.children p ≠ .stopped false := by
          intro hstop
          rw [hstop] at hun
          cases hun
        simpa [hnot] using hin
      | true =>
        -- it has stopped, so it was not in the background
        have hstop := stopped_of_live hl hun
        have hbg : p ∉ s.bgProcesses := fun hp => hno p hp hstop
        simp only [hstop]
        simp only [hbg] at hin ⊢
        tauto
    exact ⟨htracked, htracked.leaves hlive ht⟩
  · intro hkept p hbg hstop
    obtain ⟨htracked, -⟩ := hkept
    have hl : (s.children p).live = true := by rw [hstop]; rfl
    have hin := h.inOne hs hl
    have hin' := htracked.inOne ht ((hlive p).trans hl)
    rw [hsw.fgProcesses, hsw.bgProcesses, hsw.suspended, hstop] at hin'
    simp only [Child.unreported, Bool.true_eq_false, and_false, false_and, not_false_eq_true, true_and,
      and_true, false_or] at hin'
    tauto

/-! ## What the shell does to them -/

/-- A step that moves the processes of `A` only, and a live one of them to no place or to two. -/
theorem Tracked.moves_iff {A : ℕ → Prop} (h : Tracked s)
    (hother : ∀ p, ¬ A p → ∀ c, t.Holds c p ↔ s.Holds c p)
    (hbad : ∀ p, A p → (s.children p).live = true → ¬ ∃! c, t.Holds c p)
    (hc : t.children = s.children) (hwin : s.pc ≠ .forked) (ht : t.pc ≠ .forked) :
    (∀ p, A p → (s.children p).live = false) ↔ Tracked t ∧ LeavesTerminated s t := by
  constructor
  · intro hdead
    have htracked : Tracked t := by
      intro p hl _
      rw [hc] at hl
      have hA : ¬ A p := by
        intro hA
        rw [hdead p hA] at hl
        cases hl
      exact (existsUnique_congr (hother p hA)).2 (h p hl fun hw => hwin hw.1)
    exact ⟨htracked, htracked.leaves (fun p => by rw [hc]) ht⟩
  · intro hkept p hA
    rw [Bool.eq_false_iff]
    intro hl
    exact hbad p hA hl (hkept.1 p (by rw [hc]; exact hl) fun hw => ht hw.1)

/-- A `pop` loses the top of the stack unless it has terminated. -/
theorem Tracked.pop_iff {rest : List ℕ} (h : Tracked s) (hnd : s.suspended.Nodup)
    (hsusp : s.suspended = p :: rest) (hf : t.fgProcesses = s.fgProcesses)
    (hb : t.bgProcesses = s.bgProcesses) (hs : t.suspended = rest) (hc : t.children = s.children)
    (hwin : s.pc ≠ .forked) (ht : t.pc ≠ .forked) :
    (s.children p).live = false ↔ Tracked t ∧ LeavesTerminated s t := by
  have hfresh : p ∉ rest := by
    rw [hsusp] at hnd
    exact (List.nodup_cons.1 hnd).1
  refine Iff.trans ?_ (h.moves_iff (A := (· = p)) ?_ ?_ hc hwin ht)
  · simp only [forall_eq]
  · intro q hq c
    cases c <;> simp [Session.Holds, hf, hb, hs, hsusp, hq]
  · rintro q rfl hl hin'
    have hin := h.inOne hwin hl
    rw [existsUnique_container, hf, hb, hs] at hin'
    have htop : q ∈ s.suspended := by rw [hsusp]; exact List.mem_cons_self
    tauto

/-- `fg_processes_pid.clear()` loses the processes that have not terminated. -/
theorem Tracked.clear_iff (h : Tracked s) (hf : t.fgProcesses = ∅)
    (hb : t.bgProcesses = s.bgProcesses) (hs : t.suspended = s.suspended)
    (hc : t.children = s.children) (hwin : s.pc ≠ .forked) (ht : t.pc ≠ .forked) :
    (∀ p ∈ s.fgProcesses, (s.children p).live = false) ↔ Tracked t ∧ LeavesTerminated s t := by
  apply h.moves_iff ?_ ?_ hc hwin ht
  · intro p hp c
    cases c with
    | fgProcesses => exact iff_of_false (by simp [Session.Holds, hf]) hp
    | bgProcesses => simp [Session.Holds, hb]
    | suspended => simp [Session.Holds, hs]
  · intro p hp hl hin'
    have hin := h.inOne hwin hl
    rw [existsUnique_container, hf, hb, hs] at hin'
    simp only [Finset.notMem_empty, false_and, not_false_eq_true, true_and, false_or] at hin'
    tauto

/-- The top of the stack in the background: until its `pop` it is in two containers. -/
theorem Tracked.background_iff {rest : List ℕ} (h : Tracked s) (hsusp : s.suspended = p :: rest)
    (hf : t.fgProcesses = s.fgProcesses) (hb : t.bgProcesses = insert p s.bgProcesses)
    (hs : t.suspended = s.suspended) (hc : t.children = s.children) (hwin : s.pc ≠ .forked)
    (ht : t.pc ≠ .forked) :
    (s.children p).live = false ↔ Tracked t ∧ LeavesTerminated s t := by
  refine Iff.trans ?_ (h.moves_iff (A := (· = p)) ?_ ?_ hc hwin ht)
  · simp only [forall_eq]
  · intro q hq c
    cases c <;> simp [Session.Holds, hf, hb, hs, hq]
  · rintro q rfl hl hin'
    rw [existsUnique_container, hf, hb, hs] at hin'
    have htop : q ∈ s.suspended := by rw [hsusp]; exact List.mem_cons_self
    have hbg : q ∈ insert q s.bgProcesses := Finset.mem_insert_self q _
    tauto

/-- The insertion of a new background process, when there is no foreground process. -/
theorem Tracked.insert_bg (h : Tracked s) (hfg : s.fgProcesses = ∅)
    (hsusp : s.suspended = []) :
    Tracked { s with bgProcesses := insert s.childPid s.bgProcesses, pc := .inserted } ∧
      LeavesTerminated s { s with bgProcesses := insert s.childPid s.bgProcesses, pc := .inserted } := by
  constructor
  · intro p hl _
    rw [existsUnique_container]
    show (p ∈ s.fgProcesses ∧ _) ∨ (p ∉ s.fgProcesses ∧ p ∈ insert s.childPid s.bgProcesses ∧
      p ∉ s.suspended) ∨ _
    by_cases hp : s.childPid = p
    · subst hp
      simp [hfg, hsusp]
    · have hin := existsUnique_container.1 (h p hl fun hw => hp hw.2)
      rw [hfg, hsusp] at hin
      simp only [Finset.notMem_empty, List.not_mem_nil, false_and, and_false, not_false_eq_true, true_and,
        and_true, false_or, or_false] at hin
      simp [hfg, hsusp, hin]
  · apply leaves_of_kept
    intro c p hc
    cases c with
    | bgProcesses => exact Finset.mem_insert_of_mem hc
    | fgProcesses | suspended => exact hc

/-- The insertion of a new foreground process. -/
theorem Tracked.insert_fg_iff (h : Tracked s) :
    ((s.children s.childPid).live = true →
        s.childPid ∉ s.bgProcesses ∧ s.childPid ∉ s.suspended) ↔
      Tracked { s with fgProcesses := insert s.childPid s.fgProcesses, pc := .inserted } ∧
        LeavesTerminated s
          { s with fgProcesses := insert s.childPid s.fgProcesses, pc := .inserted } := by
  constructor
  · intro hfresh
    constructor
    · intro p hl _
      rw [existsUnique_container]
      show (p ∈ insert s.childPid s.fgProcesses ∧ p ∉ s.bgProcesses ∧ p ∉ s.suspended) ∨
        (p ∉ insert s.childPid s.fgProcesses ∧ p ∈ s.bgProcesses ∧ p ∉ s.suspended) ∨
        (p ∉ insert s.childPid s.fgProcesses ∧ p ∉ s.bgProcesses ∧ p ∈ s.suspended)
      by_cases hp : s.childPid = p
      · subst hp
        exact .inl ⟨Finset.mem_insert_self _ _, hfresh hl⟩
      · have hin := existsUnique_container.1 (h p hl fun hw => hp hw.2)
        rw [Finset.mem_insert, or_iff_right (Ne.symm hp)]
        exact hin
    · apply leaves_of_kept
      intro c p hc
      cases c with
      | fgProcesses => exact Finset.mem_insert_of_mem hc
      | bgProcesses | suspended => exact hc
  · intro hkept hl
    obtain ⟨htracked, -⟩ := hkept
    have hin := htracked.inOne nofun hl
    have hfg : s.childPid ∈ insert s.childPid s.fgProcesses := Finset.mem_insert_self _ _
    simp only [hfg, true_and, not_true_eq_false, false_and, or_false] at hin
    exact hin

/-! ## Runs -/

/-- There is nothing to track in the foreground: between two pipelines, and in a background one. -/
def Quiet (s : Session) : Prop :=
  match s.pc with
  | .idle | .entered | .emptying => s.fgProcesses = ∅ ∧ s.suspended = []
  | .clearing => s.fgProcesses = ∅
  | .head => s.background = true → s.fgProcesses = ∅ ∧ s.suspended = []
  | .forking | .forked | .inserted =>
    s.blocked = true ∧ (s.background = true → s.fgProcesses = ∅ ∧ s.suspended = [])
  | _ => True

theorem quiet_shell (h : Quiet s) (hst : shellNext s = some t) : Quiet t := by
  cases shellNext_move hst with
  | entered hpc =>
    simp only [Quiet, hpc] at h
    exact ⟨rfl, h.2⟩
  | empties hpc hs =>
    simp only [Quiet, hpc, hs] at h
    cases h.2
  | emptied hpc =>
    simp only [Quiet, hpc] at h
    exact fun _ => h
  | blocks hpc =>
    simp only [Quiet, hpc] at h
    exact ⟨rfl, h⟩
  | insertBg hpc =>
    simp only [Quiet, hpc] at h
    exact h
  | insertFg hpc hbg =>
    simp only [Quiet, hpc] at h
    refine ⟨h.1, fun hb => ?_⟩
    have hbg' : s.background = true := hb
    rw [hbg] at hbg'
    cases hbg'
  | unblocks hpc =>
    simp only [Quiet, hpc] at h
    exact h.2
  | clears => exact rfl
  | cleared hpc hs =>
    simp only [Quiet, hpc] at h
    exact ⟨h, hs⟩
  | clearsTop hpc =>
    simp only [Quiet, hpc] at h
    exact h
  | _ => trivial

/-- `manage_child` brings nothing to an empty foreground. -/
theorem Quiet.swept (h : Quiet s) (hsw : Swept s t) (hpc : t.pc = s.pc)
    (hbg : t.background = s.background) (hm : t.blocked = s.blocked) : Quiet t := by
  have hfg : s.fgProcesses = ∅ → t.fgProcesses = ∅ := by
    intro he
    rw [Finset.eq_empty_iff_forall_notMem]
    intro p hp
    have hp' := ((hsw.fgProcesses p).1 hp).1
    rw [he] at hp'
    exact Finset.notMem_empty p hp'
  have hboth : s.fgProcesses = ∅ ∧ s.suspended = [] → t.fgProcesses = ∅ ∧ t.suspended = [] := by
    intro he
    refine ⟨hfg he.1, ?_⟩
    rw [List.eq_nil_iff_forall_not_mem]
    intro p hp
    rcases (hsw.suspended p).1 hp with hp | ⟨hp, -⟩
    · rw [he.2] at hp
      cases hp
    · rw [he.1] at hp
      exact Finset.notMem_empty p hp
  unfold Quiet at h ⊢
  rw [hpc, hbg, hm]
  cases hpc' : s.pc with
  | idle | entered | emptying => rw [hpc'] at h; exact hboth h
  | clearing => rw [hpc'] at h; exact hfg h
  | head => rw [hpc'] at h; exact fun hb => hboth (h hb)
  | forking | forked | inserted => rw [hpc'] at h; exact ⟨h.1, fun hb => hboth (h.2 hb)⟩
  | _ => trivial

/-- `SIGCHLD` is blocked in the window. -/
theorem Quiet.not_forked (h : Quiet s) (hm : s.blocked = false) : s.pc ≠ .forked := by
  intro hpc
  simp only [Quiet, hpc, hm] at h
  cases h.1

/-- What orderly steps keep. -/
structure Tracking (s : Session) : Prop where
  tracked : Tracked s
  nodup : s.suspended.Nodup
  quiet : Quiet s

theorem tracking_init : Tracking .init where
  tracked := fun _ hl => by cases hl
  nodup := List.nodup_nil
  quiet := ⟨rfl, rfl⟩

theorem top_nil (hs : s.suspended = []) {P : ℕ → Prop} :
    (∀ p, s.suspended.head? = some p → P p) ↔ True := by simp [hs]

theorem top_cons {rest : List ℕ} (hs : s.suspended = p :: rest) {P : ℕ → Prop} :
    (∀ q, s.suspended.head? = some q → P q) ↔ P p := by simp [hs]

/-- An orderly step of the shell, and no other one, keeps the law. -/
theorem tracked_shell (h : Tracking s) (hst : shellNext s = some t) :
    Orderly s .shell ↔ Tracked t ∧ LeavesTerminated s t := by
  have hsame : s.pc ≠ .forked → t.fgProcesses = s.fgProcesses → t.bgProcesses = s.bgProcesses →
      t.suspended = s.suspended → (∀ p, (t.children p).live = true → (s.children p).live = true) →
      (True ↔ Tracked t ∧ LeavesTerminated s t) := by
    intro hpc hf hb hs hl
    exact iff_of_true trivial
      (h.tracked.same hf hb hs (fun p _ => hl p) fun p hw => absurd hw.1 hpc)
  have hquiet := h.quiet
  unfold Orderly
  cases shellNext_move hst with
  | entered hpc =>
    simp only [Quiet, hpc] at hquiet
    rw [hpc]
    exact hsame (by rw [hpc]; nofun) hquiet.1.symm rfl rfl fun _ => id
  | empties hpc hs =>
    simp only [Quiet, hpc, hs] at hquiet
    cases hquiet.2
  | emptied hpc | blocks hpc | background hpc | foreground hpc | unblocks hpc | leaves hpc | waits hpc
  | again hpc | waited hpc | sleeps hpc | returns hpc =>
    rw [hpc]
    exact hsame (by rw [hpc]; nofun) rfl rfl rfl fun _ => id
  | insertBg hpc hbg =>
    simp only [Quiet, hpc] at hquiet
    obtain ⟨hfg, hsusp⟩ := hquiet.2 hbg
    rw [hpc]
    refine iff_of_true ?_ (h.tracked.insert_bg hfg hsusp)
    intro hb
    rw [hbg] at hb
    cases hb
  | insertFg hpc hbg =>
    simp only [hpc, hbg, true_implies]
    exact h.tracked.insert_fg_iff
  | resumed hpc hs | cleared hpc hs =>
    rw [hpc]
    exact (top_nil hs).trans (hsame (by rw [hpc]; nofun) rfl rfl rfl fun _ => id)
  | resumes hpc hs =>
    rw [hpc]
    exact (top_cons hs).trans
      (h.tracked.background_iff hs rfl rfl rfl rfl (by rw [hpc]; nofun) nofun)
  | @continues p rest b hpc hs hstop =>
    rw [hpc]
    refine hsame (by rw [hpc]; nofun) rfl rfl rfl ?_
    intro q hl
    by_cases hq : q = p
    · rw [hq, hstop]
      rfl
    · simpa [Session.setChild, Function.update_of_ne hq] using hl
  | continuesNone hpc =>
    rw [hpc]
    exact hsame (by rw [hpc]; nofun) rfl rfl rfl fun _ => id
  | pops hpc =>
    rw [hpc]
    obtain hs | ⟨p, rest, hs⟩ : s.suspended = [] ∨ ∃ p rest, s.suspended = p :: rest := by
      cases s.suspended <;> simp
    · exact (top_nil hs).trans (hsame (by rw [hpc]; nofun) rfl rfl (by simp [hs]) fun _ => id)
    · exact (top_cons hs).trans
        (h.tracked.pop_iff h.nodup hs rfl rfl (by simp [hs]) rfl (by rw [hpc]; nofun) nofun)
  | clears hpc =>
    rw [hpc]
    exact h.tracked.clear_iff rfl rfl rfl rfl (by rw [hpc]; nofun) nofun
  | clearsTop hpc hs =>
    rw [hpc]
    exact (top_cons hs).trans
      (h.tracked.pop_iff h.nodup hs rfl rfl rfl rfl (by rw [hpc]; nofun) nofun)

/-- An orderly step, and no other one, keeps the law. -/
theorem tracked_step {e : Event} (h : Tracking s) (hst : SessionStep s e t) :
    Orderly s e ↔ Tracked t ∧ LeavesTerminated s t := by
  cases hst with
  | shell hst => exact tracked_shell h hst
  | call n bg hpc _ =>
    refine iff_of_true trivial (h.tracked.same rfl rfl rfl (fun _ _ => id) fun p hw => ?_)
    rw [JustForked, hpc] at hw
    cases hw.1
  | fork p hpc _ _ =>
    refine iff_of_true trivial (h.tracked.same rfl rfl rfl (fun q hw hl => ?_) fun q hw => ?_)
    · have hq : q ≠ p := fun hq => hw ⟨rfl, hq.symm⟩
      simpa [Session.fork, Function.update_of_ne hq] using hl
    · rw [JustForked, hpc] at hw
      cases hw.1
  | signal hpc =>
    refine iff_of_true trivial (h.tracked.same rfl rfl rfl (fun _ _ => id) fun p hw => ?_)
    rw [JustForked, hpc] at hw
    cases hw.1
  | exit p hp =>
    refine iff_of_true trivial (h.tracked.same rfl rfl rfl (fun q _ hl => ?_) fun _ => id)
    by_cases hq : q = p
    · subst hq
      simp [Session.setChild, Child.live] at hl
    · simpa [Session.setChild, Function.update_of_ne hq] using hl
  | stop p hp =>
    refine iff_of_true trivial (h.tracked.same rfl rfl rfl (fun q _ hl => ?_) fun _ => id)
    by_cases hq : q = p
    · rw [hq, hp]
      rfl
    · simpa [Session.setChild, Function.update_of_ne hq] using hl
  | cont p hp =>
    refine iff_of_true trivial (h.tracked.same rfl rfl rfl (fun q _ hl => ?_) fun _ => id)
    by_cases hq : q = p
    · obtain ⟨r, hp⟩ := hp
      rw [hq, hp]
      rfl
    · simpa [Session.setChild, Function.update_of_ne hq] using hl
  | @deliver t₀ _ _ hm hmanage =>
    have hwin := h.quiet.not_forked hm
    have hsw := manageChild_swept hmanage
    have hpc := (manageChild_spec hmanage).pc
    exact h.tracked.swept_iff
      ⟨hsw.children, hsw.fgProcesses, hsw.bgProcesses, hsw.suspended, hsw.nodup⟩ hwin
      (by rw [hpc]; exact hwin)
  | @awake t₀ _ hpc hmanage =>
    have hsw := manageChild_swept hmanage
    exact h.tracked.swept_iff
      ⟨hsw.children, hsw.fgProcesses, hsw.bgProcesses, hsw.suspended, hsw.nodup⟩
      (by rw [hpc]; nofun) nofun

theorem quiet_step {e : Event} (h : Quiet s) (hst : SessionStep s e t) : Quiet t := by
  cases hst with
  | shell hst => exact quiet_shell h hst
  | call n bg hpc _ =>
    rw [Quiet, hpc] at h
    exact h
  | fork p hpc _ _ =>
    rw [Quiet, hpc] at h
    exact h
  | signal => trivial
  | exit | stop | cont => exact h
  | @deliver t₀ _ _ _ hmanage =>
    have hmanaged := manageChild_spec hmanage
    have hquiet := h.swept (manageChild_swept hmanage) hmanaged.pc hmanaged.background hmanaged.blocked
    exact hquiet
  | awake => trivial

/-- The shell only pops. -/
theorem shellNext_suspended (hst : shellNext s = some t) : t.suspended <:+ s.suspended := by
  cases shellNext_move hst with
  | empties _ hs | clearsTop _ hs =>
    rw [hs]
    exact List.suffix_cons _ _
  | pops => exact List.tail_suffix _
  | _ => exact List.suffix_rfl

/-- `manage_child` pushes nothing that the stack holds: it was in the foreground only. -/
theorem Tracking.nodup_swept (h : Tracking s) (hwin : s.pc ≠ .forked) (hsw : Swept s t) :
    t.suspended.Nodup := by
  apply hsw.nodup h.nodup
  intro p hp hstop hmem
  have hin := h.tracked.inOne hwin (p := p) (by rw [hstop]; rfl)
  tauto

theorem nodup_step {e : Event} (h : Tracking s) (hst : SessionStep s e t) : t.suspended.Nodup := by
  cases hst with
  | call | fork | signal | exit | stop | cont => exact h.nodup
  | shell hst => exact h.nodup.sublist (shellNext_suspended hst).sublist
  | deliver _ _ hm hmanage =>
    have hnodup := h.nodup_swept (h.quiet.not_forked hm) (manageChild_swept hmanage)
    exact hnodup
  | awake _ hpc hmanage =>
    have hnodup := h.nodup_swept (by rw [hpc]; nofun) (manageChild_swept hmanage)
    exact hnodup

theorem tracking_step {e : Event} (h : Tracking s) (ho : Orderly s e) (hst : SessionStep s e t) :
    Tracking t where
  tracked := ((tracked_step h hst).1 ho).1
  nodup := nodup_step h hst
  quiet := quiet_step h.quiet hst

/-- **Every child is tracked**, as long as the steps are orderly; and a step after these keeps the law
if and only if it is orderly. -/
theorem children_tracked (h : Reaches (Guarded Orderly SessionStep) .init s) :
    Tracked s ∧ ∀ e t, SessionStep s e t → (Orderly s e ↔ Tracked t ∧ LeavesTerminated s t) := by
  have htracking : Tracking s := reaches_inv (I := Tracking)
    (fun _ _ _ hI hst => tracking_step hI hst.1 hst.2) tracking_init h
  exact ⟨htracking.tracked, fun e t hst => tracked_step htracking hst⟩

/-- `oneCommand`, up to `sigsuspend`. -/
def oneWaits : Session :=
  { Session.init with
    pc := .sleeping
    numPipedCmds := 1
    i := 1
    childPid := 1
    lastCmdPid := 1
    fgpid := 1
    fgProcesses := {1}
    children := Function.update (fun _ => .none) 1 .running
    collected := Function.update (fun _ => false) 1 false }

theorem reaches_oneWaits : Reaches (Guarded Orderly SessionStep) .init oneWaits := by
  have hshell : ∀ {s t : Session}, Reaches (Guarded Orderly SessionStep) .init s →
      Orderly s .shell → shellNext s = some t → Reaches (Guarded Orderly SessionStep) .init t :=
    fun h ho hst => h.snoc ⟨ho, .shell hst⟩
  have hcall : Reaches (Guarded Orderly SessionStep) .init (Session.init.call 1 false) :=
    (Reaches.refl _).snoc (a := Event.call 1 false) ⟨trivial, .call 1 false rfl Nat.one_pos⟩
  have hforking := hshell (hshell (hshell hcall trivial rfl) trivial rfl) trivial rfl
  have hforked := hforking.snoc (a := Event.fork 1) ⟨trivial, .fork 1 rfl Nat.one_pos rfl⟩
  have hinserted := hshell hforked (fun _ _ => ⟨Finset.notMem_empty 1, List.not_mem_nil⟩) rfl
  exact hshell (hshell (hshell (hshell (hshell hinserted trivial rfl) trivial rfl) trivial rfl)
    trivial rfl) trivial rfl

/-- Ctrl-Z. -/
theorem tracked_suspended :
    ∃ s, (s.children 1).live = true ∧ 1 ∈ s.suspended ∧ Tracked s := by
  have hstop := reaches_oneWaits.snoc (a := Event.stop 1) ⟨trivial, .stop 1 rfl⟩
  have hmanage : ManageChild (oneWaits.setChild 1 (.stopped false)) 
      (collect (oneWaits.setChild 1 (.stopped false)) 1) := by
    refine manageChild_one rfl ?_
    intro q hq
    simp [oneWaits, Session.setChild, Function.update_of_ne hq, Child.unreported]
  have hlast := hstop.snoc (a := Event.deliver)
    ⟨fun p hp => absurd hp (Finset.notMem_empty p), .awake rfl rfl hmanage⟩
  exact ⟨_, rfl, List.mem_cons_self, (children_tracked hlast).1⟩

/-- Two commands in the foreground, up to `sigsuspend`, where the last one exits. -/
def lastExits : List Event :=
  [.call 2 false, .shell, .shell, .shell, .fork 1, .shell, .shell, .shell, .fork 2, .shell, .shell,
    .shell, .shell, .shell, .shell, .exit 2]

/-- What it leads to. -/
def lastExited : Session :=
  { Session.init with
    pc := .sleeping
    numPipedCmds := 2
    i := 2
    childPid := 2
    lastCmdPid := 2
    fgpid := 2
    fgProcesses := {2, 1}
    pending := true
    children := Function.update (Function.update (Function.update (fun _ => .none) 1 .running)
      2 .running) 2 .exited
    collected := Function.update (Function.update (fun _ => false) 1 false) 2 false }

/-- **A pipeline whose last command ends first**: the wait is over, and `fg_processes_pid.clear()`
loses the first command, which still runs. -/
theorem first_command_lost : ¬ ∀ s, Reaches SessionStep .init s →
    Tracked s ∧ ∀ e t, SessionStep s e t → LeavesTerminated s t := by
  intro hclaim
  have hrun : run sessionNext .init lastExits = some lastExited := by rfl
  have hreach := (reaches_of_run (fun _ _ _ => sessionNext_step) hrun).of_guarded
  have hmanage : ManageChild lastExited (collect lastExited 2) := by
    refine manageChild_one rfl ?_
    intro q hq
    by_cases h1 : q = 1
    · subst h1
      rfl
    · simp [lastExited, Function.update_of_ne hq, Function.update_of_ne h1, Child.unreported]
  have hawake := hreach.snoc (a := Event.deliver) (.awake rfl rfl hmanage)
  have hshell : ∀ {s t : Session}, Reaches SessionStep .init s → shellNext s = some t →
      Reaches SessionStep .init t := fun h hst => h.snoc (.shell hst)
  have hleaving := hshell (hshell (hshell hawake rfl) rfl) rfl
  obtain ⟨c, hc, -⟩ := (hclaim _ (hshell hleaving rfl)).1 1 rfl fun hw => by cases hw.1
  cases c with
  | fgProcesses | bgProcesses => exact Finset.notMem_empty 1 hc
  | suspended => exact List.not_mem_nil hc

end OsLab.Shell
