import OsLab.Lib.Machine
import Mathlib.Data.Finset.Basic
import Mathlib.Logic.Function.Basic

/-!
# The children of the shell (`manage_child`, `wait_for_fg_process` and `handle_process` of `shell_main.cpp`)

Each statement that matters to the child processes is a step of the shell. The processes exit, stop
and continue on their own, and `SIGCHLD` is delivered between any two steps while it is not blocked:
`manage_child` then collects every change, in any order. `sigsuspend` blocks nothing.

* `wait_step`: what the waiting shell knows about its child, if no change comes in the two windows.
* `waits_for_live_child`: it never waits for a child that was collected.
* `reaped_before_wait`: a child that exits before `fgpid` is set.
-/

namespace OsLab.Shell

open Lib

/-- What the kernel has on a process id. A change that was not yet reported is returned by the next
`waitpid`. -/
inductive Child where
  /-- no child of the shell -/
  | none
  | running
  | stopped (reported : Bool)
  /-- exited, and not yet reported -/
  | exited
  deriving DecidableEq

/-- `waitpid` has something to return. -/
def Child.unreported : Child → Bool
  | .stopped false | .exited => true
  | _ => false

/-- What `waitpid` leaves of it. -/
def Child.report : Child → Child
  | .exited => .none
  | .stopped _ => .stopped true
  | x => x

/-- Where the shell is. -/
inductive ShellPc where
  /-- in `main` -/
  | idle
  /-- at the start of `handle_process` -/
  | entered
  /-- in the first loop over `suspended_proc_pid` -/
  | emptying
  /-- at the head of the loop over the commands -/
  | head
  /-- `SIGCHLD` is blocked, before `fork` -/
  | forking
  /-- before the insertion into a set of processes -/
  | forked
  /-- before `SIGCHLD` is unblocked -/
  | inserted
  /-- a background pipeline has been started -/
  | started
  /-- in `wait_for_fg_process`, before `fgpid = pid` -/
  | waitSet
  /-- before the test of `fgpid` -/
  | waitTest
  /-- before `sigsuspend` -/
  | waitSleep
  /-- in `sigsuspend` -/
  | sleeping
  /-- after the loop of `wait_for_fg_process` -/
  | waitOver
  /-- before the test of `suspended_proc_pid` -/
  | resuming
  /-- before the `SIGCONT` to its top -/
  | continuing
  /-- before its `pop` -/
  | continued
  /-- before `fg_processes_pid.clear()` -/
  | leaving
  /-- in the last loop over `suspended_proc_pid` -/
  | clearing
  deriving DecidableEq

/-- The variables of the shell, its signal mask and the pending signal, and its children.
`collected` is a history variable: `manage_child` has collected a change of this child. -/
structure Session where
  pc : ShellPc
  numPipedCmds : ℕ
  background : Bool
  i : ℕ
  childPid : ℕ
  lastCmdPid : ℕ
  fgpid : ℕ
  fgProcesses : Finset ℕ
  bgProcesses : Finset ℕ
  suspended : List ℕ
  blocked : Bool
  pending : Bool
  children : ℕ → Child
  collected : ℕ → Bool

/-- `main` before its loop. -/
def Session.init : Session where
  pc := .idle
  numPipedCmds := 0
  background := false
  i := 0
  childPid := 0
  lastCmdPid := 0
  fgpid := 0
  fgProcesses := ∅
  bgProcesses := ∅
  suspended := []
  blocked := false
  pending := false
  children := fun _ => .none
  collected := fun _ => false

/-- Child `p` changes, and `SIGCHLD` is sent. -/
def Session.setChild (s : Session) (p : ℕ) (x : Child) : Session :=
  { s with children := Function.update s.children p x, pending := true }

/-! ## `manage_child` -/

/-- One round of the loop: `waitpid` has returned `p`. -/
def collect (s : Session) (p : ℕ) : Session :=
  { s with
    fgpid := if p = s.fgpid then 0 else s.fgpid
    fgProcesses := s.fgProcesses.erase p
    bgProcesses := s.bgProcesses.erase p
    suspended :=
      if p ∈ s.fgProcesses ∧ s.children p = .stopped false then p :: s.suspended else s.suspended
    children := Function.update s.children p (s.children p).report
    collected := Function.update s.collected p true }

/-- `manage_child`: `waitpid` returns the changes in some order. -/
inductive ManageChild : Session → Session → Prop
  | done {s} (h : ∀ p, (s.children p).unreported = false) : ManageChild s s
  | round {s t} (p : ℕ) (h : (s.children p).unreported = true) (ht : ManageChild (collect s p) t) :
      ManageChild s t

/-! ## `handle_process` and `wait_for_fg_process` -/

/-- The next step of the shell, but for the call of `handle_process` and for `fork`. -/
def shellNext (s : Session) : Option Session :=
  match s.pc with
  | .idle | .forking | .sleeping => none
  | .entered => some { s with fgProcesses := ∅, pc := .emptying }
  | .emptying =>
    match s.suspended with
    | [] => some { s with i := 0, lastCmdPid := 0, pc := .head }
    | _ :: rest => some { s with suspended := rest }
  | .head =>
    if s.i < s.numPipedCmds then some { s with blocked := true, pc := .forking }
    else if s.background then some { s with pc := .started }
    else some { s with pc := .waitSet }
  | .forked =>
    if s.background then
      some { s with bgProcesses := insert s.childPid s.bgProcesses, pc := .inserted }
    else some { s with fgProcesses := insert s.childPid s.fgProcesses, pc := .inserted }
  | .inserted => some { s with blocked := false, i := s.i + 1, pc := .head }
  | .started => some { s with blocked := false, pc := .leaving }
  | .waitSet => some { s with fgpid := s.lastCmdPid, pc := .waitTest }
  | .waitTest =>
    if s.fgpid = s.lastCmdPid then some { s with pc := .waitSleep } else some { s with pc := .waitOver }
  | .waitSleep => some { s with pc := .sleeping }
  | .waitOver => some { s with blocked := false, pc := .resuming }
  | .resuming =>
    match s.suspended with
    | [] => some { s with pc := .leaving }
    | p :: _ => some { s with bgProcesses := insert p s.bgProcesses, pc := .continuing }
  | .continuing =>
    match s.suspended with
    | [] => none
    | p :: _ =>
      match s.children p with
      | .stopped _ => some { s.setChild p .running with pc := .continued }
      | _ => some { s with pc := .continued }
  | .continued => some { s with suspended := s.suspended.tail, pc := .resuming }
  | .leaving => some { s with fgProcesses := ∅, pc := .clearing }
  | .clearing =>
    match s.suspended with
    | [] => some { s with pc := .idle }
    | _ :: rest => some { s with suspended := rest }

/-- What happens next. -/
inductive Event where
  /-- `main` calls `handle_process` -/
  | call (numPipedCmds : ℕ) (background : Bool)
  | fork (pid : ℕ)
  | shell
  /-- a process exits, stops or continues -/
  | exit (pid : ℕ)
  | stop (pid : ℕ)
  | cont (pid : ℕ)
  /-- `SIGINT` or `SIGTSTP`, whose handlers do nothing, in `sigsuspend` -/
  | signal
  /-- `SIGCHLD` is delivered -/
  | deliver

/-- The call of `handle_process`. -/
def Session.call (s : Session) (n : ℕ) (bg : Bool) : Session :=
  { s with numPipedCmds := n, background := bg, pc := .entered }

/-- `fork` returns `p` to the shell. -/
def Session.fork (s : Session) (p : ℕ) : Session :=
  { s with
    childPid := p
    lastCmdPid := if s.i + 1 = s.numPipedCmds then p else s.lastCmdPid
    children := Function.update s.children p .running
    collected := Function.update s.collected p false
    pc := .forked }

/-- The steps of the shell and of its environment. The kernel gives no process id that is in use. -/
inductive SessionStep : Session → Event → Session → Prop where
  | call {s} (n : ℕ) (bg : Bool) (h : s.pc = .idle) (hn : 0 < n) :
      SessionStep s (.call n bg) (s.call n bg)
  | fork {s} (p : ℕ) (h : s.pc = .forking) (hp : 0 < p) (hc : s.children p = .none) :
      SessionStep s (.fork p) (s.fork p)
  | shell {s t} (h : shellNext s = some t) : SessionStep s .shell t
  | exit {s} (p : ℕ) (h : s.children p = .running ∨ ∃ r, s.children p = .stopped r) :
      SessionStep s (.exit p) (s.setChild p .exited)
  | stop {s} (p : ℕ) (h : s.children p = .running) :
      SessionStep s (.stop p) (s.setChild p (.stopped false))
  | cont {s} (p : ℕ) (h : ∃ r, s.children p = .stopped r) :
      SessionStep s (.cont p) (s.setChild p .running)
  | signal {s} (h : s.pc = .sleeping) : SessionStep s .signal { s with pc := .waitTest }
  | deliver {s t} (hp : s.pending = true) (hb : s.pc ≠ .sleeping) (hm : s.blocked = false)
      (h : ManageChild s t) : SessionStep s .deliver { t with pending := false }
  | awake {s t} (hp : s.pending = true) (hs : s.pc = .sleeping) (h : ManageChild s t) :
      SessionStep s .deliver { t with pending := false, pc := .waitTest }

/-- Inside `wait_for_fg_process`. -/
def ShellPc.waits : ShellPc → Bool
  | .waitSet | .waitTest | .waitSleep | .sleeping | .waitOver => true
  | _ => false

/-- The shell waits for a child that was collected. -/
def WaitsInVain (s : Session) : Prop :=
  (s.pc.waits = true ∧ s.fgpid = s.lastCmdPid ∧ s.collected s.lastCmdPid = true) ∨
    (s.pc = .sleeping ∧ s.fgpid = 0)

/-- The shell is between the unblocking of `SIGCHLD` after the last `fork` of a foreground pipeline
and `fgpid = pid`, or between the test of `fgpid` and `sigsuspend`. -/
def InWindow (s : Session) : Prop :=
  (s.background = false ∧ s.pc = .head ∧ s.i = s.numPipedCmds) ∨ s.pc = .waitSet ∨ s.pc = .waitSleep

/-- A `SIGCHLD` that is delivered in one of the two windows reports nothing on the last child. -/
def InTime (s : Session) : Event → Prop
  | .deliver => InWindow s → (s.children s.lastCmdPid).unreported = false
  | _ => True

variable {s t u : Session} {p : ℕ}

/-! ## What `shellNext` does -/

/-- The branches of `shellNext`. -/
inductive ShellMove (s : Session) : Session → Prop where
  | entered (hpc : s.pc = .entered) : ShellMove s { s with fgProcesses := ∅, pc := .emptying }
  | emptied (hpc : s.pc = .emptying) (hs : s.suspended = []) :
      ShellMove s { s with i := 0, lastCmdPid := 0, pc := .head }
  | empties {p : ℕ} {rest : List ℕ} (hpc : s.pc = .emptying) (hs : s.suspended = p :: rest) :
      ShellMove s { s with suspended := rest, pc := .emptying }
  | blocks (hpc : s.pc = .head) (hi : s.i < s.numPipedCmds) :
      ShellMove s { s with blocked := true, pc := .forking }
  | background (hpc : s.pc = .head) (hi : ¬ s.i < s.numPipedCmds) (hbg : s.background = true) :
      ShellMove s { s with pc := .started }
  | foreground (hpc : s.pc = .head) (hi : ¬ s.i < s.numPipedCmds) (hbg : s.background = false) :
      ShellMove s { s with pc := .waitSet }
  | insertBg (hpc : s.pc = .forked) (hbg : s.background = true) :
      ShellMove s { s with bgProcesses := insert s.childPid s.bgProcesses, pc := .inserted }
  | insertFg (hpc : s.pc = .forked) (hbg : s.background = false) :
      ShellMove s { s with fgProcesses := insert s.childPid s.fgProcesses, pc := .inserted }
  | unblocks (hpc : s.pc = .inserted) :
      ShellMove s { s with blocked := false, i := s.i + 1, pc := .head }
  | leaves (hpc : s.pc = .started) : ShellMove s { s with blocked := false, pc := .leaving }
  | waits (hpc : s.pc = .waitSet) : ShellMove s { s with fgpid := s.lastCmdPid, pc := .waitTest }
  | again (hpc : s.pc = .waitTest) (hfg : s.fgpid = s.lastCmdPid) :
      ShellMove s { s with pc := .waitSleep }
  | waited (hpc : s.pc = .waitTest) (hfg : s.fgpid ≠ s.lastCmdPid) :
      ShellMove s { s with pc := .waitOver }
  | sleeps (hpc : s.pc = .waitSleep) : ShellMove s { s with pc := .sleeping }
  | returns (hpc : s.pc = .waitOver) : ShellMove s { s with blocked := false, pc := .resuming }
  | resumed (hpc : s.pc = .resuming) (hs : s.suspended = []) : ShellMove s { s with pc := .leaving }
  | resumes {p : ℕ} {rest : List ℕ} (hpc : s.pc = .resuming) (hs : s.suspended = p :: rest) :
      ShellMove s { s with bgProcesses := insert p s.bgProcesses, pc := .continuing }
  | continues {p : ℕ} {rest : List ℕ} {b : Bool} (hpc : s.pc = .continuing)
      (hs : s.suspended = p :: rest) (hstop : s.children p = .stopped b) :
      ShellMove s { s.setChild p .running with pc := .continued }
  | continuesNone {p : ℕ} {rest : List ℕ} (hpc : s.pc = .continuing) (hs : s.suspended = p :: rest) :
      ShellMove s { s with pc := .continued }
  | pops (hpc : s.pc = .continued) :
      ShellMove s { s with suspended := s.suspended.tail, pc := .resuming }
  | clears (hpc : s.pc = .leaving) : ShellMove s { s with fgProcesses := ∅, pc := .clearing }
  | cleared (hpc : s.pc = .clearing) (hs : s.suspended = []) : ShellMove s { s with pc := .idle }
  | clearsTop {p : ℕ} {rest : List ℕ} (hpc : s.pc = .clearing) (hs : s.suspended = p :: rest) :
      ShellMove s { s with suspended := rest, pc := .clearing }

theorem shellNext_move (h : shellNext s = some t) : ShellMove s t := by
  unfold shellNext at h
  cases hpc : s.pc with
  | idle | forking | sleeping => simp only [hpc] at h; cases h
  | entered => simp only [hpc] at h; cases h; exact .entered hpc
  | emptying =>
    simp only [hpc] at h
    split at h <;> cases h
    · exact .emptied hpc ‹_›
    · exact .empties hpc ‹_›
  | head =>
    simp only [hpc] at h
    split_ifs at h with hi hbg <;> cases h
    · exact .blocks hpc hi
    · exact .background hpc hi hbg
    · exact .foreground hpc hi (Bool.eq_false_iff.2 hbg)
  | forked =>
    simp only [hpc] at h
    split_ifs at h with hbg <;> cases h
    · exact .insertBg hpc hbg
    · exact .insertFg hpc (Bool.eq_false_iff.2 hbg)
  | inserted => simp only [hpc] at h; cases h; exact .unblocks hpc
  | started => simp only [hpc] at h; cases h; exact .leaves hpc
  | waitSet => simp only [hpc] at h; cases h; exact .waits hpc
  | waitTest =>
    simp only [hpc] at h
    split_ifs at h with hfg <;> cases h
    · exact .again hpc hfg
    · exact .waited hpc hfg
  | waitSleep => simp only [hpc] at h; cases h; exact .sleeps hpc
  | waitOver => simp only [hpc] at h; cases h; exact .returns hpc
  | resuming =>
    simp only [hpc] at h
    split at h <;> cases h
    · exact .resumed hpc ‹_›
    · exact .resumes hpc ‹_›
  | continuing =>
    simp only [hpc] at h
    split at h
    · cases h
    · split at h <;> cases h
      · exact .continues hpc ‹_› ‹_›
      · exact .continuesNone hpc ‹_›
  | continued => simp only [hpc] at h; cases h; exact .pops hpc
  | leaving => simp only [hpc] at h; cases h; exact .clears hpc
  | clearing =>
    simp only [hpc] at h
    split at h <;> cases h
    · exact .cleared hpc ‹_›
    · exact .clearsTop hpc ‹_›

/-! ## What `manage_child` does -/

@[simp] theorem report_unreported (x : Child) : x.report.unreported = false := by
  cases x with
  | stopped r => rfl
  | _ => rfl

/-- `manage_child` leaves the shell where it is. -/
structure Managed (s t : Session) : Prop where
  pc : t.pc = s.pc
  numPipedCmds : t.numPipedCmds = s.numPipedCmds
  background : t.background = s.background
  i : t.i = s.i
  lastCmdPid : t.lastCmdPid = s.lastCmdPid
  blocked : t.blocked = s.blocked
  fgpid : t.fgpid = s.fgpid ∨ t.fgpid = 0
  kept : ∀ p, (s.children p).unreported = false →
    t.collected p = s.collected p ∧ (s.fgpid = p → t.fgpid = p)
  got : ∀ p, 0 < p → (s.children p).unreported = true → t.collected p = true ∧ t.fgpid ≠ p

theorem manageChild_spec (h : ManageChild s t) : Managed s t := by
  induction h with
  | done h =>
    refine ⟨rfl, rfl, rfl, rfl, rfl, rfl, .inl rfl, fun p _ => ⟨rfl, id⟩, ?_⟩
    intro p _ hp
    rw [h p] at hp
    cases hp
  | @round s t q hq _ ih =>
    refine ⟨ih.pc, ih.numPipedCmds, ih.background, ih.i, ih.lastCmdPid, ih.blocked, ?_, ?_, ?_⟩
    · rcases ih.fgpid with h | h
      · rw [h]
        simp only [collect]
        split_ifs
        · exact .inr rfl
        · exact .inl rfl
      · exact .inr h
    · intro p hp
      have hne : p ≠ q := by
        rintro rfl
        rw [hq] at hp
        cases hp
      have hchild : ((collect s q).children p).unreported = false := by
        simpa [collect, Function.update_of_ne hne] using hp
      obtain ⟨hcol, hfg⟩ := ih.kept p hchild
      refine ⟨?_, ?_⟩
      · rw [hcol]
        simp [collect, Function.update_of_ne hne]
      · intro hp
        apply hfg
        have hq' : q ≠ s.fgpid := by rw [hp]; exact hne.symm
        show (if q = s.fgpid then 0 else s.fgpid) = p
        rw [if_neg hq', hp]
    · intro p hpos hp
      by_cases hpq : p = q
      · -- this round has collected `p`
        subst hpq
        have hchild : ((collect s p).children p).unreported = false := by simp [collect]
        refine ⟨by rw [(ih.kept p hchild).1]; simp [collect], ?_⟩
        have hfg : (collect s p).fgpid ≠ p := by
          simp only [collect]
          split_ifs with h
          · omega
          · exact fun heq => h heq.symm
        rcases ih.fgpid with h | h
        · rw [h]
          exact hfg
        · omega
      · apply ih.got p hpos
        simpa [collect, Function.update_of_ne hpq] using hp

theorem Managed.zero (hm : Managed s t) (h : s.fgpid = 0) : t.fgpid = 0 := by
  rcases hm.fgpid with heq | hzero
  · rw [heq, h]
  · exact hzero

/-- What the test of `fgpid` finds: a child that was collected is no longer waited for. -/
theorem Managed.found (hm : Managed s t) (hpos : 0 < p) (hfg : s.fgpid = p)
    (hcol : s.collected p = false) : t.fgpid = 0 ∨ t.fgpid = p ∧ t.collected p = false := by
  cases hun : (s.children p).unreported with
  | false =>
    obtain ⟨hkept, hstill⟩ := hm.kept p hun
    exact .inr ⟨hstill hfg, by rw [hkept]; exact hcol⟩
  | true =>
    obtain ⟨-, hne⟩ := hm.got p hpos hun
    rcases hm.fgpid with heq | hzero
    · exact absurd (heq.trans hfg) hne
    · exact .inl hzero

/-! ## The waiting shell -/

/-- What holds at each place: in the wait, `fgpid` is the child or it is 0. -/
def Aware (s : Session) : Prop :=
  match s.pc with
  | .head => s.fgpid = 0 ∧ s.i ≤ s.numPipedCmds ∧ 0 < s.numPipedCmds ∧
      (s.i = s.numPipedCmds → 0 < s.lastCmdPid ∧
        (s.background = false → s.collected s.lastCmdPid = false))
  | .forking => s.fgpid = 0 ∧ s.i < s.numPipedCmds ∧ s.blocked = true
  | .forked | .inserted => s.fgpid = 0 ∧ s.i < s.numPipedCmds ∧ s.blocked = true ∧
      (s.i + 1 = s.numPipedCmds → 0 < s.lastCmdPid ∧ s.collected s.lastCmdPid = false)
  | .waitSet => s.fgpid = 0 ∧ 0 < s.lastCmdPid ∧ s.collected s.lastCmdPid = false
  | .waitTest => 0 < s.lastCmdPid ∧
      (s.fgpid = 0 ∨ s.fgpid = s.lastCmdPid ∧ s.collected s.lastCmdPid = false)
  | .waitSleep | .sleeping =>
    0 < s.lastCmdPid ∧ s.fgpid = s.lastCmdPid ∧ s.collected s.lastCmdPid = false
  | .waitOver => 0 < s.lastCmdPid ∧ s.fgpid = 0
  | .entered | .emptying => s.fgpid = 0 ∧ 0 < s.numPipedCmds
  | .idle | .started | .resuming | .continuing | .continued | .leaving | .clearing => s.fgpid = 0

theorem aware_init : Aware .init := rfl

/-- An aware shell does not wait in vain. -/
theorem Aware.not_vain (h : Aware s) : ¬ WaitsInVain s := by
  intro hvain
  rcases hvain with ⟨hwaits, hfg, hcol⟩ | ⟨hsleep, hfg⟩
  · cases hpc : s.pc with
    | waitSet | waitOver =>
      simp only [Aware, hpc] at h
      omega
    | waitTest =>
      simp only [Aware, hpc] at h
      obtain ⟨hpos, hzero | ⟨-, hnot⟩⟩ := h
      · omega
      · rw [hcol] at hnot
        cases hnot
    | waitSleep | sleeping =>
      simp only [Aware, hpc] at h
      rw [hcol] at h
      cases h.2.2
    | _ =>
      rw [hpc] at hwaits
      cases hwaits
  · simp only [Aware, hsleep] at h
    omega

/-- A step that changes nothing that `Aware` looks at. -/
theorem Aware.congr (h : Aware s) (hpc : t.pc = s.pc) (hn : t.numPipedCmds = s.numPipedCmds)
    (hb : t.background = s.background) (hi : t.i = s.i) (hl : t.lastCmdPid = s.lastCmdPid)
    (hm : t.blocked = s.blocked) (hf : t.fgpid = s.fgpid)
    (hc : t.collected s.lastCmdPid = s.collected s.lastCmdPid) : Aware t := by
  unfold Aware at h ⊢
  rw [hpc, hn, hb, hi, hl, hm, hf, hc]
  exact h

theorem aware_shell (h : Aware s) (hst : shellNext s = some t) : Aware t := by
  cases shellNext_move hst with
  | entered hpc | empties hpc | insertBg hpc | insertFg hpc | cleared hpc | clearsTop hpc =>
    simp only [Aware, hpc] at h
    simpa only [Aware, hpc] using h
  | emptied hpc =>
    simp only [Aware, hpc] at h
    exact ⟨h.1, Nat.zero_le _, h.2, fun h0 : 0 = s.numPipedCmds => absurd h.2 (by omega)⟩
  | blocks hpc hi =>
    simp only [Aware, hpc] at h
    exact ⟨h.1, hi, rfl⟩
  | background hpc =>
    simp only [Aware, hpc] at h
    exact h.1
  | foreground hpc hi hbg =>
    simp only [Aware, hpc] at h
    obtain ⟨hfg, hle, -, hlast⟩ := h
    obtain ⟨hlpos, hcol⟩ := hlast (by omega)
    exact ⟨hfg, hlpos, hcol hbg⟩
  | unblocks hpc =>
    simp only [Aware, hpc] at h
    obtain ⟨hfg, hlt, -, hlast⟩ := h
    exact ⟨hfg, hlt, Nat.zero_lt_of_lt hlt, fun hi => ⟨(hlast hi).1, fun _ => (hlast hi).2⟩⟩
  | waits hpc =>
    simp only [Aware, hpc] at h
    exact ⟨h.2.1, .inr ⟨rfl, h.2.2⟩⟩
  | again hpc heq =>
    simp only [Aware, hpc] at h
    obtain ⟨hpos, hzero | ⟨-, hcol⟩⟩ := h
    · omega
    · exact ⟨hpos, heq, hcol⟩
  | waited hpc hne =>
    simp only [Aware, hpc] at h
    obtain ⟨hpos, hzero | ⟨heq, -⟩⟩ := h
    · exact ⟨hpos, hzero⟩
    · exact absurd heq hne
  | sleeps hpc =>
    simp only [Aware, hpc] at h
    exact h
  | returns hpc =>
    simp only [Aware, hpc] at h
    exact h.2
  | leaves hpc | resumed hpc | resumes hpc | continues hpc | continuesNone hpc | pops hpc | clears hpc =>
    simp only [Aware, hpc] at h
    exact h

/-- `manage_child` at a place outside of `sigsuspend`. -/
theorem aware_managed (h : Aware s) (hm : Managed s t) (hb : s.blocked = false)
    (hs : s.pc ≠ .sleeping) (hw : InWindow s → (s.children s.lastCmdPid).unreported = false) :
    Aware t := by
  unfold Aware
  rw [hm.pc, hm.numPipedCmds, hm.background, hm.i, hm.lastCmdPid, hm.blocked]
  cases hpc : s.pc with
  | sleeping => exact absurd hpc hs
  | forking | forked | inserted =>
    -- `SIGCHLD` is blocked
    simp only [Aware, hpc, hb] at h
    simp at h
  | head =>
    simp only [Aware, hpc] at h
    obtain ⟨hfg, hle, hpos, hlast⟩ := h
    refine ⟨hm.zero hfg, hle, hpos, ?_⟩
    intro hi
    obtain ⟨hlpos, hcol⟩ := hlast hi
    refine ⟨hlpos, ?_⟩
    intro hbg
    rw [(hm.kept _ (hw (.inl ⟨hbg, hpc, hi⟩))).1]
    exact hcol hbg
  | waitSet =>
    simp only [Aware, hpc] at h
    obtain ⟨hfg, hpos, hcol⟩ := h
    refine ⟨hm.zero hfg, hpos, ?_⟩
    rw [(hm.kept _ (hw (.inr (.inl hpc)))).1]
    exact hcol
  | waitSleep =>
    simp only [Aware, hpc] at h
    obtain ⟨hpos, hfg, hcol⟩ := h
    obtain ⟨hkept, hstill⟩ := hm.kept _ (hw (.inr (.inr hpc)))
    exact ⟨hpos, hstill hfg, by rw [hkept]; exact hcol⟩
  | waitTest =>
    simp only [Aware, hpc] at h
    obtain ⟨hpos, hfg⟩ := h
    refine ⟨hpos, ?_⟩
    rcases hfg with hfg | ⟨hfg, hcol⟩
    · exact .inl (hm.zero hfg)
    · exact hm.found hpos hfg hcol
  | waitOver =>
    simp only [Aware, hpc] at h
    exact ⟨h.1, hm.zero h.2⟩
  | entered | emptying =>
    simp only [Aware, hpc] at h
    exact ⟨hm.zero h.1, h.2⟩
  | _ =>
    simp only [Aware, hpc] at h
    exact hm.zero h

/-- `manage_child` in `sigsuspend`, which then returns. -/
theorem aware_awake (h : Aware s) (hm : Managed s t) (hs : s.pc = .sleeping) :
    Aware { t with pc := .waitTest } := by
  simp only [Aware, hs] at h
  obtain ⟨hpos, hfg, hcol⟩ := h
  show 0 < t.lastCmdPid ∧ (t.fgpid = 0 ∨ t.fgpid = t.lastCmdPid ∧ t.collected t.lastCmdPid = false)
  rw [hm.lastCmdPid]
  exact ⟨hpos, hm.found hpos hfg hcol⟩

theorem aware_step {e : Event} (h : Aware s) (hin : InTime s e) (hst : SessionStep s e t) :
    Aware t := by
  cases hst with
  | call n bg hpc hn =>
    simp only [Aware, hpc] at h
    exact ⟨h, hn⟩
  | fork p hpc hp _ =>
    simp only [Aware, hpc] at h
    obtain ⟨hfg, hlt, hb⟩ := h
    refine ⟨hfg, hlt, hb, ?_⟩
    intro hi
    have hlast : (if s.i + 1 = s.numPipedCmds then p else s.lastCmdPid) = p := if_pos hi
    show 0 < (if s.i + 1 = s.numPipedCmds then p else s.lastCmdPid) ∧
      Function.update s.collected p false (if s.i + 1 = s.numPipedCmds then p else s.lastCmdPid) = false
    rw [hlast]
    exact ⟨hp, Function.update_self p false s.collected⟩
  | shell hst => exact aware_shell h hst
  | exit | stop | cont => exact h.congr rfl rfl rfl rfl rfl rfl rfl rfl
  | signal hpc =>
    simp only [Aware, hpc] at h
    exact ⟨h.1, .inr h.2⟩
  | deliver _ hs hb hm =>
    have hmanaged := manageChild_spec hm
    have haware := aware_managed h hmanaged hb hs hin
    exact haware.congr rfl rfl rfl rfl rfl rfl rfl rfl
  | awake _ hs hm =>
    have hawake := aware_awake h (manageChild_spec hm) hs
    exact hawake.congr rfl rfl rfl rfl rfl rfl rfl rfl

/-- The shell sets `fgpid` to a child that was collected. -/
theorem vain_of_waitSet (hpc : s.pc = .waitSet) (hcol : s.collected s.lastCmdPid = true) :
    ∃ u, Reaches SessionStep s u ∧ WaitsInVain u := by
  have hnext : shellNext s = some { s with fgpid := s.lastCmdPid, pc := .waitTest } := by
    simp only [shellNext, hpc]
  exact ⟨_, (Reaches.refl s).snoc (.shell hnext), .inl ⟨rfl, rfl, hcol⟩⟩

/-- A change of the last child that is collected in a window: the shell goes on to wait for it. -/
theorem vain_of_late {e : Event} (h : Aware s) (hst : SessionStep s e t) (hlate : ¬ InTime s e) :
    ∃ u, Reaches SessionStep t u ∧ WaitsInVain u := by
  cases hst with
  | call | fork | shell | exit | stop | cont | signal => exact absurd trivial hlate
  | awake _ hs _ =>
    -- `sigsuspend` is in no window
    exfalso
    apply hlate
    intro hw
    rcases hw with ⟨-, hpc, -⟩ | hpc | hpc <;> rw [hs] at hpc <;> cases hpc
  | @deliver t₀ _ _ _ hm =>
    have hmanaged := manageChild_spec hm
    obtain ⟨hw, hun⟩ := Classical.not_imp.1 hlate
    rw [Bool.not_eq_false] at hun
    rcases hw with ⟨hbg, hpc, hi⟩ | hpc | hpc
    · simp only [Aware, hpc] at h
      obtain ⟨hcol, -⟩ := hmanaged.got _ (h.2.2.2 hi).1 hun
      have hnext : shellNext { t₀ with pending := false } =
          some { t₀ with pending := false, pc := .waitSet } := by
        simp [shellNext, hmanaged.pc, hpc, hmanaged.i, hmanaged.numPipedCmds, hmanaged.background, hbg,
          hi]
      obtain ⟨u, hu, hvain⟩ := vain_of_waitSet (s := { t₀ with pending := false, pc := .waitSet }) rfl
        (by rw [hmanaged.lastCmdPid]; exact hcol)
      exact ⟨u, ((Reaches.refl _).snoc (.shell hnext)).trans hu, hvain⟩
    · simp only [Aware, hpc] at h
      obtain ⟨hcol, -⟩ := hmanaged.got _ h.2.1 hun
      exact vain_of_waitSet (s := { t₀ with pending := false }) (hmanaged.pc.trans hpc)
        (by rw [hmanaged.lastCmdPid]; exact hcol)
    · -- `fgpid` is 0 when the shell goes to sleep
      simp only [Aware, hpc] at h
      obtain ⟨-, hne⟩ := hmanaged.got _ h.1 hun
      have hzero : t₀.fgpid = 0 := by
        rcases hmanaged.fgpid with heq | hzero
        · exact absurd (heq.trans h.2.1) hne
        · exact hzero
      have hnext : shellNext { t₀ with pending := false } =
          some { t₀ with pending := false, pc := .sleeping } := by
        simp only [shellNext, hmanaged.pc, hpc]
      exact ⟨_, (Reaches.refl _).snoc (.shell hnext), .inr ⟨rfl, hzero⟩⟩

/-- **The shell never waits for a child that was collected**, when no change of the last child of a
foreground pipeline is collected in one of the two windows; and one that is makes it wait in vain. -/
theorem waits_for_live_child (h : Reaches (Guarded InTime SessionStep) .init s) :
    ¬ WaitsInVain s ∧ ∀ e t, SessionStep s e t → ¬ InTime s e →
      ∃ u, Reaches SessionStep t u ∧ WaitsInVain u := by
  have haware : Aware s :=
    reaches_inv (I := Aware) (fun _ _ _ hI hst => aware_step hI hst.1 hst.2) aware_init h
  exact ⟨haware.not_vain, fun e t hst hlate => vain_of_late haware hst hlate⟩

/-! ## Runs by schedule -/

/-- What `manage_child` leaves when `p` is the only child that has changed. -/
theorem manageChild_one (hp : (s.children p).unreported = true)
    (h : ∀ q, q ≠ p → (s.children q).unreported = false) : ManageChild s (collect s p) := by
  refine .round p hp (.done ?_)
  intro q
  by_cases hq : q = p
  · rw [hq]
    simp [collect]
  · simpa [collect, Function.update_of_ne hq] using h q hq

/-- The next step for an event, but for a delivery. -/
def sessionNext (s : Session) : Event → Option Session
  | .call n bg => if s.pc = .idle ∧ 0 < n then some (s.call n bg) else none
  | .fork p => if s.pc = .forking ∧ 0 < p ∧ s.children p = .none then some (s.fork p) else none
  | .shell => shellNext s
  | .exit p => if s.children p = .running then some (s.setChild p .exited) else none
  | _ => none

theorem sessionNext_step {e : Event} (h : sessionNext s e = some t) :
    Guarded InTime SessionStep s e t := by
  cases e with
  | call n bg =>
    simp only [sessionNext] at h
    split_ifs at h with hc
    cases h
    exact ⟨trivial, .call n bg hc.1 hc.2⟩
  | fork p =>
    simp only [sessionNext] at h
    split_ifs at h with hc
    cases h
    exact ⟨trivial, .fork p hc.1 hc.2.1 hc.2.2⟩
  | shell => exact ⟨trivial, .shell h⟩
  | exit p =>
    simp only [sessionNext] at h
    split_ifs at h with hc
    cases h
    exact ⟨trivial, .exit p (.inl hc)⟩
  | stop | cont | signal | deliver => cases h

/-- One command in the foreground, up to the unblocking of `SIGCHLD`. -/
def oneCommand : List Event :=
  [.call 1 false, .shell, .shell, .shell, .fork 1, .shell, .shell]

/-- The child has exited before `fgpid` is set. -/
def exitsEarly : Session :=
  { Session.init with
    pc := .head
    numPipedCmds := 1
    i := 1
    childPid := 1
    lastCmdPid := 1
    fgProcesses := {1}
    pending := true
    children := Function.update (Function.update (fun _ => .none) 1 .running) 1 .exited
    collected := Function.update (fun _ => false) 1 false }

/-- The child has exited while the shell sleeps. -/
def exitsLate : Session := { exitsEarly with pc := .sleeping, fgpid := 1 }

theorem exited_others (q : ℕ) (hq : q ≠ 1) : (exitsEarly.children q).unreported = false := by
  simp [exitsEarly, Function.update_of_ne hq, Child.unreported]

theorem waits_exitsLate : ¬ WaitsInVain { collect exitsLate 1 with pending := false, pc := .waitTest } := by
  have hrun : run sessionNext .init (oneCommand ++ [.shell, .shell, .shell, .shell, .exit 1]) =
      some exitsLate := by
    rfl
  have hreach := reaches_of_run (fun _ _ _ => sessionNext_step) hrun
  have hmanage : ManageChild exitsLate (collect exitsLate 1) := manageChild_one rfl exited_others
  have hin : InTime exitsLate .deliver := by
    intro hw
    rcases hw with ⟨-, hpc, -⟩ | hpc | hpc <;> cases hpc
  exact (waits_for_live_child (hreach.snoc ⟨hin, .awake rfl rfl hmanage⟩)).1

/-- **A child that exits before `fgpid` is set**: `manage_child` collects it, and the shell then
waits for it. -/
theorem reaped_before_wait : ¬ ∀ s, Reaches SessionStep .init s → ¬ WaitsInVain s := by
  intro hclaim
  have hrun : run sessionNext .init (oneCommand ++ [.exit 1]) = some exitsEarly := by rfl
  have hreach := (reaches_of_run (fun _ _ _ => sessionNext_step) hrun).of_guarded
  have hmanage : ManageChild exitsEarly (collect exitsEarly 1) := manageChild_one rfl exited_others
  have hcollected := hreach.snoc (.deliver rfl nofun rfl hmanage)
  obtain ⟨u, hu, hvain⟩ := vain_of_waitSet (s := { collect exitsEarly 1 with
    pending := false
    pc := .waitSet }) rfl rfl
  exact hclaim u ((hcollected.snoc (.shell rfl)).trans hu) hvain

end OsLab.Shell
