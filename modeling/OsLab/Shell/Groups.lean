import OsLab.Lib.Machine
import Mathlib.Logic.Function.Basic

/-!
# The process groups of pipelines (`handle_process` of `shell_main.cpp`)

The shell and each child both call `setpgid`, as nobody knows which of them runs first. The first child
gets a group of its own, the others join it. `SIGCHLD` is only blocked from a `fork` to the end of its
turn of the loop, so between two turns `manage_child` may collect children that have terminated already.
A group goes when its last member is collected, and the next child then fails in `setpgid`.

* `jobInv_step`: what the two calls and `tcsetpgrp` keep, in any order.
* `exec_in_group`: every program starts in the group of its pipeline, and who has the terminal.
* `commands_start`: all children pass `setpgid` as long as no group that is still needed goes.

Programs that move to another group after `execvp` are left out, and so is what ends the wait
(`Shell/Children.lean`).
-/

namespace OsLab.Shell

open Lib

/-! ## The model -/

/-- How far a child has come. -/
inductive Stage where
  /-- no such process, or collected -/
  | none
  /-- before its `setpgid` -/
  | forked
  /-- before `execvp` -/
  | joined
  | running
  /-- terminated, and not yet collected -/
  | zombie
  deriving DecidableEq

/-- A process: `currPgId` is its copy of `curr_pg_id`. The first child of its pipeline is a history
variable. -/
structure Proc where
  stage : Stage
  execed : Bool
  pgid : ℕ
  currPgId : ℕ
  first : ℕ

/-- Where `handle_process` is. -/
inductive JobPc where
  /-- in `main` -/
  | idle
  /-- at the head of the loop, `SIGCHLD` not blocked -/
  | head
  /-- `fork` has returned -/
  | forked
  /-- `setpgid` has returned -/
  | grouped
  /-- before `SIGCHLD` is unblocked -/
  | adopted
  /-- in `wait_for_fg_process` -/
  | waiting
  deriving DecidableEq

/-- The variables of `handle_process`, the foreground group of the terminal, and the processes. The
first child of the pipeline is a history variable. -/
structure Jobs where
  pc : JobPc
  numPipedCmds : ℕ
  background : Bool
  i : ℕ
  currPgId : ℕ
  childPid : ℕ
  terminal : ℕ
  procs : ℕ → Proc
  first : ℕ

/-- A process of the group `g` exists. -/
def Jobs.Member (s : Jobs) (g : ℕ) : Prop := ∃ p, (s.procs p).stage ≠ .none ∧ (s.procs p).pgid = g

/-- The group that `setpgid(p, g)` asks for. -/
def groupArg (p g : ℕ) : ℕ := if g = 0 then p else g

/-- `setpgid(p, g)` finds the group. -/
def Jobs.Allows (s : Jobs) (p g : ℕ) : Prop := groupArg p g = p ∨ s.Member (groupArg p g)

def Jobs.setProc (s : Jobs) (p : ℕ) (x : Proc) : Jobs := { s with procs := Function.update s.procs p x }

/-- `fork` returns `p`, which is in the group of the shell. -/
def Jobs.fork (s : Jobs) (shell p : ℕ) : Jobs :=
  let first := if s.i = 0 then p else s.first
  { s.setProc p ⟨.forked, false, shell, s.currPgId, first⟩ with
    pc := .forked
    childPid := p
    first := first }

inductive JobEvent where
  | call (numPipedCmds : ℕ) (background : Bool)
  | fork (pid : ℕ)
  | shell
  /-- a child calls `setpgid`, calls `execvp` or terminates -/
  | setpgid (pid : ℕ)
  | exec (pid : ℕ)
  | exit (pid : ℕ)
  /-- `manage_child` collects a child -/
  | collect (pid : ℕ)

/-- The steps of the shell, in the group `shell`, and of its children. The kernel gives no process id
that is in use, also not as the id of a group. -/
inductive JobStep (shell : ℕ) : Jobs → JobEvent → Jobs → Prop where
  | call {s} (n : ℕ) (bg : Bool) (h : s.pc = .idle) (hn : 0 < n) : JobStep shell s (.call n bg)
      { s with pc := .head, numPipedCmds := n, background := bg, i := 0, currPgId := 0 }
  | fork {s} (p : ℕ) (h : s.pc = .head) (hi : s.i < s.numPipedCmds) (hp : p ≠ 0) (hs : p ≠ shell)
      (hfree : (s.procs p).stage = .none) (hgroup : ¬ s.Member p) :
      JobStep shell s (.fork p) (s.fork shell p)
  /-- `setpgid(child_pid, curr_pg_id)` -/
  | group {s} (h : s.pc = .forked) (hexec : (s.procs s.childPid).execed = false)
      (hg : s.Allows s.childPid s.currPgId) : JobStep shell s .shell
      { s.setProc s.childPid
          { s.procs s.childPid with pgid := groupArg s.childPid s.currPgId } with pc := .grouped }
  /-- its result is not looked at -/
  | group_fails {s} (h : s.pc = .forked)
      (hg : (s.procs s.childPid).execed = true ∨ ¬ s.Allows s.childPid s.currPgId) :
      JobStep shell s .shell { s with pc := .grouped }
  | adopt {s} (h : s.pc = .grouped) (hc : s.currPgId ≠ 0) :
      JobStep shell s .shell { s with pc := .adopted }
  | adopt_background {s} (h : s.pc = .grouped) (hc : s.currPgId = 0) (hb : s.background = true) :
      JobStep shell s .shell { s with pc := .adopted, currPgId := s.childPid }
  /-- `tcsetpgrp`, for a group that exists -/
  | adopt_terminal {s} (h : s.pc = .grouped) (hc : s.currPgId = 0) (hb : s.background = false)
      (hm : s.Member s.childPid) : JobStep shell s .shell
      { s with pc := .adopted, currPgId := s.childPid, terminal := s.childPid }
  | adopt_fails {s} (h : s.pc = .grouped) (hc : s.currPgId = 0) (hb : s.background = false)
      (hm : ¬ s.Member s.childPid) : JobStep shell s .shell
      { s with pc := .adopted, currPgId := s.childPid }
  | next {s} (h : s.pc = .adopted) : JobStep shell s .shell { s with pc := .head, i := s.i + 1 }
  | started {s} (h : s.pc = .head) (hi : s.i = s.numPipedCmds) (hb : s.background = true) :
      JobStep shell s .shell { s with pc := .idle, currPgId := 0 }
  | wait {s} (h : s.pc = .head) (hi : s.i = s.numPipedCmds) (hb : s.background = false) :
      JobStep shell s .shell { s with pc := .waiting }
  /-- the wait is over, and the shell takes the terminal back -/
  | leave {s} (h : s.pc = .waiting) : JobStep shell s .shell
      { s with pc := .idle, currPgId := 0, terminal := shell }
  | setpgid {s} (p : ℕ) (h : (s.procs p).stage = .forked) (hg : s.Allows p (s.procs p).currPgId) :
      JobStep shell s (.setpgid p) (s.setProc p
        { s.procs p with stage := .joined, pgid := groupArg p (s.procs p).currPgId })
  /-- `perror` and `exit(1)` -/
  | setpgid_fails {s} (p : ℕ) (h : (s.procs p).stage = .forked)
      (hg : ¬ s.Allows p (s.procs p).currPgId) :
      JobStep shell s (.setpgid p) (s.setProc p { s.procs p with stage := .zombie })
  | exec {s} (p : ℕ) (h : (s.procs p).stage = .joined) : JobStep shell s (.exec p)
      (s.setProc p { s.procs p with stage := .running, execed := true })
  | exit {s} (p : ℕ) (h : (s.procs p).stage ≠ .none) (hz : (s.procs p).stage ≠ .zombie) :
      JobStep shell s (.exit p)
      (s.setProc p { s.procs p with stage := .zombie })
  | collect {s} (p : ℕ) (h : (s.procs p).stage = .zombie)
      (hb : s.pc = .idle ∨ s.pc = .head ∨ s.pc = .waiting) :
      JobStep shell s (.collect p) (s.setProc p { s.procs p with stage := .none })

/-- Before the first pipeline. -/
def Jobs.init (shell : ℕ) : Jobs where
  pc := .idle
  numPipedCmds := 0
  background := false
  i := 0
  currPgId := 0
  childPid := 0
  terminal := shell
  procs := fun _ => ⟨.none, false, 0, 0, 0⟩
  first := 0

/-! ## The invariant -/

variable {shell : ℕ} {s t : Jobs} {p q g : ℕ} {e : JobEvent}

/-- In a turn of the loop, after `fork`. -/
def JobPc.inTurn : JobPc → Bool
  | .forked | .grouped | .adopted => true
  | _ => false

/-- Both calls of `setpgid` ask for the group of the first child. -/
structure JobInv (shell : ℕ) (s : Jobs) : Prop where
  pid : ∀ p, (s.procs p).stage ≠ .none → p ≠ 0 ∧ p ≠ shell
  arg : ∀ p, (s.procs p).stage ≠ .none → groupArg p (s.procs p).currPgId = (s.procs p).first
  first : ∀ p, (s.procs p).stage ≠ .none → (s.procs p).first ≠ 0 ∧ (s.procs p).first ≠ shell
  pgid : ∀ p, (s.procs p).stage ≠ .none →
    (s.procs p).pgid = (s.procs p).first ∨
      ((s.procs p).pgid = shell ∧ (s.procs p).execed = false ∧ (s.procs p).stage ≠ .joined)
  running : ∀ p, (s.procs p).stage = .running → (s.procs p).execed = true
  /-- the child of this turn is not collected -/
  child : s.pc.inTurn = true → (s.procs s.childPid).stage ≠ .none ∧
    (s.procs s.childPid).first = s.first
  /-- `curr_pg_id` is `0` until the first child is adopted -/
  curr : s.pc ≠ .idle → s.pc ≠ .waiting →
    (s.i = 0 ∧ s.pc ≠ .adopted ∧ s.currPgId = 0 ∧ (s.pc.inTurn = true → s.first = s.childPid)) ∨
      ((0 < s.i ∨ s.pc = .adopted) ∧ s.currPgId = s.first ∧ s.first ≠ 0 ∧ s.first ≠ shell)
  /-- the first child is in its group before it is adopted -/
  grouped : s.pc = .grouped → s.currPgId = 0 → (s.procs s.childPid).pgid = s.childPid
  /-- who has the terminal -/
  terminal : s.terminal = if s.pc = .idle ∨ s.background = true ∨
    (s.pc ≠ .waiting ∧ s.currPgId = 0) then shell else s.first
  waiting : s.pc = .waiting → s.background = false
  pos : s.pc ≠ .idle → 0 < s.numPipedCmds

@[simp] theorem setProc_self (s : Jobs) (p : ℕ) (x : Proc) : (s.setProc p x).procs p = x :=
  Function.update_self _ _ _

theorem setProc_ne (s : Jobs) (x : Proc) (h : q ≠ p) : (s.setProc p x).procs q = s.procs q :=
  Function.update_of_ne h _ _

@[simp] theorem fork_self (s : Jobs) (shell p : ℕ) : (s.fork shell p).procs p =
    ⟨.forked, false, shell, s.currPgId, if s.i = 0 then p else s.first⟩ := setProc_self s p _

theorem fork_ne (s : Jobs) (shell : ℕ) (h : q ≠ p) : (s.fork shell p).procs q = s.procs q :=
  setProc_ne s _ h

theorem jobInv_init (shell : ℕ) : JobInv shell (.init shell) where
  pid _ h := absurd rfl h
  arg _ h := absurd rfl h
  first _ h := absurd rfl h
  pgid _ h := absurd rfl h
  running _ h := by cases h
  child h := by cases h
  curr h := absurd rfl h
  grouped h := by cases h
  terminal := rfl
  waiting h := by cases h
  pos h := absurd rfl h

/-- **A process moves on**, and stays in its group or gets into that of its pipeline. -/
theorem JobInv.setProc {x : Proc} (hI : JobInv shell s) (hold : (s.procs p).stage ≠ .none)
    (hc : x.currPgId = (s.procs p).currPgId) (hf : x.first = (s.procs p).first)
    (hpgid : x.pgid = x.first ∨ (x.pgid = (s.procs p).pgid ∧ x.stage ≠ .joined ∧
      (x.execed = true → (s.procs p).execed = true)))
    (hrun : x.stage = .running → x.execed = true) (hkeep : s.pc.inTurn = true → x.stage ≠ .none) :
    JobInv shell (s.setProc p x) where
  pid q hq := by
    by_cases h : q = p
    · subst h; exact hI.pid q hold
    · rw [setProc_ne s x h] at hq; exact hI.pid q hq
  arg q hq := by
    by_cases h : q = p
    · subst h; rw [setProc_self, hc, hf]; exact hI.arg q hold
    · rw [setProc_ne s x h] at hq ⊢; exact hI.arg q hq
  first q hq := by
    by_cases h : q = p
    · subst h; rw [setProc_self, hf]; exact hI.first q hold
    · rw [setProc_ne s x h] at hq ⊢; exact hI.first q hq
  pgid q hq := by
    by_cases h : q = p
    · subst h
      rw [setProc_self] at hq ⊢
      rcases hpgid with h | ⟨h, hj, he⟩
      · exact .inl h
      · rcases hI.pgid q hold with h' | ⟨h', he', -⟩
        · exact .inl (h.trans (h'.trans hf.symm))
        · refine .inr ⟨h.trans h', ?_, hj⟩
          rw [← Bool.not_eq_true]
          intro hx
          rw [he hx] at he'; cases he'
    · rw [setProc_ne s x h] at hq ⊢; exact hI.pgid q hq
  running q hq := by
    by_cases h : q = p
    · subst h; rw [setProc_self] at hq ⊢; exact hrun hq
    · rw [setProc_ne s x h] at hq ⊢; exact hI.running q hq
  child hpc := by
    obtain ⟨h1, h2⟩ := hI.child hpc
    show ((s.setProc p x).procs s.childPid).stage ≠ .none ∧
      ((s.setProc p x).procs s.childPid).first = s.first
    by_cases h : s.childPid = p
    · rw [h, setProc_self, hf, ← h]; exact ⟨hkeep hpc, h2⟩
    · rw [setProc_ne s x h]; exact ⟨h1, h2⟩
  curr := hI.curr
  grouped hpc h0 := by
    have hg := hI.grouped hpc h0
    show ((s.setProc p x).procs s.childPid).pgid = s.childPid
    by_cases h : s.childPid = p
    · have hturn : s.pc.inTurn = true := by
        have hpc : s.pc = .grouped := hpc
        rw [hpc]; rfl
      rw [h, setProc_self]
      rcases hpgid with hx | ⟨hx, -⟩
      · -- the group of its pipeline is its own
        rcases hI.curr (by rw [show s.pc = .grouped from hpc]; nofun)
          (by rw [show s.pc = .grouped from hpc]; nofun) with ⟨-, -, -, hfirst⟩ | ⟨-, h1, h2, -⟩
        · rw [hx, hf, ← h, (hI.child hturn).2, hfirst hturn]
        · exact absurd (h1.symm.trans h0) h2
      · rw [hx, ← h, hg]
    · rw [setProc_ne s x h]; exact hg
  terminal := hI.terminal
  waiting := hI.waiting
  pos := hI.pos

/-- A step of the shell that changes no process. -/
theorem JobInv.moved (hI : JobInv shell s) (hp : t.procs = s.procs) (hchild : t.childPid = s.childPid)
    (hfirst : t.first = s.first) (hturn : t.pc.inTurn = true → s.pc.inTurn = true)
    (hcurr : t.pc ≠ .idle → t.pc ≠ .waiting →
      (t.i = 0 ∧ t.pc ≠ .adopted ∧ t.currPgId = 0 ∧ (t.pc.inTurn = true → t.first = t.childPid)) ∨
        ((0 < t.i ∨ t.pc = .adopted) ∧ t.currPgId = t.first ∧ t.first ≠ 0 ∧ t.first ≠ shell))
    (hgrouped : t.pc = .grouped → t.currPgId = 0 → (s.procs s.childPid).pgid = s.childPid)
    (hterm : t.terminal = if t.pc = .idle ∨ t.background = true ∨
      (t.pc ≠ .waiting ∧ t.currPgId = 0) then shell else t.first)
    (hwait : t.pc = .waiting → t.background = false) (hpos : t.pc ≠ .idle → 0 < t.numPipedCmds) :
    JobInv shell t where
  pid := by rw [hp]; exact hI.pid
  arg := by rw [hp]; exact hI.arg
  first := by rw [hp]; exact hI.first
  pgid := by rw [hp]; exact hI.pgid
  running := by rw [hp]; exact hI.running
  child h := by rw [hp, hchild, hfirst]; exact hI.child (hturn h)
  curr := hcurr
  grouped := by rw [hp, hchild]; exact hgrouped
  terminal := hterm
  waiting := hwait
  pos := hpos

theorem JobInv.forked (hI : JobInv shell s) (h : s.pc = .head) (hp : p ≠ 0) (hs : p ≠ shell) :
    JobInv shell (s.fork shell p) := by
  have hcurr := hI.curr (by rw [h]; nofun) (by rw [h]; nofun)
  -- the copy of `curr_pg_id` names the group of the first child
  have hfirst : groupArg p s.currPgId = (if s.i = 0 then p else s.first) ∧
      (if s.i = 0 then p else s.first) ≠ 0 ∧ (if s.i = 0 then p else s.first) ≠ shell := by
    rcases hcurr with ⟨hi, -, h0, -⟩ | ⟨hi, h1, h2, h3⟩
    · rw [if_pos hi, h0]; exact ⟨rfl, hp, hs⟩
    · have hi : s.i ≠ 0 := by
        rcases hi with hi | hi
        · omega
        · rw [h] at hi; cases hi
      rw [if_neg hi, groupArg, h1, if_neg h2]
      exact ⟨rfl, h2, h3⟩
  constructor
  · intro q hq
    by_cases hqp : q = p
    · rw [hqp]; exact ⟨hp, hs⟩
    · rw [fork_ne s shell hqp] at hq; exact hI.pid q hq
  · intro q hq
    by_cases hqp : q = p
    · rw [hqp, fork_self]; exact hfirst.1
    · rw [fork_ne s shell hqp] at hq ⊢; exact hI.arg q hq
  · intro q hq
    by_cases hqp : q = p
    · rw [hqp, fork_self]; exact hfirst.2
    · rw [fork_ne s shell hqp] at hq ⊢; exact hI.first q hq
  · intro q hq
    by_cases hqp : q = p
    · rw [hqp, fork_self]; exact .inr ⟨rfl, rfl, nofun⟩
    · rw [fork_ne s shell hqp] at hq ⊢; exact hI.pgid q hq
  · intro q hq
    by_cases hqp : q = p
    · rw [hqp, fork_self] at hq; cases hq
    · rw [fork_ne s shell hqp] at hq ⊢; exact hI.running q hq
  · intro _
    show ((s.fork shell p).procs p).stage ≠ .none ∧ ((s.fork shell p).procs p).first = _
    rw [fork_self]; exact ⟨nofun, rfl⟩
  · intro _ _
    rcases hcurr with ⟨hi, -, h0, -⟩ | ⟨hi, h1, h2, h3⟩
    · exact .inl ⟨hi, nofun, h0, fun _ => if_pos hi⟩
    · have hi : 0 < s.i := by
        rcases hi with hi | hi
        · exact hi
        · rw [h] at hi; cases hi
      have hf : (s.fork shell p).first = s.first := if_neg (by omega)
      exact .inr ⟨.inl hi, h1.trans hf.symm, hf ▸ h2, hf ▸ h3⟩
  · nofun
  · have hterm := hI.terminal
    show s.terminal = if JobPc.forked = .idle ∨ s.background = true ∨
      (JobPc.forked ≠ .waiting ∧ s.currPgId = 0) then shell else if s.i = 0 then p else s.first
    rw [h] at hterm
    simp only [reduceCtorEq, false_or, ne_eq, not_false_eq_true, true_and] at hterm ⊢
    rw [hterm]
    split_ifs with h1 h2
    · rfl
    · rcases hcurr with ⟨-, -, h0, -⟩ | ⟨hi, -⟩
      · exact absurd (.inr h0) h1
      · rcases hi with hi | hi
        · omega
        · rw [h] at hi; cases hi
    · rfl
  · nofun
  · exact fun _ => hI.pos (by rw [h]; nofun)

/-- In a turn of the loop the shell asks for the group of the first child. -/
theorem JobInv.groupArg_child (hI : JobInv shell s) (h : s.pc = .forked) :
    groupArg s.childPid s.currPgId = (s.procs s.childPid).first := by
  have hturn : s.pc.inTurn = true := by rw [h]; rfl
  rw [(hI.child hturn).2]
  rcases hI.curr (by rw [h]; nofun) (by rw [h]; nofun) with ⟨-, -, h0, hf⟩ | ⟨-, h1, h2, -⟩
  · rw [h0, hf hturn]; rfl
  · rw [groupArg, h1, if_neg h2]

theorem JobInv.terminal_loop (hI : JobInv shell s) (h : s.pc ≠ .idle) (hw : s.pc ≠ .waiting) :
    s.terminal = if s.background = true ∨ s.currPgId = 0 then shell else s.first := by
  rw [hI.terminal]
  simp only [h, hw, false_or, ne_eq, not_false_eq_true, true_and]

/-- `curr_pg_id` is `0` until the first child is adopted. -/
theorem JobInv.zero_iff (hI : JobInv shell s) (h : s.pc ≠ .idle) (hw : s.pc ≠ .waiting) :
    s.currPgId = 0 ↔ s.i = 0 ∧ s.pc ≠ .adopted := by
  rcases hI.curr h hw with ⟨hi, hpc, h0, -⟩ | ⟨hi, h1, h2, -⟩
  · exact ⟨fun _ => ⟨hi, hpc⟩, fun _ => h0⟩
  · refine ⟨fun h0 => absurd (h1.symm.trans h0) h2, fun ⟨hi', hpc⟩ => ?_⟩
    rcases hi with hi | hi
    · omega
    · exact absurd hi hpc

/-- A step from one place of the loop to the next, with `curr_pg_id` as it is. -/
theorem JobInv.next {p : JobPc} {i : ℕ} (hI : JobInv shell s) (h : s.pc ≠ .idle) (hw : s.pc ≠ .waiting)
    (hpc : p ≠ .idle) (hpw : p ≠ .waiting) (hturn : p.inTurn = true → s.pc.inTurn = true)
    (hzero : s.currPgId = 0 ↔ i = 0 ∧ p ≠ .adopted)
    (hgrouped : p = .grouped → s.currPgId = 0 → (s.procs s.childPid).pgid = s.childPid) :
    JobInv shell { s with pc := p, i := i } := by
  refine hI.moved rfl rfl rfl hturn (fun _ _ => ?_) hgrouped ?_ (fun h => absurd h hpw) fun _ => hI.pos h
  · rcases hI.curr h hw with ⟨-, -, h0, hf⟩ | ⟨-, h1, h2, h3⟩
    · exact .inl ⟨(hzero.1 h0).1, (hzero.1 h0).2, h0, fun hpt => hf (hturn hpt)⟩
    · refine .inr ⟨?_, h1, h2, h3⟩
      by_contra hnot
      rw [not_or, Nat.not_lt, Nat.le_zero] at hnot
      exact h2 (h1.symm.trans (hzero.2 hnot))
  · show s.terminal = _
    rw [hI.terminal_loop h hw]
    simp only [hpc, hpw, false_or, ne_eq, not_false_eq_true, true_and]

/-- After the shell's `setpgid`, with the first child in its group. -/
theorem JobInv.toGrouped (hI : JobInv shell s) (h : s.pc = .forked)
    (hg : s.currPgId = 0 → (s.procs s.childPid).pgid = s.childPid) :
    JobInv shell { s with pc := .grouped } := by
  have hi : s.pc ≠ .idle := by rw [h]; nofun
  have hw : s.pc ≠ .waiting := by rw [h]; nofun
  refine hI.next (p := .grouped) (i := s.i) hi hw nofun nofun (fun _ => by rw [h]; rfl) ?_ fun _ => hg
  rw [hI.zero_iff hi hw, h]
  exact and_congr_right fun _ => iff_of_true nofun nofun

/-- The first child is adopted, and the terminal is given to it or not. -/
theorem JobInv.adopted {z : ℕ} (hI : JobInv shell s) (h : s.pc = .grouped) (hc : s.currPgId = 0)
    (hz : z = if s.background = true then shell else s.childPid) :
    JobInv shell { s with pc := .adopted, currPgId := s.childPid, terminal := z } := by
  have hturn : s.pc.inTurn = true := by rw [h]; rfl
  obtain ⟨hlive, hchild⟩ := hI.child hturn
  have hfirst : s.first = s.childPid := by
    rcases hI.curr (by rw [h]; nofun) (by rw [h]; nofun) with ⟨-, -, -, hf⟩ | ⟨-, h1, h2, -⟩
    · exact hf hturn
    · exact absurd (h1.symm.trans hc) h2
  have hf := hI.first _ hlive
  rw [hchild, hfirst] at hf
  refine hI.moved rfl rfl rfl (fun _ => hturn) (fun _ _ => .inr ⟨.inr rfl, hfirst.symm, ?_, ?_⟩) nofun ?_
    nofun fun _ => hI.pos (by rw [h]; nofun)
  · show s.first ≠ 0
    rw [hfirst]; exact hf.1
  · show s.first ≠ shell
    rw [hfirst]; exact hf.2
  · show z = if JobPc.adopted = .idle ∨ s.background = true ∨
      (JobPc.adopted ≠ .waiting ∧ s.childPid = 0) then shell else s.first
    rw [hz, hfirst]
    simp only [reduceCtorEq, false_or, hf.1, and_false, or_false]

/-- The first child is in its group when the shell gives it the terminal. -/
theorem JobInv.member_child (hI : JobInv shell s) (h : s.pc = .grouped) (hc : s.currPgId = 0) :
    s.Member s.childPid :=
  ⟨s.childPid, (hI.child (by rw [h]; rfl)).1, hI.grouped h hc⟩

/-- **Every step keeps the invariant.** -/
theorem jobInv_step (hI : JobInv shell s) (h : JobStep shell s e t) : JobInv shell t := by
  cases h with
  | call n bg h hn =>
    refine hI.moved rfl rfl rfl nofun (fun _ _ => .inl ⟨rfl, nofun, rfl, nofun⟩) nofun ?_ nofun
      fun _ => hn
    have hterm := hI.terminal
    rw [if_pos (.inl h)] at hterm
    show s.terminal = _
    rw [hterm, if_pos (.inr (.inr ⟨nofun, rfl⟩))]
  | fork p h hi hp hs hfree hgroup => exact hI.forked h hp hs
  | group h hexec hg =>
    have hchild := (hI.child (by rw [h]; rfl)).1
    have hset : JobInv shell (s.setProc s.childPid
        { s.procs s.childPid with pgid := groupArg s.childPid s.currPgId }) :=
      hI.setProc hchild rfl rfl (.inl (hI.groupArg_child h)) (hI.running _) fun _ => hchild
    refine hset.toGrouped h fun h0 => ?_
    show ((s.setProc _ _).procs s.childPid).pgid = s.childPid
    rw [setProc_self]
    show groupArg s.childPid s.currPgId = s.childPid
    rw [show s.currPgId = 0 from h0]; rfl
  | group_fails h hg =>
    refine hI.toGrouped h fun h0 => ?_
    -- the first child may always have a group of its own, unless it has called `execvp`
    have hexec : (s.procs s.childPid).execed = true :=
      hg.resolve_right fun hno => hno (.inl (by rw [h0]; rfl))
    have harg := hI.groupArg_child h
    rw [h0] at harg
    rcases hI.pgid _ (hI.child (by rw [h]; rfl)).1 with hp | ⟨-, hno, -⟩
    · exact hp.trans harg.symm
    · rw [hexec] at hno; cases hno
  | adopt h hc =>
    refine hI.next (p := .adopted) (i := s.i) (by rw [h]; nofun) (by rw [h]; nofun) nofun nofun
      (fun _ => by rw [h]; rfl) (iff_of_false hc fun hno => hno.2 rfl) nofun
  | adopt_background h hc hb =>
    have hterm := hI.terminal_loop (by rw [h]; nofun) (by rw [h]; nofun)
    rw [if_pos (.inl hb)] at hterm
    exact hI.adopted h hc (by rw [hterm, if_pos hb])
  | adopt_terminal h hc hb hm => exact hI.adopted h hc (by rw [hb]; rfl)
  | adopt_fails h hc hb hm => exact absurd (hI.member_child h hc) hm
  | next h =>
    have hi : s.pc ≠ .idle := by rw [h]; nofun
    have hw : s.pc ≠ .waiting := by rw [h]; nofun
    refine hI.next (p := .head) (i := s.i + 1) hi hw nofun nofun nofun ?_ nofun
    rw [hI.zero_iff hi hw, h]
    exact iff_of_false (fun hno => hno.2 rfl) fun hno => Nat.succ_ne_zero _ hno.1
  | started h hi hb =>
    have hterm := hI.terminal_loop (by rw [h]; nofun) (by rw [h]; nofun)
    rw [if_pos (.inl hb)] at hterm
    exact hI.moved rfl rfl rfl nofun (fun hno => absurd rfl hno) nofun
      (hterm.trans (if_pos (.inl rfl)).symm) nofun fun hno => absurd rfl hno
  | wait h hi hb =>
    have hidle : s.pc ≠ .idle := by rw [h]; nofun
    have hw : s.pc ≠ .waiting := by rw [h]; nofun
    have hpos := hI.pos hidle
    -- the pipeline has a first child, which has the terminal
    have hc : ¬ (s.background = true ∨ s.currPgId = 0) := by
      rw [hI.zero_iff hidle hw, hb]
      rintro (h' | ⟨h', -⟩)
      · cases h'
      · omega
    have hterm := hI.terminal_loop hidle hw
    rw [if_neg hc] at hterm
    refine hI.moved rfl rfl rfl nofun (fun _ hno => absurd rfl hno) nofun ?_ (fun _ => hb) fun _ => hpos
    show s.terminal = if JobPc.waiting = .idle ∨ s.background = true ∨
      (JobPc.waiting ≠ .waiting ∧ s.currPgId = 0) then shell else s.first
    rw [hterm, hb]; rfl
  | leave h =>
    exact hI.moved rfl rfl rfl nofun (fun hno => absurd rfl hno) nofun (if_pos (.inl rfl)).symm nofun
      fun hno => absurd rfl hno
  | setpgid p h hg =>
    refine hI.setProc (by rw [h]; nofun) rfl rfl (.inl ?_) nofun fun _ => nofun
    exact hI.arg p (by rw [h]; nofun)
  | setpgid_fails p h hg =>
    exact hI.setProc (by rw [h]; nofun) rfl rfl (.inr ⟨rfl, nofun, id⟩) nofun fun _ => nofun
  | exec p h =>
    refine hI.setProc (by rw [h]; nofun) rfl rfl (.inl ?_) (fun _ => rfl) fun _ => nofun
    rcases hI.pgid p (by rw [h]; nofun) with h' | ⟨-, -, h'⟩
    · exact h'
    · exact absurd h h'
  | exit p h hz => exact hI.setProc h rfl rfl (.inr ⟨rfl, nofun, id⟩) nofun fun _ => nofun
  | collect p h hb =>
    refine hI.setProc (by rw [h]; nofun) rfl rfl (.inr ⟨rfl, nofun, id⟩) nofun fun hturn => ?_
    rcases hb with hb | hb | hb <;> rw [hb] at hturn <;> cases hturn

/-- **Every program starts in the group of its pipeline**, whichever of the two calls of `setpgid` came
first. In `main` the terminal belongs to the shell, and from the first turn of the loop to the end of
the wait to the pipeline, if that is not in the background. -/
theorem exec_in_group (h : Reaches (JobStep shell) (.init shell) s) :
    (∀ p, (s.procs p).stage = .joined ∨ (s.procs p).stage = .running →
      (s.procs p).pgid = (s.procs p).first) ∧
    (s.pc = .idle → s.terminal = shell) ∧
    (s.pc = .head → 0 < s.i → s.terminal = if s.background then shell else s.first) ∧
    (s.pc = .waiting → s.terminal = s.first) := by
  have hI := reaches_inv (I := JobInv shell) (fun _ _ _ hI hst => jobInv_step hI hst) (jobInv_init shell) h
  refine ⟨fun p hp => ?_, fun hpc => ?_, fun hpc hi => ?_, fun hpc => ?_⟩
  · have hlive : (s.procs p).stage ≠ .none := by rcases hp with hp | hp <;> rw [hp] <;> nofun
    rcases hI.pgid p hlive with hg | ⟨-, hexec, hj⟩
    · exact hg
    · rcases hp with hp | hp
      · exact absurd hp hj
      · rw [hI.running p hp] at hexec; cases hexec
  · rw [hI.terminal, if_pos (.inl hpc)]
  · have hidle : s.pc ≠ .idle := by rw [hpc]; nofun
    have hw : s.pc ≠ .waiting := by rw [hpc]; nofun
    have h0 : s.currPgId ≠ 0 := by
      rw [Ne, hI.zero_iff hidle hw]
      exact fun hno => absurd hno.1 (by omega)
    rw [hI.terminal_loop hidle hw]
    simp only [h0, or_false]
  · rw [hI.terminal, if_neg]
    simp only [hpc, hI.waiting hpc, reduceCtorEq, Bool.false_eq_true, ne_eq, not_true_eq_false, false_and,
      or_self, not_false_eq_true]

/-! ## Groups that go -/

/-- A command that is still to be started, or has not called `setpgid` yet, is to join the group. -/
def Jobs.Needs (s : Jobs) (g : ℕ) : Prop :=
  (s.pc = .head ∧ 0 < s.i ∧ s.i < s.numPipedCmds ∧ s.currPgId = g) ∨
    ∃ q, (s.procs q).stage = .forked ∧ (s.procs q).currPgId = g

/-- `manage_child` does not collect the last member of a group that is still needed. -/
def KeepsGroup (s : Jobs) : JobEvent → Prop
  | .collect p => s.Needs (s.procs p).pgid →
      ∃ q, q ≠ p ∧ (s.procs q).stage ≠ .none ∧ (s.procs q).pgid = (s.procs p).pgid
  | _ => True

theorem member_setProc {x : Proc} (hm : s.Member g) (hx : (s.procs p).pgid = g → x.pgid = g)
    (hlive : x.stage ≠ .none) : (s.setProc p x).Member g := by
  obtain ⟨q, hq, hg⟩ := hm
  refine ⟨q, ?_⟩
  by_cases hqp : q = p
  · subst hqp
    rw [setProc_self]
    exact ⟨hlive, hx hg⟩
  · rw [setProc_ne s x hqp]
    exact ⟨hq, hg⟩

/-- A process in a group other than the shell's is in that of its pipeline. -/
theorem JobInv.first_of_pgid (hI : JobInv shell s) (hg : g ≠ shell) (hp : (s.procs p).stage ≠ .none)
    (h : (s.procs p).pgid = g) : (s.procs p).first = g := by
  rcases hI.pgid p hp with h' | ⟨h', -⟩
  · exact h'.symm.trans h
  · exact absurd (h.symm.trans h') hg

/-- **A group stays**, unless its last member is collected. -/
theorem member_step (hI : JobInv shell s) (hg : g ≠ shell) (hm : s.Member g) (h : JobStep shell s e t)
    (hkeep : ∀ p, e = .collect p → (s.procs p).pgid = g →
      ∃ q, q ≠ p ∧ (s.procs q).stage ≠ .none ∧ (s.procs q).pgid = g) : t.Member g := by
  cases h with
  | fork p h hi hp hs hfree hgroup =>
    obtain ⟨q, hq, hqg⟩ := hm
    have hqp : q ≠ p := by rintro rfl; exact hq hfree
    refine ⟨q, ?_⟩
    rw [fork_ne s shell hqp]
    exact ⟨hq, hqg⟩
  | group h hexec ha =>
    have hchild := (hI.child (by rw [h]; rfl)).1
    exact member_setProc hm (fun hp => (hI.groupArg_child h).trans (hI.first_of_pgid hg hchild hp)) hchild
  | setpgid p h ha =>
    have hlive : (s.procs p).stage ≠ .none := by rw [h]; nofun
    exact member_setProc hm (fun hp => (hI.arg p hlive).trans (hI.first_of_pgid hg hlive hp)) nofun
  | setpgid_fails p h ha => exact member_setProc hm id nofun
  | exec p h => exact member_setProc hm id nofun
  | exit p h hz => exact member_setProc hm id nofun
  | collect p h hb =>
    obtain ⟨q, hqp, hq, hqg⟩ : ∃ q, q ≠ p ∧ (s.procs q).stage ≠ .none ∧ (s.procs q).pgid = g := by
      obtain ⟨q, hq, hqg⟩ := hm
      by_cases hqp : q = p
      · exact hkeep p rfl (hqp ▸ hqg)
      · exact ⟨q, hqp, hq, hqg⟩
    refine ⟨q, ?_⟩
    rw [setProc_ne s _ hqp]
    exact ⟨hq, hqg⟩
  | _ => exact hm

/-- The groups that are needed exist. -/
structure GroupKept (s : Jobs) : Prop where
  head : s.pc = .head → 0 < s.i → s.i < s.numPipedCmds → s.Member s.currPgId
  turn : s.pc.inTurn = true → s.currPgId ≠ 0 → s.Member s.currPgId
  forked : ∀ q, (s.procs q).stage = .forked → (s.procs q).currPgId ≠ 0 →
    s.Member (s.procs q).currPgId

theorem groupKept_init (shell : ℕ) : GroupKept (.init shell) where
  head h := by cases h
  turn h := by cases h
  forked _ h := by cases h

theorem JobInv.curr_ne_shell (hI : JobInv shell s) (h : s.pc ≠ .idle) (hw : s.pc ≠ .waiting)
    (h0 : s.currPgId ≠ 0) : s.currPgId ≠ shell := by
  rcases hI.curr h hw with ⟨-, -, h1, -⟩ | ⟨-, h1, -, h2⟩
  · exact absurd h1 h0
  · rw [h1]; exact h2

theorem JobInv.copy_ne_shell (hI : JobInv shell s) (h : (s.procs p).stage ≠ .none)
    (h0 : (s.procs p).currPgId ≠ 0) : (s.procs p).currPgId ≠ shell := by
  have harg := hI.arg p h
  rw [groupArg, if_neg h0] at harg
  rw [harg]; exact (hI.first p h).2

/-- A child that moves on. -/
theorem GroupKept.setProc {x : Proc} (hK : GroupKept s) (hI : JobInv shell s)
    (hx : x.stage = .forked → (s.procs p).stage = .forked ∧ x.currPgId = (s.procs p).currPgId)
    (hstay : ∀ g, g ≠ shell → s.Needs g ∨ s.pc.inTurn = true → s.Member g → (s.setProc p x).Member g) :
    GroupKept (s.setProc p x) where
  head hpc hi hn := by
    have hidle : s.pc ≠ .idle := by rw [show s.pc = .head from hpc]; nofun
    have hw : s.pc ≠ .waiting := by rw [show s.pc = .head from hpc]; nofun
    have h0 : s.currPgId ≠ 0 := by
      rw [Ne, hI.zero_iff hidle hw]
      exact fun hno => absurd hno.1 (Nat.pos_iff_ne_zero.1 hi)
    exact hstay _ (hI.curr_ne_shell hidle hw h0) (.inl (.inl ⟨hpc, hi, hn, rfl⟩)) (hK.head hpc hi hn)
  turn hturn h0 := by
    have hidle : s.pc ≠ .idle := by
      rintro hno; rw [show (s.setProc p x).pc = .idle from hno] at hturn; cases hturn
    have hw : s.pc ≠ .waiting := by
      rintro hno; rw [show (s.setProc p x).pc = .waiting from hno] at hturn; cases hturn
    exact hstay _ (hI.curr_ne_shell hidle hw h0) (.inr hturn) (hK.turn hturn h0)
  forked q hq h0 := by
    have hold : (s.procs q).stage = .forked ∧
        ((s.setProc p x).procs q).currPgId = (s.procs q).currPgId := by
      by_cases hqp : q = p
      · subst hqp
        rw [setProc_self] at hq ⊢
        exact hx hq
      · rw [setProc_ne s x hqp] at hq ⊢
        exact ⟨hq, rfl⟩
    rw [hold.2] at h0 ⊢
    exact hstay _ (hI.copy_ne_shell (by rw [hold.1]; nofun) h0) (.inl (.inr ⟨q, hold.1, rfl⟩))
      (hK.forked q hold.1 h0)

/-- A step of the shell in the loop that changes no process. -/
theorem GroupKept.moved (hK : GroupKept s) (hp : t.procs = s.procs)
    (hhead : t.pc = .head → 0 < t.i → t.i < t.numPipedCmds → s.Member t.currPgId)
    (hturn : t.pc.inTurn = true → t.currPgId ≠ 0 → s.Member t.currPgId) : GroupKept t := by
  have hmem : ∀ g, t.Member g ↔ s.Member g := fun g => by unfold Jobs.Member; rw [hp]
  refine ⟨fun h1 h2 h3 => (hmem _).2 (hhead h1 h2 h3), fun h1 h2 => (hmem _).2 (hturn h1 h2), ?_⟩
  rw [hp]
  exact fun q hq h0 => (hmem _).2 (hK.forked q hq h0)

theorem groupKept_step (hI : JobInv shell s) (hK : GroupKept s) (hC : KeepsGroup s e)
    (h : JobStep shell s e t) : GroupKept t := by
  -- a group that is needed stays
  have hstay : ∀ g, g ≠ shell → s.Needs g ∨ s.pc.inTurn = true → s.Member g → t.Member g := by
    intro g hg hn hm
    refine member_step hI hg hm h ?_
    rintro p rfl rfl
    rcases hn with hn | hturn
    · exact hC hn
    · cases h with
      | collect _ _ hb => rcases hb with hb | hb | hb <;> rw [hb] at hturn <;> cases hturn
  cases h with
  | call n bg h hn => exact hK.moved rfl (fun _ h0 => absurd h0 (Nat.lt_irrefl 0)) nofun
  | fork p h hi hp hs hfree hgroup =>
    have hidle : s.pc ≠ .idle := by rw [h]; nofun
    have hw : s.pc ≠ .waiting := by rw [h]; nofun
    have hcurr : s.currPgId ≠ 0 → (s.fork shell p).Member s.currPgId := by
      intro h0
      have hpos : 0 < s.i := by
        by_contra hno
        exact h0 ((hI.zero_iff hidle hw).2 ⟨by omega, by rw [h]; nofun⟩)
      exact hstay _ (hI.curr_ne_shell hidle hw h0) (.inl (.inl ⟨h, hpos, hi, rfl⟩)) (hK.head h hpos hi)
    refine ⟨nofun, fun _ h0 => hcurr h0, fun q hq h0 => ?_⟩
    by_cases hqp : q = p
    · subst hqp
      rw [fork_self] at h0 ⊢
      exact hcurr h0
    · rw [fork_ne s shell hqp] at hq h0 ⊢
      exact hstay _ (hI.copy_ne_shell (by rw [hq]; nofun) h0) (.inl (.inr ⟨q, hq, rfl⟩))
        (hK.forked q hq h0)
  | group h hexec hg =>
    have hset := hK.setProc hI (p := s.childPid)
      (x := { s.procs s.childPid with pgid := groupArg s.childPid s.currPgId }) (fun hx => ⟨hx, rfl⟩) hstay
    exact hset.moved rfl nofun fun _ h0 => hset.turn (by show s.pc.inTurn = true; rw [h]; rfl) h0
  | group_fails h hg => exact hK.moved rfl nofun fun _ h0 => hK.turn (by rw [h]; rfl) h0
  | adopt h hc => exact hK.moved rfl nofun fun _ h0 => hK.turn (by rw [h]; rfl) h0
  | adopt_background h hc hb => exact hK.moved rfl nofun fun _ _ => hI.member_child h hc
  | adopt_terminal h hc hb hm => exact hK.moved rfl nofun fun _ _ => hm
  | adopt_fails h hc hb hm => exact absurd (hI.member_child h hc) hm
  | next h =>
    refine hK.moved rfl (fun _ _ _ => hK.turn (by rw [h]; rfl) ?_) nofun
    rw [Ne, hI.zero_iff (by rw [h]; nofun) (by rw [h]; nofun)]
    exact fun hno => hno.2 h
  | started h hi hb => exact hK.moved rfl nofun nofun
  | wait h hi hb => exact hK.moved rfl nofun nofun
  | leave h => exact hK.moved rfl nofun nofun
  | setpgid p h hg => exact hK.setProc hI nofun hstay
  | setpgid_fails p h hg => exact hK.setProc hI nofun hstay
  | exec p h => exact hK.setProc hI nofun hstay
  | exit p h hz => exact hK.setProc hI nofun hstay
  | collect p h hb => exact hK.setProc hI nofun hstay

/-- **No command fails in `setpgid`** in a run in which `manage_child` never collects the last member of
a group that another command is still to join. -/
theorem commands_start (h : Reaches (Guarded KeepsGroup (JobStep shell)) (.init shell) s)
    (hp : (s.procs p).stage = .forked) : s.Allows p (s.procs p).currPgId := by
  obtain ⟨-, hK⟩ := reaches_inv (I := fun s => JobInv shell s ∧ GroupKept s)
    (fun _ _ _ hs hst => ⟨jobInv_step hs.1 hst.2, groupKept_step hs.1 hs.2 hst.1 hst.2⟩)
    ⟨jobInv_init shell, groupKept_init shell⟩ h
  by_cases h0 : (s.procs p).currPgId = 0
  · exact .inl (by rw [h0]; rfl)
  · refine .inr ?_
    rw [groupArg, if_neg h0]
    exact hK.forked p hp h0

theorem snoc_keeps {s₀ : Jobs} (h : Reaches (Guarded KeepsGroup (JobStep shell)) s₀ s)
    (hst : JobStep shell s e t) (hC : KeepsGroup s e) :
    Reaches (Guarded KeepsGroup (JobStep shell)) s₀ t := h.snoc ⟨hC, hst⟩

/-- The first of two commands, `5`, has terminated, and the shell is about to start the second one. -/
theorem before_second : ∃ s, Reaches (Guarded KeepsGroup (JobStep 1)) (.init 1) s ∧ s.pc = .head ∧
    s.i = 1 ∧ s.numPipedCmds = 2 ∧ s.currPgId = 5 ∧ s.first = 5 ∧
    s.procs = Function.update (Jobs.init 1).procs 5 ⟨.zombie, true, 5, 0, 5⟩ := by
  have h₀ : Reaches (Guarded KeepsGroup (JobStep 1)) (.init 1) (.init 1) := .refl _
  have h₁ := snoc_keeps h₀ (.call 2 false rfl (by decide)) trivial
  have h₂ := snoc_keeps h₁ (.fork 5 rfl (by decide) (by decide) (by decide) rfl fun ⟨_, h, _⟩ => h rfl)
    trivial
  have h₃ := snoc_keeps h₂ (.setpgid 5 rfl (.inl rfl)) trivial
  have h₄ := snoc_keeps h₃ (.exec 5 rfl) trivial
  have h₅ := snoc_keeps h₄ (.group_fails rfl (.inl rfl)) trivial
  have h₆ := snoc_keeps h₅ (.adopt_terminal rfl rfl rfl ⟨5, nofun, rfl⟩) trivial
  have h₇ := snoc_keeps h₆ (.next rfl) trivial
  have h₈ := snoc_keeps h₇ (.exit 5 nofun nofun) trivial
  refine ⟨_, h₈, rfl, rfl, rfl, rfl, rfl, ?_⟩
  simp only [Jobs.setProc, Jobs.fork, Function.update_idem, Function.update_self]
  rfl

/-- A process id that no process and no group has. -/
theorem fresh_six (h : s.procs = Function.update (Jobs.init 1).procs 5 ⟨.zombie, true, 5, 0, 5⟩) :
    (s.procs 6).stage = .none ∧ ¬ s.Member 6 := by
  rw [h]
  refine ⟨rfl, ?_⟩
  rintro ⟨q, hq, hg⟩
  rw [h, Function.update_apply] at hq hg
  split_ifs at hq hg with h5
  · cases hg
  · exact hq rfl

theorem exec_in_group_first : ∃ s, Reaches (JobStep 1) (.init 1) s ∧ s.pc = .head ∧ s.i = 1 ∧
    s.terminal = if s.background then 1 else 5 := by
  obtain ⟨s, hr, hpc, hi, -, -, hf, -⟩ := before_second
  refine ⟨s, hr.of_guarded, hpc, hi, ?_⟩
  rw [← hf]
  exact (exec_in_group hr.of_guarded).2.2.1 hpc (by omega)

/-- The second command joins the group of the first one, which is not collected yet. -/
theorem commands_start_second : ∃ s, Reaches (Guarded KeepsGroup (JobStep 1)) (.init 1) s ∧
    (s.procs 6).stage = .forked ∧ s.Allows 6 (s.procs 6).currPgId := by
  obtain ⟨s, hr, hpc, hi, hn, -, -, hprocs⟩ := before_second
  obtain ⟨hfree, hgroup⟩ := fresh_six hprocs
  have hr' := snoc_keeps hr (.fork 6 hpc (by omega) (by decide) (by decide) hfree hgroup) trivial
  have hforked : ((s.fork 1 6).procs 6).stage = .forked := by rw [fork_self]
  exact ⟨_, hr', hforked, commands_start hr' hforked⟩

/-- **A command that is not started**: the first one is collected before the second one is forked, whose
`setpgid` then finds no group. -/
theorem group_vanishes : ∃ s, Reaches (JobStep 1) (.init 1) s ∧ (s.procs 6).stage = .forked ∧
    ¬ s.Allows 6 (s.procs 6).currPgId := by
  obtain ⟨s, hr, hpc, hi, hn, hcurr, -, hprocs⟩ := before_second
  have hr₁ := hr.of_guarded.snoc (.collect 5 (by rw [hprocs]; rfl) (.inr (.inl hpc)))
  have hnone : ∀ q, ((s.setProc 5 { s.procs 5 with stage := .none }).procs q).stage = .none := by
    intro q
    by_cases hq : q = 5
    · rw [hq, setProc_self]
    · rw [setProc_ne s _ hq, hprocs, Function.update_of_ne hq]; rfl
  have hr₂ := hr₁.snoc (.fork 6 hpc (show s.i < s.numPipedCmds by omega) (by decide) (by decide)
    (hnone 6) fun ⟨q, hq, _⟩ => hq (hnone q))
  refine ⟨_, hr₂, by rw [fork_self], ?_⟩
  rw [fork_self]
  show ¬ Jobs.Allows _ 6 s.currPgId
  rw [hcurr]
  rintro (h | ⟨q, hq, hg⟩)
  · exact absurd h (by decide)
  · by_cases h6 : q = 6
    · subst h6
      rw [fork_self] at hg
      exact absurd (show 1 = groupArg 6 5 from hg) (by decide)
    · rw [fork_ne _ 1 h6] at hq
      exact hq (hnone q)

end OsLab.Shell
