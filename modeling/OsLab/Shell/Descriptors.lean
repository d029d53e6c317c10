import OsLab.Shell.Model
import Mathlib.Logic.Function.Basic

/-!
# The descriptors of a pipeline (`handle_process`, `handle_io_redirect`)

`handle_process` opens the redirections and the pipes of a pipeline in the shell itself, and each
child inherits what is open when it is forked. The shell closes the writing end of each pipe after
the fork, and nothing else.

* `startAll_open`: what is open after some commands have been started.
* `noLeak_iff`: the pipelines that leave no descriptor behind.
* `pipe_leaks`: two commands, whose pipe stays open for reading.
-/

namespace OsLab.Shell

/-- What a descriptor stands for, and the command it was opened for. -/
inductive File where
  /-- open before the call of `handle_process` -/
  | before
  | input (i : ℕ)
  | output (i : ℕ)
  | readEnd (i : ℕ)
  | writeEnd (i : ℕ)
  deriving DecidableEq

/-- The open descriptors of a process. -/
abbrev FdTable := ℕ → Option File

/-- The descriptors that `open` and `pipe` return for the commands. -/
structure Kernel where
  inputFd : ℕ → ℕ
  outputFd : ℕ → ℕ
  readFd : ℕ → ℕ
  writeFd : ℕ → ℕ

/-- A new descriptor `fd`, which is not in use. -/
def openFd (t : FdTable) (fd : ℕ) (f : File) : Option FdTable :=
  if t fd = none then some (Function.update t fd (some f)) else none

/-- `close`. -/
def closeFd (t : FdTable) (fd : ℕ) : FdTable := Function.update t fd none

/-- `dup2`. -/
def dup2 (t : FdTable) (oldFd newFd : ℕ) : FdTable := Function.update t newFd (t oldFd)

/-- `handle_io_redirect`, for command `i`: the input file. -/
def redirectIn (k : Kernel) (i : ℕ) (c : Cmd) (t : FdTable) : Option (Cmd × FdTable) :=
  if c.inRedirect then
    (openFd t (k.inputFd i) (.input i)).map fun t => ({ c with inFd := k.inputFd i }, t)
  else some (c, t)

/-- The output file. -/
def redirectOut (k : Kernel) (i : ℕ) (c : Cmd) (t : FdTable) : Option (Cmd × FdTable) :=
  if c.outRedirect then
    (openFd t (k.outputFd i) (.output i)).map fun t => ({ c with outFd := k.outputFd i }, t)
  else some (c, t)

/-- `handle_io_redirect`. -/
def handleIoRedirect (k : Kernel) (i : ℕ) (c : Cmd) (t : FdTable) : Option (Cmd × FdTable) :=
  (redirectIn k i c t).bind fun x => redirectOut k i x.1 x.2

/-- The descriptors of the child when it calls `execvp`. -/
def childTable (c : Cmd) (t : FdTable) : FdTable :=
  let t := if c.inFd ≠ 0 then closeFd (dup2 t c.inFd 0) c.inFd else t
  if c.outFd ≠ 1 then closeFd (dup2 t c.outFd 1) c.outFd else t

/-- The descriptors of the shell, `pipefd[0]`, and the descriptors of the children at `execvp`. -/
structure Launch where
  table : FdTable
  pipeRead : ℕ
  children : List FdTable

/-- One turn of the loop of `handle_process`, for command `i` of `n`. -/
def startCmd (k : Kernel) (n i : ℕ) (c : Cmd) (s : Launch) : Option Launch := do
  let x ← handleIoRedirect k i { c with inFd := 0, outFd := 1 } s.table
  let c := if 0 < i then { x.1 with inFd := s.pipeRead } else x.1
  if i + 1 < n then do
    let t ← openFd x.2 (k.readFd i) (.readEnd i)
    let t ← openFd t (k.writeFd i) (.writeEnd i)
    let c := { c with outFd := k.writeFd i }
    some ⟨closeFd t c.outFd, k.readFd i, s.children ++ [childTable c t]⟩
  else some ⟨x.2, s.pipeRead, s.children ++ [childTable c x.2]⟩

/-- The commands from `i` on. -/
def startAll (k : Kernel) (n : ℕ) : ℕ → List Cmd → Launch → Option Launch
  | _, [], s => some s
  | i, c :: cs, s => (startCmd k n i c s).bind (startAll k n (i + 1) cs)

/-- `handle_process`, with `entry` open. -/
def handleProcess (k : Kernel) (cmds : List Cmd) (entry : ℕ → Bool) : Option Launch :=
  startAll k cmds.length 0 cmds ⟨fun fd => if entry fd then some .before else none, 0, []⟩

/-- Each child holds nothing of the pipeline but its standard input and output, the reading end of
a pipe is held by its reader alone, and the shell has open what it had. -/
structure NoLeak (entry : ℕ → Bool) (l : Launch) : Prop where
  child : ∀ t ∈ l.children, ∀ fd f, t fd = some f → f ≠ .before → fd = 0 ∨ fd = 1
  reader : ∀ j t, l.children[j]? = some t → ∀ fd i, t fd = some (.readEnd i) → j = i + 1
  shell : ∀ fd, l.table fd ≠ none ↔ entry fd = true

/-! ## What stays open -/

/-- `t'` has the descriptors of `t` open, and those of `P`, which were free. -/
structure Opened (t t' : FdTable) (P : ℕ → Prop) : Prop where
  iff : ∀ fd, t' fd ≠ none ↔ t fd ≠ none ∨ P fd
  free : ∀ fd, P fd → t fd = none

variable {k : Kernel} {n i fd : ℕ} {c c' : Cmd} {cs : List Cmd} {s s' : Launch} {t t' u : FdTable}
  {f : File} {P Q : ℕ → Prop}

theorem Opened.refl (t : FdTable) : Opened t t fun _ => False where
  iff _ := (or_false _).symm.to_iff
  free _ h := h.elim

theorem Opened.trans (h : Opened t t' P) (h' : Opened t' u Q) : Opened t u fun fd => P fd ∨ Q fd where
  iff fd := by rw [h'.iff, h.iff, or_assoc]
  free fd hfd := by
    rcases hfd with hP | hQ
    · exact h.free fd hP
    · -- what is free in `t'` is free in `t`
      by_contra hne
      exact (h.iff fd).2 (.inl hne) (h'.free fd hQ)

theorem Opened.congr (h : Opened t t' P) (hPQ : ∀ fd, P fd ↔ Q fd) : Opened t t' Q where
  iff fd := by rw [h.iff, hPQ]
  free fd hQ := h.free fd ((hPQ fd).2 hQ)

theorem openFd_some (h : openFd t fd f = some t') :
    t fd = none ∧ t' = Function.update t fd (some f) := by
  unfold openFd at h
  split_ifs at h with hfree
  cases h
  exact ⟨hfree, rfl⟩

theorem openFd_opened (h : openFd t fd f = some t') : Opened t t' (· = fd) := by
  obtain ⟨hfree, rfl⟩ := openFd_some h
  refine ⟨?_, fun _ heq => heq ▸ hfree⟩
  intro x
  by_cases hx : x = fd
  · subst hx
    simp
  · simp [hx]

/-- A descriptor that is opened and closed again. -/
theorem closeFd_opened (h : openFd t fd f = some t') : Opened t (closeFd t' fd) fun _ => False := by
  obtain ⟨hfree, rfl⟩ := openFd_some h
  have heq : closeFd (Function.update t fd (some f)) fd = t := by
    unfold closeFd
    rw [Function.update_idem, ← hfree, Function.update_eq_self]
  rw [heq]
  exact Opened.refl t

theorem redirectIn_opened (h : redirectIn k i c t = some (c', t')) :
    Opened t t' (fun fd => c.inRedirect = true ∧ fd = k.inputFd i) ∧
      c'.outRedirect = c.outRedirect := by
  unfold redirectIn at h
  split_ifs at h with hin
  · obtain ⟨t₁, ht, heq⟩ := Option.map_eq_some_iff.1 h
    cases heq
    exact ⟨(openFd_opened ht).congr fun fd => by simp [hin], rfl⟩
  · cases h
    exact ⟨(Opened.refl t).congr fun fd => by simp [hin], rfl⟩

theorem redirectOut_opened (h : redirectOut k i c t = some (c', t')) :
    Opened t t' fun fd => c.outRedirect = true ∧ fd = k.outputFd i := by
  unfold redirectOut at h
  split_ifs at h with hout
  · obtain ⟨t₁, ht, heq⟩ := Option.map_eq_some_iff.1 h
    cases heq
    exact (openFd_opened ht).congr fun fd => by simp [hout]
  · cases h
    exact (Opened.refl t).congr fun fd => by simp [hout]

/-- What command `i` leaves open in the shell: its redirections, and the reading end of the pipe
to the next command. -/
def Leaves (k : Kernel) (n i : ℕ) (c : Cmd) (fd : ℕ) : Prop :=
  c.inRedirect = true ∧ fd = k.inputFd i ∨ c.outRedirect = true ∧ fd = k.outputFd i ∨
    i + 1 < n ∧ fd = k.readFd i

theorem handleIoRedirect_opened (h : handleIoRedirect k i c t = some (c', t')) :
    Opened t t' fun fd => c.inRedirect = true ∧ fd = k.inputFd i ∨
      c.outRedirect = true ∧ fd = k.outputFd i := by
  obtain ⟨⟨c₁, t₁⟩, hin, hout⟩ := Option.bind_eq_some_iff.1 h
  obtain ⟨h₁, hc⟩ := redirectIn_opened hin
  have h₂ := redirectOut_opened hout
  rw [hc] at h₂
  exact h₁.trans h₂

/-- **One command** leaves its redirections and the reading end of its pipe. -/
theorem startCmd_opened (h : startCmd k n i c s = some s') :
    Opened s.table s'.table (Leaves k n i c) := by
  unfold startCmd at h
  simp only [Option.bind_eq_bind, Option.bind_eq_some_iff] at h
  obtain ⟨⟨c₁, t₁⟩, hio, h⟩ := h
  have h₁ := handleIoRedirect_opened hio
  by_cases hn : i + 1 < n
  · rw [if_pos hn] at h
    simp only [Option.bind_eq_some_iff] at h
    obtain ⟨t₂, hread, t₃, hwrite, heq⟩ := h
    cases heq
    -- the writing end is opened and closed again
    apply ((h₁.trans (openFd_opened hread)).trans (closeFd_opened hwrite)).congr
    intro fd
    simp [Leaves, hn, or_assoc]
  · rw [if_neg hn] at h
    cases h
    apply h₁.congr
    intro fd
    simp [Leaves, hn]

/-- What the commands from `i` on leave open. -/
def LeavesAny (k : Kernel) (n i : ℕ) (cs : List Cmd) (fd : ℕ) : Prop :=
  ∃ j c, cs[j]? = some c ∧ Leaves k n (i + j) c fd

theorem leavesAny_cons (k : Kernel) (n i : ℕ) (c : Cmd) (cs : List Cmd) (fd : ℕ) :
    LeavesAny k n i (c :: cs) fd ↔ Leaves k n i c fd ∨ LeavesAny k n (i + 1) cs fd := by
  constructor
  · intro h
    obtain ⟨j, c', hj, hl⟩ := h
    cases j with
    | zero => cases hj; exact .inl hl
    | succ j => exact .inr ⟨j, c', hj, by rwa [Nat.add_assoc, Nat.add_comm 1]⟩
  · intro h
    rcases h with hl | ⟨j, c', hj, hl⟩
    · exact ⟨0, c, rfl, hl⟩
    · exact ⟨j + 1, c', hj, by rwa [Nat.add_assoc, Nat.add_comm 1] at hl⟩

/-- **The loop** leaves open what its commands leave open. -/
theorem startAll_opened (h : startAll k n i cs s = some s') :
    Opened s.table s'.table (LeavesAny k n i cs) := by
  induction cs generalizing i s with
  | nil =>
    cases h
    apply (Opened.refl _).congr
    intro fd
    simp [LeavesAny]
  | cons c cs ih =>
    obtain ⟨s₁, hc, h⟩ := Option.bind_eq_some_iff.1 h
    apply ((startCmd_opened hc).trans (ih h)).congr
    intro fd
    exact (leavesAny_cons k n i c cs fd).symm

variable {cmds : List Cmd} {entry : ℕ → Bool} {l : Launch}

/-- What is open when `handle_process` returns, and was not when it was called. -/
theorem handleProcess_opened (h : handleProcess k cmds entry = some l) :
    (∀ fd, l.table fd ≠ none ↔ entry fd = true ∨ LeavesAny k cmds.length 0 cmds fd) ∧
      ∀ fd, LeavesAny k cmds.length 0 cmds fd → entry fd = false := by
  have hopened := startAll_opened h
  constructor
  · intro fd
    rw [hopened.iff]
    simp
  · intro fd hfd
    have hfree := hopened.free fd hfd
    simpa using hfree

/-- A single command without redirections opens nothing. -/
theorem handleProcess_single (hin : c.inRedirect = false) (hout : c.outRedirect = false)
    (h : handleProcess k [c] entry = some l) :
    l.table = (fun fd => if entry fd then some .before else none) ∧ l.children = [l.table] := by
  simp only [handleProcess, startAll, startCmd, handleIoRedirect, redirectIn, redirectOut, hin, hout,
    Option.bind_eq_bind, childTable] at h
  simp at h
  subst h
  exact ⟨rfl, rfl⟩

/-- **The pipelines that leave no descriptor behind** are the single commands without
redirections. -/
theorem noLeak_iff (hne : cmds ≠ []) (h : handleProcess k cmds entry = some l) :
    NoLeak entry l ↔ ∃ c, cmds = [c] ∧ c.inRedirect = false ∧ c.outRedirect = false := by
  constructor
  · intro hclean
    obtain ⟨hopen, hfree⟩ := handleProcess_opened h
    have hnone : ∀ fd, ¬ LeavesAny k cmds.length 0 cmds fd := by
      intro fd hfd
      have hentry := (hclean.shell fd).1 ((hopen fd).2 (.inr hfd))
      rw [hfree fd hfd] at hentry
      cases hentry
    obtain ⟨c, cs, rfl⟩ := List.exists_cons_of_ne_nil hne
    -- what the first command leaves
    have hfirst : ∀ fd, ¬ Leaves k (c :: cs).length 0 c fd :=
      fun fd hfd => hnone fd ⟨0, c, rfl, hfd⟩
    refine ⟨c, ?_, ?_, ?_⟩
    · cases cs with
      | nil => rfl
      | cons c' cs => exact absurd (.inr (.inr ⟨by simp, rfl⟩)) (hfirst (k.readFd 0))
    · rw [← Bool.not_eq_true]
      exact fun hin => hfirst (k.inputFd 0) (.inl ⟨hin, rfl⟩)
    · rw [← Bool.not_eq_true]
      exact fun hout => hfirst (k.outputFd 0) (.inr (.inl ⟨hout, rfl⟩))
  · intro hsingle
    obtain ⟨c, rfl, hin, hout⟩ := hsingle
    obtain ⟨htable, hchildren⟩ := handleProcess_single hin hout h
    have hbefore : ∀ fd f, l.table fd = some f → f = .before := by
      intro fd f hf
      rw [htable] at hf
      dsimp only at hf
      split_ifs at hf
      cases hf
      rfl
    refine ⟨?_, ?_, ?_⟩
    · intro t ht fd f hf hnew
      rw [hchildren, List.mem_singleton] at ht
      subst ht
      exact absurd (hbefore fd f hf) hnew
    · intro j t ht fd i hf
      have hmem := List.mem_of_getElem? ht
      rw [hchildren, List.mem_singleton] at hmem
      subst hmem
      cases hbefore fd _ hf
    · intro fd
      rw [htable]
      simp

/-- `a | b`. -/
def twoPiped : List Cmd := [cmdInit ['a'], cmdInit ['b']]

/-- The lowest free descriptors. -/
def lowest : Kernel where
  inputFd _ := 3
  outputFd _ := 3
  readFd _ := 3
  writeFd _ := 4

/-- Standard input, output and error. -/
def standard (fd : ℕ) : Bool := fd < 3

theorem twoPiped_runs : (handleProcess lowest twoPiped standard).isSome = true := by decide

theorem noLeak_twoPiped : ∃ l, handleProcess lowest twoPiped standard = some l ∧
    (NoLeak standard l ↔ ∃ c, twoPiped = [c] ∧ c.inRedirect = false ∧ c.outRedirect = false) := by
  obtain ⟨l, hl⟩ := Option.isSome_iff_exists.1 twoPiped_runs
  exact ⟨l, hl, noLeak_iff (List.cons_ne_nil _ _) hl⟩

/-- **The reading end of a pipe stays open** in the shell. -/
theorem pipe_leaks : ¬ ∀ (k : Kernel) (cmds : List Cmd) (entry : ℕ → Bool) (l : Launch), cmds ≠ [] →
    handleProcess k cmds entry = some l → NoLeak entry l := by
  intro hclaim
  obtain ⟨l, hl⟩ := Option.isSome_iff_exists.1 twoPiped_runs
  have hclean := hclaim lowest twoPiped standard l (List.cons_ne_nil _ _) hl
  have hleft : LeavesAny lowest twoPiped.length 0 twoPiped 3 :=
    ⟨0, cmdInit ['a'], rfl, .inr (.inr ⟨by decide, rfl⟩)⟩
  have hopen : standard 3 = true := (hclean.shell 3).1 (((handleProcess_opened hl).1 3).2 (.inr hleft))
  exact absurd hopen (by decide)

end OsLab.Shell
