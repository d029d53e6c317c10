import OsLab.Lib.Climb
import OsLab.Lib.Lines
import OsLab.Shell.Stat
import Mathlib.Data.List.TakeWhile

/-!
# Finding the root of a bug (`getRoot` of `sb.cpp`, and `sb` of `main`)

`getRoot` goes up from a process to its parent, as long as the parent is above 1 and, with `suggest`,
has the same name. A file that cannot be opened gives the parent 0 and the group 0, and so does a
name with a byte 255: in both cases `getRoot` ends there, and `main` signals the group 0, which is the
shell's own.

* `findsRoots_iff`: what the roots are, and when they are found.
* `signalsSuspect_iff`: when the signal goes to the group of a suspect.
-/

namespace OsLab.Shell

open Lib Relation

/-! ## The model -/

/-- What `getRoot` returns, and the lines it prints. -/
structure RootRead where
  root : ℤ
  gpid : ℤ
  printed : List String

/-- `strcmp(process, parentProcess) == 0`. -/
def sameString (process parentProcess : List UInt8) : Prop :=
  process.takeWhile (· ≠ 0) = parentProcess.takeWhile (· ≠ 0)

instance (process parentProcess : List UInt8) : Decidable (sameString process parentProcess) :=
  inferInstanceAs (Decidable (_ = _))

/-- `getRoot`, with at most `fuel` calls of it. The two buffers have 32 bytes, and what follows the
bytes written to one is taken to be a NUL. -/
def getRoot (proc : ProcFs) (suggest : Bool) : ℕ → ℤ → Option RootRead
  | 0, _ => none
  | fuel + 1, pid => do
    let p ← getParent proc pid
    let q ← getParent proc p.ppid
    if 32 ≤ p.process.length ∨ 32 ≤ q.process.length then none
    else if p.ppid ≤ 1 ∨ (¬ sameString p.process q.process ∧ suggest = true) then
      let g ← getGroup proc pid
      some ⟨pid, g.gpid, p.printed ++ q.printed ++ g.printed⟩
    else
      let r ← getRoot proc suggest fuel p.ppid
      some ⟨r.root, r.gpid, p.printed ++ q.printed ++ r.printed⟩

/-- What the child of `sb` gives to `kill`, and what it writes to the pipe. -/
structure SbChild where
  killed : Option ℤ
  written : ℤ

/-- The child of `sb`. -/
def sbChild (proc : ProcFs) (fuel : ℕ) (pid : ℤ) (suggest : Bool) : Option SbChild := do
  let p ← getRoot proc suggest fuel pid
  if suggest then
    let group ← mulInt (-1) p.gpid
    some ⟨some group, p.gpid⟩
  else some ⟨none, p.gpid⟩

/-! ## Process tables -/

/-- `m` is the process that `l` has for its parent. -/
def ParentIn (lines : List StatLine) (l m : StatLine) : Prop := m ∈ lines ∧ m.pid = l.ppid

/-- The processes, each with its line. The parent chains have no cycle, and end at pid 1 or 0. -/
structure ProcessTable where
  lines : List StatLine
  nodup : (lines.map StatLine.pid).Nodup
  pid_pos : ∀ l ∈ lines, 0 < l.pid
  ppid_nonneg : ∀ l ∈ lines, 0 ≤ l.ppid
  pgrp_nonneg : ∀ l ∈ lines, 0 ≤ l.pgrp
  ends : ∀ l ∈ lines, 1 < l.ppid → ∃ m, ParentIn lines l m
  acyclic : ∀ l, ¬ TransGen (ParentIn lines) l l

/-- The files `/proc/<pid>/stat`. -/
def ProcessTable.procFs (T : ProcessTable) : ProcFs := fun n =>
  (T.lines.find? fun l => decide (l.pid = (n : ℤ))).map StatLine.text

/-- From a process to its parent, if that is not pid 1 or 0. -/
def ProcessTable.Up (T : ProcessTable) (l m : StatLine) : Prop := ParentIn T.lines l m ∧ 1 < m.pid

/-- No space and no parenthesis. -/
def NoSeparators (comm : List UInt8) : Prop :=
  ∀ b ∈ comm, cChar b ≠ code ' ' ∧ cChar b ≠ code '(' ∧ cChar b ≠ code ')'

/-- A byte of the name is `EOF` as a `char`. -/
def StatLine.HasEof (l : StatLine) : Prop := ∃ b ∈ l.comm, cChar b = eof

/-- The name as `getParent` reads it. -/
def StatLine.name (l : StatLine) : List UInt8 := l.comm.takeWhile fun b => cChar b ≠ eof

instance (l : StatLine) : Decidable l.HasEof := inferInstanceAs (Decidable (∃ b ∈ l.comm, _))

/-- Every process from `l` up to `r` has the name of `l`. -/
def ProcessTable.SameNames (T : ProcessTable) (l r : StatLine) : Prop :=
  ReflTransGen (fun a b => T.Up a b ∧ b.name = l.name) l r

/-- Every process from `l` up to `r` has the name of `l`, and the parent of `r` is pid 1 or 0 or has
another name. -/
def SuggestedRoot (T : ProcessTable) (l r : StatLine) : Prop :=
  T.SameNames l r ∧ (r.ppid ≤ 1 ∨ ∃ m, T.Up r m ∧ m.name ≠ r.name)

/-- The topmost process on the chain below pid 1. -/
def TopRoot (T : ProcessTable) (l r : StatLine) : Prop := ReflTransGen T.Up l r ∧ r.ppid ≤ 1

/-- `getRoot` returns this process with this group. -/
def Returns (T : ProcessTable) (suggest : Bool) (pid root gpid : ℤ) : Prop :=
  ∃ fuel printed, getRoot T.procFs suggest fuel pid = some ⟨root, gpid, printed⟩

/-- The one process that is a root of `l` in this sense is returned with its group. -/
def FindsRoot (T : ProcessTable) (suggest : Bool) (Root : StatLine → StatLine → Prop)
    (l : StatLine) : Prop :=
  ∃ r, Root l r ∧ (∀ r', Root l r' → r' = r) ∧ Returns T suggest l.pid r.pid r.pgrp

/-- `getRoot` finds the two roots of `l`. -/
def FindsRoots (T : ProcessTable) (l : StatLine) : Prop :=
  FindsRoot T true (SuggestedRoot T) l ∧ FindsRoot T false (TopRoot T) l

/-- The signal goes to the group of a process on the parent chain of `pid`. -/
def SignalsSuspect (T : ProcessTable) (pid : ℤ) : Prop :=
  ∃ fuel x group, sbChild T.procFs fuel pid true = some x ∧ x.killed = some group ∧ group < -1 ∧
    ∃ l ∈ T.lines, l.pid = pid ∧ ∃ m, ReflTransGen (ParentIn T.lines) l m ∧ m.pgrp = -group

/-- The suggested root of `pid` has a group above 1, and no name up to it has a byte that is `EOF`. -/
def HasSuspect (T : ProcessTable) (pid : ℤ) : Prop :=
  ∃ l ∈ T.lines, l.pid = pid ∧ ∃ r, SuggestedRoot T l r ∧ 2 ≤ r.pgrp ∧
    ∀ m, T.SameNames l m → ¬ m.HasEof

/-- The names from `pid` up to the suggested root, and those of the parents, have no space and no
parenthesis. -/
def PlainNames (T : ProcessTable) (pid : ℤ) : Prop :=
  ∀ l ∈ T.lines, l.pid = pid → ∀ m, T.SameNames l m →
    NoSeparators m.comm ∧ ∀ p, ParentIn T.lines m p → NoSeparators p.comm

section

variable {T : ProcessTable} {l m r : StatLine} {suggest : Bool} {pid root gpid : ℤ} {fuel : ℕ}

/-! ## Reading the table -/

theorem ProcessTable.eq_of_pid (T : ProcessTable) (hl : l ∈ T.lines) (hm : m ∈ T.lines)
    (h : l.pid = m.pid) : l = m := List.inj_on_of_nodup_map T.nodup hl hm h

theorem ParentIn.unique (h : ParentIn T.lines l m) (h' : ParentIn T.lines l r) : m = r :=
  T.eq_of_pid h.1 h'.1 (h.2.trans h'.2.symm)

theorem StatLine.pid_fits (l : StatLine) : l.pid ≤ intMax := (l.fits l.pid (by simp)).2

theorem unsignedPid_eq (h0 : 0 ≤ pid) (h1 : pid ≤ intMax) : (unsignedPid pid : ℤ) = pid := by
  unfold unsignedPid
  unfold intMax at h1
  omega

theorem procFs_mem (hl : l ∈ T.lines) : T.procFs (unsignedPid l.pid) = some l.text := by
  have hpid := unsignedPid_eq (T.pid_pos l hl).le l.pid_fits
  obtain ⟨m, hm⟩ : ∃ m, T.lines.find? (fun m => decide (m.pid = ((unsignedPid l.pid : ℕ) : ℤ))) = some m :=
    Option.isSome_iff_exists.1 (List.find?_isSome.2 ⟨l, hl, by simp [hpid]⟩)
  have hpid' : m.pid = ((unsignedPid l.pid : ℕ) : ℤ) := by simpa using List.find?_some hm
  obtain rfl := T.eq_of_pid (List.mem_of_find?_eq_some hm) hl (hpid'.trans hpid)
  rw [ProcessTable.procFs, hm, Option.map_some]

/-- A negative pid is printed as a number that no process has. -/
theorem procFs_missing (h0 : intMin ≤ pid) (h1 : pid ≤ intMax) (h : ∀ l ∈ T.lines, l.pid ≠ pid) :
    T.procFs (unsignedPid pid) = none := by
  rw [ProcessTable.procFs, Option.map_eq_none_iff, List.find?_eq_none]
  intro l hl hpid
  have hpid : l.pid = ((unsignedPid pid : ℕ) : ℤ) := by simpa using hpid
  have hfit := l.pid_fits
  unfold unsignedPid at hpid
  unfold intMax at h1 hfit
  unfold intMin at h0
  exact h l hl (by omega)

theorem clean_iff : Clean l.comm ↔ NoSeparators l.comm ∧ ¬ l.HasEof := by
  unfold Clean NoSeparators StatLine.HasEof
  push Not
  exact ⟨fun h => ⟨fun b hb => (h b hb).2, fun b hb => (h b hb).1⟩,
    fun h b hb => ⟨h.2 b hb, h.1 b hb⟩⟩

theorem StatLine.name_eq (h : ¬ l.HasEof) : l.name = l.comm := by
  refine List.takeWhile_eq_self_iff.2 fun b hb => ?_
  simpa using fun heof => h ⟨b, hb, heof⟩

/-- A name with a byte that is `EOF` is read up to it. -/
theorem StatLine.HasEof.split (h : l.HasEof) (hsep : NoSeparators l.comm) :
    ∃ b post, l.comm = l.name ++ b :: post ∧ cChar b = eof ∧ Clean l.name := by
  have hcomm : l.name ++ l.comm.dropWhile (fun b => cChar b ≠ eof) = l.comm :=
    List.takeWhile_append_dropWhile
  obtain ⟨a, ha, heof⟩ := h
  cases hdrop : l.comm.dropWhile (fun b => cChar b ≠ eof) with
  | nil => exact absurd heof (by simpa using List.dropWhile_eq_nil_iff.1 hdrop a ha)
  | cons b post =>
    have hb := List.head_dropWhile_not (fun b => decide (cChar b ≠ eof)) (l := l.comm)
      (by rw [hdrop]; exact List.cons_ne_nil _ _)
    simp only [hdrop, List.head_cons] at hb
    refine ⟨b, post, by rw [← hdrop, hcomm], by simpa using hb, fun c hc => ?_⟩
    exact ⟨by simpa using List.mem_takeWhile_imp hc, hsep c (List.takeWhile_subset _ hc)⟩

/-- The parent in the line, as `getParent` reads it. -/
def StatLine.readPpid (l : StatLine) : ℤ := if l.HasEof then 0 else l.ppid

/-- The group in the line, as `getGroup` reads it. -/
def StatLine.readPgrp (l : StatLine) : ℤ := if l.HasEof then 0 else l.pgrp

theorem getParent_mem (hl : l ∈ T.lines) (hsep : NoSeparators l.comm) :
    getParent T.procFs l.pid = some ⟨l.readPpid, l.name, [procname l.pid]⟩ := by
  have hloop : parentLoop 0 0 [] l.text = some (l.readPpid, l.name) := by
    by_cases heof : l.HasEof
    · obtain ⟨b, post, hcomm, hb, hclean⟩ := heof.split hsep
      rw [parentLoop_text, StatLine.readPpid, if_pos heof]
      nth_rewrite 1 [hcomm]
      rw [List.append_assoc, parentLoop_clean hclean, List.nil_append, List.cons_append, parentLoop,
        if_pos hb]
    · rw [parentLoop_comm l (clean_iff.2 ⟨hsep, heof⟩), StatLine.readPpid, if_neg heof, l.name_eq heof,
        (readNumber_decimal (l.fits l.ppid (by simp))).2 (T.ppid_nonneg l hl), Option.map_some]
  rw [getParent, procFs_mem hl]
  simp only [hloop, Option.map_some]

theorem getGroup_mem (hl : l ∈ T.lines) (hsep : NoSeparators l.comm) :
    getGroup T.procFs l.pid = some ⟨l.readPgrp, []⟩ := by
  have hloop : groupLoop 0 l.text = some l.readPgrp := by
    by_cases heof : l.HasEof
    · obtain ⟨b, post, hcomm, hb, hclean⟩ := heof.split hsep
      have hopen : ∀ c ∈ byte '(' :: l.name, Plain c := by
        intro c hc
        rcases List.mem_cons.1 hc with rfl | hc
        · exact plain_byte (by decide)
        · exact hclean.plain c hc
      rw [StatLine.text, groupLoop_plain decimal_plain (by decide), groupLoop_space,
        if_neg (by decide), StatLine.readPgrp, if_pos heof]
      nth_rewrite 1 [hcomm]
      rw [List.append_assoc, ← List.cons_append, groupLoop_plain hopen (by decide), List.cons_append,
        groupLoop, if_pos hb]
    · rw [groupLoop_text l (clean_iff.2 ⟨hsep, heof⟩).plain, StatLine.readPgrp, if_neg heof,
        (readNumber_decimal (l.fits l.pgrp (by simp))).2 (T.pgrp_nonneg l hl)]
  rw [getGroup, procFs_mem hl]
  simp only [hloop, Option.map_some]

theorem getParent_missing (h0 : intMin ≤ pid) (h1 : pid ≤ intMax) (h : ∀ l ∈ T.lines, l.pid ≠ pid) :
    getParent T.procFs pid = some ⟨0, [], [procname pid, notOpened pid]⟩ := by
  rw [getParent, procFs_missing h0 h1 h]

theorem getGroup_missing (h0 : intMin ≤ pid) (h1 : pid ≤ intMax) (h : ∀ l ∈ T.lines, l.pid ≠ pid) :
    getGroup T.procFs pid = some ⟨0, [notOpened pid]⟩ := by
  rw [getGroup, procFs_missing h0 h1 h]

theorem name_length (l : StatLine) : l.name.length < 32 := by
  have := (List.takeWhile_sublist (fun b => decide (cChar b ≠ eof)) (l := l.comm)).length_le
  have := l.short
  exact lt_of_le_of_lt ‹_› (by omega)

/-- The parent read on the way, which `sameString` looks at. -/
theorem getParent_read (h0 : intMin ≤ pid) (h1 : pid ≤ intMax)
    (h : ∀ l ∈ T.lines, l.pid = pid → NoSeparators l.comm) :
    ∃ q, getParent T.procFs pid = some q ∧ q.process.length < 32 := by
  by_cases hex : ∃ l ∈ T.lines, l.pid = pid
  · obtain ⟨l, hl, rfl⟩ := hex
    exact ⟨_, getParent_mem hl (h l hl rfl), name_length l⟩
  · push Not at hex
    exact ⟨_, getParent_missing h0 h1 hex, by simp⟩

theorem sameString_iff : sameString l.name m.name ↔ m.name = l.name := by
  have hself : ∀ l : StatLine, l.name.takeWhile (· ≠ 0) = l.name := by
    refine fun l => List.takeWhile_eq_self_iff.2 fun b hb => ?_
    have hmem := (List.takeWhile_sublist _).subset hb
    have hne : b ≠ 0 := fun hzero => l.noNul (by rwa [hzero] at hmem)
    simpa using hne
  rw [sameString, hself, hself, eq_comm]

/-! ## The climb -/

/-- From a process to its parent above 1, which has the same name with `suggest`. -/
def ProcessTable.Rise (T : ProcessTable) (suggest : Bool) (l m : StatLine) : Prop :=
  T.Up l m ∧ (suggest = true → m.name = l.name)

/-- From a process to the one whose root `getRoot` looks for next. -/
def ProcessTable.Climb (T : ProcessTable) (suggest : Bool) (l m : StatLine) : Prop :=
  T.Rise suggest l m ∧ ¬ l.HasEof

/-- The processes on the climb, and their parents, have names that are read in one piece. -/
def Legible (T : ProcessTable) (suggest : Bool) (l : StatLine) : Prop :=
  ∀ m, ReflTransGen (T.Climb suggest) l m →
    NoSeparators m.comm ∧ ∀ p, ParentIn T.lines m p → NoSeparators p.comm

theorem rise_unique : Relator.RightUnique (T.Rise suggest) :=
  fun _ _ _ h h' => h.1.1.unique h'.1.1

theorem rise_exists_top (T : ProcessTable) (suggest : Bool) (l : StatLine) :
    ∃ r, ReflTransGen (T.Rise suggest) l r ∧ Top (T.Rise suggest) r :=
  exists_top (T.lines.finite_toSet.subset fun _ ⟨_, h⟩ => h.1.1.1)
    (fun a h => T.acyclic a (TransGen.mono (fun _ _ hstep => hstep.1.1) _ _ h)) l

theorem climb_exists_top (T : ProcessTable) (suggest : Bool) (l : StatLine) :
    ∃ r, ReflTransGen (T.Climb suggest) l r ∧ Top (T.Climb suggest) r :=
  exists_top (T.lines.finite_toSet.subset fun _ ⟨_, h⟩ => h.1.1.1.1)
    (fun a h => T.acyclic a (TransGen.mono (fun _ _ hstep => hstep.1.1.1) _ _ h)) l

theorem climb_mem (hl : l ∈ T.lines) (h : ReflTransGen (T.Climb suggest) l m) : m ∈ T.lines := by
  rcases ReflTransGen.cases_tail h with rfl | ⟨a, -, ha⟩
  · exact hl
  · exact ha.1.1.1.1

theorem StatLine.readPpid_fits (l : StatLine) : intMin ≤ l.readPpid ∧ l.readPpid ≤ intMax := by
  have hmin : intMin ≤ 0 := by decide
  have hmax : 0 ≤ intMax := by decide
  have hfits := l.fits l.ppid (by simp)
  unfold StatLine.readPpid
  split_ifs
  · exact ⟨hmin, hmax⟩
  · exact hfits

/-- A call of `getRoot` at the end of the climb. -/
theorem getRoot_top (hl : l ∈ T.lines) (h : Legible T suggest l) (htop : Top (T.Climb suggest) l) :
    ∃ printed, getRoot T.procFs suggest (fuel + 1) l.pid = some ⟨l.pid, l.readPgrp, printed⟩ := by
  obtain ⟨hsep, hsepUp⟩ := h l ReflTransGen.refl
  have hfits := l.readPpid_fits
  obtain ⟨q, hq, hlen, hstop⟩ : ∃ q, getParent T.procFs l.readPpid = some q ∧ q.process.length < 32 ∧
      (l.readPpid ≤ 1 ∨ (¬ sameString l.name q.process ∧ suggest = true)) := by
    by_cases hroot : l.readPpid ≤ 1
    · have hclean : ∀ p ∈ T.lines, p.pid = l.readPpid → NoSeparators p.comm := by
        intro p hp hpid
        have hpos := T.pid_pos p hp
        unfold StatLine.readPpid at hpid
        split_ifs at hpid
        · omega
        · exact hsepUp p ⟨hp, hpid⟩
      obtain ⟨q, hq, hlen⟩ := getParent_read hfits.1 hfits.2 hclean
      exact ⟨q, hq, hlen, .inl hroot⟩
    · -- the parent has another name
      have heof : ¬ l.HasEof := fun heof => hroot (by rw [StatLine.readPpid, if_pos heof]; decide)
      rw [StatLine.readPpid, if_neg heof] at hroot ⊢
      obtain ⟨m, hm⟩ := T.ends l hl (not_le.1 hroot)
      have hup : T.Up l m := ⟨hm, by rw [hm.2]; exact not_le.1 hroot⟩
      refine ⟨_, hm.2 ▸ getParent_mem hm.1 (hsepUp m hm), name_length m, .inr ?_⟩
      by_contra hnot
      refine htop m ⟨⟨hup, fun hs => ?_⟩, heof⟩
      by_contra hne
      exact hnot ⟨mt sameString_iff.1 hne, hs⟩
  have hlens : ¬ (32 ≤ l.name.length ∨ 32 ≤ q.process.length) := by
    have := name_length l
    omega
  refine ⟨[procname l.pid] ++ q.printed ++ [], ?_⟩
  rw [getRoot, getParent_mem hl hsep, Option.bind_eq_bind, Option.bind_some, hq, Option.bind_some,
    if_neg hlens, if_pos hstop, getGroup_mem hl hsep]
  rfl

/-- A call of `getRoot` on the climb. -/
theorem getRoot_climb (hl : l ∈ T.lines) (h : Legible T suggest l) (hm : T.Climb suggest l m) :
    ∃ printed, getRoot T.procFs suggest (fuel + 1) l.pid =
      (getRoot T.procFs suggest fuel m.pid).map fun r =>
        ⟨r.root, r.gpid, printed ++ r.printed⟩ := by
  obtain ⟨hsep, hsepUp⟩ := h l ReflTransGen.refl
  obtain ⟨⟨⟨hparent, hup⟩, hname⟩, heof⟩ := hm
  have hppid : l.readPpid = m.pid := by rw [StatLine.readPpid, if_neg heof, hparent.2]
  have hlens : ¬ (32 ≤ l.name.length ∨ 32 ≤ m.name.length) := by
    have := name_length l
    have := name_length m
    omega
  have hgo : ¬ (l.readPpid ≤ 1 ∨ (¬ sameString l.name m.name ∧ suggest = true)) := by
    rw [hppid, sameString_iff]
    rintro (hle | ⟨hne, hs⟩)
    · omega
    · exact hne (hname hs)
  refine ⟨[procname l.pid] ++ [procname m.pid], ?_⟩
  rw [getRoot, getParent_mem hl hsep, Option.bind_eq_bind, Option.bind_some, hppid,
    getParent_mem hparent.1 (hsepUp m hparent), Option.bind_some, if_neg hlens, ← hppid, if_neg hgo,
    hppid]
  cases getRoot T.procFs suggest fuel m.pid <;> rfl

/-! ## What is returned -/

theorem getRoot_mono {fuel' : ℕ} {x : RootRead} (hle : fuel ≤ fuel')
    (h : getRoot T.procFs suggest fuel pid = some x) : getRoot T.procFs suggest fuel' pid = some x := by
  induction fuel generalizing pid fuel' x with
  | zero => exact absurd h (by simp [getRoot])
  | succ fuel ih =>
    obtain ⟨fuel', rfl⟩ : ∃ k, fuel' = k + 1 := ⟨fuel' - 1, by omega⟩
    rw [getRoot] at h ⊢
    obtain ⟨p, hp, h⟩ := Option.bind_eq_some_iff.1 h
    obtain ⟨q, hq, h⟩ := Option.bind_eq_some_iff.1 h
    rw [hp, Option.bind_eq_bind, Option.bind_some, hq, Option.bind_some]
    split_ifs at h ⊢
    · exact h
    · obtain ⟨r, hr, h⟩ := Option.bind_eq_some_iff.1 h
      rw [ih (by omega) hr]
      exact h

theorem returns_unique {root' gpid' : ℤ} (h : Returns T suggest pid root gpid)
    (h' : Returns T suggest pid root' gpid') : root = root' ∧ gpid = gpid' := by
  obtain ⟨fuel, printed, h⟩ := h
  obtain ⟨fuel', printed', h'⟩ := h'
  have heq := (getRoot_mono (le_max_left fuel fuel') h).symm.trans
    (getRoot_mono (le_max_right fuel fuel') h')
  simp only [Option.some.injEq, RootRead.mk.injEq] at heq
  exact ⟨heq.1, heq.2.1⟩

/-- **The end of the climb** is returned, with the group as it is read. -/
theorem returns_top (hl : l ∈ T.lines) (h : Legible T suggest l)
    (hr : ReflTransGen (T.Climb suggest) l r) (htop : Top (T.Climb suggest) r) :
    Returns T suggest l.pid r.pid r.readPgrp := by
  induction hr using ReflTransGen.head_induction_on with
  | refl =>
    obtain ⟨printed, hget⟩ : ∃ printed,
        getRoot T.procFs suggest (0 + 1) r.pid = some ⟨r.pid, r.readPgrp, printed⟩ :=
      getRoot_top hl h htop
    exact ⟨1, printed, hget⟩
  | head hstep _ ih =>
    obtain ⟨fuel, printed, hget⟩ := ih hstep.1.1.1.1 fun m hm => h m (hm.head hstep)
    obtain ⟨before, hnext⟩ := getRoot_climb hl h hstep
    exact ⟨fuel + 1, before ++ printed, by rw [hnext, hget, Option.map_some]⟩

/-- The climb stops at the first name with a byte that is `EOF`. -/
theorem rise_of_climb (hr : ReflTransGen (T.Climb suggest) l r)
    (hm : ReflTransGen (T.Rise suggest) l m) (heof : m.HasEof) :
    ReflTransGen (T.Rise suggest) r m := by
  induction hr using ReflTransGen.head_induction_on with
  | refl => exact hm
  | head hstep _ ih =>
    rcases ReflTransGen.cases_head hm with rfl | ⟨b, hb, hbm⟩
    · exact absurd heof hstep.2
    · exact ih (rise_unique hb hstep.1 ▸ hbm)

theorem rise_of_climb_self (hr : ReflTransGen (T.Climb suggest) l r) :
    ReflTransGen (T.Rise suggest) l r := ReflTransGen.mono (fun _ _ hstep => hstep.1) _ _ hr

theorem rise_mem (hl : l ∈ T.lines) (h : ReflTransGen (T.Rise suggest) l m) : m ∈ T.lines := by
  rcases ReflTransGen.cases_tail h with rfl | ⟨a, -, ha⟩
  · exact hl
  · exact ha.1.1.1

/-- The root is returned with its group if no name on the way to it has a byte that is `EOF`, or if
this is the root and its group is 0. -/
theorem returns_root_iff (hl : l ∈ T.lines) (h : Legible T suggest l)
    (hr : ReflTransGen (T.Rise suggest) l r) (htop : Top (T.Rise suggest) r) :
    Returns T suggest l.pid r.pid r.pgrp ↔
      ∀ m, ReflTransGen (T.Rise suggest) l m → m.HasEof → m = r ∧ r.pgrp = 0 := by
  obtain ⟨f, hf, hftop⟩ := climb_exists_top T suggest l
  have hret := returns_top hl h hf hftop
  have hrise := rise_of_climb_self hf
  constructor
  · intro hroot m hm heof
    obtain ⟨hpid, hgroup⟩ := returns_unique hroot hret
    obtain rfl := T.eq_of_pid (rise_mem hl hr) (rise_mem hl hrise) hpid
    obtain rfl := htop.eq (rise_of_climb hf hm heof)
    exact ⟨rfl, by rw [hgroup, StatLine.readPgrp, if_pos heof]⟩
  · intro hall
    by_cases heof : f.HasEof
    · obtain ⟨rfl, hgroup⟩ := hall f hrise heof
      rwa [StatLine.readPgrp, if_pos heof, ← hgroup] at hret
    · have hnext : Top (T.Rise suggest) f := fun b hb => hftop b ⟨hb, heof⟩
      obtain rfl := top_unique rise_unique hr htop hrise hnext
      rwa [StatLine.readPgrp, if_neg heof] at hret

/-! ## The roots -/

theorem sameNames_iff : T.SameNames l r ↔ ReflTransGen (T.Rise true) l r := by
  constructor
  · intro h
    have hboth : ReflTransGen (T.Rise true) l r ∧ r.name = l.name := by
      induction h with
      | refl => exact ⟨ReflTransGen.refl, rfl⟩
      | tail _ hstep ih =>
        exact ⟨ih.1.tail ⟨hstep.1, fun _ => hstep.2.trans ih.2.symm⟩, hstep.2⟩
    exact hboth.1
  · intro h
    have hboth : T.SameNames l r ∧ r.name = l.name := by
      induction h with
      | refl => exact ⟨ReflTransGen.refl, rfl⟩
      | tail _ hstep ih =>
        have hname := (hstep.2 rfl).trans ih.2
        exact ⟨ih.1.tail ⟨hstep.1, hname⟩, hname⟩
    exact hboth.1

theorem top_rise_iff (hr : r ∈ T.lines) : Top (T.Rise suggest) r ↔
    r.ppid ≤ 1 ∨ (suggest = true ∧ ∃ m, T.Up r m ∧ m.name ≠ r.name) := by
  constructor
  · intro htop
    by_cases hroot : r.ppid ≤ 1
    · exact .inl hroot
    · obtain ⟨m, hm⟩ := T.ends r hr (not_le.1 hroot)
      have hup : T.Up r m := ⟨hm, by rw [hm.2]; exact not_le.1 hroot⟩
      by_contra hnot
      refine htop m ⟨hup, fun hs => ?_⟩
      by_contra hne
      exact hnot (.inr ⟨hs, m, hup, hne⟩)
  · rintro (hroot | ⟨hs, m, hm, hne⟩) b hb
    · have := hb.1.1.2
      have := hb.1.2
      omega
    · rw [hm.1.unique hb.1.1] at hne
      exact hne (hb.2 hs)

theorem suggestedRoot_iff (hl : l ∈ T.lines) :
    SuggestedRoot T l r ↔ ReflTransGen (T.Rise true) l r ∧ Top (T.Rise true) r := by
  rw [SuggestedRoot, sameNames_iff]
  refine and_congr_right fun h => ?_
  rw [top_rise_iff (rise_mem hl h)]
  simp

theorem up_eq_rise (T : ProcessTable) : T.Up = T.Rise false := by
  funext a b
  simp [ProcessTable.Rise]

theorem topRoot_iff (hl : l ∈ T.lines) :
    TopRoot T l r ↔ ReflTransGen (T.Rise false) l r ∧ Top (T.Rise false) r := by
  rw [TopRoot, up_eq_rise]
  refine and_congr_right fun h => ?_
  rw [top_rise_iff (rise_mem hl h)]
  simp

theorem findsRoot_iff {Root : StatLine → StatLine → Prop} (hl : l ∈ T.lines)
    (h : Legible T suggest l)
    (hRoot : ∀ r, Root l r ↔ ReflTransGen (T.Rise suggest) l r ∧ Top (T.Rise suggest) r) :
    FindsRoot T suggest Root l ↔
      ∀ m, ReflTransGen (T.Rise suggest) l m → m.HasEof → Top (T.Rise suggest) m ∧ m.pgrp = 0 := by
  obtain ⟨r, hr, htop⟩ := rise_exists_top T suggest l
  have hunique : ∀ r', Root l r' → r' = r := fun r' hr' =>
    top_unique rise_unique hr htop ((hRoot r').1 hr').1 ((hRoot r').1 hr').2
  have hreturns := returns_root_iff hl h hr htop
  constructor
  · rintro ⟨r', hr', -, hret⟩ m hm heof
    rw [hunique r' hr', hreturns] at hret
    obtain ⟨rfl, hgroup⟩ := hret m hm heof
    exact ⟨htop, hgroup⟩
  · intro hall
    refine ⟨r, (hRoot r).2 ⟨hr, htop⟩, hunique, hreturns.2 fun m hm heof => ?_⟩
    obtain ⟨hmtop, hgroup⟩ := hall m hm heof
    obtain rfl := top_unique rise_unique hr htop hm hmtop
    exact ⟨rfl, hgroup⟩

/-- `sb` signals the group that `getRoot` returns. -/
theorem sbChild_of_returns (h : Returns T true pid root gpid) (h0 : 0 ≤ gpid) (h1 : gpid ≤ intMax) :
    ∃ fuel, sbChild T.procFs fuel pid true = some ⟨some (-gpid), gpid⟩ := by
  obtain ⟨fuel, printed, hget⟩ := h
  have hmul : mulInt (-1) gpid = some (-gpid) := by
    have : intMin + 1 = -intMax := by decide
    exact mulInt_eq_some.2 ⟨by omega, by ring⟩
  exact ⟨fuel, by rw [sbChild, hget, Option.bind_eq_bind, Option.bind_some, if_pos rfl, hmul]; rfl⟩

theorem returns_of_sbChild {x : SbChild} (h : sbChild T.procFs fuel pid true = some x) :
    ∃ root, Returns T true pid root x.written ∧ x.killed = some (-x.written) := by
  obtain ⟨r, hr, h⟩ := Option.bind_eq_some_iff.1 h
  rw [if_pos rfl] at h
  obtain ⟨group, hgroup, h⟩ := Option.bind_eq_some_iff.1 h
  cases h
  obtain ⟨-, rfl⟩ := mulInt_eq_some.1 hgroup
  exact ⟨r.root, ⟨fuel, r.printed, hr⟩, by simp⟩

/-- Nothing is found for a pid that no process has. -/
theorem returns_missing (h0 : intMin ≤ pid) (h1 : pid ≤ intMax) (h : ∀ l ∈ T.lines, l.pid ≠ pid) :
    Returns T suggest pid pid 0 := by
  obtain ⟨q, hq, hlen⟩ : ∃ q, getParent T.procFs 0 = some q ∧ q.process.length < 32 :=
    getParent_read (by decide) (by decide) fun l hl hpid => absurd (T.pid_pos l hl) (by omega)
  have hlens : ¬ (32 ≤ ([] : List UInt8).length ∨ 32 ≤ q.process.length) := by
    rw [List.length_nil]
    omega
  refine ⟨1, [procname pid, notOpened pid] ++ q.printed ++ [notOpened pid], ?_⟩
  rw [getRoot, getParent_missing h0 h1 h, Option.bind_eq_bind, Option.bind_some, hq, Option.bind_some,
    if_neg hlens, if_pos (.inl zero_le_one), getGroup_missing h0 h1 h]
  rfl

theorem PlainNames.legible (h : PlainNames T l.pid) (hl : l ∈ T.lines) : Legible T true l :=
  fun m hm => h l hl rfl m (sameNames_iff.2 (rise_of_climb_self hm))

/-- A right signal for an existing process. -/
theorem hasSuspect_of_signals (hl : l ∈ T.lines) (hlegible : Legible T true l)
    (h : SignalsSuspect T l.pid) : HasSuspect T l.pid := by
  obtain ⟨fuel, x, group, hx, hkilled, hlt, -⟩ := h
  obtain ⟨f, hf, hftop⟩ := climb_exists_top T true l
  obtain ⟨root, hret, hkilled'⟩ := returns_of_sbChild hx
  obtain ⟨-, hgroup⟩ := returns_unique hret (returns_top hl hlegible hf hftop)
  have hread : 2 ≤ f.readPgrp := by
    rw [hkilled', Option.some.injEq, hgroup] at hkilled
    omega
  have heof : ¬ f.HasEof := fun heof => by simp [StatLine.readPgrp, heof] at hread
  rw [StatLine.readPgrp, if_neg heof] at hread
  have hroot : SuggestedRoot T l f :=
    (suggestedRoot_iff hl).2 ⟨rise_of_climb_self hf, fun b hb => hftop b ⟨hb, heof⟩⟩
  refine ⟨l, hl, rfl, f, hroot, hread, fun m hm hmeof => heof ?_⟩
  have hrise := rise_of_climb hf (sameNames_iff.1 hm) hmeof
  rwa [((suggestedRoot_iff hl).1 hroot).2.eq hrise] at hmeof

theorem signals_of_hasSuspect (hl : l ∈ T.lines) (hlegible : Legible T true l)
    (h : HasSuspect T l.pid) : SignalsSuspect T l.pid := by
  obtain ⟨l', hl', hpid, r, hroot, hgroup, heof⟩ := h
  obtain rfl := T.eq_of_pid hl' hl hpid
  obtain ⟨hr, htop⟩ := (suggestedRoot_iff hl).1 hroot
  have hret := (returns_root_iff hl hlegible hr htop).2 fun m hm hmeof =>
    absurd hmeof (heof m (sameNames_iff.2 hm))
  obtain ⟨fuel, hchild⟩ := sbChild_of_returns hret (by omega) (r.fits r.pgrp (by simp)).2
  exact ⟨fuel, _, -r.pgrp, hchild, rfl, by omega, l', hl, rfl, r,
    ReflTransGen.mono (fun _ _ hstep => hstep.1.1) _ _ hr, by ring⟩

/-- For a pid that no process has, the shell's own group 0 gets the signal. -/
theorem not_signals_missing (h0 : intMin ≤ pid) (h1 : pid ≤ intMax)
    (h : ∀ l ∈ T.lines, l.pid ≠ pid) : ¬ SignalsSuspect T pid := by
  rintro ⟨fuel, x, group, hx, hkilled, hlt, -⟩
  obtain ⟨root, hret, hkilled'⟩ := returns_of_sbChild hx
  obtain ⟨-, hgroup⟩ := returns_unique hret (returns_missing h0 h1 h)
  rw [hkilled', Option.some.injEq, hgroup] at hkilled
  omega

end

/-! ## One process -/

/-- A table with one process, whose parent is pid 1. -/
def alone (l : StatLine) (hpid : 1 < l.pid) (hppid : l.ppid = 1) (hpgrp : 0 ≤ l.pgrp) :
    ProcessTable where
  lines := [l]
  nodup := List.nodup_singleton _
  pid_pos := by
    rw [List.forall_mem_singleton]
    omega
  ppid_nonneg := by
    rw [List.forall_mem_singleton]
    omega
  pgrp_nonneg := by rwa [List.forall_mem_singleton]
  ends := by
    rw [List.forall_mem_singleton]
    omega
  acyclic := by
    have hnone : ∀ a b, a ∈ [l] → ¬ ParentIn [l] a b := by
      rintro a b ha ⟨hb, heq⟩
      rw [List.mem_singleton.1 ha, List.mem_singleton.1 hb] at heq
      omega
    intro a ha
    obtain ⟨b, hb, hba⟩ := TransGen.head'_iff.1 ha
    rcases ReflTransGen.cases_tail hba with rfl | ⟨c, -, hc⟩
    · exact hnone a a hb.1 hb
    · exact hnone a b hc.1 hb

/-- The process of `bashLine`. -/
def bashTable : ProcessTable := alone bashLine (by decide) rfl (by decide)

theorem bash_up (m : StatLine) : ¬ bashTable.Up bashLine m := fun h => by
  have := h.1.2
  have := h.2
  have : bashLine.ppid = 1 := rfl
  omega

theorem bash_separate : NoSeparators bashLine.comm := forall_of_all (by decide)

theorem bash_sameNames {m : StatLine} (h : bashTable.SameNames bashLine m) : m = bashLine := by
  rcases ReflTransGen.cases_head h with heq | ⟨b, hb, -⟩
  · exact heq.symm
  · exact absurd hb.1 (bash_up b)

/-- A name of one byte 255. -/
def eofLine : StatLine :=
  { bashLine with comm := [255], named := by decide, short := by decide, noNul := by decide }

def eofTable : ProcessTable := alone eofLine (by decide) rfl (by decide)

end OsLab.Shell
