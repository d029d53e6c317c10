import OsLab.Shell.Descriptors

/-!
# What the commands of a pipeline read and write

Command `i > 0` reads from the pipe of command `i - 1`, and every command but the last one writes to its
own pipe, whatever redirections they have. No other process holds the writing end of a pipe, so that its
reader sees the end of the file when the writer ends.

* `childTable_apply`: the descriptors after the two `dup2` of a child.
* `handleProcess_wired`: the wiring of every pipeline that was started.
* `pipeline_composes`: what the last command writes is the composition of the commands.
-/

namespace OsLab.Shell

variable {k : Kernel} {n i fd : ℕ} {c c' : Cmd} {cs : List Cmd} {s s' : Launch} {t t' u : FdTable}
  {f g : File} {F G : File → Prop}

/-! ## Opening files -/

/-- `t'` has what `t` has, and at new places only files of `F`. -/
structure Grows (t t' : FdTable) (F : File → Prop) : Prop where
  kept : ∀ fd f, t fd = some f → t' fd = some f
  new : ∀ fd f, t' fd = some f → t fd = some f ∨ F f

theorem Grows.refl (t : FdTable) : Grows t t F := ⟨fun _ _ h => h, fun _ _ h => .inl h⟩

theorem Grows.trans (h : Grows t t' F) (h' : Grows t' u G) : Grows t u fun f => F f ∨ G f where
  kept fd f hf := h'.kept fd f (h.kept fd f hf)
  new fd f hf := by
    rcases h'.new fd f hf with hf | hG
    · exact (h.new fd f hf).imp_right .inl
    · exact .inr (.inr hG)

theorem openFd_grows (h : openFd t fd f = some t') : Grows t t' (· = f) ∧ t' fd = some f := by
  obtain ⟨hfree, rfl⟩ := openFd_some h
  refine ⟨⟨fun x g hx => ?_, fun x g hx => ?_⟩, Function.update_self _ _ _⟩
  · rw [Function.update_of_ne, hx]
    rintro rfl
    rw [hfree] at hx; cases hx
  · rw [Function.update_apply] at hx
    split_ifs at hx with heq
    · cases hx; exact .inr rfl
    · exact .inl hx

theorem redirectIn_grows (h : redirectIn k i c t = some (c', t')) :
    Grows t t' (· = .input i) ∧ c'.outFd = c.outFd ∧ c'.outRedirect = c.outRedirect ∧
      if c.inRedirect then t' c'.inFd = some (.input i) else c'.inFd = c.inFd := by
  unfold redirectIn at h
  split_ifs at h ⊢ with hr
  · obtain ⟨t₁, ht, heq⟩ := Option.map_eq_some_iff.1 h
    cases heq
    obtain ⟨hg, hf⟩ := openFd_grows ht
    exact ⟨hg, rfl, rfl, hf⟩
  · cases h
    exact ⟨Grows.refl t, rfl, rfl, rfl⟩

theorem redirectOut_grows (h : redirectOut k i c t = some (c', t')) :
    Grows t t' (· = .output i) ∧ c'.inFd = c.inFd ∧
      if c.outRedirect then t' c'.outFd = some (.output i) else c'.outFd = c.outFd := by
  unfold redirectOut at h
  split_ifs at h ⊢ with hr
  · obtain ⟨t₁, ht, heq⟩ := Option.map_eq_some_iff.1 h
    cases heq
    obtain ⟨hg, hf⟩ := openFd_grows ht
    exact ⟨hg, rfl, hf⟩
  · cases h
    exact ⟨Grows.refl t, rfl, rfl⟩

/-- The file that the command reads without a pipe. -/
def source (i : ℕ) (c : Cmd) : File := if c.inRedirect then .input i else .before

/-- The file that the command writes without a pipe. -/
def sink (i : ℕ) (c : Cmd) : File := if c.outRedirect then .output i else .before

/-- What `handle_io_redirect` makes of the standard descriptors. -/
theorem handleIoRedirect_grows
    (h : handleIoRedirect k i { c with inFd := 0, outFd := 1 } t = some (c', t'))
    (h0 : t 0 = some .before) (h1 : t 1 = some .before) :
    Grows t t' (fun f => f = .input i ∨ f = .output i) ∧
      t' c'.inFd = some (source i c) ∧ t' c'.outFd = some (sink i c) ∧
      (c.inRedirect = false → c'.inFd = 0) ∧ (c.outRedirect = false → c'.outFd = 1) := by
  obtain ⟨⟨c₁, t₁⟩, hin, hout⟩ := Option.bind_eq_some_iff.1 h
  obtain ⟨hg, hout1, hred, hfd⟩ := redirectIn_grows hin
  obtain ⟨hg', hin', hfd'⟩ := redirectOut_grows hout
  rw [hred] at hfd'
  have hgrows := hg.trans hg'
  unfold source sink
  refine ⟨hgrows, ?_, ?_, fun hr => ?_, fun hr => ?_⟩
  · rw [hin']
    split_ifs at hfd ⊢ with hr
    · exact hg'.kept _ _ hfd
    · rw [hfd]; exact hgrows.kept 0 _ h0
  · split_ifs at hfd' ⊢ with hr
    · exact hfd'
    · rw [hfd', hout1]; exact hgrows.kept 1 _ h1
  · rw [if_neg (by simp [hr])] at hfd
    rw [hin', hfd]
  · rw [if_neg (by simp [hr])] at hfd'
    rw [hfd', hout1]

/-! ## One child -/

/-- **The two `dup2` of a child**, when its descriptors are not in each other's place. -/
theorem childTable_apply (hin : c.inFd ≠ 1) (hout : c.outFd ≠ 0) (hne : c.inFd ≠ c.outFd) (fd : ℕ) :
    childTable c t fd = if fd = 0 then t c.inFd else if fd = 1 then t c.outFd
      else if fd = c.inFd ∨ fd = c.outFd then none else t fd := by
  unfold childTable closeFd dup2
  grind [Function.update_apply]

/-- The file that command `i` of a pipeline reads. -/
def inFile (i : ℕ) (c : Cmd) : File := if 0 < i then .readEnd (i - 1) else source i c

/-- The file that command `i` of `n` writes. -/
def outFile (n i : ℕ) (c : Cmd) : File := if i + 1 < n then .writeEnd i else sink i c

/-- Command `i` of `n` has its files at `0` and `1`, and of all pipes no writing end but its own. -/
structure ChildWired (n i : ℕ) (c : Cmd) (t : FdTable) : Prop where
  input : t 0 = some (inFile i c)
  output : t 1 = some (outFile n i c)
  writer : ∀ fd j, t fd = some (.writeEnd j) → fd = 1 ∧ j = i

/-- A child whose descriptors stand for different files is wired to them. -/
theorem childWired_of (h0 : t 0 = some .before) (h1 : t 1 = some .before)
    (hin : t c'.inFd = some (inFile i c)) (hout : t c'.outFd = some (outFile n i c))
    (hstd : inFile i c = .before → c'.inFd = 0) (hstd' : outFile n i c = .before → c'.outFd = 1)
    (hw : ∀ fd j, t fd = some (.writeEnd j) → fd = c'.outFd ∧ j = i) :
    ChildWired n i c (childTable c' t) := by
  have hin1 : c'.inFd ≠ 1 := by
    intro heq
    rw [heq, h1] at hin
    have := hstd (Option.some.inj hin).symm
    omega
  have hout0 : c'.outFd ≠ 0 := by
    intro heq
    rw [heq, h0] at hout
    have := hstd' (Option.some.inj hout).symm
    omega
  have hne : c'.inFd ≠ c'.outFd := by
    intro heq
    have hfiles : inFile i c = outFile n i c := Option.some.inj (hin.symm.trans (heq ▸ hout))
    -- the only file that a command both reads and writes is the terminal
    have hb : inFile i c = .before ∧ outFile n i c = .before := by
      unfold inFile outFile source sink at hfiles ⊢
      split_ifs at hfiles ⊢
      exact ⟨rfl, rfl⟩
    have := hstd hb.1
    have := hstd' hb.2
    omega
  refine ⟨?_, ?_, fun fd j hfd => ?_⟩
  · rw [childTable_apply hin1 hout0 hne, if_pos rfl]; exact hin
  · rw [childTable_apply hin1 hout0 hne, if_neg (by decide), if_pos rfl]; exact hout
  · rw [childTable_apply hin1 hout0 hne] at hfd
    split_ifs at hfd with hz ho hc
    · exact absurd ((hw _ _ hfd).1) hne
    · exact ⟨ho, (hw _ _ hfd).2⟩
    · exact absurd (Or.inr (hw _ _ hfd).1) hc

/-! ## The loop -/

/-- The shell before command `i`: the standard descriptors are its own, `pipefd[0]` is the reading end
of the last pipe, and no writing end is open. -/
structure Wired (n i : ℕ) (s : Launch) : Prop where
  stdin : s.table 0 = some .before
  stdout : s.table 1 = some .before
  pipe : 0 < i → i < n → s.table s.pipeRead = some (.readEnd (i - 1))
  closed : ∀ fd j, s.table fd ≠ some (.writeEnd j)

/-- **One turn of the loop.** -/
theorem startCmd_wired (hW : Wired n i s) (hi : i < n) (h : startCmd k n i c s = some s') :
    Wired n (i + 1) s' ∧ ∃ t, s'.children = s.children ++ [t] ∧ ChildWired n i c t := by
  unfold startCmd at h
  simp only [Option.bind_eq_bind, Option.bind_eq_some_iff] at h
  obtain ⟨⟨c₁, t₁⟩, hio, h⟩ := h
  obtain ⟨hg, hsrc, hsnk, hstd, hstd'⟩ := handleIoRedirect_grows hio hW.stdin hW.stdout
  have hw₁ : ∀ fd j, t₁ fd ≠ some (.writeEnd j) := by
    intro fd j hfd
    rcases hg.new _ _ hfd with hfd | hf | hf
    · exact hW.closed fd j hfd
    · cases hf
    · cases hf
  -- the descriptor that the command reads from
  have hin : t₁ (if 0 < i then { c₁ with inFd := s.pipeRead } else c₁).inFd = some (inFile i c) ∧
      (inFile i c = .before → (if 0 < i then { c₁ with inFd := s.pipeRead } else c₁).inFd = 0) := by
    unfold inFile
    split_ifs with hpos
    · exact ⟨hg.kept _ _ (hW.pipe hpos hi), nofun⟩
    · refine ⟨hsrc, fun hb => hstd ?_⟩
      unfold source at hb
      split_ifs at hb with hr
      simpa using hr
  generalize hc₂ : (if 0 < i then { c₁ with inFd := s.pipeRead } else c₁ : Cmd) = c₂ at h hin
  have hout₂ : c₂.outFd = c₁.outFd := by rw [← hc₂]; split_ifs <;> rfl
  by_cases hn : i + 1 < n
  · rw [if_pos hn] at h
    simp only [Option.bind_eq_some_iff] at h
    obtain ⟨t₂, hread, t₃, hwrite, heq⟩ := h
    cases heq
    obtain ⟨hg₂, hf₂⟩ := openFd_grows hread
    obtain ⟨hg₃, hf₃⟩ := openFd_grows hwrite
    have hw₂ : ∀ fd j, t₂ fd ≠ some (.writeEnd j) := by
      intro fd j hfd
      rcases hg₂.new _ _ hfd with hfd | hf
      · exact hw₁ fd j hfd
      · cases hf
    have hall : ∀ fd f, t₁ fd = some f → t₃ fd = some f :=
      fun fd f hf => hg₃.kept fd f (hg₂.kept fd f hf)
    have hw₃ : ∀ fd j, t₃ fd = some (.writeEnd j) → fd = k.writeFd i ∧ j = i := by
      intro fd j hfd
      obtain ⟨hfree, rfl⟩ := openFd_some hwrite
      rw [Function.update_apply] at hfd
      split_ifs at hfd with heq
      · cases hfd; exact ⟨heq, rfl⟩
      · exact absurd hfd (hw₂ fd j)
    have h0 := hall 0 _ (hg.kept 0 _ hW.stdin)
    have h1 := hall 1 _ (hg.kept 1 _ hW.stdout)
    constructor
    · -- closing the writing end leaves the rest
      have hclosed : ∀ fd f, t₃ fd = some f → f ≠ .writeEnd i →
          closeFd t₃ (k.writeFd i) fd = some f := by
        intro fd f hf hne
        unfold closeFd
        rw [Function.update_of_ne, hf]
        rintro rfl
        rw [hf₃] at hf
        cases hf; exact hne rfl
      refine ⟨hclosed 0 _ h0 nofun, hclosed 1 _ h1 nofun, fun _ _ => ?_, fun fd j hfd => ?_⟩
      · exact hclosed _ _ (hg₃.kept _ _ hf₂) nofun
      · simp only [closeFd, Function.update_apply] at hfd
        split_ifs at hfd with heq
        exact heq (hw₃ fd j hfd).1
    · have hof : outFile n i c = .writeEnd i := if_pos hn
      refine ⟨_, rfl, childWired_of h0 h1 (hall _ _ hin.1) ?_ hin.2 ?_ hw₃⟩
      · rw [hof]; exact hf₃
      · rw [hof]; nofun
  · rw [if_neg hn] at h
    cases h
    have hof : outFile n i c = sink i c := if_neg hn
    refine ⟨⟨hg.kept _ _ hW.stdin, hg.kept _ _ hW.stdout, fun _ hlt => absurd hlt hn, hw₁⟩, _, rfl,
      childWired_of (hg.kept _ _ hW.stdin) (hg.kept _ _ hW.stdout) hin.1 ?_ hin.2 ?_
        fun fd j hfd => absurd hfd (hw₁ fd j)⟩
    · rw [hof, hout₂]; exact hsnk
    · rw [hof, hout₂]
      intro hb
      apply hstd'
      unfold sink at hb
      split_ifs at hb with hr
      simpa using hr

/-- **The commands from `i` on.** -/
theorem startAll_wired (hW : Wired n i s) (hi : i + cs.length = n) (h : startAll k n i cs s = some s') :
    (∀ fd j, s'.table fd ≠ some (.writeEnd j)) ∧ ∃ ts, s'.children = s.children ++ ts ∧
      ts.length = cs.length ∧ ∀ j c t, cs[j]? = some c → ts[j]? = some t →
        ChildWired n (i + j) c t := by
  induction cs generalizing i s with
  | nil =>
    cases h
    exact ⟨hW.closed, [], (List.append_nil _).symm, rfl, nofun⟩
  | cons c cs ih =>
    obtain ⟨s₁, hc, h⟩ := Option.bind_eq_some_iff.1 h
    rw [List.length_cons] at hi
    obtain ⟨hW₁, t, ht, hwired⟩ := startCmd_wired hW (by omega) hc
    obtain ⟨hclosed, ts, hts, hlen, hall⟩ := ih hW₁ (by omega) h
    refine ⟨hclosed, t :: ts, ?_, by rw [List.length_cons, List.length_cons, hlen], ?_⟩
    · rw [hts, ht, List.append_assoc]; rfl
    · intro j c' t' hc' ht'
      cases j with
      | zero => cases hc'; cases ht'; exact hwired
      | succ j => rw [show i + (j + 1) = i + 1 + j by omega]; exact hall j c' t' hc' ht'

variable {cmds : List Cmd} {entry : ℕ → Bool} {l : Launch}

/-- **Every pipeline is wired.** -/
theorem handleProcess_wired (h0 : entry 0 = true) (h1 : entry 1 = true)
    (h : handleProcess k cmds entry = some l) :
    (∀ fd j, l.table fd ≠ some (.writeEnd j)) ∧ l.children.length = cmds.length ∧
      ∀ i c t, cmds[i]? = some c → l.children[i]? = some t → ChildWired cmds.length i c t := by
  have hW : Wired cmds.length 0 ⟨fun fd => if entry fd then some .before else none, 0, []⟩ := by
    refine ⟨if_pos h0, if_pos h1, fun hlt => absurd hlt (Nat.lt_irrefl _), fun fd j hfd => ?_⟩
    dsimp only at hfd
    split_ifs at hfd
    cases hfd
  obtain ⟨hclosed, ts, hts, hlen, hall⟩ := startAll_wired hW (Nat.zero_add _) h
  rw [List.nil_append] at hts
  subst hts
  exact ⟨hclosed, hlen, fun i c t hc ht => Nat.zero_add i ▸ hall i c t hc ht⟩

/-- What is read from and written to each file: a pipe delivers what is written to it, and command `i`
writes to its descriptor `1` what it makes of its descriptor `0`. -/
structure Flow {α : Type*} (prog : ℕ → α → α) (read write : File → α) (l : Launch) : Prop where
  pipes : ∀ i, read (.readEnd i) = write (.writeEnd i)
  runs : ∀ i t f g, l.children[i]? = some t → t 0 = some f → t 1 = some g →
    write g = prog i (read f)

/-- **A pipeline is the composition of its commands**: the last one writes what all of them make, one
after the other, of what the first one reads. -/
theorem pipeline_composes {α : Type*} {prog : ℕ → α → α} {read write : File → α} {c₀ cₙ : Cmd}
    (h0 : entry 0 = true) (h1 : entry 1 = true) (h : handleProcess k cmds entry = some l)
    (hflow : Flow prog read write l) (hhead : cmds.head? = some c₀) (hlast : cmds.getLast? = some cₙ) :
    write (sink (cmds.length - 1) cₙ) =
      (List.range cmds.length).foldl (fun x i => prog i x) (read (source 0 c₀)) := by
  obtain ⟨-, hlen, hall⟩ := handleProcess_wired h0 h1 h
  have hstep : ∀ i c, cmds[i]? = some c →
      write (outFile cmds.length i c) = prog i (read (inFile i c)) := by
    intro i c hc
    have hi := (List.getElem?_eq_some_iff.1 hc).1
    rw [← hlen] at hi
    have hw := hall i c _ hc (List.getElem?_eq_getElem hi)
    exact hflow.runs i _ _ _ (List.getElem?_eq_getElem hi) hw.input hw.output
  -- the first commands, one by one
  have hfirst : ∀ i c, cmds[i]? = some c → write (outFile cmds.length i c) =
      (List.range (i + 1)).foldl (fun x i => prog i x) (read (source 0 c₀)) := by
    intro i
    induction i with
    | zero =>
      intro c hc
      rw [← List.head?_eq_getElem?, hhead] at hc
      cases hc
      exact hstep 0 c₀ (by rw [← List.head?_eq_getElem?, hhead])
    | succ i ih =>
      intro c hc
      have hi := (List.getElem?_eq_some_iff.1 hc).1
      have hprev := ih _ (List.getElem?_eq_getElem (Nat.lt_of_succ_lt hi))
      have hout : ∀ c', outFile cmds.length i c' = .writeEnd i := fun _ => if_pos hi
      have hin : inFile (i + 1) c = .readEnd i := if_pos (Nat.succ_pos i)
      rw [hstep (i + 1) c hc, hin, hflow.pipes, List.range_succ, List.foldl_append, ← hprev, hout]
      rfl
  rw [List.getLast?_eq_getElem?] at hlast
  have hn := (List.getElem?_eq_some_iff.1 hlast).1
  have hres := hfirst _ cₙ hlast
  rw [Nat.sub_add_cancel (by omega)] at hres
  rw [← hres, outFile, if_neg (by omega)]

/-- `a | b < in > out`: `b` reads from the pipe all the same. -/
def pipedRedirected : List Cmd :=
  [cmdInit ['a'], { cmdInit ['b'] with inRedirect := true, outRedirect := true }]

/-- The descriptors that are free one after the other. -/
def successive : Kernel where
  inputFd _ := 4
  outputFd _ := 5
  readFd _ := 3
  writeFd _ := 4

theorem pipedRedirected_runs : (handleProcess successive pipedRedirected standard).isSome = true := by
  decide

end OsLab.Shell
