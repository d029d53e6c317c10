import OsLab.Malloc.Invariant

/-!
# The peak of the page usage

`endScope` prints `MAX_PAGES_USED` as the maximal page usage, but `createList` sets it to the usage
of the moment, also when more pages were in use before.

* `withPeak_step`: one call keeps the value the peak exactly when it is no `createList` that leaves
  fewer pages in use than were in use before.
* `peak_iff`: the value is the peak throughout a run exactly when the run has no such call.
-/

namespace OsLab.Malloc

open Lib

variable {c : Config} {s t : State} {n size : ℕ} {name : String}

/-- `capacity / PAGE_SIZE - num_free_pages`. -/
def usage (s : State) : ℕ := numPages s - s.mem.numFreePages

/-- `MAX_PAGES_USED` is the greatest usage in the states of the run `ops` from `s₀`. -/
def IsPeak (c : Config) (s₀ : State) (ops : List Op) (maxPagesUsed : ℕ) : Prop :=
  IsGreatest (Seen (step c) usage s₀ ops) maxPagesUsed

/-- The allocator with a record of the greatest usage so far. -/
def withPeak (c : Config) : State × ℕ → Op → Option (State × ℕ) :=
  record (step c) fun _ _ t peak => max peak (usage t)

/-- A `createList` that succeeds brings the usage to at least its peak so far. -/
def ReachesPeak (x : State × ℕ) (op : Op) : Prop :=
  ∀ size name, op = .createList size name → CanCreate x.1 size name →
    x.2 ≤ usage x.1 + numPagesReq size

theorem numFreePages_le (hP : PageInv s) : s.mem.numFreePages ≤ numPages s := by
  have h := hP.total
  have hc := hP.count
  unfold allPages freePages at h
  rw [List.length_append, List.length_map] at h
  omega

theorem Same.usage (h : Same s t) : usage t = usage s := by
  unfold Malloc.usage Malloc.numPages; rw [h.capacity, h.numPages]

theorem usage_created (hP : PageInv s) (hn : n ≤ s.mem.numFreePages) :
    usage (created s n size name) = usage s + n := by
  have hle := numFreePages_le hP
  unfold usage numPages at *
  simp only [created]
  omega

/-- `createList` stores the usage. -/
theorem maxPagesUsed_created (hP : PageInv s) (hn : n ≤ s.mem.numFreePages) :
    (created s n size name).maxPagesUsed = usage s + n := by
  have hle := numFreePages_le hP
  have hsmall := hP.small
  unfold usage numPages at *
  simp only [created]
  unfold u64
  rw [show s.mem.capacity / pageSize + 2 ^ 64 - (s.mem.numFreePages - n) =
    s.mem.capacity / pageSize - s.mem.numFreePages + n + 2 ^ 64 by omega, Nat.add_mod_right]
  exact Nat.mod_eq_of_lt (by omega)

theorem usage_freed {k : Key} {e : ℕ} (hI : TableInv c s) (hP : PageInv s)
    (hf : find s.listMap k = some e) : usage (freed s k e) ≤ usage s := by
  have h1 := (hP.freed hI hf).count
  have h2 := (pushAll_perm (pagesOf s e) s.mem.freeList).length_eq
  have h3 := hP.count
  rw [List.length_append] at h2
  have hcap : numPages (freed s k e) = numPages s := rfl
  have hlist : (freed s k e).mem.freeList =
      (pagesOf s e).foldl (fun q p => push q (toInt p)) s.mem.freeList := rfl
  rw [hlist] at h1
  unfold usage
  omega

/-- **One call.** Only a `createList` that succeeds sets `MAX_PAGES_USED` or takes pages. -/
theorem usage_step {op : Op} (hI : TableInv c s) (hP : PageInv s) (h : step c s op = some t) :
    (t.maxPagesUsed = s.maxPagesUsed ∧ usage t ≤ usage s ∧
      ∀ size name, op = .createList size name → ¬ CanCreate s size name) ∨
    ∃ size name, op = .createList size name ∧ CanCreate s size name ∧
      t.maxPagesUsed = usage s + numPagesReq size ∧ usage t = usage s + numPagesReq size := by
  rcases step_cases hI.keys h with ⟨hs, hfails⟩ | ⟨size, name, hop, hc, -, -, rfl⟩ |
    ⟨k, e, rfl, -, -, rfl⟩ | ⟨name, e, rfl, hf, rfl⟩
  · exact Or.inl ⟨hs.maxUsed, hs.usage.le, hfails⟩
  · exact Or.inr ⟨size, name, hop, hc, maxPagesUsed_created hP hc.room, usage_created hP hc.room⟩
  · exact Or.inl ⟨rfl, le_rfl, nofun⟩
  · exact Or.inl ⟨rfl, usage_freed hI hP hf, nofun⟩

/-- The value is the peak after a call exactly when it was the peak before it and the call reaches
the peak. -/
theorem withPeak_step {x y : State × ℕ} {op : Op} (hI : TableInv c x.1) (hP : PageInv x.1)
    (hle : usage x.1 ≤ x.2) (hmax : x.1.maxPagesUsed = x.2) (h : withPeak c x op = some y) :
    y.1.maxPagesUsed = y.2 ↔ ReachesPeak x op := by
  obtain ⟨t, ht, rfl⟩ := Option.map_eq_some_iff.1 h
  simp only
  rcases usage_step hI hP ht with ⟨h1, h2, h3⟩ | ⟨size, name, rfl, hc, h1, h2⟩
  · rw [h1, hmax, max_eq_left (h2.trans hle)]
    exact iff_of_true rfl fun size name hop hc => absurd hc (h3 size name hop)
  · -- the usage after the call is the value that is stored
    rw [h1, h2]
    constructor
    · rintro heq size' name' ⟨⟩ -
      rw [heq]; exact le_max_left _ _
    · intro hr
      exact (max_eq_right (hr size name rfl hc)).symm

theorem usage_init (size : ℕ) : usage (createMem c size) = 0 := by
  unfold usage numPages
  exact Nat.sub_self _

/-- The recorded value is the peak. -/
theorem isPeak_iff {s₀ : State} {ops : List Op} {peak m : ℕ}
    (h : run (withPeak c) (s₀, usage s₀) ops = some (t, peak)) : IsPeak c s₀ ops m ↔ m = peak := by
  have hg : IsGreatest (Seen (step c) usage s₀ ops) peak := record_isGreatest h
  constructor
  · intro hm
    exact hm.unique hg
  · rintro rfl
    exact hg

/-- **When `MAX_PAGES_USED` is a peak.** At every point of a run it is the greatest usage so far,
if and only if every `createList` of the run that succeeds brings the usage to at least the
greatest usage before it. -/
theorem peak_iff (c : Config) (size : ℕ) (ops : List Op) :
    (∀ pre s, pre <+: ops → run (step c) (createMem c size) pre = some s →
      IsPeak c (createMem c size) pre s.maxPagesUsed) ↔
      Along (withPeak c) ReachesPeak (createMem c size, usage (createMem c size)) ops := by
  have hsteps : ∀ x op y, (TableInv c x.1 ∧ PageInv x.1) ∧ usage x.1 ≤ x.2 →
      withPeak c x op = some y → (TableInv c y.1 ∧ PageInv y.1) ∧ usage y.1 ≤ y.2 := by
    intro x op y hx h
    obtain ⟨t, ht, rfl⟩ := Option.map_eq_some_iff.1 h
    exact ⟨inv_step hx.1.1 hx.1.2 ht, le_max_right _ _⟩
  have hinit : TableInv c (createMem c size) ∧ PageInv (createMem c size) :=
    ⟨tableInv_init size, pageInv_init size⟩
  have hiff : (∀ pre s, pre <+: ops → run (step c) (createMem c size) pre = some s →
      IsPeak c (createMem c size) pre s.maxPagesUsed) ↔
      Throughout (withPeak c) (fun x => x.1.maxPagesUsed = x.2)
        (createMem c size, usage (createMem c size)) ops := by
    rw [throughout_iff_run]
    constructor
    · intro h pre y hpre hr
      exact (isPeak_iff hr).1 (h pre y.1 hpre ((run_record _).2 ⟨y.2, hr⟩))
    · intro h pre s hpre hr
      obtain ⟨peak, hp⟩ := (run_record (h := fun _ _ t peak => max peak (usage t))
        (usage (createMem c size))).1 hr
      exact (isPeak_iff hp).2 (h pre (s, peak) hpre hp)
  rw [hiff]
  constructor
  · refine along_of_throughout
      (I := fun x => (TableInv c x.1 ∧ PageInv x.1) ∧ usage x.1 ≤ x.2) hsteps ?_ ⟨hinit, le_rfl⟩
    rintro x op y ⟨hx, hle⟩ hmax hmax' h
    exact (withPeak_step hx.1 hx.2 hle hmax h).1 hmax'
  · intro h
    refine throughout_of_along
      (I := fun x => ((TableInv c x.1 ∧ PageInv x.1) ∧ usage x.1 ≤ x.2) ∧ x.1.maxPagesUsed = x.2)
      (fun _ hx => hx.2) ?_ ⟨⟨hinit, le_rfl⟩, (usage_init size).symm⟩ h
    rintro x op y ⟨⟨hx, hle⟩, hmax⟩ hC hst
    exact ⟨hsteps x op y ⟨hx, hle⟩ hst, (withPeak_step hx.1 hx.2 hle hmax hst).2 hC⟩

/-- Two pages are in use, then none, then one: the maximum is said to be one. -/
theorem peak_forgotten : ∃ s,
    run (step .shipped) (createMem .shipped 400) [.initScope, .createList 40 "list1",
      .freeList "list1", .createList 1 "list2"] = some s ∧
      ¬ IsPeak .shipped (createMem .shipped 400) [.initScope, .createList 40 "list1",
        .freeList "list1", .createList 1 "list2"] s.maxPagesUsed := by
  have hrun : (run (withPeak .shipped) (createMem .shipped 400, usage (createMem .shipped 400))
      [.initScope, .createList 40 "list1", .freeList "list1", .createList 1 "list2"]).map
        (fun x => (x.1.maxPagesUsed, x.2)) = some (1, 2) := by decide +kernel
  obtain ⟨⟨s, peak⟩, hs, heq⟩ := Option.map_eq_some_iff.1 hrun
  simp only [Prod.mk.injEq] at heq
  refine ⟨s, (run_record _).2 ⟨peak, hs⟩, ?_⟩
  intro h
  have := (isPeak_iff hs).1 h
  omega

end OsLab.Malloc
