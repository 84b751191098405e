import EventCore.ProjectionProgress

/-! The polls of one projection run: how many of them fail in a row before it gives up. -/
namespace EventCore
namespace PollThreshold

open ProjectionProgress

section Trailing

/-- Length of the final stretch of `true`. -/
def trailing (bs : List Bool) : ℕ := (bs.reverse.takeWhile id).length

@[simp] theorem trailing_nil : trailing [] = 0 := rfl

@[simp] theorem trailing_concat_true (bs : List Bool) :
    trailing (bs ++ [true]) = trailing bs+1 := by
  simp [trailing]

@[simp] theorem trailing_concat_false (bs : List Bool) : trailing (bs ++ [false]) = 0 := by
  simp [trailing]

theorem le_takeWhile_iff (n : ℕ) (bs : List Bool) :
    n ≤ (bs.takeWhile id).length ↔ List.replicate n true <+: bs := by
  induction bs generalizing n with
  | nil => cases n <;> simp [List.replicate_succ]
  | cons b bs ih =>
    cases n with
    | zero => simp
    | succ n =>
      cases b with
      | false => simp [List.replicate_succ]
      | true => simpa [List.replicate_succ] using ih n

theorem le_trailing_iff (n : ℕ) (bs : List Bool) :
    n ≤ trailing bs ↔ List.replicate n true <:+ bs := by
  rw [trailing,le_takeWhile_iff,← List.reverse_suffix,List.reverse_reverse,List.reverse_replicate]

/-- Somewhere `n` in a row are `true` exactly if some prefix ends with as many. -/
theorem infix_replicate_iff (n : ℕ) (bs : List Bool) :
    List.replicate n true <:+: bs ↔ ∃ l, l <+: bs ∧ n ≤ trailing l := by
  rw [List.infix_iff_suffix_prefix]
  constructor
  · rintro ⟨l,hsuffix,hbegins⟩
    exact ⟨l,hbegins,(le_trailing_iff n l).mpr hsuffix⟩
  · rintro ⟨l,hbegins,hle⟩
    exact ⟨l,(le_trailing_iff n l).mp hle,hbegins⟩

end Trailing

variable {P E X Err : Type}

def Accepts : ProjectionStep → ProjectionEffectResult E → Bool
  | .yield (.readEvents ..), .eventsRead _ => true
  | .yield (.loadCheckpoint _), .checkpointLoaded _ => true
  | .yield (.saveCheckpoint ..), .checkpointSaved _ => true
  | .yield (.sleep _), .slept => true
  | _, _ => false

def start (projector : Projector P E X Err) (setup : Setup P) :
    ProjectionPipeline P E X Err × ProjectionStep :=
  (ProjectionPipeline.new projector setup.self setup.hasCheckpointStore setup.pollMode
    setup.pollConfig setup.eventRetryConfig).step

/-- The shell loop: resume the pipeline with whatever the effect it yielded came to. -/
def system (projector : Projector P E X Err) (setup : Setup P) :
    Runs.System (ProjectionPipeline P E X Err × ProjectionStep) (ProjectionEffectResult E) where
  init s := s = start projector setup
  step s result := if Accepts s.2 result then some (s.1.resume result) else none

def pollResult : ProjectionEffectResult E → Option (Except String (List (E × Uuid)))
  | .eventsRead result => some result
  | _ => none

def pollsOf (results : List (ProjectionEffectResult E)) :
    List (Except String (List (E × Uuid))) :=
  results.filterMap pollResult

def failedPoll : Except String (List (E × Uuid)) → Bool
  | .error _ => true
  | .ok _ => false

def failures (results : List (ProjectionEffectResult E)) : List Bool :=
  (pollsOf results).map failedPoll

/-- The run is over, with the error of its last poll. -/
def StoppedByPolls (results : List (ProjectionEffectResult E)) (pending : ProjectionStep) : Prop :=
  ∃ e, (pollsOf results).getLast? = some (.error e) ∧
    pending = .done (.error (.failed ("failed to read events after max retries: " ++ e)))

/-- The run is stopped by its polls exactly once `max_consecutive_poll_failures` of them have
failed in a row: neither earlier nor later. -/
def StopsAtThreshold (projector : Projector P E X Err) (setup : Setup P)
    (results : List (ProjectionEffectResult E)) : Prop :=
  ∀ l, l <+: results → ∀ s,
    Runs.exec (system projector setup) (start projector setup) l = some s →
      (StoppedByPolls l s.2 ↔
        (setup.pollConfig.maxConsecutivePollFailures : ℕ) ≤ trailing (failures l))

section Counting

theorem failures_concat (l : List (ProjectionEffectResult E)) (r : ProjectionEffectResult E) :
    failures (l ++ [r]) = failures l ++ ((pollResult r).map failedPoll).toList := by
  cases h : pollResult r <;> simp [failures,pollsOf,h]

theorem trailing_failures_ok (l : List (ProjectionEffectResult E)) (events : List (E × Uuid)) :
    trailing (failures (l ++ [.eventsRead (.ok events)])) = 0 := by
  rw [failures_concat]
  exact trailing_concat_false _

theorem trailing_failures_error (l : List (ProjectionEffectResult E)) (e : String) :
    trailing (failures (l ++ [.eventsRead (.error e)])) = trailing (failures l)+1 := by
  rw [failures_concat]
  exact trailing_concat_true _

theorem failures_other {l : List (ProjectionEffectResult E)} {r : ProjectionEffectResult E}
    (h : pollResult r = none) : failures (l ++ [r]) = failures l := by
  simp [failures_concat,h]

theorem getLast?_pollsOf_error (l : List (ProjectionEffectResult E)) (e : String) :
    (pollsOf (l ++ [.eventsRead (.error e)])).getLast? = some (.error e) := by
  simp [pollsOf,pollResult]

theorem StoppedByPolls.trailing_pos {l : List (ProjectionEffectResult E)}
    {pending : ProjectionStep} (h : StoppedByPolls l pending) : 0 < trailing (failures l) := by
  obtain ⟨e,hlast,-⟩ := h
  obtain ⟨polls,hpolls⟩ := List.getLast?_eq_some_iff.mp hlast
  rw [failures,hpolls,List.map_append]
  exact (trailing_concat_true _).symm ▸ Nat.succ_pos _

end Counting

/-- Processing a page changes no configuration and ends in a phase beyond the polls. -/
structure LeftPage (p : ProjectionPipeline P E X Err)
    (r : ProjectionPipeline P E X Err × ProjectionStep) : Prop where
  fits : Fits r.2 r.1.phase
  leaves : r.1.phase.LeavesPage
  pollConfig : r.1.pollConfig = p.pollConfig

theorem LeftPage.finish {p p' : ProjectionPipeline P E X Err} (h : p'.pollConfig = p.pollConfig)
    (result : Except ProjectionError Unit) : LeftPage p (p'.finish result) :=
  ⟨.done,trivial,h⟩

theorem stepProcessing_leftPage (events remaining : List (E × Uuid)) (eventIndex retryCount : ℕ)
    (lastCheckpoint : Option Uuid) (ctx : X) (p : ProjectionPipeline P E X Err) :
    LeftPage p (ProjectionPipeline.stepProcessing events remaining eventIndex retryCount
      lastCheckpoint ctx p) := by
  have h := ProjectionPipeline.stepProcessing_processes events remaining eventIndex retryCount
    lastCheckpoint ctx p
  generalize ProjectionPipeline.stepProcessing events remaining eventIndex retryCount
    lastCheckpoint ctx p = r at h ⊢
  induction h with
  | ended => exact .finish rfl _
  | pollSleep => exact ⟨.pollSleep,trivial,rfl⟩
  | applied _ ih | skipped _ ih => exact ⟨ih.fits,ih.leaves,ih.pollConfig⟩
  | save => exact ⟨.save,trivial,rfl⟩
  | fatal | exhausted => exact .finish (by rfl) _
  | skipSave => exact ⟨.skipSave,trivial,rfl⟩
  | retrySleep => exact ⟨.retrySleep,trivial,rfl⟩

/-- The count a phase carries is the number of failures behind it. A poll can be awaited with `n`
of them on the count, so that only the next one is too many. -/
def Counts (n : ℕ) (results : List (ProjectionEffectResult E)) (pending : ProjectionStep) :
    ProjectionPhase E X → Prop
  | .awaitingEvents _ _ k | .awaitingPollFailureSleep _ _ k =>
    k = trailing (failures results) ∧ k ≤ n
  | .done => trailing (failures results) = 0 ∨
      trailing (failures results) = n+1 ∧ StoppedByPolls results pending
  | _ => trailing (failures results) = 0

structure PollInv (setup : Setup P) (results : List (ProjectionEffectResult E))
    (s : ProjectionPipeline P E X Err × ProjectionStep) : Prop where
  fits : Fits s.2 s.1.phase
  pollConfig : s.1.pollConfig = setup.pollConfig
  counts : Counts setup.pollConfig.maxConsecutivePollFailures results s.2 s.1.phase

variable {projector : Projector P E X Err} {setup : Setup P}
  {results : List (ProjectionEffectResult E)}

theorem counts_of_leaves {n : ℕ} {pending : ProjectionStep} {phase : ProjectionPhase E X}
    (hleaves : phase.LeavesPage) (h : trailing (failures results) = 0) :
    Counts n results pending phase := by
  cases phase with
  | awaitingEvents | awaitingPollFailureSleep => exact hleaves.elim
  | done => exact .inl h
  | _ => exact h

theorem LeftPage.pollInv {p : ProjectionPipeline P E X Err}
    {r : ProjectionPipeline P E X Err × ProjectionStep} (h : LeftPage p r)
    (hconfig : p.pollConfig = setup.pollConfig) (hcount : trailing (failures results) = 0) :
    PollInv setup results r :=
  ⟨h.fits,h.pollConfig.trans hconfig,counts_of_leaves h.leaves hcount⟩

theorem pollInv_start : PollInv setup [] (start projector setup) := by
  obtain ⟨self,hasStore,pollMode,pollConfig,eventRetryConfig⟩ := setup
  cases hasStore with
  | false => exact ⟨.read,rfl,rfl,Nat.zero_le _⟩
  | true => exact ⟨.load,rfl,rfl⟩

/-- A poll with `k` failures behind it. -/
theorem pollInv_stepPoll {p : ProjectionPipeline P E X Err} (c : Option Uuid) (ctx : X) {k : ℕ}
    (hconfig : p.pollConfig = setup.pollConfig) (hk : k = trailing (failures results))
    (hle : k ≤ setup.pollConfig.maxConsecutivePollFailures) :
    PollInv setup results (p.stepPoll c ctx k) := by
  refine ⟨?_,hconfig,hk,hle⟩
  cases c <;> exact .read

theorem PollInv.step {s s' : ProjectionPipeline P E X Err × ProjectionStep}
    {result : ProjectionEffectResult E} (h : PollInv setup results s)
    (hstep : (system projector setup).step s result = some s') :
    PollInv setup (results ++ [result]) s' := by
  obtain ⟨p,pending⟩ := s
  obtain ⟨hfits,hconfig,hcounts⟩ := h
  simp only [system] at hstep
  split_ifs at hstep with haccepts
  cases hstep
  simp only at hfits hconfig hcounts haccepts
  unfold ProjectionPipeline.resume
  generalize hphase : p.phase = phase at hfits hcounts
  -- one case for each phase that waits for a result
  cases hfits with
  | load =>
    cases result with
    | checkpointLoaded result =>
      have hcount : trailing (failures (results ++ [.checkpointLoaded result])) = 0 := by
        rw [failures_other rfl]
        exact hcounts
      cases result with
      | ok checkpoint => exact pollInv_stepPoll _ _ hconfig hcount.symm (Nat.zero_le _)
      | error e => exact (LeftPage.finish rfl _).pollInv hconfig hcount
    | _ => cases haccepts
  | read =>
    obtain ⟨hk,hle⟩ := hcounts
    cases result with
    | eventsRead result =>
      cases result with
      | ok events =>
        exact (stepProcessing_leftPage ..).pollInv hconfig (trailing_failures_ok _ _)
      | error e =>
        have hcount := trailing_failures_error results e
        simp only [ProjectionPipeline.resumePollFailure,hconfig]
        split_ifs with hmax
        · refine ⟨.done,hconfig,.inr ⟨?_,e,getLast?_pollsOf_error _ _,rfl⟩⟩
          omega
        · refine ⟨.pollFailureSleep,rfl,?_,?_⟩
          · rw [hcount,hk]
          · omega
    | _ => cases haccepts
  | save | skipSave =>
    cases result with
    | checkpointSaved result =>
      refine (stepProcessing_leftPage ..).pollInv hconfig ?_
      rw [failures_other rfl]
      exact hcounts
    | _ => cases haccepts
  | retrySleep =>
    cases result with
    | slept =>
      refine (stepProcessing_leftPage ..).pollInv hconfig ?_
      rw [failures_other rfl]
      exact hcounts
    | _ => cases haccepts
  | pollFailureSleep =>
    cases result with
    | slept =>
      refine pollInv_stepPoll _ _ hconfig ?_ hcounts.2
      rw [failures_other rfl]
      exact hcounts.1
    | _ => cases haccepts
  | pollSleep =>
    cases result with
    | slept =>
      refine pollInv_stepPoll _ _ hconfig ?_ (Nat.zero_le _)
      rw [failures_other rfl]
      exact hcounts.symm
    | _ => cases haccepts
  | done => cases haccepts

theorem pollInv_exec {s : ProjectionPipeline P E X Err × ProjectionStep}
    (hrun : Runs.exec (system projector setup) (start projector setup) results = some s) :
    PollInv setup results s := by
  induction results using List.reverseRecOn generalizing s with
  | nil =>
    cases hrun
    exact pollInv_start
  | append_singleton results result ih =>
    rw [Runs.exec_append] at hrun
    obtain ⟨t,ht,hstep⟩ := Option.bind_eq_some_iff.mp hrun
    rw [Runs.exec_cons] at hstep
    obtain ⟨u,hu,hend⟩ := Option.bind_eq_some_iff.mp hstep
    cases hend
    exact (ih ht).step hu

/-- One failure later than configured: the count is compared before it is incremented. -/
theorem stoppedByPolls_iff {s : ProjectionPipeline P E X Err × ProjectionStep}
    (hrun : Runs.exec (system projector setup) (start projector setup) results = some s) :
    StoppedByPolls results s.2 ↔
      trailing (failures results) = setup.pollConfig.maxConsecutivePollFailures+1 := by
  obtain ⟨hfits,-,hcounts⟩ := pollInv_exec hrun
  generalize s.1.phase = phase at hfits hcounts
  generalize s.2 = pending at hfits hcounts
  constructor
  · intro hstop
    have hpos := hstop.trailing_pos
    obtain ⟨e,-,rfl⟩ := hstop
    cases hfits with
    | done =>
      rcases hcounts with hzero | ⟨hcount,-⟩
      · omega
      · exact hcount
  · intro hcount
    cases hfits with
    | done =>
      rcases hcounts with hzero | ⟨-,hstop⟩
      · omega
      · exact hstop
    | read | pollFailureSleep =>
      obtain ⟨hk,hle⟩ := hcounts
      omega
    | _ =>
      have hzero : trailing (failures results) = 0 := hcounts
      omega

theorem exists_prefix_failures {bs : List Bool} (h : bs <+: failures results) :
    ∃ l, l <+: results ∧ failures l = bs := by
  obtain ⟨tail,htail⟩ := h
  obtain ⟨polls,polls',hpolls,rfl,-⟩ := List.map_eq_append_iff.mp htail.symm
  obtain ⟨l,l',rfl,rfl,-⟩ := List.filterMap_eq_append_iff.mp hpolls
  exact ⟨l,List.prefix_append l l',rfl⟩

theorem failures_of_begins {l : List (ProjectionEffectResult E)} (h : l <+: results) :
    failures l <+: failures results := by
  obtain ⟨tail,rfl⟩ := h
  exact ⟨failures tail,by simp [failures,pollsOf]⟩

theorem trailing_lt_of_ne {n : ℕ} (hn : 0 < n)
    (h : ∀ l, l <+: results → trailing (failures l) ≠ n) : trailing (failures results) < n := by
  induction results using List.reverseRecOn with
  | nil => exact hn
  | append_singleton results result ih =>
    have hlt := ih fun l hl => h l (hl.trans (List.prefix_append ..))
    have hne := h _ List.prefix_rfl
    cases hresult : pollResult result with
    | none => rwa [failures_other hresult]
    | some poll =>
      cases poll with
      | ok events =>
        rw [failures_concat,hresult]
        exact (trailing_concat_false _).symm ▸ hn
      | error e =>
        have hsucc : trailing (failures (results ++ [result])) = trailing (failures results)+1 := by
          rw [failures_concat,hresult]
          exact trailing_concat_true _
        omega

/-- Before the run stops, one poll more than the configured number of failures is made; so the
threshold is met exactly while the failures in a row stay below it. -/
theorem stopsAtThreshold_iff {s : ProjectionPipeline P E X Err × ProjectionStep}
    (hrun : Runs.exec (system projector setup) (start projector setup) results = some s) :
    StopsAtThreshold projector setup results ↔
      ¬List.replicate (setup.pollConfig.maxConsecutivePollFailures : ℕ) true <:+:
        failures results := by
  have hpos : 0 < (setup.pollConfig.maxConsecutivePollFailures : ℕ) :=
    setup.pollConfig.maxConsecutivePollFailures.pos
  rw [infix_replicate_iff]
  constructor
  · rintro hmeets ⟨bs,hbs,hle⟩
    obtain ⟨l,hl,rfl⟩ := exists_prefix_failures hbs
    refine absurd (trailing_lt_of_ne hpos fun l' hl' hcount => ?_) (not_lt.mpr hle)
    obtain ⟨tail,htail⟩ := hl'.trans hl
    rw [← htail,Runs.exec_append] at hrun
    obtain ⟨t,ht,-⟩ := Option.bind_eq_some_iff.mp hrun
    have hstop := (hmeets l' (hl'.trans hl) t ht).mpr hcount.ge
    have hlater := (stoppedByPolls_iff ht).mp hstop
    omega
  · intro hnone l hl t ht
    have hlt : trailing (failures l) < setup.pollConfig.maxConsecutivePollFailures :=
      not_le.mp fun hle => hnone ⟨_,failures_of_begins hl,hle⟩
    rw [stoppedByPolls_iff ht]
    omega

def threeFailures : List (ProjectionEffectResult ℕ) :=
  [.eventsRead (.error "down"),.slept,.eventsRead (.error "down"),.slept,
    .eventsRead (.error "down")]

def threeSetup : Setup ℕ :=
  { totalSetup .continuous false with
    pollConfig := { maxConsecutivePollFailures := 3 } }

/-- The third failure does not stop the run: it sleeps, to poll for a fourth time. -/
theorem three_failures_not_stopped : ¬StopsAtThreshold total threeSetup threeFailures := by
  intro hmeets
  obtain ⟨e,-,hpending⟩ := (hmeets threeFailures List.prefix_rfl _ rfl).mpr (by decide)
  cases hpending

theorem stopsAtThreshold_iff_three :
    StopsAtThreshold total threeSetup threeFailures ↔
      ¬List.replicate (threeSetup.pollConfig.maxConsecutivePollFailures : ℕ) true <:+:
        failures threeFailures :=
  stopsAtThreshold_iff rfl

end PollThreshold
end EventCore
