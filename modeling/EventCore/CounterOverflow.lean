import EventCore.AttemptCounters
import EventCore.ExecutorEquality

/-! The additions to the attempt counters over all runs of both executors: which of them overflow,
and that a run in which none does is one with an unbounded counter. -/
namespace EventCore
namespace AttemptCounters

open Runs SnapshotReplay ExecuteLoop SnapshotExecutor

variable {Any Raw Value E S : Type}

section Pipeline

def OnlyPhase (p : ExecutePipeline Any Raw Value E S)
    (r : ExecutePipeline Any Raw Value E S × PipelineStep Any Raw) : Prop :=
  ∃ phase step, r = ({ p with phase := phase },step)

theorem finish_onlyPhase (p : ExecutePipeline Any Raw Value E S) (outcome : PipelineOutcome) :
    OnlyPhase p (p.finish outcome) := ⟨_,_,rfl⟩

theorem stepReading_onlyPhase (p : ExecutePipeline Any Raw Value E S) (r : Reading S) :
    OnlyPhase p (p.stepReading r) := by
  rcases p.stepReading_cases r with ⟨_,_,_,h⟩ | ⟨_,_,_,_,h⟩ | ⟨_,h⟩
  · exact ⟨_,_,h⟩
  · exact ⟨_,_,h⟩
  · exact h ▸ finish_onlyPhase p _

theorem U32Pipeline.lift_unbounded {p : U32Pipeline Any Raw Value E S}
    {r : ExecutePipeline Any Raw Value E S × PipelineStep Any Raw}
    (h : OnlyPhase p.unbounded r) : ((p.lift r).1.unbounded,(p.lift r).2) = r := by
  obtain ⟨phase,step,rfl⟩ := h
  rfl

variable {overflowChecks : Bool} {command : CommandLogic Any Raw Value E S} {policy : U32Policy}

theorem start_unbounded (command : CommandLogic Any Raw Value E S) (policy : U32Policy) :
    (U32Execution.start command policy).unbounded = .start command policy.unbounded := by
  have hlift := U32Pipeline.lift_unbounded (p := .new command policy)
    (stepReading_onlyPhase _ (ExecutePipeline.initReading command))
  exact congrArg (fun r => (⟨r.1,r.2,[]⟩ : Execution Any Raw Value E S)) hlift

/-- The phase in which the pipeline waits for the result of an effect. -/
def Awaits (phase : Phase S) : StoreEffect Any Raw → Prop
  | .readStream streamId => ∃ r, phase = .awaitingStreamRead streamId r 0
  | .appendEvents _ => ∃ streamIds, phase = .awaitingAppend streamIds
  | .sleep _ => phase = .awaitingRetrySleep

theorem phase_awaits {command : CommandLogic Any Raw Value E S} {policy : RetryPolicy}
    {x : Execution Any Raw Value E S} (h : Reachable (system command policy) x)
    {effect : StoreEffect Any Raw} (hstep : x.step = .yield effect) :
    Awaits x.pipeline.phase effect := by
  obtain ⟨conflicts,current,hist⟩ := exists_history h
  have hdoing := hist.doing
  rw [hstep] at hdoing
  cases hdoing with
  | reading _ _ hphase heq =>
    cases heq
    exact ⟨_,hphase⟩
  | appending _ hphase heq =>
    cases heq
    exact ⟨_,hphase⟩
  | sleeping hphase heq =>
    cases heq
    exact hphase
  | _ => contradiction

/-- What every run keeps of its counter, and the run with an unbounded counter that it is as long
as nothing has overflowed. -/
structure Tracked (command : CommandLogic Any Raw Value E S) (policy : U32Policy)
    (x : U32Execution Any Raw Value E S) : Prop where
  ofPolicy : x.pipeline.policy = policy
  counts : Counts policy x.pipeline.attempt x.pipeline.operands (appends x.calls)
  retrying : ∀ effect, x.step = .yield effect →
    Retrying policy x.pipeline.attempt x.pipeline.operands (appends x.calls)
  unbounded : u32Max ∉ x.pipeline.operands → Reachable (system command policy.unbounded) x.unbounded

theorem tracked_start (command : CommandLogic Any Raw Value E S) (policy : U32Policy) :
    Tracked command policy (.start command policy) where
  ofPolicy := rfl
  counts := (retrying_start policy).counts
  retrying _ _ := retrying_start policy
  unbounded _ := .init (start_unbounded command policy)

variable {x y : U32Execution Any Raw Value E S} {effect : StoreEffect Any Raw}

theorem Tracked.reachable (h : Tracked command policy x) (hstep : x.step = .yield effect) :
    Reachable (system command policy.unbounded) x.unbounded :=
  h.unbounded (h.retrying effect hstep).no_overflow

theorem Tracked.lift (h : Tracked command policy x) (hstep : x.step = .yield effect)
    {r : ExecutePipeline Any Raw Value E S × PipelineStep Any Raw}
    (hr : OnlyPhase x.pipeline.unbounded r) {calls : List (Call Any Raw E)}
    (hcalls : appends calls = appends x.calls) (answer : Answer E)
    (hdispatch : x.unbounded.dispatch answer = some ⟨r.1,r.2,calls⟩) :
    Tracked command policy ⟨(x.pipeline.lift r).1,(x.pipeline.lift r).2,calls⟩ where
  ofPolicy := h.ofPolicy
  counts := hcalls ▸ h.counts
  retrying _ _ := hcalls ▸ h.retrying effect hstep
  unbounded _ := by
    refine (h.reachable hstep).step (l := answer) trivial ?_
    have hlift := U32Pipeline.lift_unbounded hr
    rw [← hlift] at hdispatch
    exact hdispatch

theorem Tracked.read (h : Tracked command policy x) {streamId : StreamId}
    (hstep : x.step = .yield (.readStream streamId))
    {opened : Except EventStoreError (List (Except EventStoreError E))}
    (hdispatch : x.dispatch overflowChecks (.opened opened) = some y) :
    Tracked command policy y := by
  have honly : OnlyPhase x.pipeline.unbounded (x.pipeline.unbounded.pumpStreamReads id opened) := by
    obtain ⟨r,hphase⟩ := phase_awaits (h.reachable hstep) hstep
    rw [ExecutePipeline.pumpStreamReads_eq id (p := x.pipeline.unbounded) hphase]
    cases readAll opened with
    | error e => exact finish_onlyPhase _ _
    | ok events => exact stepReading_onlyPhase _ _
  simp only [U32Execution.dispatch,hstep,Option.some.injEq] at hdispatch
  subst hdispatch
  refine h.lift hstep honly (by simp) (.opened opened) ?_
  simp only [Execution.dispatch,U32Execution.unbounded,hstep]

theorem Tracked.wake (h : Tracked command policy x) {durationMs : ℕ}
    (hstep : x.step = .yield (.sleep durationMs))
    (hdispatch : x.dispatch overflowChecks .slept = some y) : Tracked command policy y := by
  have hphase : x.pipeline.phase = .awaitingRetrySleep := phase_awaits (h.reachable hstep) hstep
  have honly : OnlyPhase x.pipeline.unbounded (x.pipeline.unbounded.resume id .slept) := by
    have hresume : x.pipeline.unbounded.resume id .slept =
        x.pipeline.unbounded.stepReading (ExecutePipeline.initReading x.pipeline.command) := by
      simp only [ExecutePipeline.resume,U32Pipeline.unbounded,hphase]
    exact hresume ▸ stepReading_onlyPhase _ _
  simp only [U32Execution.dispatch,hstep,U32Pipeline.resume,hphase,Option.some.injEq] at hdispatch
  subst hdispatch
  refine h.lift hstep honly rfl .slept ?_
  simp only [Execution.dispatch,U32Execution.unbounded,hstep]

theorem U32Pipeline.resumeAppended_settles (overflowChecks : Bool)
    (p : U32Pipeline Any Raw Value E S) (streamIds : List StreamId) (applyJitter : ℕ → ℕ)
    (result : Except EventStoreError Unit)
    {r : U32Pipeline Any Raw Value E S × PipelineStep Any Raw}
    (hr : p.resumeAppended overflowChecks applyJitter streamIds result = r) :
    ∃ settled, Settles overflowChecks "attempts are 1-based" p.policy applyJitter p.attempt
        result settled ∧
      r.1.policy = p.policy ∧ r.1.attempt = settled.2.next p.attempt ∧
      r.1.operands = p.operands ++ settled.1 ∧
      ∀ effect, r.2 = .yield effect → settled.2.goesOn = true := by
  refine ⟨_,settleAppend_settles overflowChecks "attempts are 1-based"
    "attempt_number is always > 0" p.policy applyJitter p.attempt result,?_⟩
  unfold resumeAppended at hr
  subst hr
  generalize settleAppend overflowChecks "attempts are 1-based" "attempt_number is always > 0"
    p.policy applyJitter p.attempt result = settled
  obtain ⟨operands,verdict⟩ := settled
  cases verdict <;> simp [Verdict.next,Verdict.goesOn]

/-- The arms behind an append do with the counter what they do with an unbounded one, unless an
addition overflows. -/
theorem U32Pipeline.resumeAppended_unbounded (overflowChecks : Bool)
    {p : U32Pipeline Any Raw Value E S} {streamIds : List StreamId}
    (hphase : p.phase = .awaitingAppend streamIds)
    (applyJitter : ℕ → ℕ) (result : Except EventStoreError Unit)
    {r : U32Pipeline Any Raw Value E S × PipelineStep Any Raw}
    (hr : p.resumeAppended overflowChecks applyJitter streamIds result = r)
    (hno : u32Max ∉ r.1.operands) :
    (r.1.unbounded,r.2) = p.unbounded.resume applyJitter (.eventsAppended result) := by
  have hs := settleAppend_settles overflowChecks "attempts are 1-based"
    "attempt_number is always > 0" p.policy applyJitter p.attempt result
  have hwaiting : p.unbounded.phase = .awaitingAppend streamIds := hphase
  unfold resumeAppended at hr
  subst hr
  generalize settleAppend overflowChecks "attempts are 1-based" "attempt_number is always > 0"
    p.policy applyJitter p.attempt result = settled at hs hno
  cases hs with
  | success => simp [ExecutePipeline.resume,ExecutePipeline.finish,unbounded,hphase]
  | overflow h => simp [h] at hno
  | retry h =>
    have hlt := UInt32.lt_iff_toNat_lt.mp h
    simp [ExecutePipeline.resume,ExecutePipeline.resumeConflict,unbounded,U32Policy.unbounded,
      hphase,hlt,toNat_succ (ne_u32Max h)]
  | exhausted h =>
    have hle := UInt32.le_iff_toNat_le.mp (UInt32.not_lt.mp h)
    simp [ExecutePipeline.resume,ExecutePipeline.resumeConflict,ExecutePipeline.finish,unbounded,
      U32Policy.unbounded,hphase,hle]
  | failed h =>
    rw [resume_failed applyJitter hwaiting h]
    rfl

theorem Tracked.append (h : Tracked command policy x) {writes : StreamWrites Any Raw}
    (hstep : x.step = .yield (.appendEvents writes)) {result : Except EventStoreError Unit}
    {applyJitter : ℕ → ℕ}
    (hdispatch : x.dispatch overflowChecks (.appended result applyJitter) = some y) :
    Tracked command policy y := by
  obtain ⟨streamIds,hphase⟩ := phase_awaits (h.reachable hstep) hstep
  have hwaiting : x.pipeline.phase = .awaitingAppend streamIds := hphase
  obtain ⟨settled,hs,hpolicy,hattempt,hoperands,hyield⟩ :=
    x.pipeline.resumeAppended_settles overflowChecks streamIds applyJitter result rfl
  have hunbounded := U32Pipeline.resumeAppended_unbounded overflowChecks hwaiting applyJitter
    result rfl
  rw [h.ofPolicy] at hs
  obtain ⟨hcounts,hretrying⟩ := (h.retrying _ hstep).settle hs
  have happends : appends (x.calls ++ [.append writes result]) = appends x.calls ++ [result] := by
    rw [appends_append]
    rfl
  simp only [U32Execution.dispatch,hstep,U32Pipeline.resume,hwaiting,Option.some.injEq] at hdispatch
  subst hdispatch
  constructor
  · exact hpolicy.trans h.ofPolicy
  · rw [hattempt,hoperands,happends]
    exact hcounts
  · intro effect heffect
    rw [hattempt,hoperands,happends]
    exact hretrying (hyield effect heffect)
  · intro hno
    refine (h.reachable hstep).step (l := .appended result applyJitter) trivial ?_
    simp only [system,Execution.dispatch,U32Execution.unbounded,hstep,← hunbounded hno]

theorem Tracked.dispatch (h : Tracked command policy x) {answer : Answer E}
    (hdispatch : x.dispatch overflowChecks answer = some y) : Tracked command policy y := by
  cases hstep : x.step with
  | yield effect =>
    cases effect with
    | readStream streamId =>
      cases answer with
      | opened opened => exact h.read hstep hdispatch
      | appended | slept => simp [U32Execution.dispatch,hstep] at hdispatch
    | appendEvents writes =>
      cases answer with
      | appended result applyJitter => exact h.append hstep hdispatch
      | opened | slept => simp [U32Execution.dispatch,hstep] at hdispatch
    | sleep durationMs =>
      cases answer with
      | slept => exact h.wake hstep hdispatch
      | opened | appended => simp [U32Execution.dispatch,hstep] at hdispatch
  | waitForResult | done | panicked => simp [U32Execution.dispatch,hstep] at hdispatch

theorem tracked (h : Reachable (pipelineSystem overflowChecks command policy) x) :
    Tracked command policy x :=
  h.invariant (fun _ hinit => hinit ▸ tracked_start command policy)
    fun _ _ _ ih _ hdispatch => ih.dispatch hdispatch

theorem reachable_unbounded (h : Reachable (pipelineSystem overflowChecks command policy) x)
    (hno : u32Max ∉ x.pipeline.operands) :
    Reachable (system command policy.unbounded) x.unbounded :=
  (tracked h).unbounded hno

end Pipeline

section SnapshotRuns

variable {overflowChecks : Bool} {command : CommandLogic Any Raw Value E S} {policy : U32Policy}
  {run : U32SnapshotRun Any Raw}

/-- The same of the loop of `execute_with_snapshot`. -/
structure TrackedRun (policy : U32Policy) (run : U32SnapshotRun Any Raw) : Prop where
  counts : Counts policy run.attempt run.operands run.appendResults
  retrying : run.ending = none → Retrying policy run.attempt run.operands run.appendResults

theorem trackedRun_start (policy : U32Policy) : TrackedRun policy (.start Any Raw) where
  counts := (retrying_start policy).counts
  retrying _ := retrying_start policy

theorem TrackedRun.ends (h : TrackedRun policy run) (ending : Ending) :
    TrackedRun policy (run.ends ending) where
  counts := h.counts
  retrying hending := by cases hending

theorem U32SnapshotRun.append_settles (overflowChecks : Bool) (streamIds : List StreamId)
    (policy : U32Policy) (run : U32SnapshotRun Any Raw) (writes : StreamWrites Any Raw)
    (result : Except EventStoreError Unit) (applyJitter : ℕ → ℕ) {run' : U32SnapshotRun Any Raw}
    (hrun : run.append overflowChecks streamIds policy writes result applyJitter = run') :
    ∃ settled, Settles overflowChecks "attempts are 1-based" policy applyJitter run.attempt
        result settled ∧
      run'.attempt = settled.2.next run.attempt ∧ run'.operands = run.operands ++ settled.1 ∧
      run'.appendResults = run.appendResults ++ [result] ∧
      (run.ending = none → run'.ending = none → settled.2.goesOn = true) := by
  refine ⟨_,settleAppend_settles overflowChecks "attempts are 1-based"
    "attempt number is non-zero" policy applyJitter run.attempt result,?_⟩
  unfold append at hrun
  subst hrun
  generalize settleAppend overflowChecks "attempts are 1-based" "attempt number is non-zero"
    policy applyJitter run.attempt result = settled
  obtain ⟨operands,verdict⟩ := settled
  cases verdict <;> simp [Verdict.next,Verdict.goesOn,ends]

theorem TrackedRun.append (h : TrackedRun policy run) (hending : run.ending = none)
    (streamIds : List StreamId) (writes : StreamWrites Any Raw)
    (result : Except EventStoreError Unit) (applyJitter : ℕ → ℕ) :
    TrackedRun policy
      (run.append overflowChecks streamIds policy writes result applyJitter) := by
  obtain ⟨settled,hs,hattempt,hoperands,hresults,hgoes⟩ :=
    run.append_settles overflowChecks streamIds policy writes result applyJitter rfl
  obtain ⟨hcounts,hretrying⟩ := (h.retrying hending).settle hs
  constructor
  · rw [hattempt,hoperands,hresults]
    exact hcounts
  · intro hnone
    rw [hattempt,hoperands,hresults]
    exact hretrying (hgoes hending hnone)

section Steps

variable (overflowChecks : Bool) (policy : U32Policy) {pass : Pass Value E}

theorem U32SnapshotRun.step_error (hending : run.ending = none) {e : CommandError}
    (hwrites : pass.writes command = .error (.error e)) :
    run.step overflowChecks command policy pass = some (run.ends (.finished (.error e))) := by
  simp only [step,hending,hwrites]

theorem U32SnapshotRun.step_panicked (hending : run.ending = none) {message : String}
    (hwrites : pass.writes command = .error (.panicked message)) :
    run.step overflowChecks command policy pass = some (run.ends (.panicked message)) := by
  simp only [step,hending,hwrites]

theorem U32SnapshotRun.step_ok (hending : run.ending = none) {writes : StreamWrites Any Raw}
    (hwrites : pass.writes command = .ok writes) :
    run.step overflowChecks command policy pass =
      some (run.append overflowChecks command.streamDeclarations.streams policy writes
        pass.appendResult pass.applyJitter) := by
  simp only [step,hending,hwrites]

end Steps

theorem TrackedRun.step (h : TrackedRun policy run) {pass : Pass Value E}
    {run' : U32SnapshotRun Any Raw}
    (hstep : run.step overflowChecks command policy pass = some run') : TrackedRun policy run' := by
  cases hending : run.ending with
  | some ending => simp [U32SnapshotRun.step,hending] at hstep
  | none =>
    cases hwrites : pass.writes command with
    | error stop =>
      cases stop with
      | error e =>
        rw [U32SnapshotRun.step_error overflowChecks policy hending hwrites] at hstep
        exact Option.some.inj hstep ▸ h.ends _
      | panicked message =>
        rw [U32SnapshotRun.step_panicked overflowChecks policy hending hwrites] at hstep
        exact Option.some.inj hstep ▸ h.ends _
      | outOfFuel => simp [U32SnapshotRun.step,hending,hwrites] at hstep
    | ok writes =>
      rw [U32SnapshotRun.step_ok overflowChecks policy hending hwrites] at hstep
      exact Option.some.inj hstep ▸ h.append hending _ _ _ _

theorem trackedRun (h : Reachable (snapshotSystem overflowChecks command policy) run) :
    TrackedRun policy run :=
  h.invariant (fun _ hinit => hinit ▸ trackedRun_start policy) fun _ _ _ ih _ hstep => ih.step hstep

/-- The pass of a run in an environment, with the snapshot that is stored at its start. -/
def passOf (env : Environment E) (fuel : ℕ) (stored : Option (CommandStateSnapshot Value))
    (run : U32SnapshotRun Any Raw) : Pass Value E :=
  ⟨.ok stored,env.contents,fuel,.ok (),env.appendResult run.batches.length,
    env.applyJitter run.batches.length⟩

def U32SnapshotRun.unbounded (run : U32SnapshotRun Any Raw)
    (stored : Option (CommandStateSnapshot Value)) : SnapshotRun Any Raw Value :=
  ⟨run.attempt.toNat,stored,run.batches,run.retries⟩

def U32SnapshotRun.Shows (run : U32SnapshotRun Any Raw) (o : Observed Any Raw) : Prop :=
  run.ending = some o.ending ∧ run.batches = o.batches ∧ run.retries = o.retries

section Environments

variable {env : Environment E} {fuel : ℕ} {stored : Option (CommandStateSnapshot Value)}
  {o : Observed Any Raw}

variable (command) in
theorem writes_passOf (env : Environment E) (fuel : ℕ)
    (stored : Option (CommandStateSnapshot Value)) (run : U32SnapshotRun Any Raw) :
    (passOf env fuel stored run).writes command =
      match reconstructCommandSnapshot command env.contents fuel
        command.streamDeclarations.streams stored with
      | .ok r => (command.batch r.expectedVersions r.state).mapError .error
      | .error stop => .error stop := by
  simp only [Pass.writes,passOf,Except.mapError,bind,Except.bind]
  cases reconstructCommandSnapshot command env.contents fuel
      command.streamDeclarations.streams stored with
  | error stop => rfl
  | ok r => exact ite_self _

variable (Value) in
/-- The arms behind an append do with the counter what they do with an unbounded one, unless an
addition overflows. -/
theorem U32SnapshotRun.append_unbounded (overflowChecks : Bool) (streamIds : List StreamId)
    (policy : U32Policy) (run : U32SnapshotRun Any Raw) (writes : StreamWrites Any Raw)
    (result : Except EventStoreError Unit) (applyJitter : ℕ → ℕ) {run' : U32SnapshotRun Any Raw}
    (hrun : run.append overflowChecks streamIds policy writes result applyJitter = run') :
    u32Max ∈ run'.operands ∨
      match appendOutcome run.attempt.toNat result with
      | some outcome => run'.Shows ⟨.finished outcome,run.batches ++ [writes],run.retries⟩
      | none =>
        if run.attempt.toNat < policy.maxRetries.toNat then
          run'.ending = run.ending ∧ ∀ stored : Option (CommandStateSnapshot Value),
            run'.unbounded stored = ⟨run.attempt.toNat+1,stored,run.batches ++ [writes],
              if policy.metricsHook then
                run.retries ++ [⟨streamIds,run.attempt.toNat.succPNat,
                  computeRetryDelayMs applyJitter policy.backoffStrategy run.attempt.toNat⟩]
              else run.retries⟩
        else run'.Shows ⟨.finished (.error (.concurrencyError policy.maxRetries.toNat)),
          run.batches ++ [writes],run.retries⟩ := by
  have hs := settleAppend_settles overflowChecks "attempts are 1-based"
    "attempt number is non-zero" policy applyJitter run.attempt result
  unfold append at hrun
  subst hrun
  generalize settleAppend overflowChecks "attempts are 1-based" "attempt number is non-zero"
    policy applyJitter run.attempt result = settled at hs
  cases hs with
  | success => exact .inr ⟨rfl,rfl,rfl⟩
  | overflow h => exact .inl (by simp [h,ends])
  | retry h =>
    have hlt := UInt32.lt_iff_toNat_lt.mp h
    simp [appendOutcome,hlt,unbounded,toNat_succ (ne_u32Max h)]
  | exhausted h =>
    have hle := UInt32.le_iff_toNat_le.mp (UInt32.not_lt.mp h)
    simp [appendOutcome,Nat.not_lt.mpr hle,Shows,ends]
  | @failed e h =>
    have houtcome : appendOutcome run.attempt.toNat (.error e) =
        some (.error (.eventStoreError e)) := by
      cases e with
      | versionConflict streamId expected actual => exact absurd ⟨_,_,_,rfl⟩ h
      | _ => rfl
    rw [houtcome]
    exact .inr ⟨rfl,rfl,rfl⟩

/-- One attempt of the executor with an unbounded counter is a pass of the loop, which ends in
the same way or goes on to the same next attempt. -/
theorem exists_pass (overflowChecks : Bool) (hending : run.ending = none)
    (h : executeWithSnapshot env command policy.unbounded (fuel+1) (run.unbounded stored) =
      some o) :
    ∃ run', run.step overflowChecks command policy (passOf env fuel stored run) = some run' ∧
      (u32Max ∈ run'.operands ∨ run'.Shows o ∨ run'.ending = none ∧ ∃ stored',
        executeWithSnapshot env command policy.unbounded fuel (run'.unbounded stored') = some o) := by
  have hwrites := writes_passOf command env fuel stored run
  cases hr : reconstructCommandSnapshot command env.contents fuel
      command.streamDeclarations.streams stored with
  | error stop =>
    rw [executeWithSnapshot_failed hr] at h
    simp only [hr] at hwrites
    cases stop with
    | outOfFuel => cases h
    | error e =>
      cases h
      exact ⟨_,U32SnapshotRun.step_error overflowChecks policy hending hwrites,
        .inr (.inl ⟨rfl,rfl,rfl⟩)⟩
    | panicked message =>
      cases h
      exact ⟨_,U32SnapshotRun.step_panicked overflowChecks policy hending hwrites,
        .inr (.inl ⟨rfl,rfl,rfl⟩)⟩
  | ok r =>
    rw [executeWithSnapshot_attempt hr] at h
    simp only [hr] at hwrites
    cases hbatch : command.batch r.expectedVersions r.state with
    | error e =>
      rw [hbatch] at h hwrites
      cases h
      exact ⟨_,U32SnapshotRun.step_error overflowChecks policy hending hwrites,
        .inr (.inl ⟨rfl,rfl,rfl⟩)⟩
    | ok writes =>
      rw [hbatch] at h hwrites
      refine ⟨_,U32SnapshotRun.step_ok overflowChecks policy hending hwrites,?_⟩
      rcases run.append_unbounded Value overflowChecks
        command.streamDeclarations.streams policy writes (env.appendResult run.batches.length)
        (env.applyJitter run.batches.length) rfl with hover | happend
      · exact .inl hover
      · right
        simp only [U32SnapshotRun.unbounded,U32Policy.unbounded] at h
        cases houtcome : appendOutcome run.attempt.toNat (env.appendResult run.batches.length) with
        | some outcome =>
          rw [houtcome] at h happend
          cases h
          exact .inl happend
        | none =>
          simp only [houtcome] at h happend
          by_cases hlt : run.attempt.toNat < policy.maxRetries.toNat
          · simp only [hlt,if_true] at h happend
            exact .inr ⟨happend.1.trans hending,_,(congrArg _ (happend.2 _)).trans h⟩
          · simp only [hlt,if_false] at h happend
            cases h
            exact .inl happend

/-- An execution with an unbounded counter is one with a counter in its type, up to the addition
that overflows, if there is one. -/
theorem exists_run (overflowChecks : Bool) (hending : run.ending = none)
    (hreach : Reachable (snapshotSystem overflowChecks command policy) run)
    (h : executeWithSnapshot env command policy.unbounded fuel (run.unbounded stored) = some o) :
    ∃ run', Reachable (snapshotSystem overflowChecks command policy) run' ∧
      (u32Max ∈ run'.operands ∨ run'.Shows o) := by
  induction fuel generalizing run stored with
  | zero => cases h
  | succ fuel ih =>
    obtain ⟨run',hstep,hcases⟩ := exists_pass overflowChecks hending h
    have hreach' := hreach.step trivial hstep
    rcases hcases with hover | hshows | ⟨hending',stored',hrest⟩
    · exact ⟨run',hreach',.inl hover⟩
    · exact ⟨run',hreach',.inr hshows⟩
    · exact ih hending' hreach' hrest

end Environments

end SnapshotRuns

section Overflow

structure NeverOverflows (overflowChecks : Bool) (policy : U32Policy) : Prop where
  pipeline : ∀ {Any Raw Value E S : Type} (command : CommandLogic Any Raw Value E S) x,
    Reachable (pipelineSystem overflowChecks command policy) x → u32Max ∉ x.pipeline.operands
  snapshot : ∀ {Any Raw Value E S : Type} (command : CommandLogic Any Raw Value E S) run,
    Reachable (snapshotSystem overflowChecks command policy) run → u32Max ∉ run.operands

variable (overflowChecks : Bool) (policy : U32Policy)

def lost : Except EventStoreError Unit := .error (.versionConflict Sample.account 0 1)

theorem settleAppend_lost {attempt : UInt32} (h : attempt < policy.maxRetries)
    (successMessage retryMessage : String) :
    settleAppend overflowChecks successMessage retryMessage policy id attempt lost =
      ([attempt,attempt],.retry attempt.toNat.succPNat
        (computeRetryDelayMs id policy.backoffStrategy attempt.toNat)) := by
  simp only [settleAppend,lost,if_pos h,attemptNumber_eq _ _ (ne_u32Max h)]

theorem settleAppend_max (successMessage retryMessage : String) :
    settleAppend overflowChecks successMessage retryMessage policy id u32Max (.ok ()) =
      ([u32Max],.panicked
        (if overflowChecks then "attempt to add with overflow" else successMessage)) := by
  simp only [settleAppend,attemptNumber_max]

/-- An execution of the sample command that is about to append. -/
def appending (policy : U32Policy) (attempt : UInt32) (hookCalls : List RetryContext)
    (operands : List UInt32) (writes : StreamWrites ℕ ℕ) (calls : List (Call ℕ ℕ ℕ)) :
    U32Execution ℕ ℕ ℕ ℕ ℕ :=
  ⟨⟨Sample.topUp,policy,.awaitingAppend [Sample.account],attempt,hookCalls,operands⟩,
    .yield (.appendEvents writes),calls⟩

theorem exists_first_attempt : ∃ writes, exec (pipelineSystem overflowChecks Sample.topUp policy)
    (.start Sample.topUp policy) [.opened (.ok [])] =
      some (appending policy 0 [] [] writes [.read Sample.account (.ok [])]) :=
  ⟨_,rfl⟩

theorem exists_next_attempt (attempt : UInt32) (hookCalls : List RetryContext)
    (operands : List UInt32) (calls : List (Call ℕ ℕ ℕ)) (durationMs : ℕ) :
    ∃ writes, exec (pipelineSystem overflowChecks Sample.topUp policy)
        ⟨⟨Sample.topUp,policy,.awaitingRetrySleep,attempt,hookCalls,operands⟩,
          .yield (.sleep durationMs),calls⟩ [.slept,.opened (.ok [])] =
        some (appending policy attempt hookCalls operands writes
          (calls ++ [.read Sample.account (.ok [])])) :=
  ⟨_,rfl⟩

theorem exists_conflict {attempt : UInt32} (hlt : attempt < policy.maxRetries)
    (hookCalls : List RetryContext) (operands : List UInt32) (writes : StreamWrites ℕ ℕ)
    (calls : List (Call ℕ ℕ ℕ)) :
    ∃ hookCalls' operands' writes' calls',
      exec (pipelineSystem overflowChecks Sample.topUp policy)
        (appending policy attempt hookCalls operands writes calls)
        [.appended lost id,.slept,.opened (.ok [])] =
          some (appending policy (attempt+1) hookCalls' operands' writes' calls') := by
  have hsettle := settleAppend_lost overflowChecks policy hlt "attempts are 1-based"
    "attempt_number is always > 0"
  rw [exec_cons]
  simp only [pipelineSystem,appending,U32Execution.dispatch,U32Pipeline.resume,
    U32Pipeline.resumeAppended,hsettle,Option.bind_some]
  obtain ⟨writes',hnext⟩ := exists_next_attempt overflowChecks policy (attempt+1) _ _ _ _
  exact ⟨_,_,writes',_,hnext⟩

theorem exists_conflicts {n : ℕ} (hn : n ≤ policy.maxRetries.toNat) :
    ∃ attempt hookCalls operands writes calls, attempt.toNat = n ∧
      Reachable (pipelineSystem overflowChecks Sample.topUp policy)
        (appending policy attempt hookCalls operands writes calls) := by
  induction n with
  | zero =>
    obtain ⟨writes,hfirst⟩ := exists_first_attempt overflowChecks policy
    exact ⟨0,_,_,writes,_,rfl,Reachable.exec (.init rfl) hfirst⟩
  | succ n ih =>
    obtain ⟨attempt,hookCalls,operands,writes,calls,rfl,hreach⟩ := ih (Nat.le_of_succ_le hn)
    have hlt : attempt < policy.maxRetries := UInt32.lt_iff_toNat_lt.mpr hn
    obtain ⟨hookCalls',operands',writes',calls',hnext⟩ :=
      exists_conflict overflowChecks policy hlt hookCalls operands writes calls
    exact ⟨attempt+1,_,_,_,_,toNat_succ (ne_u32Max hlt),hreach.exec hnext⟩

/-- With the greatest number of retries, a success behind all of them panics. -/
theorem pipeline_overflows (hmax : policy.maxRetries = u32Max) :
    ∃ x, Reachable (pipelineSystem overflowChecks Sample.topUp policy) x ∧
      u32Max ∈ x.pipeline.operands ∧ x.step = .panicked
        (if overflowChecks then "attempt to add with overflow" else "attempts are 1-based") := by
  obtain ⟨attempt,hookCalls,operands,writes,calls,hattempt,hreach⟩ :=
    exists_conflicts overflowChecks policy le_rfl
  rw [hmax,UInt32.toNat_inj] at hattempt
  subst hattempt
  have hsettle := settleAppend_max overflowChecks policy "attempts are 1-based"
    "attempt_number is always > 0"
  have hstep : ∃ x, (appending policy u32Max hookCalls operands writes calls).dispatch
      overflowChecks (.appended (.ok ()) id) = some x ∧ u32Max ∈ x.pipeline.operands ∧
      x.step = .panicked
        (if overflowChecks then "attempt to add with overflow" else "attempts are 1-based") := by
    simp only [appending,U32Execution.dispatch,U32Pipeline.resume,U32Pipeline.resumeAppended,
      hsettle]
    exact ⟨_,rfl,by simp,rfl⟩
  obtain ⟨x,hx,hmem,hpanicked⟩ := hstep
  exact ⟨x,hreach.step (l := .appended (.ok ()) id) trivial hx,hmem,hpanicked⟩

def emptyPass (result : Except EventStoreError Unit) : Pass ℕ ℕ :=
  ⟨.ok none,fun _ => [],1,.ok (),result,id⟩

theorem exists_writes (result : Except EventStoreError Unit) :
    ∃ writes, (emptyPass result).writes Sample.topUp = .ok writes := ⟨_,rfl⟩

theorem exists_passes {n : ℕ} (hn : n ≤ policy.maxRetries.toNat) :
    ∃ run, Reachable (snapshotSystem overflowChecks Sample.topUp policy) run ∧
      run.attempt.toNat = n ∧ run.ending = none := by
  induction n with
  | zero => exact ⟨_,.init rfl,rfl,rfl⟩
  | succ n ih =>
    obtain ⟨run,hreach,rfl,hending⟩ := ih (Nat.le_of_succ_le hn)
    have hlt : run.attempt < policy.maxRetries := UInt32.lt_iff_toNat_lt.mpr hn
    obtain ⟨writes,hwrites⟩ := exists_writes lost
    have hsettle := settleAppend_lost overflowChecks policy hlt "attempts are 1-based"
      "attempt number is non-zero"
    refine ⟨_,hreach.step trivial
      (U32SnapshotRun.step_ok overflowChecks policy hending hwrites),?_,?_⟩
    · simp only [U32SnapshotRun.append,emptyPass,hsettle]
      exact toNat_succ (ne_u32Max hlt)
    · simp only [U32SnapshotRun.append,emptyPass,hsettle]
      exact hending

theorem snapshot_overflows (hmax : policy.maxRetries = u32Max) :
    ∃ run, Reachable (snapshotSystem overflowChecks Sample.topUp policy) run ∧
      u32Max ∈ run.operands ∧ run.ending = some (.panicked
        (if overflowChecks then "attempt to add with overflow" else "attempts are 1-based")) := by
  obtain ⟨run,hreach,hattempt,hending⟩ := exists_passes overflowChecks policy le_rfl
  rw [hmax,UInt32.toNat_inj] at hattempt
  obtain ⟨writes,hwrites⟩ := exists_writes (.ok ())
  have hsettle := settleAppend_max overflowChecks policy "attempts are 1-based"
    "attempt number is non-zero"
  refine ⟨_,hreach.step trivial
    (U32SnapshotRun.step_ok overflowChecks policy hending hwrites),?_,?_⟩
  · simp only [U32SnapshotRun.append,emptyPass,hattempt,hsettle]
    simp [U32SnapshotRun.ends]
  · simp only [U32SnapshotRun.append,emptyPass,hattempt,hsettle]
    rfl

theorem neverOverflows_iff : NeverOverflows overflowChecks policy ↔ policy.maxRetries < u32Max := by
  constructor
  · intro h
    by_contra hlt
    have hmax := UInt32.le_antisymm (le_u32Max policy.maxRetries) (UInt32.not_lt.mp hlt)
    obtain ⟨x,hreach,hmem,-⟩ := pipeline_overflows overflowChecks policy hmax
    exact h.pipeline _ x hreach hmem
  · exact fun hlt => ⟨fun _ _ hreach => (tracked hreach).counts.no_overflow_iff.mpr (.inl hlt),
      fun _ _ hreach => (trackedRun hreach).counts.no_overflow_iff.mpr (.inl hlt)⟩

/-- An attempt counter overflows in the runs, of either executor, in which an append succeeds
after the greatest number of conflicts that there can be, and in no others. A policy excludes these
runs exactly by allowing fewer retries. Up to an overflow the runs are those of an executor with an
unbounded counter. -/
theorem attempt_overflow_exact :
    (∀ {Any Raw Value E S : Type} (command : CommandLogic Any Raw Value E S) x,
      Reachable (pipelineSystem overflowChecks command policy) x →
        (u32Max ∉ x.pipeline.operands ↔ Fits policy (appends x.calls))) ∧
    (∀ {Any Raw Value E S : Type} (command : CommandLogic Any Raw Value E S) run,
      Reachable (snapshotSystem overflowChecks command policy) run →
        (u32Max ∉ run.operands ↔ Fits policy run.appendResults)) ∧
    (NeverOverflows overflowChecks policy ↔ policy.maxRetries < u32Max) ∧
    (∀ {Any Raw Value E S : Type} (command : CommandLogic Any Raw Value E S) x,
      Reachable (pipelineSystem overflowChecks command policy) x →
        u32Max ∉ x.pipeline.operands → Reachable (system command policy.unbounded) x.unbounded) ∧
    ∀ {Any Raw Value E S : Type} (command : CommandLogic Any Raw Value E S) (env : Environment E)
      (fuel : ℕ) (stored : Option (CommandStateSnapshot Value)) (o : Observed Any Raw),
      executeWithSnapshot env command policy.unbounded fuel
          ((U32SnapshotRun.start Any Raw).unbounded stored) = some o →
        ∃ run, Reachable (snapshotSystem overflowChecks command policy) run ∧
          (u32Max ∈ run.operands ∨ run.Shows o) :=
  ⟨fun _ _ hreach => (tracked hreach).counts.no_overflow_iff,
    fun _ _ hreach => (trackedRun hreach).counts.no_overflow_iff,
    neverOverflows_iff overflowChecks policy,
    fun _ _ hreach hno => reachable_unbounded hreach hno,
    fun _ _ _ _ _ hrun => exists_run overflowChecks rfl (.init rfl) hrun⟩

def wonOnce : List (Answer ℕ) :=
  [.opened (.ok []),.appended lost id,.slept,.opened (.ok []),.appended (.ok ()) id]

/-- One is added to 0 for the number of the retry and for the counter, and then to 1 for the number
of attempts. -/
theorem attempt_overflow_exact_topUp :
    ∃ x, exec (pipelineSystem true Sample.topUp {}) (.start Sample.topUp {}) wonOnce = some x ∧
      x.pipeline.operands = [0,0,1] ∧ Fits {} (appends x.calls) := by
  obtain ⟨x,hx,hoperands⟩ : ∃ x, exec (pipelineSystem true Sample.topUp {})
      (.start Sample.topUp {}) wonOnce = some x ∧ x.pipeline.operands = [0,0,1] := ⟨_,rfl,rfl⟩
  refine ⟨x,hx,hoperands,((attempt_overflow_exact true {}).1 _ x (.exec (.init rfl) hx)).mp ?_⟩
  rw [hoperands]
  decide

/-- The builder accepts the maximum, and then both executors come to the addition that overflows. -/
theorem attempt_overflow_reached :
    ¬(∀ (overflowChecks : Bool) (retries : UInt32),
      NeverOverflows overflowChecks (U32Policy.withMaxRetries {} retries)) ∧
    (∃ x, Reachable (pipelineSystem false Sample.topUp (U32Policy.withMaxRetries {} u32Max)) x ∧
      u32Max ∈ x.pipeline.operands ∧ x.step = .panicked "attempts are 1-based") ∧
    ∃ run, Reachable (snapshotSystem false Sample.topUp (U32Policy.withMaxRetries {} u32Max)) run ∧
      u32Max ∈ run.operands ∧ run.ending = some (.panicked "attempts are 1-based") := by
  have hpipeline := pipeline_overflows false (U32Policy.withMaxRetries {} u32Max) rfl
  refine ⟨fun hall => ?_,hpipeline,
    snapshot_overflows false (U32Policy.withMaxRetries {} u32Max) rfl⟩
  obtain ⟨x,hreach,hmem,-⟩ := hpipeline
  exact (hall false u32Max).pipeline _ x hreach hmem

end Overflow

end AttemptCounters
end EventCore
