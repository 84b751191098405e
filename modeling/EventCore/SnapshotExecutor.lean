import EventCore.DiscoveryOrder
import EventCore.SnapshotEquivalence

/-! The executor for commands that opted into snapshots, a loop of its own, beside the one that
drives the pipeline: what either of them shows to a caller over the same store. -/
namespace EventCore
namespace SnapshotExecutor

open Exploration SnapshotReplay ExecuteLoop

variable {Any Raw Value E S : Type}

/-- What an execution runs against: the contents of the streams, the answer to each of its
appends, and the jitter of each retry. -/
structure Environment (E : Type) where
  contents : Contents E
  appendResult : ℕ → Except EventStoreError Unit
  applyJitter : ℕ → ℕ → ℕ

inductive Ending
  | finished (outcome : PipelineOutcome)
  | panicked (message : String)
  deriving DecidableEq

/-- What a caller sees: how the execution ends, the batches handed to the store, and the calls
of the metrics hook. -/
structure Observed (Any Raw : Type) where
  ending : Ending
  batches : List (StreamWrites Any Raw)
  retries : List RetryContext

def batchesOf : List (Call Any Raw E) → List (StreamWrites Any Raw) :=
  List.filterMap fun
    | .append writes _ => some writes
    | .read .. => none

def Environment.answer (env : Environment E) (calls : List (Call Any Raw E)) :
    StoreEffect Any Raw → Answer E
  | .readStream streamId => .opened (.ok (env.contents streamId))
  | .appendEvents _ =>
    .appended (env.appendResult (batchesOf calls).length) (env.applyJitter (batchesOf calls).length)
  | .sleep _ => .slept

/-- `execute` without a snapshot id: drive the pipeline to its end. -/
def execute (env : Environment E) : ℕ → Execution Any Raw Value E S → Option (Observed Any Raw)
  | 0, _ => none
  | fuel+1, x =>
    match x.step with
    | .done outcome => some ⟨.finished outcome,batchesOf x.calls,x.pipeline.hookCalls⟩
    | .panicked message => some ⟨.panicked message,batchesOf x.calls,x.pipeline.hookCalls⟩
    | .waitForResult =>
      some ⟨.panicked "WaitForResult is consumed inside the ReadStream pump loop",
        batchesOf x.calls,x.pipeline.hookCalls⟩
    | .yield effect => (x.dispatch (env.answer x.calls effect)).bind (execute env fuel)

/-- `save_command_state_snapshot`: a projection is replaced only by one that covers it. -/
def savedSnapshot (stored : Option (CommandStateSnapshot Value))
    (snapshot : CommandStateSnapshot Value) : Option (CommandStateSnapshot Value) :=
  match stored with
  | some current => if !snapshot.covers current then stored else some snapshot
  | none => some snapshot

/-- The loop of `execute_with_snapshot` between two attempts. -/
structure SnapshotRun (Any Raw Value : Type) where
  attempt : ℕ
  stored : Option (CommandStateSnapshot Value)
  batches : List (StreamWrites Any Raw)
  retries : List RetryContext

def SnapshotRun.observe (run : SnapshotRun Any Raw Value) (ending : Ending) : Observed Any Raw :=
  ⟨ending,run.batches,run.retries⟩

def SnapshotRun.fails (run : SnapshotRun Any Raw Value) : Stop → Option (Observed Any Raw)
  | .error e => some (run.observe (.finished (.error e)))
  | .panicked message => some (run.observe (.panicked message))
  | .outOfFuel => none

/-- `execute_with_snapshot`. A retry is reported with the streams that the command declares. -/
def executeWithSnapshot (env : Environment E) (command : CommandLogic Any Raw Value E S)
    (policy : RetryPolicy) : ℕ → SnapshotRun Any Raw Value → Option (Observed Any Raw)
  | 0, _ => none
  | fuel+1, run =>
    let streamIds := command.streamDeclarations.streams
    match reconstructCommandSnapshot command env.contents fuel streamIds run.stored with
    | .error stop => run.fails stop
    | .ok r =>
      let stored := match r.snapshot with
        | some snapshot => savedSnapshot run.stored snapshot
        | none => run.stored
      match command.handle r.state with
      | .error e => run.fails (.error e)
      | .ok events =>
        match buildStreamWritesFromEvents command.event events r.expectedVersions with
        | .error e => run.fails (.error e)
        | .ok writes =>
          let appended := { run with stored := stored, batches := run.batches ++ [writes] }
          match env.appendResult run.batches.length with
          | .ok _ => some (appended.observe (.finished (.success run.attempt.succPNat)))
          | .error (.versionConflict ..) =>
            if run.attempt < policy.maxRetries then
              let delayMs := computeRetryDelayMs (env.applyJitter run.batches.length)
                policy.backoffStrategy run.attempt
              let ctx : RetryContext := ⟨streamIds,run.attempt.succPNat,delayMs⟩
              executeWithSnapshot env command policy fuel
                { appended with
                  attempt := run.attempt+1
                  retries := if policy.metricsHook then run.retries ++ [ctx] else run.retries }
            else appended.fails (.error (.concurrencyError policy.maxRetries))
          | .error e => appended.fails (.error (.eventStoreError e))

/-- The same retry but for its delay, the streams taken as a set. -/
def SameRetry (c c' : RetryContext) : Prop :=
  c.streams.toFinset = c'.streams.toFinset ∧ c.attempt = c'.attempt

structure Observed.Agrees (o o' : Observed Any Raw) : Prop where
  ending : o.ending = o'.ending
  batches : o.batches = o'.batches
  retries : List.Forall₂ SameRetry o.retries o'.retries

/-- Whenever one of the executors comes to an end, so does the other, and they show the same. -/
def ObservablyEqual (env : Environment E) (command : CommandLogic Any Raw Value E S)
    (policy : RetryPolicy) (stored : Option (CommandStateSnapshot Value)) : Prop :=
  (∀ fuel o, execute env fuel (.start command policy) = some o → ∃ fuel' o',
    executeWithSnapshot env command policy fuel' ⟨0,stored,[],[]⟩ = some o' ∧ o.Agrees o') ∧
  ∀ fuel o', executeWithSnapshot env command policy fuel ⟨0,stored,[],[]⟩ = some o' → ∃ fuel' o,
    execute env fuel' (.start command policy) = some o ∧ o.Agrees o'

/-- What a command that returns a snapshot id is required to implement. -/
def Implements (command : CommandLogic Any Raw Value E S) : Prop :=
  ∀ state, ∃ value, command.serializeCommandStateSnapshot state = .ok value ∧
    command.deserializeCommandStateSnapshot value = .ok state

theorem Implements.roundTrips {command : CommandLogic Any Raw Value E S}
    (h : Implements command) : RoundTrips command := by
  intro state value hvalue
  obtain ⟨value',hser,hde⟩ := h state
  cases hvalue.symm.trans hser
  exact hde

section Calls

@[simp] theorem batchesOf_append (calls calls' : List (Call Any Raw E)) :
    batchesOf (calls ++ calls') = batchesOf calls ++ batchesOf calls' :=
  List.filterMap_append

@[simp] theorem batchesOf_read (streamId : StreamId)
    (opened : Except EventStoreError (List (Except EventStoreError E))) :
    batchesOf [(.read streamId opened : Call Any Raw E)] = [] := rfl

@[simp] theorem batchesOf_appended (writes : StreamWrites Any Raw)
    (result : Except EventStoreError Unit) :
    batchesOf [(.append writes result : Call Any Raw E)] = [writes] := rfl

end Calls

section Pipeline

variable {env : Environment E} {command : CommandLogic Any Raw Value E S}

variable (env) in
theorem execute_yield {x y : Execution Any Raw Value E S} {effect : StoreEffect Any Raw}
    (hstep : x.step = .yield effect) (hy : x.dispatch (env.answer x.calls effect) = some y)
    (fuel : ℕ) : execute env (fuel+1) x = execute env fuel y := by
  simp only [execute,hstep,hy,Option.bind_some]

theorem execute_done {x : Execution Any Raw Value E S} {outcome : PipelineOutcome}
    (hstep : x.step = .done outcome) (fuel : ℕ) :
    execute env (fuel+1) x =
      some ⟨.finished outcome,batchesOf x.calls,x.pipeline.hookCalls⟩ := by
  simp only [execute,hstep]

theorem execute_succ {fuel : ℕ} {x : Execution Any Raw Value E S} {o : Observed Any Raw}
    (h : execute env fuel x = some o) : execute env (fuel+1) x = some o := by
  induction fuel generalizing x with
  | zero => cases h
  | succ fuel ih =>
    unfold execute at h ⊢
    split at h
    · exact h
    · exact h
    · exact h
    · obtain ⟨y,hy,hrun⟩ := Option.bind_eq_some_iff.mp h
      rw [hy,Option.bind_some]
      exact ih hrun

theorem execute_mono {fuel fuel' : ℕ} (hle : fuel ≤ fuel') {x : Execution Any Raw Value E S}
    {o : Observed Any Raw} (h : execute env fuel x = some o) : execute env fuel' x = some o := by
  induction fuel', hle using Nat.le_induction with
  | base => exact h
  | succ _ _ ih => exact execute_succ ih

structure SameReading (r : Reading S) (replay : ReplayProgress Value S) : Prop where
  queue : r.queue = replay.queue
  visited : r.visited = replay.visited
  scheduled : r.scheduled = replay.scheduled
  expectedVersions : r.expectedVersions = replay.expectedVersions
  streamIds : r.streamIds = replay.checkpoints.map CommandStateReplayCheckpoint.streamId
  state : r.state = replay.state

theorem eraseDups_of_nodup {l : List StreamId} (h : l.Nodup) : l.eraseDups = l := by
  induction l with
  | nil => rfl
  | cons s l ih =>
    obtain ⟨hs,hl⟩ := List.nodup_cons.mp h
    rw [List.eraseDups_cons,List.filter_eq_self.mpr,ih hl]
    intro t ht
    simpa using fun heq : t = s => hs (heq ▸ ht)

theorem sameReading_init (command : CommandLogic Any Raw Value E S) :
    SameReading (ExecutePipeline.initReading command)
      (initialProgress command command.streamDeclarations.streams) := by
  have henqueue := enqueueNew_eq command.streamDeclarations.streams [] []
  have hfresh : fresh [] command.streamDeclarations.streams =
      command.streamDeclarations.streams := by
    rw [fresh,List.filter_eq_self.mpr (by simp),
      eraseDups_of_nodup command.streamDeclarations.nodup]
  rw [hfresh] at henqueue
  simp only [List.nil_append,List.toFinset_nil] at henqueue
  constructor <;> simp [ExecutePipeline.initReading,initialProgress,henqueue]

theorem SameReading.advance {r : Reading S} {replay : ReplayProgress Value S}
    (h : SameReading r replay) {p : ExecutePipeline Any Raw Value E S}
    (hcommand : p.command = command) (streamId : StreamId) (queue : List StreamId) (state : S)
    (n : ℕ) (value : Value) :
    SameReading (p.streamEnded streamId { r.popped streamId queue with state := state } n)
      (replay.advance command streamId queue state n value) := by
  subst hcommand
  constructor <;>
    simp [ExecutePipeline.streamEnded,Reading.popped,ReplayProgress.advance,h.visited,h.scheduled,
      h.expectedVersions,h.streamIds]

theorem SameReading.replay_step {reads : List (StreamId × List E)} {r : Reading S}
    {replay : ReplayProgress Value S} (h : SameReading r replay) (htracks : Tracks command reads r)
    {streamId : StreamId} {queue : List StreamId} (hqueue : r.queue = streamId :: queue) (n : ℕ) :
    replayRemainingStreams command env.contents (n+1) replay =
      (replayStream command env.contents replay streamId queue).bind
        (replayRemainingStreams command env.contents n) := by
  have hreplaying : replay.queue = streamId :: queue := h.queue.symm.trans hqueue
  have hunvisited : streamId ∉ replay.visited := h.visited ▸ htracks.queue_fresh hqueue
  simp only [replayRemainingStreams,hreplaying,hunvisited,if_false]
  rfl

theorem replayStream_readable {replay : ReplayProgress Value S} {streamId : StreamId}
    (queue : List StreamId) {events : List E} (hevents : env.contents streamId = events.map .ok)
    {value : Value}
    (hvalue : command.serializeCommandStateSnapshot (events.foldl command.apply replay.state) =
      .ok value) :
    replayStream command env.contents replay streamId queue =
      .ok (replay.advance command streamId queue (events.foldl command.apply replay.state)
        events.length value) := by
  rw [replayStream_eq,command.foldItems_eq,hevents,collect_ok]
  simp only [Except.map,serialize,hvalue,Except.mapError,List.length_map]

/-- What an attempt of the pipeline comes to, told by a replay of the same streams. -/
def Follows (env : Environment E) (command : CommandLogic Any Raw Value E S)
    (p : ExecutePipeline Any Raw Value E S) (x : Execution Any Raw Value E S) (n : ℕ) :
    Except Stop (ReplayProgress Value S) → Prop
  | .ok last => ∃ k reads r y, Tracks command reads r ∧ SameReading r last ∧ r.queue = [] ∧
      (∀ v ∈ reads, env.contents v.1 = v.2.map .ok) ∧ (y.pipeline,y.step) = p.stepReading r ∧
      batchesOf y.calls = batchesOf x.calls ∧ ∀ m, execute env (k+m) x = execute env m y
  | .error (.error e) => ∃ k, ∀ m, execute env (k+m) x =
      some ⟨.finished (.error e),batchesOf x.calls,p.hookCalls⟩
  | .error .outOfFuel => execute env n x = none
  | .error (.panicked _) => False

theorem Follows.step {p : ExecutePipeline Any Raw Value E S} {x y : Execution Any Raw Value E S}
    (hyield : ∀ m, execute env (m+1) x = execute env m y)
    (hbatches : batchesOf y.calls = batchesOf x.calls) {n : ℕ}
    {result : Except Stop (ReplayProgress Value S)} (h : Follows env command p y n result) :
    Follows env command p x (n+1) result := by
  match result with
  | .ok last =>
    obtain ⟨k,reads,r,z,htracks,hsame,hqueue,hcontents,hz,hcalls,hrun⟩ := h
    refine ⟨k+1,reads,r,z,htracks,hsame,hqueue,hcontents,hz,hcalls.trans hbatches,fun m => ?_⟩
    rw [Nat.add_right_comm,hyield,hrun]
  | .error (.error e) =>
    obtain ⟨k,hrun⟩ := h
    refine ⟨k+1,fun m => ?_⟩
    rw [Nat.add_right_comm,hyield,hrun,hbatches]
  | .error .outOfFuel => exact (hyield n).trans h
  | .error (.panicked _) => exact h

theorem follows_of_queue_nil {p : ExecutePipeline Any Raw Value E S} {n : ℕ}
    {replay : ReplayProgress Value S} {reads : List (StreamId × List E)} {r : Reading S}
    {x : Execution Any Raw Value E S} (htracks : Tracks command reads r)
    (hsame : SameReading r replay) (hcontents : ∀ v ∈ reads, env.contents v.1 = v.2.map .ok)
    (hx : (x.pipeline,x.step) = p.stepReading r) (hqueue : replay.queue = []) :
    Follows env command p x n (replayRemainingStreams command env.contents n replay) := by
  rw [replayRemainingStreams_nil hqueue]
  exact ⟨0,reads,r,x,htracks,hsame,hsame.queue.trans hqueue,hcontents,hx,rfl,
    fun m => by rw [Nat.zero_add]⟩

variable (env) in
theorem execute_follows (himpl : Implements command) {p : ExecutePipeline Any Raw Value E S}
    (hcommand : p.command = command) (n : ℕ) {replay : ReplayProgress Value S}
    {reads : List (StreamId × List E)} {r : Reading S} {x : Execution Any Raw Value E S}
    (htracks : Tracks command reads r) (hsame : SameReading r replay)
    (hcontents : ∀ v ∈ reads, env.contents v.1 = v.2.map .ok)
    (hx : (x.pipeline,x.step) = p.stepReading r) :
    Follows env command p x n (replayRemainingStreams command env.contents n replay) := by
  induction n generalizing replay reads r x with
  | zero =>
    cases hqueue : replay.queue with
    | nil => exact follows_of_queue_nil htracks hsame hcontents hx hqueue
    | cons s queue =>
      rw [replayRemainingStreams_zero hqueue]
      rfl
  | succ n ih =>
    cases hqueue : replay.queue with
    | nil => exact follows_of_queue_nil htracks hsame hcontents hx hqueue
    | cons s queue =>
      have hreading : r.queue = s :: queue := hsame.queue.trans hqueue
      have hstep : x.step = .yield (.readStream s) := by
        rw [ExecutePipeline.stepReading_tracks (hcommand ▸ htracks),hreading] at hx
        exact congrArg Prod.snd hx
      obtain ⟨y,hy,hcalls,hend⟩ := dispatch_opened hcommand htracks hreading hx
        (.ok (env.contents s))
      have hyield := execute_yield env hstep hy
      have hbatches : batchesOf y.calls = batchesOf x.calls := by simp [hcalls]
      rw [hsame.replay_step htracks hreading]
      simp only [readAll,Except.bind] at hend
      cases hcollect : collect (env.contents s) with
      | error e =>
        rw [hcollect] at hend
        rw [replayStream_eq,command.foldItems_eq,hcollect]
        refine ⟨2,fun m => ?_⟩
        rw [show 2+m = m+1+1 by omega,hyield,execute_done hend.1,hbatches,hend.2]
      | ok events =>
        rw [hcollect] at hend
        obtain ⟨value,hvalue,-⟩ := himpl (events.foldl command.apply replay.state)
        have hstate : r.state = replay.state := hsame.state
        have hread : ∀ v ∈ reads ++ [(s,events)], env.contents v.1 = v.2.map .ok := by
          intro v hv
          rcases List.mem_append.mp hv with hv | hv
          · exact hcontents v hv
          · rw [List.mem_singleton.mp hv]
            exact collect_eq_ok.mp hcollect
        have hnext := ih (htracks.streamEnded hreading events hcommand)
          (hsame.advance hcommand s queue _ events.length value) hread hend
        rw [replayStream_readable queue (collect_eq_ok.mp hcollect) hvalue]
        rw [hstate] at hnext
        exact hnext.step hyield hbatches

/-- How an append ends the execution; a conflict does not, as long as there are retries. -/
def appendOutcome (attempt : ℕ) : Except EventStoreError Unit → Option PipelineOutcome
  | .ok _ => some (.success attempt.succPNat)
  | .error (.versionConflict ..) => none
  | .error e => some (.error (.eventStoreError e))

/-- All attempts from one on, each with the same batch, reporting `streams` with each retry. -/
def settle (env : Environment E) (policy : RetryPolicy) (streams : List StreamId)
    (writes : StreamWrites Any Raw) :
    ℕ → ℕ → List (StreamWrites Any Raw) → List RetryContext → Observed Any Raw
  | 0, attempt, batches, retries =>
    match appendOutcome attempt (env.appendResult batches.length) with
    | some outcome => ⟨.finished outcome,batches ++ [writes],retries⟩
    | none => ⟨.finished (.error (.concurrencyError policy.maxRetries)),batches ++ [writes],retries⟩
  | remaining+1, attempt, batches, retries =>
    match appendOutcome attempt (env.appendResult batches.length) with
    | some outcome => ⟨.finished outcome,batches ++ [writes],retries⟩
    | none =>
      let delayMs := computeRetryDelayMs (env.applyJitter batches.length) policy.backoffStrategy
        attempt
      settle env policy streams writes remaining (attempt+1) (batches ++ [writes])
        (if policy.metricsHook then retries ++ [⟨streams,attempt.succPNat,delayMs⟩] else retries)

theorem resume_appended (applyJitter : ℕ → ℕ) {p : ExecutePipeline Any Raw Value E S}
    {streamIds : List StreamId} (hphase : p.phase = .awaitingAppend streamIds)
    (result : Except EventStoreError Unit) :
    p.resume applyJitter (.eventsAppended result) =
      match appendOutcome p.attempt result with
      | some outcome => p.finish outcome
      | none => p.resumeConflict applyJitter streamIds := by
  cases result with
  | ok => simp [ExecutePipeline.resume,hphase,appendOutcome]
  | error e => cases e <;> simp [ExecutePipeline.resume,hphase,appendOutcome]

section Attempts

variable {policy : RetryPolicy} {n : ℕ} {last : ReplayProgress Value S}
  {writes : StreamWrites Any Raw} {p : ExecutePipeline Any Raw Value E S}
  {x : Execution Any Raw Value E S}

def replayedStreams (replay : ReplayProgress Value S) : List StreamId :=
  replay.checkpoints.map CommandStateReplayCheckpoint.streamId

theorem execute_appending (himpl : Implements command)
    (hreplay : replayRemainingStreams command env.contents n
      (initialProgress command command.streamDeclarations.streams) = .ok last)
    (hbatch : command.batch last.expectedVersions last.state = .ok writes)
    (hcommand : p.command = command)
    (hx : (x.pipeline,x.step) = p.stepReading (ExecutePipeline.initReading command)) :
    ∃ k y, y.pipeline = { p with phase := .awaitingAppend (replayedStreams last) } ∧
      y.step = .yield (.appendEvents writes) ∧ batchesOf y.calls = batchesOf x.calls ∧
      ∀ m, execute env (k+m) x = execute env m y := by
  have hfollows := execute_follows env himpl hcommand n (Tracks.initReading command)
    (sameReading_init command) (by simp) hx
  rw [hreplay] at hfollows
  obtain ⟨k,reads,r,y,htracks,hsame,hqueue,-,hy,hcalls,hrun⟩ := hfollows
  subst hcommand
  rw [ExecutePipeline.stepReading_tracks htracks,hqueue,← htracks.streamIds,hsame.streamIds,
    hsame.expectedVersions,hsame.state] at hy
  simp only [ExecutePipeline.stepHandling_eq,hbatch,Prod.mk.injEq] at hy
  exact ⟨k,y,hy.1,hy.2,hcalls,hrun⟩

variable (env) in
theorem execute_appended {streamIds : List StreamId}
    (hpipeline : x.pipeline = { p with phase := .awaitingAppend streamIds })
    (hstep : x.step = .yield (.appendEvents writes)) :
    ∃ y, (∀ m, execute env (m+1) x = execute env m y) ∧
      batchesOf y.calls = batchesOf x.calls ++ [writes] ∧
      (y.pipeline,y.step) =
        match appendOutcome p.attempt (env.appendResult (batchesOf x.calls).length) with
        | some outcome => p.finish outcome
        | none => p.resumeConflict (env.applyJitter (batchesOf x.calls).length) streamIds := by
  have hresume := resume_appended (p := { p with phase := .awaitingAppend streamIds })
    (env.applyJitter (batchesOf x.calls).length) rfl (env.appendResult (batchesOf x.calls).length)
  have hdispatch : ∃ y, x.dispatch (env.answer x.calls (.appendEvents writes)) = some y ∧
      y.calls = x.calls ++
        [.append writes (env.appendResult (batchesOf x.calls).length)] ∧
      (y.pipeline,y.step) = x.pipeline.resume (env.applyJitter (batchesOf x.calls).length)
        (.eventsAppended (env.appendResult (batchesOf x.calls).length)) := by
    simp only [Execution.dispatch,hstep,Environment.answer]
    exact ⟨_,rfl,rfl,rfl⟩
  obtain ⟨y,hy,hcalls,hend⟩ := hdispatch
  refine ⟨y,execute_yield env hstep hy,by simp [hcalls],?_⟩
  rw [hend,hpipeline,hresume]
  rfl

variable (env) in
theorem execute_slept (hphase : x.pipeline.phase = .awaitingRetrySleep) {durationMs : ℕ}
    (hstep : x.step = .yield (.sleep durationMs)) :
    ∃ y, (∀ m, execute env (m+1) x = execute env m y) ∧ y.calls = x.calls ∧
      (y.pipeline,y.step) =
        x.pipeline.stepReading (ExecutePipeline.initReading x.pipeline.command) := by
  have hdispatch : ∃ y, x.dispatch (env.answer x.calls (.sleep durationMs)) = some y ∧
      y.calls = x.calls ∧ (y.pipeline,y.step) =
        x.pipeline.stepReading (ExecutePipeline.initReading x.pipeline.command) := by
    simp only [Execution.dispatch,hstep,Environment.answer,ExecutePipeline.resume,hphase]
    exact ⟨_,rfl,rfl,rfl⟩
  obtain ⟨y,hy,hcalls,hend⟩ := hdispatch
  exact ⟨y,execute_yield env hstep hy,hcalls,hend⟩

theorem execute_settle (himpl : Implements command)
    (hreplay : replayRemainingStreams command env.contents n
      (initialProgress command command.streamDeclarations.streams) = .ok last)
    (hbatch : command.batch last.expectedVersions last.state = .ok writes) (remaining : ℕ)
    (hcommand : p.command = command) (hpolicy : p.policy = policy)
    (hremaining : p.attempt+remaining = policy.maxRetries)
    (hx : (x.pipeline,x.step) = p.stepReading (ExecutePipeline.initReading command)) :
    ∃ k, ∀ m, execute env (k+m) x = some (settle env policy (replayedStreams last) writes
      remaining p.attempt (batchesOf x.calls) p.hookCalls) := by
  induction remaining generalizing p x with
  | zero =>
    obtain ⟨k,y,hpipeline,hstep,hcalls,hrun⟩ := execute_appending himpl hreplay hbatch hcommand hx
    obtain ⟨z,hz,hzcalls,hend⟩ := execute_appended env hpipeline hstep
    refine ⟨k+2,fun m => ?_⟩
    rw [show k+2+m = k+(m+1+1) by omega,hrun,hz,settle]
    rw [hcalls] at hzcalls hend
    cases houtcome : appendOutcome p.attempt (env.appendResult (batchesOf x.calls).length) with
    | some outcome =>
      rw [houtcome] at hend
      have hz' := Prod.mk.inj hend
      rw [execute_done hz'.2,hzcalls,hz'.1]
    | none =>
      have hlast : ¬p.attempt < p.policy.maxRetries := by rw [hpolicy]; omega
      simp only [houtcome,ExecutePipeline.resumeConflict,if_neg hlast] at hend
      have hz' := Prod.mk.inj hend
      rw [execute_done hz'.2,hzcalls,hz'.1,hpolicy]
  | succ remaining ih =>
    obtain ⟨k,y,hpipeline,hstep,hcalls,hrun⟩ := execute_appending himpl hreplay hbatch hcommand hx
    obtain ⟨z,hz,hzcalls,hend⟩ := execute_appended env hpipeline hstep
    rw [hcalls] at hzcalls hend
    cases houtcome : appendOutcome p.attempt (env.appendResult (batchesOf x.calls).length) with
    | some outcome =>
      refine ⟨k+2,fun m => ?_⟩
      rw [show k+2+m = k+(m+1+1) by omega,hrun,hz,settle]
      rw [houtcome] at hend
      have hz' := Prod.mk.inj hend
      rw [execute_done hz'.2,hzcalls,hz'.1,houtcome]
    | none =>
      have hretry : p.attempt < p.policy.maxRetries := by rw [hpolicy]; omega
      simp only [houtcome,ExecutePipeline.resumeConflict,if_pos hretry] at hend
      obtain ⟨hzpipeline,hzstep⟩ := Prod.mk.inj hend
      obtain ⟨w,hw,hwcalls,hwend⟩ := execute_slept env (x := z) (by rw [hzpipeline]) hzstep
      have hzcommand : z.pipeline.command = command := by rw [hzpipeline]; exact hcommand
      have hzpolicy : z.pipeline.policy = policy := by rw [hzpipeline]; exact hpolicy
      have hzattempt : z.pipeline.attempt = p.attempt+1 := by rw [hzpipeline]
      rw [hzcommand] at hwend
      obtain ⟨k',hk'⟩ := ih hzcommand hzpolicy (by omega) hwend
      refine ⟨k+(k'+2),fun m => ?_⟩
      rw [show k+(k'+2)+m = k+(k'+m+1+1) by omega,hrun,hz,hw,hk',settle,houtcome,hwcalls,hzcalls,
        hzattempt,hzpipeline,hpolicy]

end Attempts

end Pipeline

end SnapshotExecutor
end EventCore
