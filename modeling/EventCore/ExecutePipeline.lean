import EventCore.Command

/-! The command pipeline as a pure state machine: it yields store effects, is resumed
with their results, and never performs I/O itself. -/
namespace EventCore

inductive BackoffStrategy
  | fixed (delayMs : ℕ)
  | exponential (baseMs : ℕ)
  deriving DecidableEq

structure RetryContext where
  streams : List StreamId
  attempt : ℕ+
  delayMs : ℕ
  deriving DecidableEq

/-- `metricsHook` tells whether a hook is installed; its calls are recorded by the pipeline. -/
structure RetryPolicy where
  maxRetries : ℕ := 4
  backoffStrategy : BackoffStrategy := .exponential 10
  metricsHook : Bool := false
  deriving DecidableEq

def u64Max : ℕ := 2^64-1

/-- `applyJitter` stands for the random factor of one call, drawn by the caller. -/
def computeRetryDelayMs (applyJitter : ℕ → ℕ) : BackoffStrategy → ℕ → ℕ
  | .fixed delayMs, _ => delayMs
  | .exponential baseMs, attempt =>
    let baseDelay :=
      if 2^attempt ≤ u64Max ∧ baseMs*2^attempt ≤ u64Max then baseMs*2^attempt else u64Max
    applyJitter baseDelay

inductive StoreEffect (Any Raw : Type)
  | readStream (streamId : StreamId)
  | appendEvents (writes : StreamWrites Any Raw)
  | sleep (durationMs : ℕ)

inductive StoreEffectResult (E : Type)
  | streamEvent (event : E)
  | streamEnded
  | streamReadError (error : EventStoreError)
  | eventsAppended (result : Except EventStoreError Unit)
  | slept

inductive PipelineOutcome
  | success (attempts : ℕ+)
  | error (error : CommandError)
  deriving DecidableEq

/-- `panicked` carries the message of a Rust panic. -/
inductive PipelineStep (Any Raw : Type)
  | yield (effect : StoreEffect Any Raw)
  | waitForResult
  | done (outcome : PipelineOutcome)
  | panicked (message : String)

structure Reading (S : Type) where
  queue : List StreamId
  visited : Finset StreamId
  scheduled : Finset StreamId
  streamIds : List StreamId
  expectedVersions : HashMap StreamId StreamVersion
  state : S

inductive Phase (S : Type)
  | init
  | readingStreams (reading : Reading S)
  | awaitingStreamRead (currentStream : StreamId) (reading : Reading S) (eventCount : ℕ)
  | handling (streamIds : List StreamId) (expectedVersions : HashMap StreamId StreamVersion)
      (state : S)
  | awaitingAppend (streamIds : List StreamId)
  | awaitingRetrySleep
  | done

structure ExecutePipeline (Any Raw Value E S : Type) where
  command : CommandLogic Any Raw Value E S
  policy : RetryPolicy
  phase : Phase S
  attempt : ℕ
  hookCalls : List RetryContext

namespace ExecutePipeline

variable {Any Raw Value E S : Type}

def new (command : CommandLogic Any Raw Value E S) (policy : RetryPolicy) :
    ExecutePipeline Any Raw Value E S :=
  ⟨command,policy,.init,0,[]⟩

def finish (p : ExecutePipeline Any Raw Value E S) (outcome : PipelineOutcome) :
    ExecutePipeline Any Raw Value E S × PipelineStep Any Raw :=
  ({ p with phase := .done },.done outcome)

/-- A panic leaves the phase that `mem::replace` put in place. -/
def panicWith (p : ExecutePipeline Any Raw Value E S) (message : String) :
    ExecutePipeline Any Raw Value E S × PipelineStep Any Raw :=
  ({ p with phase := .done },.panicked message)

def stepHandling (p : ExecutePipeline Any Raw Value E S) (streamIds : List StreamId)
    (expectedVersions : HashMap StreamId StreamVersion) (state : S) :
    ExecutePipeline Any Raw Value E S × PipelineStep Any Raw :=
  match p.command.handle state with
  | .ok events =>
    match buildStreamWritesFromEvents p.command.event events expectedVersions with
    | .ok writes => ({ p with phase := .awaitingAppend streamIds },.yield (.appendEvents writes))
    | .error e => p.finish (.error e)
  | .error e => p.finish (.error e)

def popUnvisited (visited : Finset StreamId) :
    List StreamId → Option (StreamId × List StreamId)
  | [] => none
  | streamId :: queue =>
    if streamId ∈ visited then popUnvisited visited queue else some (streamId,queue)

def stepReading (p : ExecutePipeline Any Raw Value E S) (r : Reading S) :
    ExecutePipeline Any Raw Value E S × PipelineStep Any Raw :=
  match popUnvisited r.visited r.queue with
  | some (streamId,queue) =>
    let reading := { r with queue := queue, visited := insert streamId r.visited }
    ({ p with phase := .awaitingStreamRead streamId reading 0 },.yield (.readStream streamId))
  | none => p.stepHandling r.streamIds r.expectedVersions r.state

def initReading (command : CommandLogic Any Raw Value E S) : Reading S :=
  let (queue,scheduled) := enqueueNew command.streamDeclarations.streams [] ∅
  { queue := queue, visited := ∅, scheduled := scheduled, streamIds := [],
    expectedVersions := ∅, state := command.default }

def step (p : ExecutePipeline Any Raw Value E S) :
    ExecutePipeline Any Raw Value E S × PipelineStep Any Raw :=
  match p.phase with
  | .init => p.stepReading (initReading p.command)
  | .readingStreams r => p.stepReading r
  | .handling streamIds expectedVersions state =>
    p.stepHandling streamIds expectedVersions state
  | .awaitingStreamRead .. | .awaitingAppend _ | .awaitingRetrySleep =>
    p.panicWith "step() called while awaiting a result — call resume() instead"
  | .done => p.panicWith "step() called on a completed pipeline"

/-- One conflict: retry after a delay while the policy allows it. -/
def resumeConflict (applyJitter : ℕ → ℕ) (p : ExecutePipeline Any Raw Value E S)
    (streamIds : List StreamId) : ExecutePipeline Any Raw Value E S × PipelineStep Any Raw :=
  if p.attempt < p.policy.maxRetries then
    let delayMs := computeRetryDelayMs applyJitter p.policy.backoffStrategy p.attempt
    let ctx : RetryContext := ⟨streamIds,p.attempt.succPNat,delayMs⟩
    ({ p with
        attempt := p.attempt+1
        phase := .awaitingRetrySleep
        hookCalls := if p.policy.metricsHook then p.hookCalls ++ [ctx] else p.hookCalls },
      .yield (.sleep delayMs))
  else p.finish (.error (.concurrencyError p.policy.maxRetries))

/-- The stream is consumed: record its version and queue what the resolver asks for. -/
def streamEnded (p : ExecutePipeline Any Raw Value E S) (currentStream : StreamId)
    (r : Reading S) (eventCount : ℕ) : Reading S :=
  let (queue,scheduled) := p.command.discoverRelatedStreams r.state r.queue r.scheduled
  { r with
    queue := queue
    scheduled := scheduled
    streamIds := r.streamIds ++ [currentStream]
    expectedVersions := r.expectedVersions.insert currentStream eventCount }

def resume (applyJitter : ℕ → ℕ) (p : ExecutePipeline Any Raw Value E S)
    (result : StoreEffectResult E) :
    ExecutePipeline Any Raw Value E S × PipelineStep Any Raw :=
  match p.phase with
  | .awaitingStreamRead currentStream r eventCount =>
    match result with
    | .streamEvent event =>
      let reading := { r with state := p.command.apply r.state event }
      ({ p with phase := .awaitingStreamRead currentStream reading (eventCount+1) },
        .waitForResult)
    | .streamEnded => p.stepReading (p.streamEnded currentStream r eventCount)
    | .streamReadError e => p.finish (.error (.eventStoreError e))
    | _ => p.panicWith "expected a stream read result"
  | .awaitingAppend streamIds =>
    match result with
    | .eventsAppended (.ok _) => p.finish (.success p.attempt.succPNat)
    | .eventsAppended (.error (.versionConflict ..)) => p.resumeConflict applyJitter streamIds
    | .eventsAppended (.error other) => p.finish (.error (.eventStoreError other))
    | _ => p.panicWith "expected EventsAppended result"
  | .awaitingRetrySleep =>
    match result with
    | .slept => p.stepReading (initReading p.command)
    | _ => p.panicWith "expected Slept result"
  | _ => p.panicWith "resume() called in wrong phase"

/-- Push the items of an opened stream into the pipeline, then its end. -/
def pumpItems (applyJitter : ℕ → ℕ) (p : ExecutePipeline Any Raw Value E S) :
    List (Except EventStoreError E) → ExecutePipeline Any Raw Value E S × PipelineStep Any Raw
  | [] => p.resume applyJitter .streamEnded
  | .ok event :: items =>
    match p.resume applyJitter (.streamEvent event) with
    | (p,.waitForResult) => pumpItems applyJitter p items
    | (p,_) => p.panicWith "assertion failed: matches!(step, PipelineStep::WaitForResult)"
  | .error e :: _ => p.resume applyJitter (.streamReadError e)

def pumpStreamReads (applyJitter : ℕ → ℕ) (p : ExecutePipeline Any Raw Value E S)
    (opened : Except EventStoreError (List (Except EventStoreError E))) :
    ExecutePipeline Any Raw Value E S × PipelineStep Any Raw :=
  match opened with
  | .ok items => p.pumpItems applyJitter items
  | .error e => p.resume applyJitter (.streamReadError e)

end ExecutePipeline

namespace CommandLogic

variable {Any Raw Value E S : Type} (command : CommandLogic Any Raw Value E S)

/-- Fold `apply` over the items of one stream; the first undecodable item fails the fold. -/
def foldItems (items : List (Except EventStoreError E)) (state : S) :
    Except EventStoreError S :=
  items.foldlM (fun state item => item.map (command.apply state)) state

/-- Fold `apply` over whole streams, one after the other. -/
def foldStreams (contents : StreamId → List (Except EventStoreError E))
    (streams : List StreamId) (state : S) : Except EventStoreError S :=
  streams.foldlM (fun state streamId => command.foldItems (contents streamId) state) state

@[simp] theorem foldItems_nil (state : S) : command.foldItems [] state = .ok state := rfl

@[simp] theorem foldItems_ok (event : E) (items : List (Except EventStoreError E)) (state : S) :
    command.foldItems (.ok event :: items) state =
      command.foldItems items (command.apply state event) := rfl

@[simp] theorem foldItems_error (e : EventStoreError) (items : List (Except EventStoreError E))
    (state : S) : command.foldItems (.error e :: items) state = .error e := rfl

theorem foldItems_append (items items' : List (Except EventStoreError E)) (state : S) :
    command.foldItems (items ++ items') state =
      (command.foldItems items state).bind (command.foldItems items') := by
  simp only [foldItems,List.foldlM_append]
  rfl

@[simp] theorem foldStreams_nil (contents : StreamId → List (Except EventStoreError E))
    (state : S) : command.foldStreams contents [] state = .ok state := rfl

theorem foldStreams_concat (contents : StreamId → List (Except EventStoreError E))
    (streams : List StreamId) (streamId : StreamId) (state : S) :
    command.foldStreams contents (streams ++ [streamId]) state =
      (command.foldStreams contents streams state).bind
        (command.foldItems (contents streamId)) := by
  simp only [foldStreams,List.foldlM_append]
  congr 1
  funext state
  simp only [List.foldlM_cons,List.foldlM_nil]
  cases command.foldItems (contents streamId) state <;> rfl

theorem foldStreams_congr {contents contents' : StreamId → List (Except EventStoreError E)}
    {streams : List StreamId} (h : ∀ s ∈ streams, contents s = contents' s) (state : S) :
    command.foldStreams contents streams state = command.foldStreams contents' streams state := by
  induction streams generalizing state with
  | nil => rfl
  | cons s streams ih =>
    simp only [foldStreams,List.foldlM_cons]
    rw [h s List.mem_cons_self]
    congr 1
    funext state
    exact ih (fun t ht => h t (List.mem_cons_of_mem _ ht)) state

end CommandLogic

namespace ExecutePipeline

variable {Any Raw Value E S : Type}

theorem popUnvisited_eq_some {visited : Finset StreamId} {queue rest : List StreamId}
    {streamId : StreamId} (h : popUnvisited visited queue = some (streamId,rest)) :
    streamId ∉ visited := by
  induction queue with
  | nil => simp [popUnvisited] at h
  | cons s queue ih =>
    unfold popUnvisited at h
    split_ifs at h with hs
    · exact ih h
    · simp only [Option.some.injEq,Prod.mk.injEq] at h
      exact h.1 ▸ hs

/-- Everything that follows a completed stream: the next unvisited stream is opened, or
the command is handled and its batch appended, or the run ends in an error. -/
theorem stepReading_cases (p : ExecutePipeline Any Raw Value E S) (r : Reading S) :
    (∃ streamId queue, streamId ∉ r.visited ∧ p.stepReading r =
      ({ p with phase := .awaitingStreamRead streamId
                          { r with queue := queue, visited := insert streamId r.visited } 0 },
        .yield (.readStream streamId))) ∨
    (∃ events writes, p.command.handle r.state = .ok events ∧
      buildStreamWritesFromEvents p.command.event events r.expectedVersions = .ok writes ∧
      p.stepReading r =
        ({ p with phase := .awaitingAppend r.streamIds },.yield (.appendEvents writes))) ∨
    ∃ e, p.stepReading r = p.finish (.error e) := by
  unfold stepReading
  cases hpop : popUnvisited r.visited r.queue with
  | some next => exact .inl ⟨next.1,next.2,popUnvisited_eq_some hpop,rfl⟩
  | none =>
    right
    simp only [stepHandling]
    cases hhandle : p.command.handle r.state with
    | error e => exact .inr ⟨e,rfl⟩
    | ok events =>
      simp only
      cases hbuild : buildStreamWritesFromEvents p.command.event events r.expectedVersions with
      | error e => exact .inr ⟨e,rfl⟩
      | ok writes => exact .inl ⟨events,writes,rfl,hbuild,rfl⟩

theorem resumeConflict_cases (applyJitter : ℕ → ℕ) (p : ExecutePipeline Any Raw Value E S)
    (streamIds : List StreamId) :
    (∃ p' delayMs, p.resumeConflict applyJitter streamIds = (p',.yield (.sleep delayMs)) ∧
      p'.command = p.command ∧ p'.phase = .awaitingRetrySleep) ∨
    p.resumeConflict applyJitter streamIds =
      p.finish (.error (.concurrencyError p.policy.maxRetries)) := by
  unfold resumeConflict
  by_cases h : p.attempt < p.policy.maxRetries
  · rw [if_pos h]
    exact .inl ⟨_,_,rfl,rfl,rfl⟩
  · rw [if_neg h]
    exact .inr rfl

/-- Pumping one stream folds its items into the state and counts them, or ends the
run with the first item error. -/
theorem pumpItems_eq (applyJitter : ℕ → ℕ) {p : ExecutePipeline Any Raw Value E S}
    {streamId : StreamId} {r : Reading S} {n : ℕ}
    (hphase : p.phase = .awaitingStreamRead streamId r n)
    (items : List (Except EventStoreError E)) :
    p.pumpItems applyJitter items =
      match p.command.foldItems items r.state with
      | .ok state =>
        p.stepReading (p.streamEnded streamId { r with state := state } (n+items.length))
      | .error e => p.finish (.error (.eventStoreError e)) := by
  induction items generalizing p r n with
  | nil => simp [pumpItems,resume,hphase]
  | cons item items ih =>
    cases item with
    | error e => simp [pumpItems,resume,hphase]
    | ok event =>
      simp only [pumpItems,resume,hphase,CommandLogic.foldItems_ok,List.length_cons]
      rw [ih rfl]
      simp only [Nat.add_assoc,Nat.add_comm 1]
      cases p.command.foldItems items (p.command.apply r.state event) with
      | error e => rfl
      | ok state => simp [stepReading,streamEnded,stepHandling,finish]

end ExecutePipeline

end EventCore
