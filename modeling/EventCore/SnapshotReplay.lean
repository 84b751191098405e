import EventCore.ExecutePipeline

/-! Reconstruction of command state, in full or from a stored projection. The store is
given by the items each stream currently reads as; fuel bounds the number of streams
that one replay may visit. -/
namespace EventCore
namespace SnapshotReplay

/-- How a reconstruction ends without a state. -/
inductive Stop
  | error (error : CommandError)
  | panicked (message : String)
  | outOfFuel
  deriving DecidableEq

def COMMAND_STATE_SNAPSHOT_REFRESH_THRESHOLD : ℕ := 100

structure ReplayProgress (Value S : Type) where
  state : S
  queue : List StreamId
  visited : Finset StreamId
  scheduled : Finset StreamId
  expectedVersions : HashMap StreamId StreamVersion
  checkpoints : List (CommandStateReplayCheckpoint Value)

/-- State, expected versions, and the projection to persist, if any. -/
structure Reconstruction (Value S : Type) where
  state : S
  expectedVersions : HashMap StreamId StreamVersion
  snapshot : Option (CommandStateSnapshot Value)

variable {Any Raw Value E S : Type} (command : CommandLogic Any Raw Value E S)

def deserialize (state : Value) : Except Stop S :=
  (command.deserializeCommandStateSnapshot state).mapError .error

def serialize (state : S) : Except Stop Value :=
  (command.serializeCommandStateSnapshot state).mapError .error

/-- Reproduce the discovery queue as it stood after the given checkpoints. -/
def discoverCheckpoints (replay : ReplayProgress Value S) :
    List (CommandStateReplayCheckpoint Value) → Except Stop (ReplayProgress Value S)
  | [] => .ok replay
  | checkpoint :: checkpoints =>
    match replay.queue with
    | [] => .error (.panicked "validated checkpoint prefix")
    | streamId :: queue =>
      if streamId ≠ checkpoint.streamId then
        .error (.panicked "assertion failed: stream_id == checkpoint.stream_id")
      else do
        let state ← deserialize command checkpoint.state
        let (queue,scheduled) := command.discoverRelatedStreams state queue replay.scheduled
        discoverCheckpoints
          { replay with
            state := state, queue := queue, scheduled := scheduled
            visited := insert streamId replay.visited } checkpoints

/-- The progress before any stream is read. -/
def initialProgress (declaredStreamIds : List StreamId) : ReplayProgress Value S :=
  { state := command.default, queue := declaredStreamIds, visited := ∅,
    scheduled := declaredStreamIds.toFinset, expectedVersions := ∅, checkpoints := [] }

def discoveryBeforeCheckpoint (declaredStreamIds : List StreamId)
    (checkpoints : List (CommandStateReplayCheckpoint Value)) :
    Except Stop (ReplayProgress Value S) :=
  discoverCheckpoints command (initialProgress command declaredStreamIds) checkpoints

/-- The per-checkpoint loop of the order check; `none` is the answer `false`. -/
def validateCheckpoints (queue : List StreamId) (visited scheduled : Finset StreamId) :
    List (CommandStateReplayCheckpoint Value) → Except Stop (Option (List StreamId))
  | [] => .ok (some queue)
  | checkpoint :: checkpoints =>
    match queue with
    | [] => .ok none
    | streamId :: queue =>
      if streamId ≠ checkpoint.streamId ∨ streamId ∈ visited ∨
          streamId ∉ checkpoint.streamVersions then .ok none
      else do
        let state ← deserialize command checkpoint.state
        let (queue,scheduled) := command.discoverRelatedStreams state queue scheduled
        validateCheckpoints queue (insert streamId visited) scheduled checkpoints

def snapshotReplayOrderIsValid (streamIds : List StreamId)
    (snapshot : CommandStateSnapshot Value) : Except Stop Bool :=
  if snapshot.streamVersions.entries.length ≠ snapshot.replayCheckpoints.length then .ok false
  else do
    let replay ← discoveryBeforeCheckpoint command streamIds []
    match ← validateCheckpoints command replay.queue replay.visited replay.scheduled
        snapshot.replayCheckpoints with
    | none => .ok false
    | some queue => .ok (queue.isEmpty && snapshot.streamVersions.entries.all fun p =>
        match snapshot.replayCheckpoints.getLast? with
        | none => false
        | some last => decide (last.streamVersions.get? p.1 = some p.2))

/-- The loop of `apply_command_stream`: fold and count until the first undecodable item. -/
def foldCounting : List (Except EventStoreError E) → S → ℕ → Except Stop (S × ℕ)
  | [], state, count => .ok (state,count)
  | .ok event :: items, state, count => foldCounting items (command.apply state event) (count+1)
  | .error e :: _, _, _ => .error (.error (.eventStoreError e))

/-- Fold the events of one stream, all of them or those after a version, and count them. -/
def applyCommandStream (contents : StreamId → List (Except EventStoreError E)) (state : S)
    (streamId : StreamId) (after : Option StreamVersion) : Except Stop (S × ℕ) :=
  let items := match after with
    | some version => (contents streamId).drop version
    | none => contents streamId
  foldCounting command items state 0

/-- Replay one unvisited stream: fold it, record its version and its checkpoint, and queue
what the new state discovers. -/
def replayStream (contents : StreamId → List (Except EventStoreError E))
    (replay : ReplayProgress Value S) (streamId : StreamId) (queue : List StreamId) :
    Except Stop (ReplayProgress Value S) := do
  let (state,count) ← applyCommandStream command contents replay.state streamId none
  let expectedVersions := replay.expectedVersions.insert streamId count
  let value ← serialize command state
  let (queue,scheduled) := command.discoverRelatedStreams state queue replay.scheduled
  .ok
    { state := state, queue := queue, visited := insert streamId replay.visited
      scheduled := scheduled, expectedVersions := expectedVersions
      checkpoints := replay.checkpoints ++ [⟨streamId,value,expectedVersions⟩] }

def replayRemainingStreams (contents : StreamId → List (Except EventStoreError E)) :
    ℕ → ReplayProgress Value S → Except Stop (ReplayProgress Value S)
  | 0, replay => if replay.queue.isEmpty then .ok replay else .error .outOfFuel
  | fuel + 1, replay =>
    match replay.queue with
    | [] => .ok replay
    | streamId :: queue =>
      if streamId ∈ replay.visited then
        replayRemainingStreams contents fuel { replay with queue := queue }
      else do
        let replay ← replayStream command contents replay streamId queue
        replayRemainingStreams contents fuel replay

/-- A checkpoint whose stream has a tail: fold the tail into its state, then replay all
later streams in full. -/
def resumeAt (contents : StreamId → List (Except EventStoreError E)) (fuel : ℕ)
    (streamIds : List StreamId) (before : List (CommandStateReplayCheckpoint Value))
    (checkpoint : CommandStateReplayCheckpoint Value) (version : StreamVersion) (state : S) :
    Except Stop (Reconstruction Value S) := do
  let streamId := checkpoint.streamId
  let expectedVersions := checkpoint.streamVersions.insert streamId version
  let value ← serialize command state
  let checkpoints := before ++ [⟨streamId,value,expectedVersions⟩]
  let replay ← discoveryBeforeCheckpoint command streamIds before
  match replay.queue with
  | [] => .error (.panicked "validated checkpoint queue")
  | current :: queue =>
    if current ≠ streamId then .error (.panicked "assertion failed: current == *stream_id")
    else
      let (queue,scheduled) := command.discoverRelatedStreams state queue replay.scheduled
      let replay ← replayRemainingStreams command contents fuel
        { state := state, queue := queue, visited := insert streamId replay.visited
          scheduled := scheduled, expectedVersions := expectedVersions
          checkpoints := checkpoints }
      let value ← serialize command replay.state
      .ok ⟨replay.state,replay.expectedVersions,
        some ⟨value,replay.expectedVersions,replay.checkpoints⟩⟩

/-- Walk the checkpoints to the first stream with a tail; without one the stored state is
current. -/
def resumeCheckpoints (contents : StreamId → List (Except EventStoreError E)) (fuel : ℕ)
    (streamIds : List StreamId) (snapshot : CommandStateSnapshot Value)
    (before : List (CommandStateReplayCheckpoint Value)) :
    List (CommandStateReplayCheckpoint Value) → Except Stop (Reconstruction Value S)
  | [] => do
    let state ← deserialize command snapshot.state
    .ok ⟨state,snapshot.streamVersions,none⟩
  | checkpoint :: rest =>
    match checkpoint.streamVersions.get? checkpoint.streamId with
    | none => .error (.panicked "no entry found for key")
    | some baseVersion => do
      let state ← deserialize command checkpoint.state
      let (state,tailCount) ←
        applyCommandStream command contents state checkpoint.streamId (some baseVersion)
      if tailCount = 0 then
        resumeCheckpoints contents fuel streamIds snapshot (before ++ [checkpoint]) rest
      else resumeAt command contents fuel streamIds before checkpoint (baseVersion+tailCount) state

/-- Full replay; the projection is emitted once enough events were replayed. -/
def reconstructInFull (contents : StreamId → List (Except EventStoreError E)) (fuel : ℕ)
    (streamIds : List StreamId) : Except Stop (Reconstruction Value S) := do
  let replay ← discoveryBeforeCheckpoint command streamIds []
  let replay ← replayRemainingStreams command contents fuel replay
  let replayedEvents := (replay.expectedVersions.entries.map fun p => p.2).sum
  if COMMAND_STATE_SNAPSHOT_REFRESH_THRESHOLD ≤ replayedEvents then
    let value ← serialize command replay.state
    .ok ⟨replay.state,replay.expectedVersions,
      some ⟨value,replay.expectedVersions,replay.checkpoints⟩⟩
  else .ok ⟨replay.state,replay.expectedVersions,none⟩

def reconstructCommandSnapshot (contents : StreamId → List (Except EventStoreError E))
    (fuel : ℕ) (streamIds : List StreamId) (storedSnapshot : Option (CommandStateSnapshot Value)) :
    Except Stop (Reconstruction Value S) :=
  match storedSnapshot with
  | none => reconstructInFull command contents fuel streamIds
  | some snapshot => do
    if ← snapshotReplayOrderIsValid command streamIds snapshot then
      resumeCheckpoints command contents fuel streamIds snapshot [] snapshot.replayCheckpoints
    else reconstructInFull command contents fuel streamIds

end SnapshotReplay
end EventCore
