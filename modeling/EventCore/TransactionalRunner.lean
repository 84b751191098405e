import EventCore.Interaction
import EventCore.ProjectionSource
import Mathlib.Algebra.Group.Nat.Defs

/-! The transactional projection runner as a program over the requests it puts to its leader
connection, its source and its projector. What an error holds of the underlying error, and the
name of the one projector, are left out. -/
namespace EventCore
namespace TransactionalRunner
open Interaction ProjectionSource

abbrev RunId := ℕ
abbrev DeliverySourceId := String
abbrev ProjectionSelectionId := String

def u32Max : ℕ := 2^32 - 1
def i64Max : ℕ := 2^63 - 1

structure ProjectionProgress where
  sourceId : DeliverySourceId
  selectionId : ProjectionSelectionId
  position : ℕ
deriving DecidableEq

inductive ProjectionFailureDecision
  | retry
  | skip
  | stop
  | fatal
deriving DecidableEq

/-- One call of `apply`: what it wrote to the read model, and the work it left for after the
commit if it succeeded. -/
structure Application where
  run : RunId
  serial : ℕ
  position : ℕ
  succeeded : Bool
deriving DecidableEq

/-- A selection stands for what it selects. Zero batches and as many retries as a `u32` counts
are refused when the configuration is built. -/
structure PostgresProjectionConfig where
  selection : ProjectionSelectionId
  batchSize : ℕ
  batchSize_pos : 0 < batchSize
  maxRetries : ℕ
  maxRetries_lt : maxRetries < u32Max
  continuous : Bool

/-- One event in a batch, no retries, and an end once caught up. -/
def PostgresProjectionConfig.stepwise (selection : ProjectionSelectionId) :
    PostgresProjectionConfig :=
  ⟨selection,1,by decide,0,by decide,false⟩

inductive TransactionalProjectionError (Er : Type)
  | leadershipBusy
  | leadershipLost
  | source
  | decode (position : ℕ)
  | application (position : ℕ) (error : Er)
  | retryExhausted (position attempts : ℕ) (error : Er)
  | progress (position : ℕ)
  | progressStore
  | commitIndeterminate (position : ℕ)
  | sourceIdentityMismatch (persisted configured : DeliverySourceId)
  | selectionIdentityMismatch (persisted configured : ProjectionSelectionId)
  | afterCommitFailed (committedPosition : ℕ)
deriving DecidableEq

def progressAtPosition {Er : Type} (position : ℕ) :
    TransactionalProjectionError Er → TransactionalProjectionError Er
  | .progressStore => .progress position
  | error => error

inductive EnvelopeResult
  | processed
  | skipped
  | suppressed
  | stopped
deriving DecidableEq

inductive DrainCycleOutcome
  | caughtUp (through : Option ℕ)
  | stopped (position : ℕ)
deriving DecidableEq

inductive ProjectionRunOutcome
  | caughtUp (processed skipped : ℕ) (through : Option ℕ)
  | stopped (position processed skipped : ℕ)
  | cancelled (processed skipped : ℕ)
deriving DecidableEq

inductive DbRequest
  | tryAdvisoryLock
  | advisoryUnlock
  | close
  | begin
  | commit
  | rollback
  | loadProgress
  | advanceProgress (progress : ProjectionProgress)

@[reducible] def DbRequest.Reply : DbRequest → Type
  | .tryAdvisoryLock => Bool
  | .loadProgress => Option ProjectionProgress
  | _ => Unit

inductive Request (P Ev Er : Type)
  | acquire
  | db (q : DbRequest)
  | highWatermark (source : DeliverySourceId)
  | readEnvelopes (source : DeliverySourceId) (selection : ProjectionSelectionId)
      (after : Option ℕ) (through : DeliveryUpperBound) (limit : ℕ)
  | decode (envelope : PersistedEventEnvelope P)
  | apply (event : Ev) (position : ℕ)
  | onError (position : ℕ) (error : Er) (attempt : ℕ)
  | retrySleep (attempt : ℕ)
  | execute (afterCommit : Application)
  | pollSleep

@[reducible] def Answer (P Ev Er : Type) : Request P Ev Er → Type
  | .acquire => Except Unit Unit
  | .db q => Except Unit q.Reply
  | .highWatermark _ => Except Unit (Option ℕ)
  | .readEnvelopes _ _ _ _ _ => Except Unit (List (PersistedEventEnvelope P))
  | .decode _ => Except Unit Ev
  | .apply _ _ => Except Er Application
  | .onError _ _ _ => ProjectionFailureDecision
  | .retrySleep _ => Unit
  | .execute _ => Except Unit Unit
  | .pollSleep => Bool

section Program

variable {P Ev Er : Type}

abbrev Runner (P Ev Er α : Type) : Type :=
  ExceptT (TransactionalProjectionError Er) (Program (Request P Ev Er) (Answer P Ev Er)) α

def ask (q : Request P Ev Er) : Runner P Ev Er (Answer P Ev Er q) :=
  ExceptT.lift (Program.request q)

def orThrow {α : Type} (error : TransactionalProjectionError Er) :
    Except Unit α → Runner P Ev Er α
  | .ok a => pure a
  | .error _ => throw error

/-- A request whose failure is the given error. -/
def db (error : TransactionalProjectionError Er) (q : DbRequest) : Runner P Ev Er q.Reply :=
  ask (.db q) >>= orThrow error

/-- The result of a part that may fail, for the caller to look at. -/
def result {α : Type} (part : Runner P Ev Er α) :
    Runner P Ev Er (Except (TransactionalProjectionError Er) α) :=
  ExceptT.lift part.run

/-- A lock refused closes the connection; dropping it on an error does the same later. -/
def acquireLeader : Runner P Ev Er Unit := do
  ask .acquire >>= orThrow .leadershipLost
  let acquired : Bool ← db .leadershipLost .tryAdvisoryLock
  if acquired = true then pure ()
  else
    let _ ← ask (.db .close)
    throw .leadershipBusy

def release : Runner P Ev Er Unit := do
  db .leadershipLost .advisoryUnlock
  db .leadershipLost .close

def rollbackPreservingError {α : Type} (error : TransactionalProjectionError Er) :
    Runner P Ev Er α := do
  match ← ask (.db .rollback) with
  | .ok _ => throw error
  | .error _ => throw .leadershipLost

def loadProgress : Runner P Ev Er (Option ProjectionProgress) := db .progressStore .loadProgress

def advanceProgress (progress : ProjectionProgress) : Runner P Ev Er Unit :=
  if progress.position ≤ i64Max then db .progressStore (.advanceProgress progress)
  else throw .progressStore

variable (source : DeliverySourceId) (config : PostgresProjectionConfig)

def validateIdentity (progress : ProjectionProgress) :
    Except (TransactionalProjectionError Er) Unit :=
  if progress.sourceId ≠ source then
    .error (.sourceIdentityMismatch progress.sourceId source)
  else if progress.selectionId ≠ config.selection then
    .error (.selectionIdentityMismatch progress.selectionId config.selection)
  else .ok ()

def loadValidatedProgress : Runner P Ev Er (Option ℕ) := do
  db .leadershipLost .begin
  match ← result loadProgress with
  | .error e => rollbackPreservingError e
  | .ok none =>
    db .leadershipLost .rollback
    pure none
  | .ok (some progress) =>
    match validateIdentity source config progress with
    | .error e => rollbackPreservingError e
    | .ok _ =>
      db .leadershipLost .rollback
      pure (some progress.position)

def positionIsPending (position : ℕ) : Runner P Ev Er Bool := do
  match ← result loadProgress with
  | .error e => throw (progressAtPosition position e)
  | .ok none => pure true
  | .ok (some progress) =>
    match validateIdentity source config progress with
    | .error e => throw e
    | .ok _ => pure (decide (progress.position < position))

/-- Opens the transaction of a position and goes on only when the position is still pending. -/
def whenPending (position : ℕ) (pending : Runner P Ev Er EnvelopeResult) :
    Runner P Ev Er EnvelopeResult := do
  db .leadershipLost .begin
  match ← result (positionIsPending source config position) with
  | .error e => rollbackPreservingError e
  | .ok false =>
    db .leadershipLost .rollback
    pure .suppressed
  | .ok true => pending

/-- Progress moves to the position in the open transaction, which is then committed. -/
def commitAt (position : ℕ) : Runner P Ev Er Unit := do
  match ← result (advanceProgress ⟨source,config.selection,position⟩) with
  | .error e => rollbackPreservingError (progressAtPosition position e)
  | .ok _ => db (.commitIndeterminate position) .commit

def skipPosition (position : ℕ) : Runner P Ev Er EnvelopeResult :=
  whenPending source config position do
    commitAt source config position
    pure .skipped

/-- The attempts at one event. A retry is left exactly while `attempt ≤ max_retries`. -/
def applyLoop (event : Ev) (position : ℕ) (retriesLeft attempt : ℕ) :
    Runner P Ev Er EnvelopeResult := do
  match ← ask (.apply event position) with
  | .ok afterCommit =>
    commitAt source config position
    ask (.execute afterCommit) >>= orThrow (.afterCommitFailed position)
    pure .processed
  | .error error =>
    let decision ← ask (.onError position error attempt)
    db .leadershipLost .rollback
    match decision with
    | .retry =>
      match retriesLeft with
      | 0 => throw (.retryExhausted position attempt error)
      | retriesLeft + 1 =>
        let _ ← ask (.retrySleep attempt)
        whenPending source config position (applyLoop event position retriesLeft (attempt+1))
    | .skip => skipPosition source config position
    | .stop => pure .stopped
    | .fatal => throw (.application position error)

def processEnvelope (envelope : PersistedEventEnvelope P) : Runner P Ev Er EnvelopeResult :=
  whenPending source config envelope.position do
    match ← ask (.decode envelope) with
    | .error _ => rollbackPreservingError (.decode envelope.position)
    | .ok event => applyLoop source config event envelope.position config.maxRetries 1

/-- The variables that run along: `handled` lists what the two counters count. -/
structure Drained where
  after : Option ℕ
  processed : ℕ := 0
  skipped : ℕ := 0
  handled : List (ℕ × EnvelopeResult) := []
deriving DecidableEq

def Drained.note (drained : Drained) (position : ℕ) (result : EnvelopeResult) : Drained where
  after := some position
  processed := if result = .processed then drained.processed+1 else drained.processed
  skipped := if result = .skipped then drained.skipped+1 else drained.skipped
  handled := drained.handled ++ [(position,result)]

def drainPage : List (PersistedEventEnvelope P) → Drained →
    Runner P Ev Er (Option DrainCycleOutcome × Drained)
  | [],drained => pure (none,drained)
  | envelope :: envelopes,drained => do
    let result ← processEnvelope source config envelope
    let drained := drained.note envelope.position result
    if result = .stopped then pure (some (.stopped envelope.position),drained)
    else drainPage envelopes drained

/-- Page after page up to `through`; `pages` bounds how often the loop is unrolled. -/
def drainPages (through : ℕ) : ℕ → Drained → Runner P Ev Er (DrainCycleOutcome × Drained)
  | 0,_ => ExceptT.lift .cut
  | pages + 1,drained => do
    let envelopes ← ask (.readEnvelopes source config.selection drained.after
      (.inclusive through) config.batchSize) >>= orThrow .source
    if envelopes = [] then pure (.caughtUp (some through),drained)
    else
      match ← drainPage source config envelopes drained with
      | (some outcome,drained) => pure (outcome,drained)
      | (none,drained) => drainPages through pages drained

def drainCycle (pages : ℕ) (drained : Drained) :
    Runner P Ev Er (DrainCycleOutcome × Drained) := do
  let through ← ask (.highWatermark source) >>= orThrow .source
  match through with
  | none => pure (.caughtUp none,drained)
  | some through => drainPages source config through pages drained

/-- Cycle after cycle; the pages of each are bounded by `pages`. -/
def runCycles (pages : ℕ) : ℕ → Drained → Runner P Ev Er ProjectionRunOutcome
  | 0,_ => ExceptT.lift .cut
  | cycles + 1,drained => do
    let (outcome,drained) ← drainCycle source config pages drained
    match outcome with
    | .stopped position =>
      release
      pure (.stopped position drained.processed drained.skipped)
    | .caughtUp through =>
      if config.continuous then
        let cancelled : Bool ← ask .pollSleep
        if cancelled = true then
          release
          pure (.cancelled drained.processed drained.skipped)
        else runCycles pages cycles drained
      else
        release
        pure (.caughtUp drained.processed drained.skipped through)

def runTransactionalProjectionWithLeader (unrolling : ℕ) :
    Runner P Ev Er ProjectionRunOutcome := do
  let after ← loadValidatedProgress source config
  runCycles source config unrolling unrolling { after }

def runTransactionalProjection (unrolling : ℕ) : Runner P Ev Er ProjectionRunOutcome := do
  acquireLeader
  runTransactionalProjectionWithLeader source config unrolling

end Program

end TransactionalRunner
end EventCore
