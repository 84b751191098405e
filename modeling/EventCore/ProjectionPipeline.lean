import EventCore.Projection

/-! The projection pipeline as a pure state machine: polling, event processing, retries
and checkpoints, with every effect yielded to the runner. -/
namespace EventCore

inductive PollMode
  | batch | continuous
  deriving DecidableEq

structure PollConfig where
  pollIntervalMs : ℕ := 100
  emptyPollBackoffMs : ℕ := 50
  pollFailureBackoffMs : ℕ := 100
  maxConsecutivePollFailures : ℕ+ := 5

/-- `backoffMs n` stands for the floating-point delay before the `n`-th retry, uncapped. -/
structure EventRetryConfig where
  maxRetryAttempts : ℕ := 3
  backoffMs : ℕ → ℕ := fun n => 100*2^(n-1)
  maxRetryDelayMs : ℕ := 5000

inductive ProjectionEffect
  | readEvents (filter : EventFilter) (page : EventPage)
  | loadCheckpoint (name : String)
  | saveCheckpoint (name : String) (position : Uuid)
  | sleep (durationMs : ℕ)
  deriving DecidableEq

inductive ProjectionEffectResult (E : Type)
  | eventsRead (result : Except String (List (E × Uuid)))
  | checkpointLoaded (result : Except String (Option Uuid))
  | checkpointSaved (result : Except String Unit)
  | slept

inductive ProjectionStep
  | yield (effect : ProjectionEffect)
  | done (result : Except ProjectionError Unit)
  | panicked (message : String)

inductive ProjectionPhase (E X : Type)
  | loadCheckpoint
  | awaitingCheckpoint
  | pollEvents (lastCheckpoint : Option Uuid) (ctx : X) (consecutiveFailures : ℕ)
  | awaitingEvents (lastCheckpoint : Option Uuid) (ctx : X) (consecutiveFailures : ℕ)
  | processingEvents (events : List (E × Uuid)) (eventIndex retryCount : ℕ)
      (lastCheckpoint : Option Uuid) (ctx : X)
  | awaitingCheckpointSave (events : List (E × Uuid)) (eventIndex : ℕ)
      (lastCheckpoint : Option Uuid) (ctx : X)
  | awaitingSkipCheckpointSave (events : List (E × Uuid)) (eventIndex : ℕ)
      (lastCheckpoint : Option Uuid) (ctx : X)
  | awaitingEventRetrySleep (events : List (E × Uuid)) (eventIndex retryCount : ℕ)
      (lastCheckpoint : Option Uuid) (ctx : X)
  | awaitingPollFailureSleep (lastCheckpoint : Option Uuid) (ctx : X) (consecutiveFailures : ℕ)
  | awaitingPollSleep (lastCheckpoint : Option Uuid) (ctx : X)
  | done

/-- One call of the projector's `apply`, with the decision taken when it failed. -/
inductive ProjectorCall (E : Type)
  | applied (event : E) (position : Uuid)
  | failed (event : E) (position : Uuid) (retryCount : ℕ) (strategy : FailureStrategy)

/-- `calls` records what was asked of the projector so far. -/
structure ProjectionPipeline (P E X Err : Type) where
  projector : Projector P E X Err
  self : P
  hasCheckpointStore : Bool
  pollMode : PollMode
  pollConfig : PollConfig
  eventRetryConfig : EventRetryConfig
  phase : ProjectionPhase E X
  calls : List (ProjectorCall E)

namespace ProjectionPipeline

variable {P E X Err : Type}

def new (projector : Projector P E X Err) (self : P) (hasCheckpointStore : Bool)
    (pollMode : PollMode) (pollConfig : PollConfig) (eventRetryConfig : EventRetryConfig) :
    ProjectionPipeline P E X Err :=
  { projector := projector, self := self, hasCheckpointStore := hasCheckpointStore
    pollMode := pollMode, pollConfig := pollConfig, eventRetryConfig := eventRetryConfig
    phase := if hasCheckpointStore then .loadCheckpoint
      else .pollEvents none projector.defaultContext 0
    calls := [] }

def BATCH_SIZE : ℕ := 1000

/-- Leave the terminal phase that `mem::replace` put in place. -/
def finish (p : ProjectionPipeline P E X Err) (result : Except ProjectionError Unit) :
    ProjectionPipeline P E X Err × ProjectionStep :=
  ({ p with phase := .done },.done result)

def panicWith (p : ProjectionPipeline P E X Err) (message : String) :
    ProjectionPipeline P E X Err × ProjectionStep :=
  ({ p with phase := .done },.panicked message)

def stepPoll (p : ProjectionPipeline P E X Err) (lastCheckpoint : Option Uuid) (ctx : X)
    (consecutiveFailures : ℕ) : ProjectionPipeline P E X Err × ProjectionStep :=
  let filter := EventFilter.all.withEventType p.projector.eventTypeName
  let page := match lastCheckpoint with
    | some position => EventPage.after position BATCH_SIZE
    | none => EventPage.first BATCH_SIZE
  ({ p with phase := .awaitingEvents lastCheckpoint ctx consecutiveFailures },
    .yield (.readEvents filter page))

/-- All events of the page are processed: batch mode is done, else sleep and poll again. -/
def stepPageEnd (p : ProjectionPipeline P E X Err) (events : List (E × Uuid))
    (lastCheckpoint : Option Uuid) (ctx : X) :
    ProjectionPipeline P E X Err × ProjectionStep :=
  let foundEvents := !events.isEmpty
  if p.pollMode = .batch then p.finish (.ok ())
  else
    let delay :=
      if foundEvents then p.pollConfig.pollIntervalMs else p.pollConfig.emptyPollBackoffMs
    ({ p with phase := .awaitingPollSleep lastCheckpoint ctx },.yield (.sleep delay))

def stepRetry (p : ProjectionPipeline P E X Err) (events : List (E × Uuid))
    (eventIndex retryCount : ℕ) (lastCheckpoint : Option Uuid) (ctx : X) :
    ProjectionPipeline P E X Err × ProjectionStep :=
  if p.eventRetryConfig.maxRetryAttempts ≤ retryCount then
    p.finish (.error (.failed "projector apply failed after max retries"))
  else
    let newRetryCount := retryCount+1
    let cappedDelay :=
      min (p.eventRetryConfig.backoffMs newRetryCount) p.eventRetryConfig.maxRetryDelayMs
    ({ p with phase := .awaitingEventRetrySleep events eventIndex newRetryCount lastCheckpoint ctx },
      .yield (.sleep cappedDelay))

/-- Process the events of a page from `remaining` on; without a checkpoint store the
loop moves on to the next event itself. -/
def stepProcessing (events : List (E × Uuid)) : List (E × Uuid) → ℕ → ℕ → Option Uuid → X →
    ProjectionPipeline P E X Err → ProjectionPipeline P E X Err × ProjectionStep
  | [], _, _, lastCheckpoint, ctx, p => p.stepPageEnd events lastCheckpoint ctx
  | (event,position) :: remaining, eventIndex, retryCount, lastCheckpoint, ctx, p =>
    match p.projector.apply p.self event position ctx with
    | (.ok _,self,ctx) =>
      let p := { p with self := self, calls := p.calls ++ [ProjectorCall.applied event position] }
      if p.hasCheckpointStore then
        ({ p with phase := .awaitingCheckpointSave events eventIndex (some position) ctx },
          .yield (.saveCheckpoint p.projector.name position))
      else stepProcessing events remaining (eventIndex+1) 0 (some position) ctx p
    | (.error error,self,ctx) =>
      let (strategy,self) := p.projector.onError self ⟨error,position,retryCount⟩
      let p := { p with
        self := self
        calls := p.calls ++ [ProjectorCall.failed event position retryCount strategy] }
      match strategy with
      | .fatal => p.finish (.error (.failed "projector apply failed"))
      | .skip =>
        if p.hasCheckpointStore then
          ({ p with phase := .awaitingSkipCheckpointSave events eventIndex (some position) ctx },
            .yield (.saveCheckpoint p.projector.name position))
        else stepProcessing events remaining (eventIndex+1) 0 (some position) ctx p
      | .retry => p.stepRetry events eventIndex retryCount lastCheckpoint ctx

def processFrom (p : ProjectionPipeline P E X Err) (events : List (E × Uuid))
    (eventIndex retryCount : ℕ) (lastCheckpoint : Option Uuid) (ctx : X) :
    ProjectionPipeline P E X Err × ProjectionStep :=
  stepProcessing events (events.drop eventIndex) eventIndex retryCount lastCheckpoint ctx p

def step (p : ProjectionPipeline P E X Err) : ProjectionPipeline P E X Err × ProjectionStep :=
  match p.phase with
  | .loadCheckpoint =>
    ({ p with phase := .awaitingCheckpoint },.yield (.loadCheckpoint p.projector.name))
  | .pollEvents lastCheckpoint ctx consecutiveFailures =>
    p.stepPoll lastCheckpoint ctx consecutiveFailures
  | .processingEvents events eventIndex retryCount lastCheckpoint ctx =>
    p.processFrom events eventIndex retryCount lastCheckpoint ctx
  | .done => p.panicWith "step() called on completed pipeline"
  | _ => p.panicWith "step() called while awaiting a result — call resume() instead"

/-- A failed poll: give up once the configured number of failures was already seen. -/
def resumePollFailure (p : ProjectionPipeline P E X Err) (e : String)
    (lastCheckpoint : Option Uuid) (ctx : X) (consecutiveFailures : ℕ) :
    ProjectionPipeline P E X Err × ProjectionStep :=
  if (p.pollConfig.maxConsecutivePollFailures : ℕ) ≤ consecutiveFailures then
    p.finish (.error (.failed ("failed to read events after max retries: " ++ e)))
  else
    ({ p with phase := .awaitingPollFailureSleep lastCheckpoint ctx (consecutiveFailures+1) },
      .yield (.sleep p.pollConfig.pollFailureBackoffMs))

def resume (p : ProjectionPipeline P E X Err) (result : ProjectionEffectResult E) :
    ProjectionPipeline P E X Err × ProjectionStep :=
  match p.phase with
  | .awaitingCheckpoint =>
    match result with
    | .checkpointLoaded (.ok checkpoint) => p.stepPoll checkpoint p.projector.defaultContext 0
    | .checkpointLoaded (.error e) => p.finish (.error (.failed
        ("failed to load checkpoint for projector '" ++ p.projector.name ++ "': " ++ e)))
    | _ => p.panicWith "expected CheckpointLoaded result"
  | .awaitingEvents lastCheckpoint ctx consecutiveFailures =>
    match result with
    | .eventsRead (.ok events) => p.processFrom events 0 0 lastCheckpoint ctx
    | .eventsRead (.error e) => p.resumePollFailure e lastCheckpoint ctx consecutiveFailures
    | _ => p.panicWith "expected EventsRead result"
  -- a failed save is only logged, whatever the result is
  | .awaitingCheckpointSave events eventIndex lastCheckpoint ctx
  | .awaitingSkipCheckpointSave events eventIndex lastCheckpoint ctx =>
    p.processFrom events (eventIndex+1) 0 lastCheckpoint ctx
  | .awaitingEventRetrySleep events eventIndex retryCount lastCheckpoint ctx =>
    p.processFrom events eventIndex retryCount lastCheckpoint ctx
  | .awaitingPollFailureSleep lastCheckpoint ctx consecutiveFailures =>
    p.stepPoll lastCheckpoint ctx consecutiveFailures
  | .awaitingPollSleep lastCheckpoint ctx => p.stepPoll lastCheckpoint ctx 0
  | _ => p.panicWith "resume() called in wrong phase"

end ProjectionPipeline

def ProjectorCall.handled {E : Type} : ProjectorCall E → Option (E × Uuid)
  | .applied event position => some (event,position)
  | .failed event position _ .skip => some (event,position)
  | .failed .. => none

namespace ProjectionPipeline

variable {P E X Err : Type}

def handled (p : ProjectionPipeline P E X Err) : List (E × Uuid) :=
  p.calls.filterMap ProjectorCall.handled

/-- Position of the last settled event, or where the run started. -/
def lastHandled (p : ProjectionPipeline P E X Err) (start : Option Uuid) : Option Uuid :=
  (p.handled.getLast?.map Prod.snd).or start

end ProjectionPipeline

/-- What one call makes of the projector's state and context, with the answers it got. -/
inductive ProjectorCall.Makes {P E X Err : Type} (projector : Projector P E X Err) :
    ProjectorCall E → P × X → P × X → Prop
  | applied {event : E} {position : Uuid} {s s' : P × X} :
      projector.apply s.1 event position s.2 = (.ok (),s') →
      Makes projector (.applied event position) s s'
  | failed {event : E} {position : Uuid} {n : ℕ} {strategy : FailureStrategy} {error : Err}
      {s s' : P × X} {self : P} :
      projector.apply s.1 event position s.2 = (.error error,s') →
      projector.onError s'.1 ⟨error,position,n⟩ = (strategy,self) →
      Makes projector (.failed event position n strategy) s (self,s'.2)

inductive Calls {P E X Err : Type} (projector : Projector P E X Err) (start : P × X) :
    List (ProjectorCall E) → P × X → Prop
  | nil : Calls projector start [] start
  | concat {calls : List (ProjectorCall E)} {call : ProjectorCall E} {s s' : P × X} :
      Calls projector start calls s → call.Makes projector s s' →
      Calls projector start (calls ++ [call]) s'

def ProjectionPhase.rest {E X : Type} : ProjectionPhase E X → List (E × Uuid)
  | .processingEvents events eventIndex .. => events.drop eventIndex
  | .awaitingEventRetrySleep events eventIndex .. => events.drop eventIndex
  | .awaitingCheckpointSave events eventIndex .. => events.drop (eventIndex+1)
  | .awaitingSkipCheckpointSave events eventIndex .. => events.drop (eventIndex+1)
  | _ => []

/-- The cursor a phase carries; none in the phases without one. -/
def ProjectionPhase.cursor {E X : Type} : ProjectionPhase E X → Option (Option Uuid)
  | .pollEvents lastCheckpoint .. => some lastCheckpoint
  | .awaitingEvents lastCheckpoint .. => some lastCheckpoint
  | .processingEvents _ _ _ lastCheckpoint _ => some lastCheckpoint
  | .awaitingCheckpointSave _ _ lastCheckpoint _ => some lastCheckpoint
  | .awaitingSkipCheckpointSave _ _ lastCheckpoint _ => some lastCheckpoint
  | .awaitingEventRetrySleep _ _ _ lastCheckpoint _ => some lastCheckpoint
  | .awaitingPollFailureSleep lastCheckpoint .. => some lastCheckpoint
  | .awaitingPollSleep lastCheckpoint _ => some lastCheckpoint
  | .loadCheckpoint | .awaitingCheckpoint | .done => none

/-- The context that the next call of the projector gets. -/
def ProjectionPhase.context {E X : Type} (defaultContext : X) : ProjectionPhase E X → Option X
  | .loadCheckpoint | .awaitingCheckpoint => some defaultContext
  | .pollEvents _ ctx _ => some ctx
  | .awaitingEvents _ ctx _ => some ctx
  | .processingEvents _ _ _ _ ctx => some ctx
  | .awaitingCheckpointSave _ _ _ ctx => some ctx
  | .awaitingSkipCheckpointSave _ _ _ ctx => some ctx
  | .awaitingEventRetrySleep _ _ _ _ ctx => some ctx
  | .awaitingPollFailureSleep _ ctx _ => some ctx
  | .awaitingPollSleep _ ctx => some ctx
  | .done => none

def ProjectionPhase.LeavesPage {E X : Type} : ProjectionPhase E X → Prop
  | .awaitingCheckpoint | .awaitingEvents .. | .awaitingPollFailureSleep .. => False
  | _ => True

/-- The phases a runner can hold together with the step that was yielded for them. -/
inductive Fits {E X : Type} : ProjectionStep → ProjectionPhase E X → Prop
  | load {name : String} : Fits (.yield (.loadCheckpoint name)) .awaitingCheckpoint
  | read {filter : EventFilter} {cursor : Option Uuid} {ctx : X} {n : ℕ} :
      Fits (.yield (.readEvents filter ⟨cursor,ProjectionPipeline.BATCH_SIZE⟩))
        (.awaitingEvents cursor ctx n)
  | save {name : String} {position : Uuid} {events : List (E × Uuid)} {i : ℕ} {ctx : X} :
      Fits (.yield (.saveCheckpoint name position))
        (.awaitingCheckpointSave events i (some position) ctx)
  | skipSave {name : String} {position : Uuid} {events : List (E × Uuid)} {i : ℕ} {ctx : X} :
      Fits (.yield (.saveCheckpoint name position))
        (.awaitingSkipCheckpointSave events i (some position) ctx)
  | retrySleep {delay : ℕ} {events : List (E × Uuid)} {i n : ℕ} {cursor : Option Uuid} {ctx : X} :
      Fits (.yield (.sleep delay)) (.awaitingEventRetrySleep events i n cursor ctx)
  | pollFailureSleep {delay n : ℕ} {cursor : Option Uuid} {ctx : X} :
      Fits (.yield (.sleep delay)) (.awaitingPollFailureSleep cursor ctx n)
  | pollSleep {delay : ℕ} {cursor : Option Uuid} {ctx : X} :
      Fits (.yield (.sleep delay)) (.awaitingPollSleep cursor ctx)
  | done {result : Except ProjectionError Unit} : Fits (.done result) .done

namespace ProjectionPipeline

variable {P E X Err : Type}

@[simp] theorem handled_append_applied (p : ProjectionPipeline P E X Err) (self : P) (event : E)
    (position : Uuid) :
    handled { p with self := self, calls := p.calls ++ [.applied event position] } =
      p.handled ++ [(event,position)] := by
  simp [handled,ProjectorCall.handled]

theorem handled_append_failed (p : ProjectionPipeline P E X Err) (self : P) (event : E)
    (position : Uuid) (n : ℕ) (strategy : FailureStrategy) :
    handled { p with self := self, calls := p.calls ++ [.failed event position n strategy] } =
      p.handled ++ if strategy = .skip then [(event,position)] else [] := by
  cases strategy <;> simp [handled,ProjectorCall.handled]

/-- What settling the events `remaining` after those of `p` leaves behind, when the run
started at `start`. -/
structure Settled (start : Option Uuid) (p : ProjectionPipeline P E X Err)
    (remaining : List (E × Uuid)) (r : ProjectionPipeline P E X Err × ProjectionStep) : Prop where
  fits : Fits r.2 r.1.phase
  mode : r.1.pollMode = p.pollMode
  store : r.1.hasCheckpointStore = p.hasCheckpointStore
  inOrder : r.1.handled ++ r.1.phase.rest <+: p.handled ++ remaining
  keeps : p.handled <+: r.1.handled
  cursor : ∀ c, r.1.phase.cursor = some c → c = r.1.lastHandled start
  exact : (∀ e, r.2 ≠ .done (.error e)) →
    r.1.handled ++ r.1.phase.rest = p.handled ++ remaining
  batch : p.pollMode = .batch → ∀ c ctx, r.1.phase ≠ .awaitingPollSleep c ctx
  leaves : r.1.phase.LeavesPage

theorem Settled.cons {start : Option Uuid} {p p' : ProjectionPipeline P E X Err} {e : E × Uuid}
    {remaining : List (E × Uuid)} {r : ProjectionPipeline P E X Err × ProjectionStep}
    (hhandled : p'.handled = p.handled ++ [e]) (hmode : p'.pollMode = p.pollMode)
    (hstore : p'.hasCheckpointStore = p.hasCheckpointStore) (h : Settled start p' remaining r) :
    Settled start p (e :: remaining) r where
  fits := h.fits
  mode := h.mode.trans hmode
  store := h.store.trans hstore
  inOrder := by simpa [hhandled] using h.inOrder
  keeps := by
    have hpre : p.handled <+: p'.handled := ⟨[e],hhandled.symm⟩
    exact hpre.trans h.keeps
  cursor := h.cursor
  exact hne := by simpa [hhandled] using h.exact hne
  batch hb := h.batch (hmode.trans hb)
  leaves := h.leaves

theorem Settled.failed {start : Option Uuid} {p p' : ProjectionPipeline P E X Err}
    {remaining : List (E × Uuid)} (e : ProjectionError) (hhandled : p'.handled = p.handled)
    (hmode : p'.pollMode = p.pollMode) (hstore : p'.hasCheckpointStore = p.hasCheckpointStore) :
    Settled start p remaining (p'.finish (.error e)) where
  fits := .done
  mode := hmode
  store := hstore
  inOrder := ⟨remaining,by rw [← hhandled]; simp [finish,ProjectionPhase.rest,handled]⟩
  keeps := ⟨[],(List.append_nil _).trans hhandled.symm⟩
  cursor := by simp [finish,ProjectionPhase.cursor]
  exact hne := absurd rfl (hne e)
  batch := by simp [finish]
  leaves := trivial

theorem lastHandled_concat {p : ProjectionPipeline P E X Err} {l : List (E × Uuid)} {e : E × Uuid}
    (h : p.handled = l ++ [e]) (start : Option Uuid) : p.lastHandled start = some e.2 := by
  simp [lastHandled,h]

inductive Processes (events : List (E × Uuid)) : List (E × Uuid) → ℕ → ℕ → Option Uuid → X →
    ProjectionPipeline P E X Err → ProjectionPipeline P E X Err × ProjectionStep → Prop
  | ended {p : ProjectionPipeline P E X Err} {i n cursor ctx} : p.pollMode = .batch →
      Processes events [] i n cursor ctx p (p.finish (.ok ()))
  | pollSleep {p : ProjectionPipeline P E X Err} {i n cursor ctx delay} : p.pollMode ≠ .batch →
      Processes events [] i n cursor ctx p
        ({ p with phase := .awaitingPollSleep cursor ctx },.yield (.sleep delay))
  | applied {p : ProjectionPipeline P E X Err}
      {event position remaining i n cursor ctx ctx' self r} :
      Processes events remaining (i+1) 0 (some position) ctx'
        { p with self := self, calls := p.calls ++ [.applied event position] } r →
      Processes events ((event,position) :: remaining) i n cursor ctx p r
  | save {p : ProjectionPipeline P E X Err} {event position remaining i n cursor ctx ctx' self} :
      Processes events ((event,position) :: remaining) i n cursor ctx p
        ({ p with
            self := self
            calls := p.calls ++ [.applied event position]
            phase := .awaitingCheckpointSave events i (some position) ctx' },
          .yield (.saveCheckpoint p.projector.name position))
  | fatal {p : ProjectionPipeline P E X Err} {event position remaining i n cursor ctx self e} :
      Processes events ((event,position) :: remaining) i n cursor ctx p
        (finish { p with
          self := self
          calls := p.calls ++ [.failed event position n .fatal] } (.error e))
  | skipped {p : ProjectionPipeline P E X Err}
      {event position remaining i n cursor ctx ctx' self r} :
      Processes events remaining (i+1) 0 (some position) ctx'
        { p with self := self, calls := p.calls ++ [.failed event position n .skip] } r →
      Processes events ((event,position) :: remaining) i n cursor ctx p r
  | skipSave {p : ProjectionPipeline P E X Err} {event position remaining i n cursor ctx ctx' self} :
      Processes events ((event,position) :: remaining) i n cursor ctx p
        ({ p with
            self := self
            calls := p.calls ++ [.failed event position n .skip]
            phase := .awaitingSkipCheckpointSave events i (some position) ctx' },
          .yield (.saveCheckpoint p.projector.name position))
  | exhausted {p : ProjectionPipeline P E X Err} {event position remaining i n cursor ctx self e} :
      p.eventRetryConfig.maxRetryAttempts ≤ n →
      Processes events ((event,position) :: remaining) i n cursor ctx p
        (finish { p with
          self := self
          calls := p.calls ++ [.failed event position n .retry] } (.error e))
  | retrySleep {p : ProjectionPipeline P E X Err}
      {event position remaining i n cursor ctx ctx' self delay} :
      n < p.eventRetryConfig.maxRetryAttempts →
      Processes events ((event,position) :: remaining) i n cursor ctx p
        ({ p with
            self := self
            calls := p.calls ++ [.failed event position n .retry]
            phase := .awaitingEventRetrySleep events i (n+1) cursor ctx' },
          .yield (.sleep delay))

theorem stepProcessing_processes (events remaining : List (E × Uuid)) (i n : ℕ)
    (cursor : Option Uuid) (ctx : X) (p : ProjectionPipeline P E X Err) :
    Processes events remaining i n cursor ctx p
      (stepProcessing events remaining i n cursor ctx p) := by
  induction remaining generalizing i n cursor ctx p with
  | nil =>
    unfold stepProcessing stepPageEnd
    split_ifs with hmode
    · exact .ended hmode
    · exact .pollSleep hmode
  | cons e remaining ih =>
    obtain ⟨event,position⟩ := e
    unfold stepProcessing
    cases happly : p.projector.apply p.self event position ctx with
    | mk result rest =>
    obtain ⟨self,ctx'⟩ := rest
    cases result with
    | ok u =>
      simp only
      split_ifs
      · exact .save
      · exact .applied (ih ..)
    | error error =>
      cases hdecision : p.projector.onError self ⟨error,position,n⟩ with
      | mk strategy self' =>
      simp only [hdecision]
      cases strategy with
      | fatal => exact .fatal
      | skip =>
        simp only
        split_ifs
        · exact .skipSave
        · exact .skipped (ih ..)
      | retry =>
        simp only [stepRetry]
        split_ifs with hmax
        · exact .exhausted hmax
        · exact .retrySleep (not_le.mp hmax)

theorem drop_succ_of_drop_eq {events remaining : List (E × Uuid)} {e : E × Uuid} {i : ℕ}
    (h : events.drop i = e :: remaining) : events.drop (i+1) = remaining := by
  rw [← List.drop_drop,h]
  rfl

theorem Processes.settled {start : Option Uuid} {events remaining : List (E × Uuid)}
    {i n : ℕ} {cursor : Option Uuid} {ctx : X} {p : ProjectionPipeline P E X Err}
    {r : ProjectionPipeline P E X Err × ProjectionStep}
    (h : Processes events remaining i n cursor ctx p r) (hremaining : events.drop i = remaining)
    (hlast : cursor = p.lastHandled start) : Settled start p remaining r := by
  induction h with
  | ended hmode =>
    exact ⟨.done,rfl,rfl,by simp [finish,handled,ProjectionPhase.rest],List.prefix_rfl,
      by simp [finish,ProjectionPhase.cursor],by simp [finish,handled,ProjectionPhase.rest],
      by simp [finish],trivial⟩
  | pollSleep hmode =>
    exact ⟨.pollSleep,rfl,rfl,by simp [handled,ProjectionPhase.rest],List.prefix_rfl,
      by simp [ProjectionPhase.cursor,hlast,lastHandled,handled],
      by simp [handled,ProjectionPhase.rest],by simp [hmode],trivial⟩
  | @applied p event position _ _ _ _ _ _ self _ _ ih =>
    have hhandled := handled_append_applied p self event position
    exact (ih (drop_succ_of_drop_eq hremaining) (lastHandled_concat hhandled start).symm).cons
      hhandled rfl rfl
  | @save p event position _ _ _ _ _ _ self =>
    have hhandled := handled_append_applied p self event position
    have hnext := drop_succ_of_drop_eq hremaining
    refine Settled.cons hhandled rfl rfl ⟨.save,rfl,rfl,?_,List.prefix_rfl,?_,?_,by simp,trivial⟩
    · simp [handled,ProjectionPhase.rest,hnext]
    · intro c hc
      cases hc
      exact (lastHandled_concat hhandled start).symm
    · simp [handled,ProjectionPhase.rest,hnext]
  | @fatal p event position _ _ n _ _ self =>
    exact .failed _ (by simpa using handled_append_failed p self event position n .fatal) rfl rfl
  | @skipped p event position _ _ n _ _ _ self _ _ ih =>
    have hhandled := handled_append_failed p self event position n .skip
    exact (ih (drop_succ_of_drop_eq hremaining) (lastHandled_concat hhandled start).symm).cons
      hhandled rfl rfl
  | @skipSave p event position _ _ n _ _ _ self =>
    have hhandled := handled_append_failed p self event position n .skip
    have hnext := drop_succ_of_drop_eq hremaining
    refine Settled.cons hhandled rfl rfl
      ⟨.skipSave,rfl,rfl,?_,List.prefix_rfl,?_,?_,by simp,trivial⟩
    · simp [handled,ProjectionPhase.rest,hnext]
    · intro c hc
      cases hc
      exact (lastHandled_concat hhandled start).symm
    · simp [handled,ProjectionPhase.rest,hnext]
  | @exhausted p event position _ _ n _ _ self =>
    exact .failed _ (by simpa using handled_append_failed p self event position n .retry) rfl rfl
  | @retrySleep p event position _ _ n _ _ _ self =>
    have hhandled : handled { p with
        self := self, calls := p.calls ++ [.failed event position n .retry] } = p.handled := by
      simpa using handled_append_failed p self event position n .retry
    refine ⟨.retrySleep,rfl,rfl,?_,⟨[],(List.append_nil _).trans hhandled.symm⟩,?_,?_,
      by simp,trivial⟩
    · exact ⟨[],(List.append_nil _).trans (congrArg₂ _ hhandled hremaining)⟩
    · intro c hc
      cases hc
      rw [hlast]
      exact congrArg (fun l : List (E × Uuid) => (l.getLast?.map Prod.snd).or start) hhandled.symm
    · exact fun _ => congrArg₂ _ hhandled hremaining

theorem processFrom_settled {start lastCheckpoint : Option Uuid} {p : ProjectionPipeline P E X Err}
    (events : List (E × Uuid)) (eventIndex retryCount : ℕ) (ctx : X)
    (hlast : lastCheckpoint = p.lastHandled start) :
    Settled start p (events.drop eventIndex)
      (p.processFrom events eventIndex retryCount lastCheckpoint ctx) :=
  (stepProcessing_processes ..).settled rfl hlast

/-- The state and the context of a pipeline are what its calls made of those it began with. -/
structure Follows (projector : Projector P E X Err) (self : P) (p : ProjectionPipeline P E X Err) :
    Prop where
  runs : p.projector = projector
  calls : ∃ ctx, Calls projector (self,projector.defaultContext) p.calls (p.self,ctx) ∧
    ∀ c, p.phase.context projector.defaultContext = some c → c = ctx

variable {projector : Projector P E X Err} {self : P} {p : ProjectionPipeline P E X Err} {ctx : X}

/-- The calls are there already; what is left is the phase in which they go on. -/
theorem Follows.of_calls (hprojector : p.projector = projector)
    (hcalls : Calls projector (self,projector.defaultContext) p.calls (p.self,ctx))
    {phase : ProjectionPhase E X}
    (hphase : ∀ c, phase.context projector.defaultContext = some c → c = ctx) :
    Follows projector self { p with phase := phase } :=
  ⟨hprojector,ctx,hcalls,hphase⟩

theorem Follows.stepProcessing (events remaining : List (E × Uuid)) (i n : ℕ)
    (cursor : Option Uuid) (hprojector : p.projector = projector)
    (hcalls : Calls projector (self,projector.defaultContext) p.calls (p.self,ctx)) :
    Follows projector self
      (ProjectionPipeline.stepProcessing events remaining i n cursor ctx p).1 := by
  induction remaining generalizing i n cursor ctx p with
  | nil =>
    unfold ProjectionPipeline.stepProcessing stepPageEnd
    split_ifs
    · exact .of_calls hprojector hcalls (by simp [ProjectionPhase.context])
    · exact .of_calls hprojector hcalls (by simp [ProjectionPhase.context])
  | cons e remaining ih =>
    obtain ⟨event,position⟩ := e
    unfold ProjectionPipeline.stepProcessing
    cases happly : p.projector.apply p.self event position ctx with
    | mk result rest =>
    obtain ⟨self',ctx'⟩ := rest
    have happly' := happly
    rw [hprojector] at happly'
    cases result with
    | ok u =>
      have hnext := hcalls.concat (.applied happly')
      simp only
      split_ifs
      · exact ⟨hprojector,ctx',hnext,by simp [ProjectionPhase.context]⟩
      · exact ih _ _ _ hprojector hnext
    | error error =>
      cases hdecision : p.projector.onError self' ⟨error,position,n⟩ with
      | mk strategy self'' =>
      have hdecision' := hdecision
      rw [hprojector] at hdecision'
      have hnext := hcalls.concat (.failed happly' hdecision')
      simp only [hdecision]
      cases strategy with
      | fatal => exact ⟨hprojector,ctx',hnext,by simp [finish,ProjectionPhase.context]⟩
      | skip =>
        simp only
        split_ifs
        · exact ⟨hprojector,ctx',hnext,by simp [ProjectionPhase.context]⟩
        · exact ih _ _ _ hprojector hnext
      | retry =>
        simp only [stepRetry]
        split_ifs
        · exact ⟨hprojector,ctx',hnext,by simp [finish,ProjectionPhase.context]⟩
        · exact ⟨hprojector,ctx',hnext,by simp [ProjectionPhase.context]⟩

theorem follows_new (projector : Projector P E X Err) (self : P) (hasCheckpointStore : Bool)
    (pollMode : PollMode) (pollConfig : PollConfig) (eventRetryConfig : EventRetryConfig) :
    Follows projector self (ProjectionPipeline.new projector self hasCheckpointStore pollMode
      pollConfig eventRetryConfig) := by
  refine ⟨rfl,projector.defaultContext,.nil,fun c hc => ?_⟩
  cases hasCheckpointStore <;> exact (Option.some.inj hc).symm

theorem Follows.step (h : Follows projector self p) : Follows projector self p.step.1 := by
  obtain ⟨hprojector,ctx,hcalls,hcontext⟩ := h
  have hends : Follows projector self { p with phase := .done } :=
    .of_calls hprojector hcalls (by simp [ProjectionPhase.context])
  unfold ProjectionPipeline.step
  cases hphase : p.phase with
  | loadCheckpoint =>
    rw [hphase] at hcontext
    exact .of_calls hprojector hcalls hcontext
  | pollEvents cursor ctx' n =>
    rw [hphase] at hcontext
    exact .of_calls hprojector hcalls hcontext
  | processingEvents events i n cursor ctx' =>
    rw [hphase] at hcontext
    obtain rfl := hcontext ctx' rfl
    exact .stepProcessing _ _ _ _ _ hprojector hcalls
  | _ => exact hends

/-- Whatever the result is, also one that the phase does not wait for. -/
theorem Follows.resume (h : Follows projector self p) (result : ProjectionEffectResult E) :
    Follows projector self (p.resume result).1 := by
  obtain ⟨hprojector,ctx,hcalls,hcontext⟩ := h
  have hends : Follows projector self { p with phase := .done } :=
    .of_calls hprojector hcalls (by simp [ProjectionPhase.context])
  unfold ProjectionPipeline.resume
  cases hphase : p.phase with
  | awaitingCheckpoint =>
    rw [hphase] at hcontext
    simp only
    split
    · refine .of_calls hprojector hcalls fun c hc => ?_
      rw [hprojector] at hc
      exact hcontext c hc
    · exact hends
    · exact hends
  | awaitingEvents cursor ctx' n =>
    rw [hphase] at hcontext
    obtain rfl := hcontext ctx' rfl
    simp only
    split
    · exact .stepProcessing _ _ _ _ _ hprojector hcalls
    · unfold resumePollFailure
      split_ifs
      · exact hends
      · exact .of_calls hprojector hcalls hcontext
    · exact hends
  | awaitingCheckpointSave events i cursor ctx' | awaitingSkipCheckpointSave events i cursor ctx' =>
    rw [hphase] at hcontext
    obtain rfl := hcontext ctx' rfl
    exact .stepProcessing _ _ _ _ _ hprojector hcalls
  | awaitingEventRetrySleep events i n cursor ctx' =>
    rw [hphase] at hcontext
    obtain rfl := hcontext ctx' rfl
    exact .stepProcessing _ _ _ _ _ hprojector hcalls
  | awaitingPollFailureSleep cursor ctx' n =>
    rw [hphase] at hcontext
    exact .of_calls hprojector hcalls hcontext
  | awaitingPollSleep cursor ctx' =>
    rw [hphase] at hcontext
    exact .of_calls hprojector hcalls hcontext
  | loadCheckpoint | pollEvents | processingEvents | done => exact hends

end ProjectionPipeline
end EventCore
