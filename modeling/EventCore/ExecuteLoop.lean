import EventCore.Runs
import EventCore.StreamDiscovery

/-! The shell loop of `execute` around the command pipeline, with a store that may answer
every read and every append in any way, and what holds of all attempts of all its runs. -/
namespace EventCore
namespace ExecuteLoop

open Runs Exploration

variable {Any Raw Value E S : Type}

inductive Call (Any Raw E : Type)
  | read (streamId : StreamId) (opened : Except EventStoreError (List (Except EventStoreError E)))
  | append (writes : StreamWrites Any Raw) (result : Except EventStoreError Unit)

/-- How a dispatched effect ends. A conflict draws the jitter of the delay it leads to. -/
inductive Answer (E : Type)
  | opened (opened : Except EventStoreError (List (Except EventStoreError E)))
  | appended (result : Except EventStoreError Unit) (applyJitter : ℕ → ℕ)
  | slept

/-- One `execute` call: its pipeline, the step its loop holds, and the calls it has made. -/
structure Execution (Any Raw Value E S : Type) where
  pipeline : ExecutePipeline Any Raw Value E S
  step : PipelineStep Any Raw
  calls : List (Call Any Raw E)

namespace Execution

def start (command : CommandLogic Any Raw Value E S) (policy : RetryPolicy) :
    Execution Any Raw Value E S :=
  let (pipeline,step) := (ExecutePipeline.new command policy).step
  ⟨pipeline,step,[]⟩

/-- One round of the loop; `none` when the answer is not one to the effect that was yielded. -/
def dispatch (x : Execution Any Raw Value E S) (answer : Answer E) :
    Option (Execution Any Raw Value E S) :=
  match x.step, answer with
  | .yield (.readStream streamId), .opened opened =>
    let (pipeline,step) := x.pipeline.pumpStreamReads id opened
    some ⟨pipeline,step,x.calls ++ [.read streamId opened]⟩
  | .yield (.appendEvents writes), .appended result applyJitter =>
    let (pipeline,step) := x.pipeline.resume applyJitter (.eventsAppended result)
    some ⟨pipeline,step,x.calls ++ [.append writes result]⟩
  | .yield (.sleep _), .slept =>
    let (pipeline,step) := x.pipeline.resume id .slept
    some ⟨pipeline,step,x.calls⟩
  | _, _ => none

end Execution

def system (command : CommandLogic Any Raw Value E S) (policy : RetryPolicy) :
    System (Execution Any Raw Value E S) (Answer E) where
  init x := x = .start command policy
  step := Execution.dispatch

section Calls

def appends : List (Call Any Raw E) → List (Except EventStoreError Unit) :=
  List.filterMap fun
    | .append _ result => some result
    | .read .. => none

def IsConflict (e : EventStoreError) : Prop :=
  ∃ streamId expected actual, e = .versionConflict streamId expected actual

/-- The failure that a call ended in, unless it was a version conflict. -/
def Call.failure : Call Any Raw E → Option EventStoreError
  | .read _ opened => match readAll opened with
    | .ok _ => none
    | .error e => some e
  | .append _ (.ok _) => none
  | .append _ (.error (.versionConflict ..)) => none
  | .append _ (.error e) => some e

def isConflict : Except EventStoreError Unit → Bool
  | .error (.versionConflict ..) => true
  | _ => false

def readCalls (reads : List (StreamId × List E)) : List (Call Any Raw E) :=
  reads.map fun v => .read v.1 (.ok (v.2.map .ok))

/-- One attempt as the store sees it: the streams read to their end, and the batch. -/
structure Attempt (Any Raw E : Type) where
  reads : List (StreamId × List E)
  writes : StreamWrites Any Raw

def Attempt.calls (a : Attempt Any Raw E) (result : Except EventStoreError Unit) :
    List (Call Any Raw E) :=
  readCalls a.reads ++ [.append a.writes result]

/-- An attempt that ended in a version conflict and is retried after a delay. -/
structure Conflict (Any Raw E : Type) extends Attempt Any Raw E where
  streamId : StreamId
  expected : StreamVersion
  actual : StreamVersion
  delayMs : ℕ

def Conflict.calls (c : Conflict Any Raw E) : List (Call Any Raw E) :=
  c.toAttempt.calls (.error (.versionConflict c.streamId c.expected c.actual))

@[simp] theorem appends_nil : appends ([] : List (Call Any Raw E)) = [] := rfl

@[simp] theorem appends_append (calls calls' : List (Call Any Raw E)) :
    appends (calls ++ calls') = appends calls ++ appends calls' :=
  List.filterMap_append

@[simp] theorem appends_readCalls (reads : List (StreamId × List E)) :
    appends (readCalls reads : List (Call Any Raw E)) = [] := by
  simp [appends,readCalls]

@[simp] theorem appends_read (streamId : StreamId)
    (opened : Except EventStoreError (List (Except EventStoreError E))) :
    appends [(.read streamId opened : Call Any Raw E)] = [] := rfl

@[simp] theorem appends_calls (a : Attempt Any Raw E) (result : Except EventStoreError Unit) :
    appends (a.calls result) = [result] := by
  rw [Attempt.calls,appends_append,appends_readCalls]
  rfl

theorem appends_conflicts (conflicts : List (Conflict Any Raw E)) :
    appends (conflicts.flatMap Conflict.calls) =
      conflicts.map fun c => .error (.versionConflict c.streamId c.expected c.actual) := by
  induction conflicts with
  | nil => rfl
  | cons c conflicts ih =>
    rw [List.flatMap_cons,appends_append,ih,Conflict.calls,appends_calls]
    rfl

theorem failure_readCalls {reads : List (StreamId × List E)} {call : Call Any Raw E}
    (h : call ∈ readCalls reads) : call.failure = none := by
  obtain ⟨v,_,rfl⟩ := List.mem_map.mp h
  simp [Call.failure,readAll,Except.bind]

theorem failure_conflict {c : Conflict Any Raw E} {call : Call Any Raw E}
    (h : call ∈ c.calls) : call.failure = none := by
  rcases List.mem_append.mp h with h | h
  · exact failure_readCalls h
  · rw [List.mem_singleton.mp h]
    rfl

end Calls

/-- The attempt has read every stream from the default state on, and its batch is made of
nothing but these reads. -/
structure Attempt.FromScratch (command : CommandLogic Any Raw Value E S)
    (a : Attempt Any Raw E) : Prop where
  exhausts : command.search.Exhausts a.reads
  batch : ∃ expectedVersions : HashMap StreamId StreamVersion,
    (∀ s v, expectedVersions.get? s = some v ↔ ∃ events, (s,events) ∈ a.reads ∧ v = events.length) ∧
    command.batch expectedVersions (command.search.after a.reads) = .ok a.writes

/-- One context for each retry, with the attempt's number and the streams that it read. -/
def retryContexts (conflicts : List (Conflict Any Raw E)) : List RetryContext :=
  conflicts.zipIdx.map fun (c,i) => ⟨c.reads.map Prod.fst,i.succPNat,c.delayMs⟩

/-- What a run is doing in the attempt that follows `retries` conflicts, and the calls it has
made in this attempt. -/
inductive Doing (command : CommandLogic Any Raw Value E S) (policy : RetryPolicy) (retries : ℕ)
    (p : ExecutePipeline Any Raw Value E S) (step : PipelineStep Any Raw) :
    List (Call Any Raw E) → Prop
  | reading {reads : List (StreamId × List E)} {r : Reading S} {streamId : StreamId}
      {queue : List StreamId} : Tracks command reads r → r.queue = streamId :: queue →
      p.phase = .awaitingStreamRead streamId (r.popped streamId queue) 0 →
      step = .yield (.readStream streamId) → Doing command policy retries p step (readCalls reads)
  | unreadable {reads : List (StreamId × List E)} {r : Reading S} {streamId : StreamId}
      {queue : List StreamId} {opened : Except EventStoreError (List (Except EventStoreError E))}
      {e : EventStoreError} : Tracks command reads r → r.queue = streamId :: queue →
      readAll opened = .error e → step = .done (.error (.eventStoreError e)) →
      Doing command policy retries p step (readCalls reads ++ [.read streamId opened])
  | rejected {reads : List (StreamId × List E)} {r : Reading S} {e : CommandError} :
      Tracks command reads r → r.queue = [] → command.batch r.expectedVersions r.state = .error e →
      step = .done (.error e) → Doing command policy retries p step (readCalls reads)
  | appending {a : Attempt Any Raw E} : a.FromScratch command →
      p.phase = .awaitingAppend (a.reads.map Prod.fst) → step = .yield (.appendEvents a.writes) →
      Doing command policy retries p step (readCalls a.reads)
  | succeeded {a : Attempt Any Raw E} : a.FromScratch command →
      step = .done (.success retries.succPNat) → Doing command policy retries p step (a.calls (.ok ()))
  | outOfRetries {a : Attempt Any Raw E} {streamId : StreamId} {expected actual : StreamVersion} :
      a.FromScratch command → retries = policy.maxRetries →
      step = .done (.error (.concurrencyError policy.maxRetries)) →
      Doing command policy retries p step
        (a.calls (.error (.versionConflict streamId expected actual)))
  | failed {a : Attempt Any Raw E} {e : EventStoreError} : a.FromScratch command → ¬IsConflict e →
      step = .done (.error (.eventStoreError e)) →
      Doing command policy retries p step (a.calls (.error e))
  | sleeping {durationMs : ℕ} : p.phase = .awaitingRetrySleep → step = .yield (.sleep durationMs) →
      Doing command policy retries p step []

/-- The calls of a run, cut into the attempts that were retried and the current one. -/
structure History (command : CommandLogic Any Raw Value E S) (policy : RetryPolicy)
    (x : Execution Any Raw Value E S) (conflicts : List (Conflict Any Raw E))
    (current : List (Call Any Raw E)) : Prop where
  ofCommand : x.pipeline.command = command
  ofPolicy : x.pipeline.policy = policy
  attempt : x.pipeline.attempt = conflicts.length
  retries : conflicts.length ≤ policy.maxRetries
  calls : x.calls = conflicts.flatMap Conflict.calls ++ current
  fromScratch : ∀ c ∈ conflicts, c.toAttempt.FromScratch command
  hookCalls : x.pipeline.hookCalls = if policy.metricsHook then retryContexts conflicts else []
  doing : Doing command policy conflicts.length x.pipeline x.step current

section Steps

variable {command : CommandLogic Any Raw Value E S} {policy : RetryPolicy}

variable (policy) in
theorem doing_stepReading {p : ExecutePipeline Any Raw Value E S} (hcommand : p.command = command)
    {reads : List (StreamId × List E)} {r : Reading S} (h : Tracks command reads r) (retries : ℕ) :
    ∃ phase step, p.stepReading r = ({ p with phase := phase },step) ∧
      Doing command policy retries { p with phase := phase } step (readCalls reads) := by
  subst hcommand
  rw [ExecutePipeline.stepReading_tracks h]
  cases hqueue : r.queue with
  | cons streamId queue => exact ⟨_,_,rfl,.reading h hqueue rfl rfl⟩
  | nil =>
    simp only
    rw [ExecutePipeline.stepHandling_eq]
    cases hbatch : p.command.batch r.expectedVersions r.state with
    | error e => exact ⟨_,_,rfl,.rejected h hqueue hbatch rfl⟩
    | ok writes =>
      have hmade : Attempt.FromScratch p.command ⟨reads,writes⟩ :=
        ⟨h.exhausts hqueue,r.expectedVersions,h.versions,h.state ▸ hbatch⟩
      exact ⟨_,_,rfl,.appending hmade rfl rfl⟩

theorem History.goOn {x : Execution Any Raw Value E S} {conflicts : List (Conflict Any Raw E)}
    {current current' : List (Call Any Raw E)} (h : History command policy x conflicts current)
    {phase : Phase S} {step : PipelineStep Any Raw} {calls : List (Call Any Raw E)}
    (hcalls : calls = conflicts.flatMap Conflict.calls ++ current')
    (hdoing : Doing command policy conflicts.length { x.pipeline with phase := phase } step
      current') :
    History command policy ⟨{ x.pipeline with phase := phase },step,calls⟩ conflicts current' :=
  ⟨h.ofCommand,h.ofPolicy,h.attempt,h.retries,hcalls,h.fromScratch,h.hookCalls,hdoing⟩

theorem history_start (command : CommandLogic Any Raw Value E S) (policy : RetryPolicy) :
    History command policy (.start command policy) [] [] := by
  obtain ⟨phase,step,hstep,hdoing⟩ := doing_stepReading policy
    (p := ExecutePipeline.new command policy) rfl (Tracks.initReading command) 0
  have hstart : Execution.start command policy =
      ⟨{ ExecutePipeline.new command policy with phase := phase },step,[]⟩ := by
    unfold Execution.start ExecutePipeline.step
    simp only [ExecutePipeline.new] at hstep ⊢
    rw [hstep]
  rw [hstart]
  exact ⟨rfl,rfl,rfl,Nat.zero_le _,by simp,by simp,by simp [ExecutePipeline.new,retryContexts],hdoing⟩

theorem dispatch_done {x : Execution Any Raw Value E S} {outcome : PipelineOutcome}
    (hstep : x.step = .done outcome) (answer : Answer E) : x.dispatch answer = none := by
  simp [Execution.dispatch,hstep]

theorem History.read {x y : Execution Any Raw Value E S} {conflicts : List (Conflict Any Raw E)}
    {reads : List (StreamId × List E)} {r : Reading S} {streamId : StreamId}
    {queue : List StreamId} (h : History command policy x conflicts (readCalls reads))
    (htracks : Tracks command reads r) (hqueue : r.queue = streamId :: queue)
    (hphase : x.pipeline.phase = .awaitingStreamRead streamId (r.popped streamId queue) 0)
    (hstep : x.step = .yield (.readStream streamId))
    {opened : Except EventStoreError (List (Except EventStoreError E))}
    (hdispatch : x.dispatch (.opened opened) = some y) :
    ∃ current, History command policy y conflicts current := by
  simp only [Execution.dispatch,hstep,Option.some.injEq] at hdispatch
  rw [ExecutePipeline.pumpStreamReads_eq id hphase] at hdispatch
  cases hread : readAll opened with
  | error e =>
    simp only [hread,ExecutePipeline.finish] at hdispatch
    subst hdispatch
    exact ⟨_,h.goOn (by rw [h.calls,List.append_assoc]) (.unreadable htracks hqueue hread rfl)⟩
  | ok events =>
    have hnext := htracks.streamEnded hqueue events h.ofCommand
    obtain ⟨phase,step,hrun,hdoing⟩ := doing_stepReading policy h.ofCommand hnext
      conflicts.length
    have hstate : (r.popped streamId queue).state = r.state := rfl
    simp only [hread,h.ofCommand,hstate] at hdispatch
    rw [hrun] at hdispatch
    subst hdispatch
    refine ⟨_,h.goOn ?_ hdoing⟩
    rw [h.calls,readAll_eq_ok.mp hread]
    simp [readCalls]

theorem History.conflicted {x y : Execution Any Raw Value E S}
    {conflicts : List (Conflict Any Raw E)} {a : Attempt Any Raw E}
    (h : History command policy x conflicts (readCalls a.reads)) (hmade : a.FromScratch command)
    {streamId : StreamId} {expected actual : StreamVersion} {applyJitter : ℕ → ℕ}
    {pipeline : ExecutePipeline Any Raw Value E S} {step : PipelineStep Any Raw}
    (hresume : x.pipeline.resumeConflict applyJitter (a.reads.map Prod.fst) = (pipeline,step))
    (hy : y = ⟨pipeline,step,x.calls ++
      [.append a.writes (.error (.versionConflict streamId expected actual))]⟩) :
    ∃ conflicts' current, History command policy y conflicts' current := by
  have hcalls : y.calls = conflicts.flatMap Conflict.calls ++
      a.calls (.error (.versionConflict streamId expected actual)) := by
    rw [hy,h.calls,Attempt.calls,List.append_assoc]
  unfold ExecutePipeline.resumeConflict at hresume
  rw [h.ofPolicy,h.attempt] at hresume
  by_cases hlt : conflicts.length < policy.maxRetries
  · rw [if_pos hlt,Prod.mk.injEq] at hresume
    obtain ⟨rfl,rfl⟩ := hresume
    refine ⟨conflicts ++ [⟨a,streamId,expected,actual,
      computeRetryDelayMs applyJitter policy.backoffStrategy conflicts.length⟩],[],?_⟩
    subst hy
    constructor
    · exact h.ofCommand
    · rfl
    · simp
    · rw [List.length_append]
      exact hlt
    · simpa [Conflict.calls] using hcalls
    · intro c hc
      rcases List.mem_append.mp hc with hc | hc
      · exact h.fromScratch c hc
      · rw [List.mem_singleton.mp hc]
        exact hmade
    · rw [h.hookCalls]
      cases policy.metricsHook
      · rfl
      · simp [retryContexts,List.zipIdx_append]
    · exact .sleeping rfl rfl
  · rw [if_neg hlt,ExecutePipeline.finish,Prod.mk.injEq] at hresume
    obtain ⟨rfl,rfl⟩ := hresume
    subst hy
    exact ⟨conflicts,_,h.goOn hcalls
      (.outOfRetries hmade (Nat.le_antisymm h.retries (Nat.not_lt.mp hlt)) rfl)⟩

theorem resume_failed (applyJitter : ℕ → ℕ) {p : ExecutePipeline Any Raw Value E S}
    {streamIds : List StreamId} (hphase : p.phase = .awaitingAppend streamIds)
    {e : EventStoreError} (he : ¬IsConflict e) :
    p.resume applyJitter (.eventsAppended (.error e)) = p.finish (.error (.eventStoreError e)) := by
  cases e with
  | versionConflict streamId expected actual => exact absurd ⟨_,_,_,rfl⟩ he
  | _ => simp [ExecutePipeline.resume,hphase]

theorem History.append {x y : Execution Any Raw Value E S}
    {conflicts : List (Conflict Any Raw E)} {a : Attempt Any Raw E}
    (h : History command policy x conflicts (readCalls a.reads)) (hmade : a.FromScratch command)
    (hphase : x.pipeline.phase = .awaitingAppend (a.reads.map Prod.fst))
    (hstep : x.step = .yield (.appendEvents a.writes)) {result : Except EventStoreError Unit}
    {applyJitter : ℕ → ℕ} (hdispatch : x.dispatch (.appended result applyJitter) = some y) :
    ∃ conflicts' current, History command policy y conflicts' current := by
  simp only [Execution.dispatch,hstep,Option.some.injEq] at hdispatch
  have hcalls : x.calls ++ [.append a.writes result] =
      conflicts.flatMap Conflict.calls ++ a.calls result := by
    rw [h.calls,Attempt.calls,List.append_assoc]
  cases result with
  | ok =>
    simp only [ExecutePipeline.resume,hphase,ExecutePipeline.finish] at hdispatch
    subst hdispatch
    exact ⟨conflicts,_,h.goOn hcalls (.succeeded hmade (by rw [h.attempt]))⟩
  | error e =>
    by_cases he : IsConflict e
    · obtain ⟨streamId,expected,actual,rfl⟩ := he
      simp only [ExecutePipeline.resume,hphase] at hdispatch
      exact h.conflicted hmade rfl hdispatch.symm
    · rw [resume_failed applyJitter hphase he] at hdispatch
      subst hdispatch
      exact ⟨conflicts,_,h.goOn hcalls (.failed hmade he rfl)⟩

theorem History.wake {x y : Execution Any Raw Value E S} {conflicts : List (Conflict Any Raw E)}
    (h : History command policy x conflicts [])
    (hphase : x.pipeline.phase = .awaitingRetrySleep) {durationMs : ℕ}
    (hstep : x.step = .yield (.sleep durationMs)) (hdispatch : x.dispatch .slept = some y) :
    History command policy y conflicts [] := by
  simp only [Execution.dispatch,hstep,Option.some.injEq,ExecutePipeline.resume,hphase] at hdispatch
  obtain ⟨phase,step,hrun,hdoing⟩ := doing_stepReading policy h.ofCommand
    (Tracks.initReading command) conflicts.length
  rw [h.ofCommand,hrun] at hdispatch
  subst hdispatch
  exact h.goOn h.calls hdoing

theorem History.dispatch {x y : Execution Any Raw Value E S}
    {conflicts : List (Conflict Any Raw E)} {current : List (Call Any Raw E)} {answer : Answer E}
    (h : History command policy x conflicts current) (hdispatch : x.dispatch answer = some y) :
    ∃ conflicts' current', History command policy y conflicts' current' := by
  cases h.doing with
  | reading htracks hqueue hphase hstep =>
    cases answer with
    | opened opened => exact ⟨conflicts,h.read htracks hqueue hphase hstep hdispatch⟩
    | appended | slept => simp [Execution.dispatch,hstep] at hdispatch
  | appending hmade hphase hstep =>
    cases answer with
    | appended result applyJitter => exact h.append hmade hphase hstep hdispatch
    | opened | slept => simp [Execution.dispatch,hstep] at hdispatch
  | sleeping hphase hstep =>
    cases answer with
    | slept => exact ⟨conflicts,[],h.wake hphase hstep hdispatch⟩
    | opened | appended => simp [Execution.dispatch,hstep] at hdispatch
  | unreadable _ _ _ hstep => simp [dispatch_done hstep] at hdispatch
  | rejected _ _ _ hstep => simp [dispatch_done hstep] at hdispatch
  | succeeded _ hstep => simp [dispatch_done hstep] at hdispatch
  | outOfRetries _ _ hstep => simp [dispatch_done hstep] at hdispatch
  | failed _ _ hstep => simp [dispatch_done hstep] at hdispatch

theorem exists_history {x : Execution Any Raw Value E S}
    (h : Reachable (system command policy) x) :
    ∃ conflicts current, History command policy x conflicts current := by
  induction h with
  | init h =>
    cases h
    exact ⟨[],[],history_start command policy⟩
  | step _ _ hs ih =>
    obtain ⟨conflicts,current,ih⟩ := ih
    exact ih.dispatch hs

end Steps

section Protocol

variable {command : CommandLogic Any Raw Value E S} {policy : RetryPolicy}
  {x : Execution Any Raw Value E S} {conflicts : List (Conflict Any Raw E)}
  {current : List (Call Any Raw E)}

theorem History.appends_eq (h : History command policy x conflicts current) :
    appends x.calls = conflicts.map
      (fun c => .error (.versionConflict c.streamId c.expected c.actual)) ++ appends current := by
  rw [h.calls,appends_append,appends_conflicts]

theorem Doing.appends_length {p : ExecutePipeline Any Raw Value E S} {step : PipelineStep Any Raw}
    {retries : ℕ} (h : Doing command policy retries p step current) :
    (appends current).length ≤ 1 := by
  cases h <;> simp

theorem History.appends_length_le (h : History command policy x conflicts current) :
    (appends x.calls).length ≤ policy.maxRetries+1 := by
  have hlast := h.doing.appends_length
  have hretries := h.retries
  rw [h.appends_eq,List.length_append,List.length_map]
  omega

theorem History.attempts_eq (h : History command policy x conflicts current) {attempts : ℕ+}
    (hstep : x.step = .done (.success attempts)) : (attempts : ℕ) = (appends x.calls).length := by
  have hdoing := h.doing
  rw [hstep] at hdoing
  cases hdoing with
  | succeeded _ heq =>
    cases heq
    rw [h.appends_eq]
    simp
  | reading _ _ _ heq => cases heq
  | unreadable _ _ _ heq => cases heq
  | rejected _ _ _ heq => cases heq
  | appending _ _ heq => cases heq
  | outOfRetries _ _ heq => cases heq
  | failed _ _ heq => cases heq
  | sleeping _ heq => cases heq

theorem Doing.conflict {p : ExecutePipeline Any Raw Value E S} {step : PipelineStep Any Raw}
    {retries : ℕ} (h : Doing command policy retries p step current)
    (hconflict : (appends current).filter isConflict ≠ []) :
    step = .done (.error (.concurrencyError policy.maxRetries)) := by
  cases h with
  | outOfRetries _ _ heq => exact heq
  | @failed a e _ he _ =>
    rw [appends_calls] at hconflict
    have hnot : isConflict (.error e) = false := by
      cases e with
      | versionConflict => exact absurd ⟨_,_,_,rfl⟩ he
      | _ => rfl
    simp [hnot] at hconflict
  | succeeded => simp [isConflict] at hconflict
  | _ => simp at hconflict

theorem History.conflicts_exhausted (h : History command policy x conflicts current)
    (hall : ((appends x.calls).filter isConflict).length = policy.maxRetries+1) :
    x.step = .done (.error (.concurrencyError policy.maxRetries)) := by
  refine h.doing.conflict fun hnone => ?_
  have hretries := h.retries
  rw [h.appends_eq,List.filter_append,hnone,List.append_nil] at hall
  have hle := List.length_filter_le isConflict
    (conflicts.map fun c => .error (.versionConflict c.streamId c.expected c.actual))
  rw [List.length_map] at hle
  omega

theorem Doing.failure {p : ExecutePipeline Any Raw Value E S} {step : PipelineStep Any Raw}
    {retries : ℕ} (h : Doing command policy retries p step current) {call : Call Any Raw E}
    (hcall : call ∈ current) {e : EventStoreError} (he : call.failure = some e) :
    step = .done (.error (.eventStoreError e)) := by
  have hreads : ∀ reads : List (StreamId × List E), call ∉ readCalls reads := by
    intro reads hmem
    rw [failure_readCalls hmem] at he
    cases he
  have hlast : ∀ {a : Attempt Any Raw E} {result : Except EventStoreError Unit},
      call ∈ a.calls result → call = .append a.writes result := fun hmem =>
    List.mem_singleton.mp ((List.mem_append.mp hmem).resolve_left (hreads _))
  cases h with
  | reading | rejected | appending => exact absurd hcall (hreads _)
  | @unreadable reads r streamId queue opened e' _ _ hread heq =>
    rw [List.mem_singleton.mp ((List.mem_append.mp hcall).resolve_left (hreads _))] at he
    simp only [Call.failure,hread,Option.some.injEq] at he
    rw [heq,he]
  | succeeded =>
    rw [hlast hcall] at he
    cases he
  | outOfRetries =>
    rw [hlast hcall] at he
    cases he
  | @failed a e' _ hother heq =>
    rw [hlast hcall] at he
    cases e' with
    | versionConflict => cases he
    | _ =>
      simp only [Call.failure,Option.some.injEq] at he
      rw [heq,he]
  | sleeping => cases hcall

theorem History.failure (h : History command policy x conflicts current) {call : Call Any Raw E}
    (hcall : call ∈ x.calls) {e : EventStoreError} (he : call.failure = some e) :
    x.step = .done (.error (.eventStoreError e)) := by
  rw [h.calls] at hcall
  rcases List.mem_append.mp hcall with hcall | hcall
  · obtain ⟨c,_,hc⟩ := List.mem_flatMap.mp hcall
    rw [failure_conflict hc] at he
    cases he
  · exact h.doing.failure hcall he

/-- In every run, whatever the store answers: at most `max_retries` attempts come back as
conflicts and are retried, each made from scratch and reported to the hook once; the run is then
in one attempt more, made from scratch as well, and ends as soon as that does not conflict. -/
theorem retry_protocol {x : Execution Any Raw Value E S}
    (h : Reachable (system command policy) x) :
    (appends x.calls).length ≤ policy.maxRetries+1 ∧
    (∀ call ∈ x.calls, ∀ e, call.failure = some e → x.step = .done (.error (.eventStoreError e))) ∧
    (∀ attempts : ℕ+, x.step = .done (.success attempts) →
      (attempts : ℕ) = (appends x.calls).length) ∧
    (((appends x.calls).filter isConflict).length = policy.maxRetries+1 →
      x.step = .done (.error (.concurrencyError policy.maxRetries))) ∧
    ∃ conflicts current, conflicts.length ≤ policy.maxRetries ∧
      x.calls = conflicts.flatMap Conflict.calls ++ current ∧
      (∀ c ∈ conflicts, c.toAttempt.FromScratch command) ∧
      x.pipeline.hookCalls = (if policy.metricsHook then retryContexts conflicts else []) ∧
      Doing command policy conflicts.length x.pipeline x.step current := by
  obtain ⟨conflicts,current,hhist⟩ := exists_history h
  exact ⟨hhist.appends_length_le,fun call hcall e he => hhist.failure hcall he,
    fun attempts hstep => hhist.attempts_eq hstep,hhist.conflicts_exhausted,
    conflicts,current,hhist.retries,hhist.calls,hhist.fromScratch,hhist.hookCalls,hhist.doing⟩

/-- The answers of a store in which another writer wins twice. -/
def twoConflicts : List (Answer ℕ) :=
  [.opened (.ok [.ok 1]),.appended (.error (.versionConflict Sample.account 1 2)) id,.slept,
    .opened (.ok [.ok 1,.ok 4]),.appended (.error (.versionConflict Sample.account 2 3)) id]

/-- Two conflicts in a row with one retry allowed. -/
theorem retry_protocol_topUp :
    ∃ x : Execution ℕ ℕ ℕ ℕ ℕ, exec (system Sample.topUp ⟨1,.fixed 5,true⟩)
        (.start Sample.topUp ⟨1,.fixed 5,true⟩) twoConflicts = some x ∧
      x.step = .done (.error (.concurrencyError 1)) ∧
      x.pipeline.hookCalls = [⟨[Sample.account],1,5⟩] ∧ (appends x.calls).length ≤ 2 := by
  obtain ⟨x,hx,hstep,hhook⟩ : ∃ x : Execution ℕ ℕ ℕ ℕ ℕ,
      exec (system Sample.topUp ⟨1,.fixed 5,true⟩) (.start Sample.topUp ⟨1,.fixed 5,true⟩)
        twoConflicts = some x ∧
      x.step = .done (.error (.concurrencyError 1)) ∧
      x.pipeline.hookCalls = [⟨[Sample.account],1,5⟩] := ⟨_,rfl,rfl,rfl⟩
  have hreach : Reachable (system Sample.topUp ⟨1,.fixed 5,true⟩) x :=
    Reachable.exec (.init rfl) hx
  exact ⟨x,hx,hstep,hhook,(retry_protocol hreach).1⟩

end Protocol

end ExecuteLoop
end EventCore
