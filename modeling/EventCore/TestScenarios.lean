import EventCore.EventReader
import EventCore.LoneExecution
import EventCore.ProjectionProgress

/-! Given-When-Then tests of a command: when a scenario can be set up, what `then_events`
compares with, and when the other assertions pass. -/
namespace EventCore
namespace TestScenarios

open MemoryStore Serializability SequentialCommands LoneExecution Exploration ProjectionProgress

variable {Any Raw Value E S P X Err : Type}

section Messages

def operationName : Operation → String
  | .readStream => "read_stream"
  | .appendEvents => "append_events"
  | .beginTransaction => "begin_transaction"
  | .setExpectedVersions => "set_expected_versions"
  | .commitTransaction => "commit_transaction"

def storeMessage : EventStoreError → String
  | .conflictingExpectedVersions streamId firstVersion secondVersion =>
    "conflicting expected versions for stream " ++ streamId.value ++ ": first=" ++
      toString firstVersion ++ ", second=" ++ toString secondVersion
  | .undeclaredStream streamId =>
    "stream " ++ streamId.value ++ " must be registered before appending events"
  | .serializationFailed streamId detail =>
    "failed to serialize event for stream " ++ streamId.value ++ ": " ++ detail
  | .deserializationFailed streamId detail =>
    "failed to deserialize event for stream " ++ streamId.value ++ ": " ++ detail
  | .storeFailure operation => operationName operation ++ " operation failed"
  | .versionConflict streamId expected actual =>
    "version conflict on stream " ++ streamId.value ++ ": expected version " ++
      toString expected ++ ", found " ++ toString actual

/-- `CommandError::to_string` -/
def message : CommandError → String
  | .businessRuleViolation error => error
  | .concurrencyError retries =>
    "concurrency conflict after " ++ toString retries ++ " retry attempts"
  | .eventStoreError error => "event store error: " ++ storeMessage error
  | .validationError text => "validation error: " ++ text

end Messages

section Given

/-- The store of a scenario; nothing has been projected from it. -/
structure TestScenario (Any Raw Value : Type) where
  store : StoreData Any Raw Value

def TestScenario.new : TestScenario Any Raw Value := ⟨.new⟩

/-- `Result::expect`: an error is the message of a panic. -/
def expect {α ε : Type} (message : String) : Except ε α → Except String α
  | .ok a => .ok a
  | .error _ => .error message

def TestScenario.givenEvents (nowV7 : ℕ → Uuid) (ev : Event Any Raw E)
    (self : TestScenario Any Raw Value) (streamId : StreamId) (events : List E) :
    Except String (TestScenario Any Raw Value) :=
  if events.isEmpty then .ok self
  else
    (expect "collecting stream for test setup should not fail"
      (collect (readStream ev self.store streamId))).bind fun existing =>
    (expect "registering stream for test setup should not fail"
      ((StreamWrites.new : StreamWrites Any Raw).registerStream streamId existing.length)).bind
        fun writes =>
    (expect "appending event for test setup should not fail"
      (events.foldlM (StreamWrites.append ev) writes)).bind fun writes =>
    expect "appending events for test setup should not fail"
      ((appendEvents nowV7 self.store writes).1.map fun _ =>
        ⟨(appendEvents nowV7 self.store writes).2⟩)

def given (nowV7 : ℕ → Uuid) (ev : Event Any Raw E) (givens : List (StreamId × List E)) :
    Except String (TestScenario Any Raw Value) :=
  givens.foldlM (fun scenario step => scenario.givenEvents nowV7 ev step.1 step.2) .new

end Given

section When

def eventCollector (eventTypeName : String) : Projector (List E) E Unit Empty where
  name := "event-collector"
  eventTypeName := eventTypeName
  defaultContext := ()
  apply := fun events event _ _ => (.ok (),events ++ [event],())

/-- The loop of a runner over a backend that does not fail: the state that its projector comes
to. -/
def runLoop (readEvents : EventFilter → EventPage → List (E × Uuid)) :
    ℕ → (String → Option Uuid) → Running P E X Err → Option P
  | 0, _, _ => none
  | fuel+1, checkpoints, r =>
    match r.pending with
    | .done _ => some r.pipeline.self
    | .panicked _ => none
    | .yield (.loadCheckpoint name) =>
      runLoop readEvents fuel checkpoints (r.resume (.checkpointLoaded (.ok (checkpoints name))))
    | .yield (.readEvents filter page) =>
      runLoop readEvents fuel checkpoints (r.resume (.eventsRead (.ok (readEvents filter page))))
    | .yield (.saveCheckpoint name position) =>
      runLoop readEvents fuel (Function.update checkpoints name (some position))
        (r.resume (.checkpointSaved (.ok ())))
    | .yield (.sleep _) => runLoop readEvents fuel checkpoints (r.resume .slept)

/-- `ProjectionConfig::default()` and a collector that is empty. -/
def collecting : Setup (List E) where
  self := []
  hasCheckpointStore := true
  pollMode := .batch
  pollConfig := { maxConsecutivePollFailures := Nat.succPNat 4 }
  eventRetryConfig := {}

structure ScenarioResult (E : Type) where
  result : Except CommandError Unit
  allEvents : List E

/-- `execute` returns its number of attempts, which a scenario drops. -/
def resultOf : PipelineOutcome → Except CommandError Unit
  | .success _ => .ok ()
  | .error e => .error e

/-- `globMatches` is the glob library's; the collector has no pattern. -/
def TestScenario.when (globMatches : StreamPattern → String → Bool) (nowV7 : ℕ → Uuid)
    (applyJitter : ℕ → ℕ) (fuel : ℕ) (self : TestScenario Any Raw Value)
    (command : CommandLogic Any Raw Value E S) : Option (ScenarioResult E) :=
  (execute nowV7 applyJitter fuel (.start command {}) self.store).bind fun ended =>
    (runLoop (fun filter => EventReader.readMemory globMatches command.event filter ended.2) fuel
      (fun _ => none) (World.begin (eventCollector command.event.eventTypeName)
        ⟨[],none,none,[]⟩ collecting)).map fun allEvents => ⟨resultOf ended.1,allEvents⟩

end When

section Then

variable [DecidableEq E] (self : ScenarioResult E)

def ScenarioResult.succeeded : Bool := self.result.toBool

def ScenarioResult.failedWith (expected : CommandError) : Bool :=
  match self.result with
  | .error actual => message actual = message expected
  | .ok _ => false

def ScenarioResult.thenEvents (expected : List E) : Bool := self.allEvents = expected

def ScenarioResult.thenEventCount (expected : ℕ) : Bool := self.allEvents.length = expected

end Then

section Setup

variable {nowV7 : ℕ → Uuid} {ev : Event Any Raw E} {store : StoreData Any Raw Value}
  {history events : List E}

/-- What a store holds that only events of one type went into. -/
structure Seeded (ev : Event Any Raw E) (store : StoreData Any Raw Value) (history : List E) :
    Prop where
  streams : ∀ s, store.streamEvents s =
    (history.filter fun event => ev.streamId event = s).map ev.box
  logged : List.Forall₂ (IsLogged ev) history store.globalLog

theorem seeded_new (ev : Event Any Raw E) : Seeded ev (.new : StoreData Any Raw Value) [] :=
  ⟨fun _ => rfl,.nil⟩

theorem Seeded.readStream (h : Seeded ev store history) (s : StreamId) :
    readStream ev store s = (history.filter fun event => ev.streamId event = s).map .ok := by
  rw [MemoryStore.readStream,h.streams,List.map_map]
  refine List.map_congr_left fun event _ => ?_
  simp [downcast,ev.downcastRef_box]

theorem Seeded.runsAlone {command : CommandLogic Any Raw Value E S}
    (h : Seeded command.event store history) {after : StoreData Any Raw Value}
    {reads : List (StreamId × List E)} (halone : RunsAlone command store after reads events) :
    Seeded command.event after (history ++ events) where
  streams s := by rw [halone.streams,h.streams,List.filter_append,List.map_append]
  logged := by
    obtain ⟨logged,hlog,hall⟩ := halone.log
    rw [hlog]
    exact List.rel_append h.logged hall

theorem Seeded.append (nowV7 : ℕ → Uuid) (h : Seeded ev store history)
    {writes : StreamWrites Any Raw}
    (hentries : List.Forall₂ (StreamWrites.IsEntry ev) events writes.entries)
    (hcurrent : ∀ s v, writes.expectedVersions.get? s = some v →
      v = (history.filter fun event => ev.streamId event = s).length) :
    ∃ after, appendEvents nowV7 store writes = (.ok (),after) ∧
      Seeded ev after (history ++ events) := by
  rcases appendEvents_cases nowV7 store writes with
    ⟨after,happ,-,hgrow⟩ | ⟨s,expected,hexpected,hstale,-⟩
  · refine ⟨after,happ,fun s => ?_,?_⟩
    · rw [hgrow,h.streams,eventsOf_isEntry hentries,List.filter_append,List.map_append]
    · obtain ⟨logged,hlog,hall⟩ := globalLog_foldl_writeEntry nowV7 hentries store
      have hafter : after = writes.entries.foldl (writeEntry nowV7) store := by
        unfold appendEvents at happ
        split at happ
        · cases happ
        · exact (Prod.mk.inj happ).2.symm
      rw [hafter,hlog]
      exact List.rel_append h.logged hall
  · refine absurd ?_ hstale
    rw [hcurrent s expected hexpected,StoreData.currentVersion_eq,h.streams,List.length_map]

def Fits (ev : Event Any Raw E) (streamId : StreamId) (event : E) : Prop :=
  ev.streamId event = streamId ∧ ∃ raw, ev.toRawValue event = .ok raw

theorem givenEvents_spec (nowV7 : ℕ → Uuid) {scenario : TestScenario Any Raw Value}
    (h : Seeded ev scenario.store history) (streamId : StreamId) (events : List E) :
    ((∀ event ∈ events, Fits ev streamId event) ∧
      ∃ next, scenario.givenEvents nowV7 ev streamId events = .ok next ∧
        Seeded ev next.store (history ++ events)) ∨
    (¬(∀ event ∈ events, Fits ev streamId event) ∧
      scenario.givenEvents nowV7 ev streamId events =
        .error "appending event for test setup should not fail") := by
  cases events with
  | nil => exact .inl ⟨by simp,scenario,rfl,by rwa [List.append_nil]⟩
  | cons event events =>
    have hfresh : streamId ∉ (StreamWrites.new : StreamWrites Any Raw).expectedVersions :=
      AList.notMem_empty streamId
    obtain ⟨writes,hregister,hnothing,hversions⟩ := StreamWrites.registerStream_fresh hfresh
      (history.filter fun event => ev.streamId event = streamId).length
    have hregistered : ∀ s, s ∈ writes.expectedVersions ↔
        s ∈ ([(streamId,[])] : List (StreamId × List E)).map Prod.fst := by
      intro s
      rw [hversions,AList.mem_insert]
      simp [StreamWrites.new]
    cases hfold : (event :: events).foldlM (StreamWrites.append ev) writes with
    | error e =>
      right
      obtain ⟨bad,hbad,hunwritable⟩ := foldlM_append_eq_error hregistered hfold
      constructor
      · intro hfits
        obtain ⟨hstream,raw,hraw⟩ := hfits bad hbad
        cases hunwritable with
        | undeclared hmem => simp [hstream] at hmem
        | unserialized hdetail => simp [hraw] at hdetail
      · simp only [TestScenario.givenEvents,List.isEmpty_cons,Bool.false_eq_true,if_false,
          h.readStream,collect_ok,expect,Except.bind,hregister,hfold]
    | ok filled =>
      left
      obtain ⟨hkeeps,entries,hentries,hfilled⟩ := StreamWrites.foldlM_append_eq_ok hfold
      have hfilled' : filled.entries = entries := by rw [hfilled,hnothing]; rfl
      have hfits : ∀ e ∈ event :: events, Fits ev streamId e := by
        intro e he
        obtain ⟨k,hk,rfl⟩ := List.getElem_of_mem he
        have hk' : k < entries.length := hentries.length_eq ▸ hk
        have hentry := List.Forall₂.get hentries hk hk'
        have hmem : entries.get ⟨k,hk'⟩ ∈ filled.entries := by
          rw [hfilled']
          exact List.get_mem entries _
        have hdeclared := filled.declared _ hmem
        rw [hkeeps,hregistered,hentry.1] at hdeclared
        exact ⟨by simpa using hdeclared,_,hentry.2.2.2⟩
      have hcurrent : ∀ s v, filled.expectedVersions.get? s = some v →
          v = (history.filter fun event => ev.streamId event = s).length := by
        intro s v hv
        rw [hkeeps,hversions,HashMap.get?_insert] at hv
        by_cases hs : s = streamId
        · rw [if_pos hs] at hv
          rw [hs]
          exact (Option.some.inj hv).symm
        · simp [hs,StreamWrites.new] at hv
      obtain ⟨after,happ,hseeded⟩ := h.append nowV7 (hfilled' ▸ hentries) hcurrent
      refine ⟨hfits,⟨after⟩,?_,hseeded⟩
      simp only [TestScenario.givenEvents,List.isEmpty_cons,Bool.false_eq_true,if_false,
        h.readStream,collect_ok,expect,Except.bind,hregister,hfold,happ,Except.map]

end Setup

section Collecting

variable {p : ProjectionPipeline (List E) E Unit Empty} {eventTypeName : String}

theorem runLoop_processFrom (readEvents : EventFilter → EventPage → List (E × Uuid))
    (hprojector : p.projector = eventCollector eventTypeName) (hstore : p.hasCheckpointStore = true)
    (hbatch : p.pollMode = .batch) (events : List (E × Uuid)) (i n : ℕ) (cursor start : Option Uuid)
    (checkpoints : String → Option Uuid) :
    ∃ fuel, runLoop readEvents fuel checkpoints
        ⟨(p.processFrom events i n cursor ()).1,(p.processFrom events i n cursor ()).2,start⟩ =
      some (p.self ++ (events.drop i).map Prod.fst) := by
  induction hrest : events.drop i generalizing p i n cursor checkpoints with
  | nil =>
    refine ⟨1,?_⟩
    simp [runLoop,ProjectionPipeline.processFrom,hrest,ProjectionPipeline.stepProcessing,
      ProjectionPipeline.stepPageEnd,hbatch,ProjectionPipeline.finish]
  | cons e rest ih =>
    obtain ⟨event,position⟩ := e
    have happly : p.projector.apply p.self event position () = (.ok (),p.self ++ [event],()) := by
      rw [hprojector]
      rfl
    have hdrop : events.drop (i+1) = rest := by
      rw [← List.drop_drop,hrest]
      rfl
    have hsave : p.processFrom events i n cursor () =
        ({ p with
            self := p.self ++ [event]
            calls := p.calls ++ [.applied event position]
            phase := .awaitingCheckpointSave events i (some position) () },
          .yield (.saveCheckpoint p.projector.name position)) := by
      simp only [ProjectionPipeline.processFrom,hrest,ProjectionPipeline.stepProcessing,happly,
        hstore,if_true]
    obtain ⟨fuel,hloop⟩ := ih
      (p := { p with
        self := p.self ++ [event]
        calls := p.calls ++ [.applied event position]
        phase := .awaitingCheckpointSave events i (some position) () })
      hprojector hstore hbatch (i+1) 0 (some position)
      (Function.update checkpoints p.projector.name (some position)) hdrop
    refine ⟨fuel+1,?_⟩
    rw [hsave,runLoop]
    simpa [Running.resume,ProjectionPipeline.resume] using hloop

theorem runLoop_begin (readEvents : EventFilter → EventPage → List (E × Uuid))
    (eventTypeName : String) :
    ∃ fuel, runLoop readEvents fuel (fun _ => none)
        (World.begin (eventCollector eventTypeName) ⟨[],none,none,[]⟩ collecting) =
      some ((readEvents (EventFilter.all.withEventType eventTypeName)
        (EventPage.first ProjectionPipeline.BATCH_SIZE)).map Prod.fst) := by
  obtain ⟨fuel,hloop⟩ := runLoop_processFrom
    (p :=
      { ProjectionPipeline.new (eventCollector eventTypeName) [] true .batch
          (collecting : Setup (List E)).pollConfig {} with
        phase := .awaitingEvents none () 0 }) readEvents rfl rfl rfl
    (readEvents (EventFilter.all.withEventType eventTypeName)
      (EventPage.first ProjectionPipeline.BATCH_SIZE)) 0 0 none none fun _ => none
  exact ⟨fuel+2,hloop⟩

end Collecting

section Fuel

variable {nowV7 : ℕ → Uuid} {applyJitter : ℕ → ℕ} {fuel more : ℕ}

theorem execute_mono (hmore : fuel ≤ more) {run : Run Any Raw Value E S}
    {store : StoreData Any Raw Value} {x : PipelineOutcome × StoreData Any Raw Value}
    (h : execute nowV7 applyJitter fuel run store = some x) :
    execute nowV7 applyJitter more run store = some x := by
  induction fuel generalizing more run store with
  | zero => cases h
  | succ fuel ih =>
    obtain ⟨more,rfl⟩ : ∃ k, more = k+1 := ⟨more-1,by omega⟩
    rw [execute] at h ⊢
    split at h
    · exact h
    · obtain ⟨next,hnext,hrest⟩ := Option.bind_eq_some_iff.mp h
      rw [hnext]
      exact ih (by omega) hrest

theorem runLoop_mono (hmore : fuel ≤ more) {readEvents : EventFilter → EventPage → List (E × Uuid)}
    {checkpoints : String → Option Uuid} {r : Running P E X Err} {self : P}
    (h : runLoop readEvents fuel checkpoints r = some self) :
    runLoop readEvents more checkpoints r = some self := by
  induction fuel generalizing more checkpoints r with
  | zero => cases h
  | succ fuel ih =>
    obtain ⟨more,rfl⟩ : ∃ k, more = k+1 := ⟨more-1,by omega⟩
    have hle : fuel ≤ more := by omega
    rw [runLoop] at h ⊢
    split at h
    · exact h
    · cases h
    · exact ih hle h
    · exact ih hle h
    · exact ih hle h
    · exact ih hle h

end Fuel

section Exact

variable {ev : Event Any Raw E} {store : StoreData Any Raw Value} {history : List E}
  {globMatches : StreamPattern → String → Bool}

def RoundTrips (ev : Event Any Raw E) : Prop :=
  ∀ event raw, ev.toRawValue event = .ok raw → ev.fromStr raw = .ok event

theorem decode_logged (hev : RoundTrips ev) {log : List (GlobalLogEntry Raw)}
    (h : List.Forall₂ (IsLogged ev) history log) :
    (log.filterMap fun entry => (ev.fromStr entry.eventData).toOption.map (·,entry.eventId)).map
      Prod.fst = history := by
  induction h with
  | nil => rfl
  | @cons event entry _ _ hentry _ ih =>
    have hdecode := hev event entry.eventData hentry.2.2
    rw [List.filterMap_cons,hdecode]
    exact congrArg _ ih

theorem Seeded.readMemory (h : Seeded ev store history) (hev : RoundTrips ev) (limit : ℕ) :
    (EventReader.readMemory globMatches ev (EventFilter.all.withEventType ev.eventTypeName) store
      ⟨none,limit⟩).map Prod.fst = history.take limit := by
  have htypes : ∀ entry ∈ store.globalLog, entry.eventType = ev.eventTypeName := by
    intro entry hentry
    obtain ⟨k,hk,rfl⟩ := List.getElem_of_mem hentry
    exact (List.Forall₂.get h.logged (h.logged.length_eq.symm ▸ hk) hk).2.1
  have hselect : ((((store.globalLog.filter fun entry => IsAfter none entry.eventId).filter
      fun entry => EventReader.matchesPrefix (EventFilter.all.withEventType ev.eventTypeName)
        entry.streamId).filter
      fun entry => EventReader.matchesPattern globMatches
        (EventFilter.all.withEventType ev.eventTypeName) entry.streamId).filter
      fun entry => EventReader.matchesType ev.eventTypeName
        (EventFilter.all.withEventType ev.eventTypeName) entry.eventType) = store.globalLog := by
    simp only [List.filter_filter]
    rw [List.filter_eq_self]
    intro entry hentry
    simp [EventReader.matchesType,EventReader.matchesPattern,EventReader.matchesPrefix,
      EventFilter.withEventType,EventFilter.all,htypes entry hentry]
  rw [EventReader.readMemory,hselect]
  exact decode_logged hev (List.forall₂_take limit h.logged)

/-- What a command that has read all this comes to: its events, or the error it ends in. -/
inductive Verdict (command : CommandLogic Any Raw Value E S) (reads : List (StreamId × List E)) :
    Except CommandError (List E) → Prop
  | emitted {events} : command.handle (command.search.after reads) = .ok events →
      (∀ event ∈ events, ∀ e, ¬Unwritable command.event reads event e) →
      Verdict command reads (.ok events)
  | rejected {e} : command.handle (command.search.after reads) = .error e →
      Verdict command reads (.error e)
  | unwritable {events event e} : command.handle (command.search.after reads) = .ok events →
      event ∈ events → Unwritable command.event reads event e →
      Verdict command reads (.error (.eventStoreError e))

variable {command : CommandLogic Any Raw Value E S}

/-- On a seeded store every stream decodes, so the call comes to a verdict on the events that
each stream was seeded with. -/
theorem exists_verdict (h : Seeded command.event store history) {outcome : PipelineOutcome}
    {after : StoreData Any Raw Value} (hreturns : Returns command store outcome after) :
    ∃ reads verdict, command.search.Exhausts reads ∧
      (∀ v ∈ reads, v.2 = history.filter fun event => command.event.streamId event = v.1) ∧
      Verdict command reads verdict ∧
      Seeded command.event after (history ++ verdict.toOption.getD []) ∧
      resultOf outcome = verdict.map fun _ => () := by
  have hreads : ∀ reads, Whole command store reads →
      ∀ v ∈ reads, v.2 = history.filter fun event => command.event.streamId event = v.1 := by
    intro reads hwhole v hv
    have heq := hwhole v hv
    rw [h.readStream] at heq
    exact (List.map_injective_iff.mpr (fun _ _ => Except.ok.inj) heq).symm
  have hsame : Seeded command.event store (history ++ []) := by rwa [List.append_nil]
  cases hreturns with
  | @committed reads events after halone =>
    refine ⟨reads,.ok events,halone.exhausts,hreads _ halone.whole,.emitted halone.handled ?_,
      h.runsAlone halone,rfl⟩
    intro event hevent e hunwritable
    cases hunwritable with
    | undeclared hmem => exact hmem (halone.declared event hevent)
    | unserialized hdetail =>
      obtain ⟨logged,-,hall⟩ := halone.log
      obtain ⟨k,hk,rfl⟩ := List.getElem_of_mem hevent
      have hlogged := List.Forall₂.get hall hk (hall.length_eq ▸ hk)
      have hboth := hlogged.2.2.symm.trans hdetail
      cases hboth
  | @unreadable reads streamId e horder hwhole hnext hread =>
    rw [h.readStream,collect_ok] at hread
    cases hread
  | @rejected reads e hend hwhole hhandle =>
    exact ⟨reads,.error e,hend,hreads _ hwhole,.rejected hhandle,hsame,rfl⟩
  | @unwritable reads events event e hend hwhole hhandle hevent hbad =>
    exact ⟨reads,_,hend,hreads _ hwhole,.unwritable hhandle hevent hbad,hsame,rfl⟩

variable (globMatches) (nowV7 : ℕ → Uuid) (applyJitter : ℕ → ℕ) (command)

theorem when_eq {scenario : TestScenario Any Raw Value}
    (h : Seeded command.event scenario.store history) (hev : RoundTrips command.event) :
    ∃ fuel reads verdict, command.search.Exhausts reads ∧
      (∀ v ∈ reads, v.2 = history.filter fun event => command.event.streamId event = v.1) ∧
      Verdict command reads verdict ∧
      scenario.when globMatches nowV7 applyJitter fuel command =
        some ⟨verdict.map fun _ => (),(history ++ verdict.toOption.getD []).take 1000⟩ := by
  have hnothing : Whole command scenario.store [] := by simp [Whole]
  obtain ⟨fuel,outcome,after,hexecute,hreturns⟩ := returns_stepReading nowV7 applyJitter
    (p := .new command {}) rfl rfl (Tracks.initReading command) hnothing []
  obtain ⟨reads,verdict,hend,hreads,hverdict,hseeded,hresult⟩ := exists_verdict h hreturns
  obtain ⟨more,hloop⟩ := runLoop_begin
    (fun filter => EventReader.readMemory globMatches command.event filter after)
    command.event.eventTypeName
  rw [EventPage.first,hseeded.readMemory hev] at hloop
  refine ⟨fuel+more,reads,verdict,hend,hreads,hverdict,?_⟩
  have hexecute' : execute nowV7 applyJitter (fuel+more) (.start command {}) scenario.store =
      some (outcome,after) := execute_mono (Nat.le_add_right fuel more) hexecute
  have hloop' := runLoop_mono (Nat.le_add_left more fuel) hloop
  rw [TestScenario.when,hexecute',Option.bind_some,hloop',← hresult]
  rfl

/-- The Given steps seed their events one after the other, or panic over the first that does
not fit its stream. -/
theorem given_spec (nowV7 : ℕ → Uuid) {scenario : TestScenario Any Raw Value}
    (h : Seeded ev scenario.store history) (givens : List (StreamId × List E)) :
    ((∀ step ∈ givens, ∀ event ∈ step.2, Fits ev step.1 event) ∧
      ∃ next, givens.foldlM (fun scenario step =>
          scenario.givenEvents nowV7 ev step.1 step.2) scenario = .ok next ∧
        Seeded ev next.store (history ++ givens.flatMap Prod.snd)) ∨
    (¬(∀ step ∈ givens, ∀ event ∈ step.2, Fits ev step.1 event) ∧
      givens.foldlM (fun scenario step => scenario.givenEvents nowV7 ev step.1 step.2) scenario =
        .error "appending event for test setup should not fail") := by
  induction givens generalizing scenario history with
  | nil => exact .inl ⟨by simp,scenario,rfl,by simpa using h⟩
  | cons step givens ih =>
    rw [List.foldlM_cons,List.forall_mem_cons]
    rcases givenEvents_spec nowV7 h step.1 step.2 with ⟨hfits,next,hgiven,hseeded⟩ | ⟨hbad,hpanic⟩
    · rw [hgiven]
      rcases ih hseeded with ⟨hall,last,hrest,hlast⟩ | ⟨hbad,hpanic⟩
      · refine .inl ⟨⟨hfits,hall⟩,last,hrest,?_⟩
        rwa [List.flatMap_cons,← List.append_assoc]
      · exact .inr ⟨fun hboth => hbad hboth.2,hpanic⟩
    · rw [hpanic]
      exact .inr ⟨fun hboth => hbad hboth.1,rfl⟩

end Exact

/-- Whatever `topUp` reads is the account, and its verdict is one more than the balance. -/
theorem verdict_topUp {reads : List (StreamId × List ℕ)} {verdict : Except CommandError (List ℕ)}
    (hend : Sample.topUp.search.Exhausts reads)
    (hreads : ∀ v ∈ reads, v.2 = [3,4].filter fun event => Sample.deposited.streamId event = v.1)
    (hverdict : Verdict Sample.topUp reads verdict) : verdict = .ok [8] := by
  have hasked : Sample.topUp.search.asked reads = Sample.topUp.streamDeclarations.streams := by
    simp [Search.asked,CommandLogic.search,CommandLogic.relatedStreams,
      show Sample.topUp.streamResolver = none from rfl]
  have hnodes : reads.map Prod.fst = [Sample.account] := by
    rw [hend.nodes,Search.schedule,hasked]
    rfl
  obtain ⟨v,hv,haccount⟩ := List.map_eq_singleton_iff.mp hnodes
  have hbalance : v.2 = [3,4] := by
    rw [hreads v (by simp [hv]),haccount]
    rfl
  have hstate : Sample.topUp.search.after reads = 7 := by
    rw [hv,Search.after,List.foldl_cons,hbalance]
    rfl
  cases hverdict with
  | emitted hhandle _ =>
    rw [hstate] at hhandle
    rw [← hhandle]
    rfl
  | rejected hhandle => cases hhandle
  | unwritable hhandle hevent hbad =>
    cases hbad with
    | undeclared hmem => exact absurd (by simp [hnodes,Sample.topUp,Sample.deposited]) hmem
    | unserialized hdetail => cases hdetail

end TestScenarios
end EventCore
