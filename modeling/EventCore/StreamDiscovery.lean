import EventCore.ExecutePipeline
import EventCore.Exploration

/-! One attempt of the pipeline as an exploration of streams: the queue, the visited set and
the scheduled set of the reading phases describe one schedule, and the state is the fold over
the streams in the order of that schedule. -/
namespace EventCore

open Exploration

variable {Any Raw Value E S : Type}

/-- Streams as nodes: a visit folds the events of the stream, and a state asks for the streams
that the resolver names. -/
def CommandLogic.search (command : CommandLogic Any Raw Value E S) :
    Search StreamId (List E) S where
  roots := command.streamDeclarations.streams
  start := command.default
  absorb state events := events.foldl command.apply state
  next := command.relatedStreams

/-- The batch of a command in a state that was read at some versions. -/
def CommandLogic.batch (command : CommandLogic Any Raw Value E S)
    (expectedVersions : HashMap StreamId StreamVersion) (state : S) :
    Except CommandError (StreamWrites Any Raw) :=
  (command.handle state).bind fun events =>
    buildStreamWritesFromEvents command.event events expectedVersions

section Batch

/-- A batch holds the events of the command in order, registers the versions read, and writes
to streams read only. -/
theorem CommandLogic.batch_eq_ok {command : CommandLogic Any Raw Value E S}
    {expectedVersions : HashMap StreamId StreamVersion} {state : S}
    {writes : StreamWrites Any Raw} (h : command.batch expectedVersions state = .ok writes) :
    (∀ s, writes.expectedVersions.get? s = expectedVersions.get? s) ∧
    ∃ events, command.handle state = .ok events ∧
      List.Forall₂ (StreamWrites.IsEntry command.event) events writes.entries ∧
      ∀ event ∈ events, command.event.streamId event ∈ expectedVersions := by
  cases hhandle : command.handle state with
  | error e => simp [batch,hhandle,Except.bind] at h
  | ok events =>
    simp only [batch,hhandle,Except.bind] at h
    obtain ⟨hlook,hentries⟩ := buildStreamWritesFromEvents_eq_ok h
    refine ⟨hlook,events,rfl,hentries,fun event hevent => ?_⟩
    obtain ⟨i,hi,hget⟩ := List.getElem_of_mem hevent
    have hentry := List.Forall₂.get hentries hi (hentries.length_eq ▸ hi)
    have hdeclared := writes.declared _ (List.get_mem writes.entries ⟨i,hentries.length_eq ▸ hi⟩)
    rw [hentry.1,← HashMap.get?_isSome_iff,hlook,HashMap.get?_isSome_iff] at hdeclared
    simpa [hget] using hdeclared

theorem foldlM_append_isOk {ev : Event Any Raw E} {events : List E} {writes : StreamWrites Any Raw}
    (hregistered : ∀ event ∈ events, ev.streamId event ∈ writes.expectedVersions)
    (hraw : ∀ event ∈ events, ∃ raw, ev.toRawValue event = .ok raw) :
    ∃ writes', events.foldlM (StreamWrites.append ev) writes = .ok writes' := by
  induction events generalizing writes with
  | nil => exact ⟨writes,rfl⟩
  | cons event events ih =>
    obtain ⟨raw,hevent⟩ := hraw event List.mem_cons_self
    obtain ⟨next,hnext⟩ : ∃ next, writes.append ev event = .ok next := by
      simp [StreamWrites.append,hregistered event List.mem_cons_self,hevent]
    obtain ⟨-,hver,-⟩ := StreamWrites.append_eq_ok hnext
    rw [List.foldlM_cons,hnext]
    exact ih (fun e he => hver ▸ hregistered e (List.mem_cons_of_mem _ he))
      fun e he => hraw e (List.mem_cons_of_mem _ he)

theorem CommandLogic.exists_batch {command : CommandLogic Any Raw Value E S}
    {expectedVersions : HashMap StreamId StreamVersion} {state : S} {events : List E}
    (hhandle : command.handle state = .ok events)
    (hread : ∀ event ∈ events, command.event.streamId event ∈ expectedVersions)
    (hraw : ∀ event ∈ events, ∃ raw, command.event.toRawValue event = .ok raw) :
    ∃ writes, command.batch expectedVersions state = .ok writes := by
  obtain ⟨registered,hreg,-,hlook⟩ := registerAll_spec Any Raw expectedVersions
  have hregistered : ∀ event ∈ events,
      command.event.streamId event ∈ registered.expectedVersions := by
    intro event hevent
    rw [← HashMap.get?_isSome_iff,hlook,HashMap.get?_isSome_iff]
    exact hread event hevent
  obtain ⟨writes,hwrites⟩ := foldlM_append_isOk hregistered hraw
  exact ⟨writes,by simp [batch,hhandle,Except.bind,buildStreamWritesFromEvents,hreg,hwrites,
    Except.mapError]⟩

end Batch

section Items

/-- The events of a stream that was read to its end, or the error that it stopped at. -/
def collect : List (Except EventStoreError E) → Except EventStoreError (List E)
  | [] => .ok []
  | .ok event :: items => (collect items).map (event :: ·)
  | .error e :: _ => .error e

/-- The same with the error of opening the stream. -/
def readAll (opened : Except EventStoreError (List (Except EventStoreError E))) :
    Except EventStoreError (List E) :=
  opened.bind collect

@[simp] theorem collect_ok (events : List E) : collect (events.map .ok) = .ok events := by
  induction events with
  | nil => rfl
  | cons event events ih => simp [collect,ih,Except.map]

theorem collect_eq_ok {items : List (Except EventStoreError E)} {events : List E} :
    collect items = .ok events ↔ items = events.map .ok := by
  constructor
  · intro h
    induction items generalizing events with
    | nil =>
      cases h
      rfl
    | cons item items ih =>
      cases item with
      | error e => cases h
      | ok event =>
        cases hitems : collect items with
        | error e => simp [collect,hitems,Except.map] at h
        | ok rest =>
          simp only [collect,hitems,Except.map,Except.ok.injEq] at h
          subst h
          rw [ih hitems,List.map_cons]
  · rintro rfl
    exact collect_ok events

theorem readAll_eq_ok {opened : Except EventStoreError (List (Except EventStoreError E))}
    {events : List E} : readAll opened = .ok events ↔ opened = .ok (events.map .ok) := by
  cases opened with
  | error e => simp [readAll,Except.bind]
  | ok items => simp [readAll,Except.bind,collect_eq_ok]

theorem CommandLogic.foldItems_eq (command : CommandLogic Any Raw Value E S)
    (items : List (Except EventStoreError E)) (state : S) :
    command.foldItems items state = (collect items).map (List.foldl command.apply state) := by
  induction items generalizing state with
  | nil => rfl
  | cons item items ih =>
    cases item with
    | error e => rfl
    | ok event =>
      rw [foldItems_ok,ih,collect]
      cases collect items <;> rfl

end Items

section Queueing

theorem fresh_cons_mem {stream : StreamId} {listed : List StreamId} (h : stream ∈ listed)
    (streams : List StreamId) : fresh listed (stream :: streams) = fresh listed streams := by
  simp [fresh,h]

theorem fresh_cons_not_mem {stream : StreamId} {listed : List StreamId} (h : stream ∉ listed)
    (streams : List StreamId) :
    fresh listed (stream :: streams) = stream :: fresh (listed ++ [stream]) streams := by
  simp only [fresh,List.filter_cons,h,not_false_eq_true,decide_true,if_true,
    List.eraseDups_cons,List.filter_filter]
  congr 2
  refine List.filter_congr fun s _ => ?_
  by_cases hs : s = stream <;> simp [hs]

theorem enqueueNew_eq (streams queue listed : List StreamId) :
    enqueueNew streams queue listed.toFinset =
      (queue ++ fresh listed streams,(listed ++ fresh listed streams).toFinset) := by
  induction streams generalizing queue listed with
  | nil => simp [enqueueNew,fresh]
  | cons stream streams ih =>
    by_cases h : stream ∈ listed
    · rw [enqueueNew,if_pos (List.mem_toFinset.mpr h),ih,fresh_cons_mem h]
    · have hset : insert stream listed.toFinset = (listed ++ [stream]).toFinset := by
        ext s
        simp
      rw [enqueueNew,if_neg (by simpa using h),hset,ih,fresh_cons_not_mem h]
      simp

theorem popUnvisited_fresh {visited : Finset StreamId} {streamId : StreamId}
    (queue : List StreamId) (h : streamId ∉ visited) :
    ExecutePipeline.popUnvisited visited (streamId :: queue) = some (streamId,queue) := by
  simp [ExecutePipeline.popUnvisited,h]

end Queueing

/-- The reading phase stands where the exploration of `reads` stands. -/
structure Tracks (command : CommandLogic Any Raw Value E S) (reads : List (StreamId × List E))
    (r : Reading S) : Prop where
  inOrder : command.search.InOrder reads
  queue : reads.map Prod.fst ++ r.queue = command.search.schedule reads
  visited : r.visited = (reads.map Prod.fst).toFinset
  scheduled : r.scheduled = (command.search.schedule reads).toFinset
  streamIds : r.streamIds = reads.map Prod.fst
  versions : ∀ s v, r.expectedVersions.get? s = some v ↔
    ∃ events, (s,events) ∈ reads ∧ v = events.length
  state : r.state = command.search.after reads

def Reading.popped (r : Reading S) (streamId : StreamId) (queue : List StreamId) : Reading S :=
  { r with queue := queue, visited := insert streamId r.visited }

namespace Tracks

variable {command : CommandLogic Any Raw Value E S} {reads : List (StreamId × List E)}
  {r : Reading S}

/-- Every attempt starts with nothing read, in the default state. -/
theorem initReading (command : CommandLogic Any Raw Value E S) :
    Tracks command [] (ExecutePipeline.initReading command) := by
  have henqueue := enqueueNew_eq command.streamDeclarations.streams [] []
  have hfresh : fresh [] command.streamDeclarations.streams =
      command.streamDeclarations.streams.eraseDups := by simp [fresh]
  rw [hfresh] at henqueue
  simp only [List.nil_append,List.toFinset_nil] at henqueue
  have hschedule : command.search.schedule [] = command.streamDeclarations.streams.eraseDups :=
    command.search.schedule_nil
  constructor <;> simp [ExecutePipeline.initReading,henqueue,hschedule,Search.InOrder.nil]
  rfl

theorem queue_fresh (h : Tracks command reads r) {streamId : StreamId} {queue : List StreamId}
    (hqueue : r.queue = streamId :: queue) : streamId ∉ r.visited := by
  have hnodup := command.search.schedule_nodup reads
  rw [← h.queue,hqueue] at hnodup
  rw [h.visited,List.mem_toFinset]
  intro hmem
  exact (List.disjoint_of_nodup_append hnodup) hmem (List.mem_cons_self)

theorem exhausts (h : Tracks command reads r) (hqueue : r.queue = []) :
    command.search.Exhausts reads :=
  ⟨h.inOrder,by simpa [hqueue] using h.queue⟩

theorem next (h : Tracks command reads r) {streamId : StreamId} {queue : List StreamId}
    (hqueue : r.queue = streamId :: queue) :
    (command.search.schedule reads)[reads.length]? = some streamId := by
  rw [← h.queue,hqueue]
  simp

theorem streamEnded (h : Tracks command reads r) {streamId : StreamId} {queue : List StreamId}
    (hqueue : r.queue = streamId :: queue) (events : List E)
    {p : ExecutePipeline Any Raw Value E S} (hcommand : p.command = command) :
    Tracks command (reads ++ [(streamId,events)])
      (p.streamEnded streamId
        { r.popped streamId queue with state := events.foldl command.apply r.state }
        events.length) := by
  have hafter : command.search.after (reads ++ [(streamId,events)]) =
      events.foldl command.apply r.state := by
    rw [command.search.after_concat,← h.state]
    rfl
  have hschedule := command.search.schedule_concat reads (streamId,events)
  have henqueue := enqueueNew_eq (command.relatedStreams (events.foldl command.apply r.state))
    queue (command.search.schedule reads)
  rw [hafter] at hschedule
  constructor
  · exact h.inOrder.visit (by rw [h.queue.symm,hqueue]) events
  · simp only [ExecutePipeline.streamEnded,Reading.popped,CommandLogic.discoverRelatedStreams,
      hcommand,h.scheduled,henqueue]
    rw [hschedule,← h.queue,hqueue]
    simp [CommandLogic.search]
  · ext s
    simp [ExecutePipeline.streamEnded,Reading.popped,h.visited]
  · simp only [ExecutePipeline.streamEnded,Reading.popped,CommandLogic.discoverRelatedStreams,
      hcommand,h.scheduled,henqueue]
    rw [hschedule]
    rfl
  · simp [ExecutePipeline.streamEnded,Reading.popped,h.streamIds]
  · intro s v
    have hold := h.versions s v
    have hnew : ∀ events', (streamId,events') ∉ reads := by
      intro events' hmem
      refine h.queue_fresh hqueue ?_
      rw [h.visited,List.mem_toFinset]
      exact List.mem_map_of_mem (f := Prod.fst) hmem
    simp only [ExecutePipeline.streamEnded,Reading.popped,HashMap.get?_insert]
    by_cases hs : s = streamId
    · subst hs
      simp [hnew,eq_comm]
    · simp [hs,hold]
  · simp [ExecutePipeline.streamEnded,Reading.popped,hafter]

end Tracks

namespace ExecutePipeline

theorem stepReading_phase (p : ExecutePipeline Any Raw Value E S) (phase : Phase S)
    (r : Reading S) : ({ p with phase := phase }).stepReading r = p.stepReading r := by
  simp only [stepReading,stepHandling,finish]

theorem stepHandling_eq (p : ExecutePipeline Any Raw Value E S) (streamIds : List StreamId)
    (expectedVersions : HashMap StreamId StreamVersion) (state : S) :
    p.stepHandling streamIds expectedVersions state =
      match p.command.batch expectedVersions state with
      | .ok writes =>
        ({ p with phase := .awaitingAppend streamIds },.yield (.appendEvents writes))
      | .error e => p.finish (.error e) := by
  unfold stepHandling CommandLogic.batch
  cases p.command.handle state with
  | error e => rfl
  | ok events => rfl

theorem stepReading_tracks {p : ExecutePipeline Any Raw Value E S}
    {reads : List (StreamId × List E)} {r : Reading S} (h : Tracks p.command reads r) :
    p.stepReading r =
      match r.queue with
      | streamId :: queue =>
        ({ p with phase := .awaitingStreamRead streamId (r.popped streamId queue) 0 },
          .yield (.readStream streamId))
      | [] => p.stepHandling (reads.map Prod.fst) r.expectedVersions r.state := by
  unfold stepReading
  split
  · next streamId queue hpop =>
    cases hqueue : r.queue with
    | nil => simp [hqueue,popUnvisited] at hpop
    | cons s rest =>
      rw [hqueue,popUnvisited_fresh rest (h.queue_fresh hqueue)] at hpop
      simp only [Option.some.injEq,Prod.mk.injEq] at hpop
      obtain ⟨rfl,rfl⟩ := hpop
      rfl
  · next hpop =>
    cases hqueue : r.queue with
    | nil => rw [← h.streamIds]
    | cons s rest =>
      rw [hqueue,popUnvisited_fresh rest (h.queue_fresh hqueue)] at hpop
      cases hpop

/-- Reading one stream folds all its events, or ends the run with the error it stopped at. -/
theorem pumpStreamReads_eq (applyJitter : ℕ → ℕ) {p : ExecutePipeline Any Raw Value E S}
    {streamId : StreamId} {r : Reading S} (hphase : p.phase = .awaitingStreamRead streamId r 0)
    (opened : Except EventStoreError (List (Except EventStoreError E))) :
    p.pumpStreamReads applyJitter opened =
      match readAll opened with
      | .ok events => p.stepReading (p.streamEnded streamId
          { r with state := events.foldl p.command.apply r.state } events.length)
      | .error e => p.finish (.error (.eventStoreError e)) := by
  cases opened with
  | error e => simp [pumpStreamReads,resume,hphase,readAll,Except.bind]
  | ok items =>
    simp only [pumpStreamReads,readAll,Except.bind]
    rw [pumpItems_eq applyJitter hphase,p.command.foldItems_eq]
    cases hitems : collect items with
    | error e => rfl
    | ok events => simp [Except.map,collect_eq_ok.mp hitems]

end ExecutePipeline

namespace Sample

/-- Top up the account; a positive balance makes the savings part of the decision. -/
def sweep : CommandLogic ℕ ℕ ℕ ℕ ℕ :=
  { topUp with
    streamResolver := some fun balance => if 0 < balance then [account,savings] else [] }

theorem sweep_reached (contents : StreamId → List ℕ) :
    (sweep.search.reached contents).Finite := by
  refine Set.Finite.subset (Set.toFinite {account,savings})
    (sweep.search.reached_subset contents ?_ fun state a ha => ?_)
  · simp [CommandLogic.search,sweep,topUp,StreamDeclarations.single]
  · have hnext : sweep.search.next state = if 0 < state then [account,savings] else [] := rfl
    rw [hnext] at ha
    split_ifs at ha <;> simp_all

end Sample

end EventCore
