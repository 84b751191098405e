import EventCore.Serializability
import EventCore.StreamDiscovery

/-! Commands run one at a time, each alone on whole streams, and the rule that carries what
such runs preserve over to any interleaving of `execute` calls. -/
namespace EventCore
namespace SequentialCommands

open MemoryStore Serializability Exploration

variable {Any Raw Value E S : Type}

def IsLogged (ev : Event Any Raw E) (event : E) (entry : GlobalLogEntry Raw) : Prop :=
  entry.streamId = (ev.streamId event).value ∧ entry.eventType = ev.eventTypeName ∧
  ev.toRawValue event = .ok entry.eventData

/-- The command ran alone: it read every stream that it declares or discovers to its end, was
handled on their fold, and its events are now at the ends of their streams and of the log. -/
structure RunsAlone (command : CommandLogic Any Raw Value E S)
    (before after : StoreData Any Raw Value) (reads : List (StreamId × List E))
    (events : List E) : Prop where
  exhausts : command.search.Exhausts reads
  whole : ∀ v ∈ reads, readStream command.event before v.1 = v.2.map .ok
  handled : command.handle (command.search.after reads) = .ok events
  declared : ∀ event ∈ events, command.event.streamId event ∈ reads.map Prod.fst
  streams : ∀ s, after.streamEvents s = before.streamEvents s ++
    (events.filter fun event => command.event.streamId event = s).map command.event.box
  log : ∃ logged, after.globalLog = before.globalLog ++ logged ∧
    List.Forall₂ (IsLogged command.event) events logged

inductive RunsInTurn {ι : Type} {E S : ι → Type}
    (commands : ∀ i, CommandLogic Any Raw Value (E i) (S i)) (initial : StoreData Any Raw Value) :
    List ι → StoreData Any Raw Value → Prop
  | nil : RunsInTurn commands initial [] initial
  | concat {runs : List ι} {before after : StoreData Any Raw Value} {i : ι}
      {reads : List (StreamId × List (E i))} {events : List (E i)} :
      RunsInTurn commands initial runs before →
      RunsAlone (commands i) before after reads events →
      RunsInTurn commands initial (runs ++ [i]) after

/-- A command without a resolver has read its declared streams, in their order. -/
theorem RunsAlone.nodes_of_static {command : CommandLogic Any Raw Value E S}
    {before after : StoreData Any Raw Value} {reads : List (StreamId × List E)} {events : List E}
    (h : RunsAlone command before after reads events) (hstatic : command.streamResolver = none) :
    reads.map Prod.fst = command.streamDeclarations.streams := by
  have hasked : command.search.asked reads = command.streamDeclarations.streams := by
    simp [Search.asked,CommandLogic.search,CommandLogic.relatedStreams,hstatic]
  rw [h.exhausts.nodes,Search.schedule,hasked]
  exact eraseDups_eq_self command.streamDeclarations.nodup

section Reading

variable {command : CommandLogic Any Raw Value E S} {store store' : StoreData Any Raw Value}

/-- What was read of each stream is the beginning of what it holds now. -/
def ReadsOf (command : CommandLogic Any Raw Value E S) (store : StoreData Any Raw Value)
    (reads : List (StreamId × List E)) : Prop :=
  ∀ v ∈ reads, v.2.map .ok <+: readStream command.event store v.1

theorem ReadsOf.grow {reads : List (StreamId × List E)} (h : ReadsOf command store reads)
    (hgrow : Grows store store') : ReadsOf command store' reads := by
  intro v hv
  exact (h v hv).trans ((hgrow v.1).map _)

theorem ReadsOf.concat {reads : List (StreamId × List E)} (h : ReadsOf command store reads)
    {s : StreamId} {events : List E} (hread : readStream command.event store s = events.map .ok) :
    ReadsOf command store (reads ++ [(s,events)]) := by
  intro v hv
  rcases List.mem_append.mp hv with hv | hv
  · exact h v hv
  · rw [List.mem_singleton.mp hv,hread]

/-- Where a run stands, with everything that its current attempt has read. -/
def Attempting (command : CommandLogic Any Raw Value E S) (store : StoreData Any Raw Value)
    (run : Run Any Raw Value E S) : Prop :=
  run.pipeline.command = command ∧
  match run.pending with
  | .yield (.readStream streamId) => ∃ reads r queue,
    Tracks command reads r ∧ r.queue = streamId :: queue ∧ ReadsOf command store reads ∧
    run.pipeline.phase = .awaitingStreamRead streamId (r.popped streamId queue) 0
  | .yield (.appendEvents writes) =>
    (∃ streamIds, run.pipeline.phase = .awaitingAppend streamIds) ∧ ∃ reads expectedVersions,
    command.search.Exhausts reads ∧ ReadsOf command store reads ∧
    (∀ s v, expectedVersions.get? s = some v ↔ ∃ events, (s,events) ∈ reads ∧ v = events.length) ∧
    command.batch expectedVersions (command.search.after reads) = .ok writes
  | .yield (.sleep _) => run.pipeline.phase = .awaitingRetrySleep
  | .done _ => True
  | .waitForResult | .panicked _ => False

theorem Attempting.grow {run : Run Any Raw Value E S} (h : Attempting command store run)
    (hgrow : Grows store store') : Attempting command store' run := by
  obtain ⟨hcommand,h⟩ := h
  refine ⟨hcommand,?_⟩
  cases hpending : run.pending with
  | yield effect =>
    rw [hpending] at h
    cases effect with
    | readStream streamId =>
      obtain ⟨reads,r,queue,htracks,hqueue,hreads,hphase⟩ := h
      exact ⟨reads,r,queue,htracks,hqueue,hreads.grow hgrow,hphase⟩
    | appendEvents writes =>
      obtain ⟨hphase,reads,versions,hend,hreads,hversions,hbatch⟩ := h
      exact ⟨hphase,reads,versions,hend,hreads.grow hgrow,hversions,hbatch⟩
    | sleep _ => exact h
  | waitForResult => simp [hpending] at h
  | done _ => trivial
  | panicked _ => simp [hpending] at h

/-- A reading phase that is tracked goes on to the next stream, to the append, or to an error. -/
theorem attempting_stepReading {p : ExecutePipeline Any Raw Value E S}
    (hcommand : p.command = command) {reads : List (StreamId × List E)} {r : Reading S}
    (htracks : Tracks command reads r) (hreads : ReadsOf command store reads)
    (visited : List StreamId) :
    Attempting command store ⟨(p.stepReading r).1,(p.stepReading r).2,visited⟩ ∧
    ∀ n, (p.stepReading r).2 ≠ .done (.success n) := by
  subst hcommand
  rw [ExecutePipeline.stepReading_tracks htracks]
  cases hqueue : r.queue with
  | cons streamId queue =>
    exact ⟨⟨rfl,reads,r,queue,htracks,hqueue,hreads,rfl⟩,by simp⟩
  | nil =>
    simp only
    rw [ExecutePipeline.stepHandling_eq]
    cases hbatch : p.command.batch r.expectedVersions r.state with
    | error e => exact ⟨⟨rfl,trivial⟩,by simp [ExecutePipeline.finish]⟩
    | ok writes =>
      refine ⟨⟨rfl,⟨_,rfl⟩,reads,r.expectedVersions,htracks.exhausts hqueue,hreads,
        htracks.versions,?_⟩,by simp⟩
      rw [← htracks.state]
      exact hbatch

variable (store) in
theorem attempting_initReading (p : ExecutePipeline Any Raw Value E S)
    (hcommand : p.command = command) :
    Attempting command store ⟨(p.stepReading (ExecutePipeline.initReading p.command)).1,
      (p.stepReading (ExecutePipeline.initReading p.command)).2,[]⟩ ∧
    ∀ n, (p.stepReading (ExecutePipeline.initReading p.command)).2 ≠ .done (.success n) := by
  subst hcommand
  have hnothing : ReadsOf p.command store [] := by simp [ReadsOf]
  exact attempting_stepReading rfl (Tracks.initReading p.command) hnothing []

theorem globalLog_foldl_writeEntry (nowV7 : ℕ → Uuid) {ev : Event Any Raw E} {events : List E}
    {entries : List (StreamWriteEntry Any Raw)}
    (h : List.Forall₂ (StreamWrites.IsEntry ev) events entries) (data : StoreData Any Raw Value) :
    ∃ logged, (entries.foldl (writeEntry nowV7) data).globalLog = data.globalLog ++ logged ∧
      List.Forall₂ (IsLogged ev) events logged := by
  induction h generalizing data with
  | nil => exact ⟨[],by simp,.nil⟩
  | @cons event entry _ entries hentry _ ih =>
    obtain ⟨logged,hlog,hall⟩ := ih (writeEntry nowV7 data entry)
    obtain ⟨hstream,-,htype,hraw⟩ := hentry
    refine ⟨⟨nowV7 data.globalLog.length,entry.streamId.value,entry.eventType,
      entry.eventData⟩ :: logged,?_,.cons ⟨congrArg StreamId.value hstream,htype,hraw⟩ hall⟩
    rw [List.foldl_cons,hlog]
    simp [writeEntry]

theorem runsAlone_append {nowV7 : ℕ → Uuid} {reads : List (StreamId × List E)}
    {expectedVersions : HashMap StreamId StreamVersion} {writes : StreamWrites Any Raw}
    (hend : command.search.Exhausts reads) (hreads : ReadsOf command store reads)
    (hversions : ∀ s v, expectedVersions.get? s = some v ↔
      ∃ events, (s,events) ∈ reads ∧ v = events.length)
    (hbatch : command.batch expectedVersions (command.search.after reads) = .ok writes)
    (happ : appendEvents nowV7 store writes = (.ok (),store')) :
    ∃ events, RunsAlone command store store' reads events := by
  obtain ⟨hlook,events,hhandle,hentries,hdeclared⟩ := CommandLogic.batch_eq_ok hbatch
  rcases appendEvents_cases nowV7 store writes with
    ⟨store₂,happ₂,hcurrent,hgrow⟩ | ⟨s,expected,-,-,happ₂⟩
  · obtain rfl : store₂ = store' := by simpa [happ] using happ₂.symm
    refine ⟨events,hend,?_,hhandle,?_,?_,?_⟩
    · rintro ⟨s,read⟩ hv
      have hversion : writes.expectedVersions.get? s = some read.length := by
        rw [hlook]
        exact (hversions s _).mpr ⟨read,hv,rfl⟩
      refine ((hreads _ hv).eq_of_length ?_).symm
      rw [readStream_length,hcurrent s _ hversion,List.length_map]
    · intro event hevent
      obtain ⟨v,hv⟩ := HashMap.exists_of_mem (hdeclared event hevent)
      obtain ⟨read,hmem,-⟩ := (hversions _ _).mp hv
      exact List.mem_map_of_mem (f := Prod.fst) hmem
    · intro s
      rw [← eventsOf_isEntry hentries]
      exact hgrow s
    · obtain ⟨logged,hlog,hall⟩ := globalLog_foldl_writeEntry nowV7 hentries store
      refine ⟨logged,?_,hall⟩
      rw [← hlog]
      unfold appendEvents at happ
      split at happ
      · cases happ
      · exact congrArg StoreData.globalLog (Prod.mk.inj happ).2.symm
  · simp [happ] at happ₂

/-- What a dispatched effect did to the store, and whether its run is now done with success. -/
def Committed (command : CommandLogic Any Raw Value E S) (store store' : StoreData Any Raw Value)
    (pending : PipelineStep Any Raw) : Option (StreamWrites Any Raw) → Prop
  | none => store' = store ∧ ∀ n, pending ≠ .done (.success n)
  | some _ => (∃ n, pending = .done (.success n)) ∧
    ∃ reads events, RunsAlone command store store' reads events

theorem attempting_dispatch {nowV7 : ℕ → Uuid} {applyJitter : ℕ → ℕ}
    {run run' : Run Any Raw Value E S} {committed : Option (StreamWrites Any Raw)}
    (hinv : Attempting command store run)
    (h : run.dispatch nowV7 applyJitter store = some (run',store',committed)) :
    Attempting command store' run' ∧ Grows store store' ∧
    (∀ outcome, run.pending ≠ .done outcome) ∧
    Committed command store store' run'.pending committed := by
  obtain ⟨hcommand,hinv⟩ := hinv
  unfold Run.dispatch at h
  cases hpending : run.pending with
  | yield effect =>
    rw [hpending] at hinv h
    cases effect with
    | readStream streamId =>
      obtain ⟨reads,r,queue,htracks,hqueue,hreads,hphase⟩ := hinv
      simp only [Option.some.injEq,Prod.mk.injEq] at h
      obtain ⟨rfl,rfl,rfl⟩ := h
      have hboth : Attempting command store
            ⟨(run.pipeline.pumpStreamReads applyJitter
                (.ok (readStream run.pipeline.command.event store streamId))).1,
              (run.pipeline.pumpStreamReads applyJitter
                (.ok (readStream run.pipeline.command.event store streamId))).2,
              run.visited ++ [streamId]⟩ ∧
          ∀ n, (run.pipeline.pumpStreamReads applyJitter
            (.ok (readStream run.pipeline.command.event store streamId))).2 ≠
              .done (.success n) := by
        rw [ExecutePipeline.pumpStreamReads_eq applyJitter hphase,hcommand]
        cases hread : readAll (.ok (readStream command.event store streamId)) with
        | error e => exact ⟨⟨hcommand,trivial⟩,by simp [ExecutePipeline.finish]⟩
        | ok events =>
          exact attempting_stepReading hcommand (htracks.streamEnded hqueue events hcommand)
            (hreads.concat (Except.ok.inj (readAll_eq_ok.mp hread))) (run.visited ++ [streamId])
      exact ⟨hboth.1,fun s => List.prefix_rfl,by simp,rfl,hboth.2⟩
    | appendEvents writes =>
      obtain ⟨⟨streamIds,hphase⟩,reads,versions,hend,hreads,hversions,hbatch⟩ := hinv
      rcases appendEvents_cases nowV7 store writes with
        ⟨store₂,happ,-,hgrow⟩ | ⟨s,expected,-,-,happ⟩
      · simp only [happ,ExecutePipeline.resume,hphase,ExecutePipeline.finish,Except.toOption,
          Option.map_some,Option.some.injEq,Prod.mk.injEq] at h
        obtain ⟨rfl,rfl,rfl⟩ := h
        exact ⟨⟨hcommand,trivial⟩,fun s => ⟨_,(hgrow s).symm⟩,by simp,⟨_,rfl⟩,reads,
          runsAlone_append hend hreads hversions hbatch happ⟩
      · simp only [happ,ExecutePipeline.resume,hphase,Except.toOption,Option.map_none,
          Option.some.injEq,Prod.mk.injEq] at h
        obtain ⟨rfl,rfl,rfl⟩ := h
        rcases run.pipeline.resumeConflict_cases applyJitter streamIds with
          ⟨p',delayMs,heq,hcommand',hphase'⟩ | heq
        · rw [heq]
          exact ⟨⟨hcommand'.trans hcommand,hphase'⟩,fun s => List.prefix_rfl,by simp,rfl,by simp⟩
        · rw [heq]
          exact ⟨⟨hcommand,trivial⟩,fun s => List.prefix_rfl,by simp,rfl,
            by simp [ExecutePipeline.finish]⟩
    | sleep durationMs =>
      simp only [ExecutePipeline.resume,show run.pipeline.phase = .awaitingRetrySleep from hinv,
        Option.some.injEq,Prod.mk.injEq] at h
      obtain ⟨rfl,rfl,rfl⟩ := h
      obtain ⟨hattempt,hlive⟩ := attempting_initReading store run.pipeline hcommand
      exact ⟨hattempt,fun s => List.prefix_rfl,by simp,rfl,hlive⟩
  | waitForResult => simp [hpending] at hinv
  | done outcome => simp [hpending] at h
  | panicked message => simp [hpending] at hinv

end Reading

section System

variable {ι : Type} [DecidableEq ι] {E S : ι → Type} {nowV7 : ℕ → Uuid}
  {commands : ∀ i, CommandLogic Any Raw Value (E i) (S i)} {policies : ι → RetryPolicy}
  {initial : StoreData Any Raw Value}

/-- The store is what the committed commands make of it in turn, and the runs that are done
with success are exactly the committed ones. -/
structure InTurn (commands : ∀ i, CommandLogic Any Raw Value (E i) (S i))
    (initial : StoreData Any Raw Value) (w : World ι Any Raw Value E S) : Prop where
  runs : ∀ i, Attempting (commands i) w.store (w.runs i)
  inTurn : RunsInTurn commands initial (w.commits.map Commit.run) w.store
  success : ∀ i, (∃ n, (w.runs i).pending = .done (.success n)) ↔ i ∈ w.commits.map Commit.run

theorem InTurn.step {w w' : World ι Any Raw Value E S} {l : Label ι}
    (hinv : InTurn commands initial w) (h : w.step nowV7 l = some w') :
    InTurn commands initial w' := by
  obtain ⟨i,applyJitter⟩ := l
  simp only [World.step,Option.map_eq_some_iff,Prod.exists] at h
  obtain ⟨run',store',committed,hdispatch,rfl⟩ := h
  obtain ⟨hrun,hgrow,hlive,hcommitted⟩ := attempting_dispatch (hinv.runs i) hdispatch
  have hruns : ∀ j, Attempting (commands j) store' (Function.update w.runs i run' j) := by
    intro j
    by_cases hj : j = i
    · subst hj
      simpa using hrun
    · simpa [hj] using (hinv.runs j).grow hgrow
  have hnew : i ∉ w.commits.map Commit.run := by
    rw [← hinv.success]
    rintro ⟨n,hn⟩
    exact hlive _ hn
  cases committed with
  | none =>
    obtain ⟨rfl,hnone⟩ := hcommitted
    refine ⟨hruns,by simpa using hinv.inTurn,?_⟩
    intro j
    by_cases hj : j = i
    · subst hj
      simpa [hnone] using hnew
    · simpa [hj] using hinv.success j
  | some writes =>
    obtain ⟨hdone,reads,events,halone⟩ := hcommitted
    refine ⟨hruns,by simpa using hinv.inTurn.concat halone,?_⟩
    intro j
    by_cases hj : j = i
    · subst hj
      simpa using hdone
    · simpa [hj] using hinv.success j

theorem inTurn_of_reachable {w : World ι Any Raw Value E S}
    (h : Runs.Reachable (system nowV7 commands policies initial) w) :
    InTurn commands initial w := by
  refine Runs.ReachableBy.invariant ?_ ?_ h
  · rintro w rfl
    refine ⟨fun i => (attempting_initReading initial _ rfl).1,.nil,?_⟩
    intro i
    simpa [World.start,Run.start,ExecutePipeline.step,ExecutePipeline.new] using
      (attempting_initReading initial (ExecutePipeline.new (commands i) (policies i)) rfl).2
  · exact fun w l w' hinv _ hstep => hinv.step hstep

/-- The rule for invariants of what is stored: what every command keeps when it runs alone holds
in every state that any interleaving reaches, of the runs that have committed and the store. -/
theorem invariant_of_runsAlone {P : List ι → StoreData Any Raw Value → Prop}
    (hinitial : P [] initial)
    (hkeeps : ∀ runs i before after reads events, P runs before →
      RunsAlone (commands i) before after reads events → P (runs ++ [i]) after)
    {w : World ι Any Raw Value E S}
    (h : Runs.Reachable (system nowV7 commands policies initial) w) :
    P (w.commits.map Commit.run) w.store := by
  have hturn := (inTurn_of_reachable h).inTurn
  generalize w.commits.map Commit.run = runs at hturn
  generalize w.store = store at hturn
  induction hturn with
  | nil => exact hinitial
  | concat _ halone ih => exact hkeeps _ _ _ _ _ _ ih halone

end System

end SequentialCommands
end EventCore
