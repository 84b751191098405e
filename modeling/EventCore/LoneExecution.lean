import EventCore.SequentialCommands

/-! One `execute` call with nobody else at its store. It always returns, whatever streams its
resolver asks for, and its first attempt is its last. -/
namespace EventCore
namespace LoneExecution

open MemoryStore Serializability SequentialCommands Exploration

variable {Any Raw Value E S : Type}

/-- The loop of `execute` up to its outcome, and the store that it leaves. -/
def execute (nowV7 : ℕ → Uuid) (applyJitter : ℕ → ℕ) : ℕ → Run Any Raw Value E S →
    StoreData Any Raw Value → Option (PipelineOutcome × StoreData Any Raw Value)
  | 0, _, _ => none
  | fuel+1, run, store =>
    match run.pending with
    | .done outcome => some (outcome,store)
    | _ => (run.dispatch nowV7 applyJitter store).bind fun next =>
      execute nowV7 applyJitter fuel next.1 next.2.1

def Whole (command : CommandLogic Any Raw Value E S) (store : StoreData Any Raw Value)
    (reads : List (StreamId × List E)) : Prop :=
  ∀ v ∈ reads, readStream command.event store v.1 = v.2.map .ok

/-- An event that no batch can hold after these reads, and the error of trying. -/
inductive Unwritable (ev : Event Any Raw E) (reads : List (StreamId × List E)) (event : E) :
    EventStoreError → Prop
  | undeclared : ev.streamId event ∉ reads.map Prod.fst →
      Unwritable ev reads event (.undeclaredStream (ev.streamId event))
  | unserialized {detail : String} : ev.toRawValue event = .error detail →
      Unwritable ev reads event (.serializationFailed (ev.streamId event) detail)

/-- What a call alone returns, and the store afterwards: its command ran alone, or it has read
a stream that does not decode, or it was rejected, or it emitted what cannot be written. -/
inductive Returns (command : CommandLogic Any Raw Value E S) (store : StoreData Any Raw Value) :
    PipelineOutcome → StoreData Any Raw Value → Prop
  | committed {reads events after} : RunsAlone command store after reads events →
      Returns command store (.success 1) after
  | unreadable {reads streamId e} : command.search.InOrder reads → Whole command store reads →
      (command.search.schedule reads)[reads.length]? = some streamId →
      collect (readStream command.event store streamId) = .error e →
      Returns command store (.error (.eventStoreError e)) store
  | rejected {reads e} : command.search.Exhausts reads → Whole command store reads →
      command.handle (command.search.after reads) = .error e →
      Returns command store (.error e) store
  | unwritable {reads events event e} : command.search.Exhausts reads →
      Whole command store reads → command.handle (command.search.after reads) = .ok events →
      event ∈ events → Unwritable command.event reads event e →
      Returns command store (.error (.eventStoreError e)) store

section Steps

variable {nowV7 : ℕ → Uuid} {applyJitter : ℕ → ℕ} {run run' : Run Any Raw Value E S}
  {store store' : StoreData Any Raw Value}

theorem execute_done {outcome : PipelineOutcome} (h : run.pending = .done outcome) :
    execute nowV7 applyJitter 1 run store = some (outcome,store) := by
  rw [execute,h]

theorem execute_dispatch {committed : Option (StreamWrites Any Raw)}
    (h : run.dispatch nowV7 applyJitter store = some (run',store',committed)) (fuel : ℕ) :
    execute nowV7 applyJitter (fuel+1) run store = execute nowV7 applyJitter fuel run' store' := by
  rw [execute,h]
  cases hpending : run.pending with
  | done outcome => simp [Run.dispatch,hpending] at h
  | yield effect => rfl
  | waitForResult => rfl
  | panicked message => rfl

/-- Reading a stream leads to the next effect, or to the error that the stream stopped at. -/
theorem dispatch_read (nowV7 : ℕ → Uuid) (applyJitter : ℕ → ℕ) (store : StoreData Any Raw Value)
    (visited : List StreamId) {p : ExecutePipeline Any Raw Value E S} {streamId : StreamId}
    {r : Reading S} (hphase : p.phase = .awaitingStreamRead streamId r 0) :
    Run.dispatch nowV7 applyJitter ⟨p,.yield (.readStream streamId),visited⟩ store =
      match readAll (.ok (readStream p.command.event store streamId)) with
      | .ok events => some
          (⟨(p.stepReading (p.streamEnded streamId
              { r with state := events.foldl p.command.apply r.state } events.length)).1,
            (p.stepReading (p.streamEnded streamId
              { r with state := events.foldl p.command.apply r.state } events.length)).2,
            visited ++ [streamId]⟩,store,none)
      | .error e => some (⟨{ p with phase := .done },.done (.error (.eventStoreError e)),
          visited ++ [streamId]⟩,store,none) := by
  simp only [Run.dispatch]
  rw [ExecutePipeline.pumpStreamReads_eq applyJitter hphase]
  cases readAll (.ok (readStream p.command.event store streamId)) with
  | error e => rfl
  | ok events => rfl

end Steps

section Batches

variable {ev : Event Any Raw E} {reads : List (StreamId × List E)}

theorem foldlM_append_eq_error {events : List E} {writes : StreamWrites Any Raw}
    (hregistered : ∀ s, s ∈ writes.expectedVersions ↔ s ∈ reads.map Prod.fst) {e : EventStoreError}
    (h : events.foldlM (StreamWrites.append ev) writes = .error e) :
    ∃ event ∈ events, Unwritable ev reads event e := by
  induction events generalizing writes with
  | nil => cases h
  | cons event events ih =>
    rw [List.foldlM_cons] at h
    cases happend : writes.append ev event with
    | ok next =>
      rw [happend] at h
      obtain ⟨-,hversions,-⟩ := StreamWrites.append_eq_ok happend
      obtain ⟨event,hevent,hbad⟩ := ih (hversions ▸ hregistered) h
      exact ⟨event,List.mem_cons_of_mem _ hevent,hbad⟩
    | error e' =>
      rw [happend] at h
      obtain rfl : e' = e := Except.error.inj h
      refine ⟨event,List.mem_cons_self,?_⟩
      unfold StreamWrites.append at happend
      split at happend
      · cases hraw : ev.toRawValue event with
        | error detail =>
          rw [hraw] at happend
          exact Except.error.inj happend ▸ .unserialized hraw
        | ok raw => simp [hraw] at happend
      · next hundeclared =>
        exact Except.error.inj happend ▸ .undeclared fun hmem =>
          hundeclared ((hregistered _).mpr hmem)

theorem batch_eq_error {command : CommandLogic Any Raw Value E S}
    {expectedVersions : HashMap StreamId StreamVersion}
    (hversions : ∀ s v, expectedVersions.get? s = some v ↔
      ∃ events, (s,events) ∈ reads ∧ v = events.length) {state : S} {e : CommandError}
    (h : command.batch expectedVersions state = .error e) :
    command.handle state = .error e ∨ ∃ events event failure, command.handle state = .ok events ∧
      event ∈ events ∧ Unwritable command.event reads event failure ∧
      e = .eventStoreError failure := by
  cases hhandle : command.handle state with
  | error e' =>
    left
    simpa [CommandLogic.batch,hhandle,Except.bind] using h
  | ok events =>
    right
    obtain ⟨registered,hreg,-,hlook⟩ := registerAll_spec Any Raw expectedVersions
    have hregistered : ∀ s, s ∈ registered.expectedVersions ↔ s ∈ reads.map Prod.fst := by
      intro s
      rw [← HashMap.get?_isSome_iff,hlook,Option.isSome_iff_exists]
      simp [hversions]
    simp only [CommandLogic.batch,hhandle,Except.bind,buildStreamWritesFromEvents,hreg] at h
    cases hfold : events.foldlM (StreamWrites.append command.event) registered with
    | ok writes => simp [hfold,Except.mapError] at h
    | error failure =>
      obtain ⟨event,hevent,hbad⟩ := foldlM_append_eq_error hregistered hfold
      simp only [hfold,Except.mapError,Except.error.injEq] at h
      exact ⟨events,event,failure,rfl,hevent,hbad,h.symm⟩

end Batches

section Discovery

variable (command : CommandLogic Any Raw Value E S) (store : StoreData Any Raw Value)

def contents (streamId : StreamId) : List E :=
  match collect (readStream command.event store streamId) with
  | .ok events => events
  | .error _ => []

theorem reached_finite : (command.search.reached (contents command store)).Finite := by
  have hblank : ∀ s ∉ (store.streams.entries.map Sigma.fst).toFinset, ∀ state,
      command.search.absorb state (contents command store s) = state := by
    intro s hs state
    have hnone : store.streams.get? s = none := by
      rw [HashMap.get?_eq_none_iff]
      simpa [AList.mem_keys,AList.keys,List.keys] using hs
    have hempty : contents command store s = [] := by
      simp [contents,readStream,StoreData.streamEvents,hnone,collect]
    rw [hempty]
    rfl
  exact Search.reached_finite hblank

variable {command store}

theorem Whole.eq_contents {reads : List (StreamId × List E)} (h : Whole command store reads) :
    ∀ v ∈ reads, v.2 = contents command store v.1 := by
  intro v hv
  simp [contents,h v hv]

theorem length_le_reached {reads : List (StreamId × List E)} (horder : command.search.InOrder reads)
    (hwhole : Whole command store reads) :
    reads.length ≤ (reached_finite command store).toFinset.card := by
  have hsub : (reads.map Prod.fst).toFinset ⊆ (reached_finite command store).toFinset := by
    intro s hs
    rw [Set.Finite.mem_toFinset]
    have hscheduled := horder.nodes.subset (List.mem_toFinset.mp hs)
    exact ⟨reads.length,horder.eq_walk hwhole.eq_contents ▸ hscheduled⟩
  have hcard := Finset.card_le_card hsub
  rwa [List.toFinset_card_of_nodup horder.nodup,List.length_map] at hcard

end Discovery

section Returning

variable {command : CommandLogic Any Raw Value E S} {store : StoreData Any Raw Value}

/-- An attempt that has read everything returns with its batch or without. -/
theorem returns_stepHandling (nowV7 : ℕ → Uuid) (applyJitter : ℕ → ℕ)
    {p : ExecutePipeline Any Raw Value E S} (hcommand : p.command = command)
    (hattempt : p.attempt = 0) {reads : List (StreamId × List E)}
    {expectedVersions : HashMap StreamId StreamVersion} (hend : command.search.Exhausts reads)
    (hwhole : Whole command store reads)
    (hversions : ∀ s v, expectedVersions.get? s = some v ↔
      ∃ events, (s,events) ∈ reads ∧ v = events.length)
    (streamIds visited : List StreamId) :
    ∃ fuel outcome store', execute nowV7 applyJitter fuel
        ⟨(p.stepHandling streamIds expectedVersions (command.search.after reads)).1,
          (p.stepHandling streamIds expectedVersions (command.search.after reads)).2,visited⟩
        store = some (outcome,store') ∧ Returns command store outcome store' := by
  subst hcommand
  rw [ExecutePipeline.stepHandling_eq]
  cases hbatch : p.command.batch expectedVersions (p.command.search.after reads) with
  | error e =>
    refine ⟨1,_,_,execute_done rfl,?_⟩
    rcases batch_eq_error hversions hbatch with
      hhandle | ⟨events,event,failure,hhandle,hevent,hbad,rfl⟩
    · exact .rejected hend hwhole hhandle
    · exact .unwritable hend hwhole hhandle hevent hbad
  | ok writes =>
    rcases appendEvents_cases nowV7 store writes with
      ⟨after,happ,-,-⟩ | ⟨s,expected,hexpected,hstale,-⟩
    · have hreads : ReadsOf p.command store reads := fun v hv => hwhole v hv ▸ List.prefix_rfl
      obtain ⟨events,halone⟩ := runsAlone_append hend hreads hversions hbatch happ
      have hstep : Run.dispatch nowV7 applyJitter
          ⟨{ p with phase := .awaitingAppend streamIds },.yield (.appendEvents writes),visited⟩
          store = some (⟨{ p with phase := .done },.done (.success 1),visited⟩,after,
            some writes) := by
        simp only [Run.dispatch,happ,ExecutePipeline.resume,ExecutePipeline.finish,hattempt]
        rfl
      refine ⟨2,.success 1,after,?_,.committed halone⟩
      rw [execute_dispatch hstep]
      exact execute_done rfl
    · obtain ⟨hlook,-⟩ := CommandLogic.batch_eq_ok hbatch
      rw [hlook] at hexpected
      obtain ⟨events,hmem,rfl⟩ := (hversions s expected).mp hexpected
      refine absurd ?_ hstale
      rw [← readStream_length p.command.event,hwhole _ hmem,List.length_map]

theorem returns_stepReading (nowV7 : ℕ → Uuid) (applyJitter : ℕ → ℕ)
    {p : ExecutePipeline Any Raw Value E S} (hcommand : p.command = command)
    (hattempt : p.attempt = 0) {reads : List (StreamId × List E)} {r : Reading S}
    (htracks : Tracks command reads r) (hwhole : Whole command store reads)
    (visited : List StreamId) :
    ∃ fuel outcome store', execute nowV7 applyJitter fuel
        ⟨(p.stepReading r).1,(p.stepReading r).2,visited⟩ store = some (outcome,store') ∧
      Returns command store outcome store' := by
  induction hleft : (reached_finite command store).toFinset.card-reads.length using
    Nat.strong_induction_on generalizing p reads r visited with
  | _ left ih =>
    subst hcommand
    rw [ExecutePipeline.stepReading_tracks htracks]
    cases hqueue : r.queue with
    | nil =>
      rw [htracks.state]
      exact returns_stepHandling nowV7 applyJitter rfl hattempt (htracks.exhausts hqueue) hwhole
        htracks.versions _ visited
    | cons streamId queue =>
      have hstep := dispatch_read nowV7 applyJitter store visited
        (p := { p with phase := .awaitingStreamRead streamId (r.popped streamId queue) 0 }) rfl
      cases hread : collect (readStream p.command.event store streamId) with
      | error e =>
        simp only [readAll,Except.bind,hread] at hstep
        refine ⟨2,_,store,?_,.unreadable htracks.inOrder hwhole (htracks.next hqueue) hread⟩
        rw [execute_dispatch hstep]
        exact execute_done rfl
      | ok events =>
        simp only [readAll,Except.bind,hread] at hstep
        have htracks' := htracks.streamEnded hqueue events rfl
        have hwhole' : Whole p.command store (reads ++ [(streamId,events)]) := by
          intro v hv
          rcases List.mem_append.mp hv with hv | hv
          · exact hwhole v hv
          · rw [List.mem_singleton.mp hv]
            exact collect_eq_ok.mp hread
        have hle := length_le_reached htracks'.inOrder hwhole'
        rw [List.length_append,List.length_singleton] at hle
        have hless : (reached_finite p.command store).toFinset.card-
            (reads ++ [(streamId,events)]).length < left := by
          rw [List.length_append,List.length_singleton]
          omega
        obtain ⟨fuel,outcome,store',hrest,hreturns⟩ :=
          ih _ hless (p := p) rfl hattempt htracks' hwhole' (visited ++ [streamId]) rfl
        refine ⟨fuel+1,outcome,store',?_,hreturns⟩
        rw [execute_dispatch hstep]
        exact hrest

end Returning

end LoneExecution
end EventCore
