import EventCore.ExecuteLoop

/-! Which streams an attempt reads, in which order, and what it makes of them: the walk of the
command's search through the contents of the store. -/
namespace EventCore
namespace ExecuteLoop

open Runs Exploration

variable {Any Raw Value E S : Type}

section Discovery

variable {command : CommandLogic Any Raw Value E S} {policy : RetryPolicy}
  {x : Execution Any Raw Value E S}

/-- The states in which an attempt begins: the first one, and every one after a retry delay. -/
inductive Begins (command : CommandLogic Any Raw Value E S) (policy : RetryPolicy) :
    Execution Any Raw Value E S → Prop
  | first : Begins command policy (.start command policy)
  | retry {x y : Execution Any Raw Value E S} : Reachable (system command policy) x →
      x.dispatch .slept = some y → Begins command policy y

/-- Every attempt begins as the first one does, whatever happened before. -/
theorem Begins.stepReading (h : Begins command policy x) :
    ∃ p : ExecutePipeline Any Raw Value E S, p.command = command ∧
      (x.pipeline,x.step) = p.stepReading (ExecutePipeline.initReading command) := by
  cases h with
  | first => exact ⟨ExecutePipeline.new command policy,rfl,rfl⟩
  | @retry w _ hw hslept =>
    obtain ⟨conflicts,current,hhist⟩ := exists_history hw
    cases hhist.doing with
    | sleeping hphase hstep =>
      refine ⟨w.pipeline,hhist.ofCommand,?_⟩
      simp only [Execution.dispatch,hstep,Option.some.injEq,ExecutePipeline.resume,
        hphase] at hslept
      rw [← hslept,hhist.ofCommand]
    | reading _ _ _ hstep => simp [Execution.dispatch,hstep] at hslept
    | appending _ _ hstep => simp [Execution.dispatch,hstep] at hslept
    | unreadable _ _ _ hstep => simp [dispatch_done hstep] at hslept
    | rejected _ _ _ hstep => simp [dispatch_done hstep] at hslept
    | succeeded _ hstep => simp [dispatch_done hstep] at hslept
    | outOfRetries _ _ hstep => simp [dispatch_done hstep] at hslept
    | failed _ _ hstep => simp [dispatch_done hstep] at hslept

theorem dispatch_opened {p : ExecutePipeline Any Raw Value E S} (hcommand : p.command = command)
    {reads : List (StreamId × List E)} {r : Reading S} (htracks : Tracks command reads r)
    {streamId : StreamId} {queue : List StreamId} (hqueue : r.queue = streamId :: queue)
    (hx : (x.pipeline,x.step) = p.stepReading r)
    (opened : Except EventStoreError (List (Except EventStoreError E))) :
    ∃ y, x.dispatch (.opened opened) = some y ∧ y.calls = x.calls ++ [.read streamId opened] ∧
      match readAll opened with
      | .error e =>
        y.step = .done (.error (.eventStoreError e)) ∧ y.pipeline.hookCalls = p.hookCalls
      | .ok events => (y.pipeline,y.step) = p.stepReading (p.streamEnded streamId
          { r.popped streamId queue with state := events.foldl command.apply r.state }
          events.length) := by
  subst hcommand
  rw [ExecutePipeline.stepReading_tracks htracks,hqueue,Prod.mk.injEq] at hx
  obtain ⟨hpipeline,hstep⟩ := hx
  simp only [Execution.dispatch,hstep,hpipeline]
  rw [ExecutePipeline.pumpStreamReads_eq id rfl]
  refine ⟨_,rfl,rfl,?_⟩
  cases readAll opened with
  | error e => exact ⟨rfl,rfl⟩
  | ok events => exact ExecutePipeline.stepReading_phase p _ _

variable (policy) in
theorem exec_walk {p : ExecutePipeline Any Raw Value E S} (hcommand : p.command = command)
    (hx : (x.pipeline,x.step) = p.stepReading (ExecutePipeline.initReading command))
    (contents : StreamId → List E) (n : ℕ) :
    ∃ y r, exec (system command policy) x
        ((command.search.walk contents n).map fun v => .opened (.ok (v.2.map .ok))) = some y ∧
      y.calls = x.calls ++ readCalls (command.search.walk contents n) ∧
      (y.pipeline,y.step) = p.stepReading r ∧ Tracks command (command.search.walk contents n) r := by
  induction n with
  | zero =>
    exact ⟨x,_,rfl,by simp [readCalls,Search.walk],hx,Tracks.initReading command⟩
  | succ n ih =>
    obtain ⟨y,r,hexec,hcalls,hy,htracks⟩ := ih
    unfold Search.walk
    split
    · next s hnext =>
      cases hqueue : r.queue with
      | nil =>
        rw [← htracks.queue,hqueue] at hnext
        simp at hnext
      | cons s' queue =>
        obtain rfl : s' = s := Option.some.inj ((htracks.next hqueue).symm.trans hnext)
        obtain ⟨z,hz,hzcalls,hend⟩ := dispatch_opened hcommand htracks hqueue hy
          (.ok ((contents s').map .ok))
        rw [readAll_eq_ok.mpr rfl] at hend
        refine ⟨z,_,?_,?_,hend,htracks.streamEnded hqueue _ hcommand⟩
        · rw [List.map_append,exec_append,hexec]
          simp [system,hz]
        · rw [hzcalls,hcalls]
          simp [readCalls]
    · exact ⟨y,r,hexec,hcalls,hy,htracks⟩

/-- The fold over all events of the streams, in the order given. -/
def foldInOrder (command : CommandLogic Any Raw Value E S) (contents : StreamId → List E)
    (order : List StreamId) : S :=
  order.foldl (fun state streamId => (contents streamId).foldl command.apply state) command.default

theorem after_map_contents (contents : StreamId → List E) (order : List StreamId) :
    command.search.after (order.map fun s => (s,contents s)) =
      foldInOrder command contents order := by
  simp only [Search.after,foldInOrder,List.foldl_map]
  rfl

/-- How an attempt goes on once the streams of `order` are read. -/
structure Decides (command : CommandLogic Any Raw Value E S) (contents : StreamId → List E)
    (order : List StreamId) (step : PipelineStep Any Raw) : Prop where
  rejected : ∀ e, command.handle (foldInOrder command contents order) = .error e →
    step = .done (.error e)
  unvisited : ∀ events, command.handle (foldInOrder command contents order) = .ok events →
    (∃ event ∈ events, command.event.streamId event ∉ order) → ∃ e, step = .done (.error e)
  appends : ∀ events, command.handle (foldInOrder command contents order) = .ok events →
    (∀ event ∈ events, command.event.streamId event ∈ order) →
    (∀ event ∈ events, ∃ raw, command.event.toRawValue event = .ok raw) →
    ∃ writes, step = .yield (.appendEvents writes)
  writes : ∀ writes, step = .yield (.appendEvents writes) →
    (∀ s v, writes.expectedVersions.get? s = some v ↔ s ∈ order ∧ v = (contents s).length) ∧
    ∃ events, command.handle (foldInOrder command contents order) = .ok events ∧
      List.Forall₂ (StreamWrites.IsEntry command.event) events writes.entries

theorem decides_of_tracks {p : ExecutePipeline Any Raw Value E S} (hcommand : p.command = command)
    {contents : StreamId → List E} {order : List StreamId} {r : Reading S}
    (htracks : Tracks command (order.map fun s => (s,contents s)) r) (hqueue : r.queue = [])
    (hx : (x.pipeline,x.step) = p.stepReading r) : Decides command contents order x.step := by
  subst hcommand
  have hstate : r.state = foldInOrder p.command contents order := by
    rw [htracks.state,after_map_contents]
  have hversions : ∀ s v, r.expectedVersions.get? s = some v ↔
      s ∈ order ∧ v = (contents s).length := by
    intro s v
    rw [htracks.versions]
    constructor
    · rintro ⟨events,hmem,rfl⟩
      obtain ⟨s',hs',heq⟩ := List.mem_map.mp hmem
      cases heq
      exact ⟨hs',rfl⟩
    · rintro ⟨hs,rfl⟩
      exact ⟨contents s,List.mem_map.mpr ⟨s,hs,rfl⟩,rfl⟩
  have hread : ∀ s, s ∈ r.expectedVersions ↔ s ∈ order := by
    intro s
    rw [← HashMap.get?_isSome_iff,Option.isSome_iff_exists]
    simp [hversions]
  rw [ExecutePipeline.stepReading_tracks htracks,hqueue] at hx
  simp only [ExecutePipeline.stepHandling_eq,hstate] at hx
  have hsnd := congrArg Prod.snd hx
  have hended : ∀ e, p.command.batch r.expectedVersions (foldInOrder p.command contents order) =
      .error e → x.step = .done (.error e) := by
    intro e hbatch
    simpa [hbatch,ExecutePipeline.finish] using hsnd
  have happends : ∀ writes, p.command.batch r.expectedVersions
      (foldInOrder p.command contents order) = .ok writes →
      x.step = .yield (.appendEvents writes) := by
    intro writes hbatch
    simpa [hbatch] using hsnd
  constructor
  · intro e he
    exact hended e (by simp [CommandLogic.batch,he,Except.bind])
  · rintro events hevents ⟨event,hevent,hunread⟩
    cases hbatch : p.command.batch r.expectedVersions
        (foldInOrder p.command contents order) with
    | error e => exact ⟨e,hended e hbatch⟩
    | ok writes =>
      obtain ⟨-,events',hevents',-,hall⟩ := CommandLogic.batch_eq_ok hbatch
      cases hevents.symm.trans hevents'
      exact absurd ((hread _).mp (hall event hevent)) hunread
  · intro events hevents hvisited hraw
    obtain ⟨writes,hbatch⟩ := CommandLogic.exists_batch hevents
      (fun event hevent => (hread _).mpr (hvisited event hevent)) hraw
    exact ⟨writes,happends writes hbatch⟩
  · intro writes hwrites
    cases hbatch : p.command.batch r.expectedVersions
        (foldInOrder p.command contents order) with
    | error e => simp [hended e hbatch] at hwrites
    | ok writes' =>
      simp only [happends writes' hbatch,PipelineStep.yield.injEq,
        StoreEffect.appendEvents.injEq] at hwrites
      subst hwrites
      obtain ⟨hlook,events,hevents,hentries,-⟩ := CommandLogic.batch_eq_ok hbatch
      exact ⟨fun s v => by rw [hlook,hversions],events,hevents,hentries⟩

/-- Every attempt of every run reads each stream that is declared or discovered exactly once,
in the order in which they were first asked for, decides on the fold over them in that order,
and ends the run when a stream does not read to its end. -/
theorem discovery_exact (hx : Begins command policy x) (contents : StreamId → List E)
    (hfin : (command.search.reached contents).Finite) :
    ∃ order : List StreamId, order.Nodup ∧ (∀ s, s ∈ order ↔ s ∈ command.search.reached contents) ∧
      order = (command.search.asked (order.map fun s => (s,contents s))).eraseDups ∧
      (∃ y, exec (system command policy) x
          (order.map fun s => .opened (.ok ((contents s).map .ok))) = some y ∧
        y.calls = x.calls ++ order.map (fun s => .read s (.ok ((contents s).map .ok))) ∧
        Decides command contents order y.step) ∧
      ∀ (done : List StreamId) (streamId : StreamId) (opened : Except EventStoreError
          (List (Except EventStoreError E))) (e : EventStoreError),
        done ++ [streamId] <+: order → readAll opened = .error e →
        ∃ y, exec (system command policy) x
            ((done.map fun s => .opened (.ok ((contents s).map .ok))) ++ [.opened opened]) = some y ∧
          y.calls = x.calls ++ done.map (fun s => .read s (.ok ((contents s).map .ok))) ++
            [.read streamId opened] ∧
          y.step = .done (.error (.eventStoreError e)) := by
  obtain ⟨p,hp,hstart⟩ := hx.stepReading
  obtain ⟨n,hend⟩ := command.search.exists_exhausts hfin
  obtain ⟨y,r,hexec,hcalls,hy,htracks⟩ := exec_walk policy hp hstart contents n
  have hcontents := command.search.walk_contents contents n
  have hmem := hend.mem_iff hcontents
  generalize hwalk : command.search.walk contents n = reads at *
  obtain ⟨order,rfl⟩ : ∃ order : List StreamId, reads = order.map fun s => (s,contents s) := by
    refine ⟨reads.map Prod.fst,?_⟩
    rw [List.map_map,List.map_congr_left (g := id),List.map_id]
    exact fun v hv => Prod.ext rfl (hcontents v hv).symm
  have hfst : (order.map fun s => (s,contents s)).map Prod.fst = order := by simp [Function.comp_def]
  rw [hfst] at hmem
  refine ⟨order,?_,hmem,?_,⟨y,?_,?_,?_⟩,?_⟩
  · exact hfst ▸ hend.inOrder.nodup
  · exact hfst.symm.trans hend.nodes
  · simpa [Function.comp_def] using hexec
  · simpa [readCalls,Function.comp_def] using hcalls
  · refine decides_of_tracks hp htracks ?_ hy
    have hqueue := htracks.queue
    rw [← hend.nodes] at hqueue
    exact List.append_right_eq_self.mp hqueue
  · rintro done streamId opened e ⟨rest,hrest⟩ hread
    rw [List.append_assoc,List.singleton_append] at hrest
    have hbefore : (command.search.walk contents n).map Prod.fst = done ++ streamId :: rest := by
      rw [hwalk,hfst,hrest]
    obtain ⟨hdone,hnext⟩ := Search.walk_before hbefore
    obtain ⟨z,r',hexec',hcalls',hz,htracks'⟩ :=
      exec_walk policy hp hstart contents done.length
    rw [hdone] at hexec' hcalls' htracks' hnext
    cases hqueue : r'.queue with
    | nil =>
      rw [← htracks'.queue,hqueue] at hnext
      simp at hnext
    | cons s queue =>
      have hs := htracks'.next hqueue
      rw [List.length_map] at hs
      obtain rfl : s = streamId := Option.some.inj (hs.symm.trans hnext)
      obtain ⟨w,hw,hwcalls,hend'⟩ := dispatch_opened hp htracks' hqueue hz opened
      rw [hread] at hend'
      refine ⟨w,?_,?_,hend'.1⟩
      · rw [exec_append]
        simp only [List.map_map,Function.comp_def] at hexec'
        rw [hexec']
        simp [system,hw]
      · rw [hwcalls,hcalls']
        simp [readCalls,Function.comp_def]

/-- A positive balance leads from the account to the savings. -/
theorem discovery_exact_sweep :
    ∃ order : List StreamId, order.Nodup ∧ Sample.savings ∈ order ∧
      ∃ y, exec (system Sample.sweep {}) (.start Sample.sweep {})
        (order.map fun _ => .opened (.ok [.ok 1])) = some y ∧
        Decides Sample.sweep (fun _ => [1]) order y.step := by
  have hfirst : Begins Sample.sweep {} (.start Sample.sweep {}) := .first
  obtain ⟨order,hnodup,hmem,-,⟨y,hexec,-,hdecides⟩,-⟩ :=
    discovery_exact hfirst (fun _ => [1]) (Sample.sweep_reached _)
  exact ⟨order,hnodup,(hmem _).mpr ⟨1,by decide⟩,y,hexec,hdecides⟩

end Discovery

end ExecuteLoop
end EventCore
