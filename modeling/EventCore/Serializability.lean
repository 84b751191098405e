import EventCore.ExecutePipeline
import EventCore.MemoryStore
import EventCore.Runs

/-! Any number of `execute` runs over one in-memory store. A label dispatches the pending
effect of one run: a stream read, an append and a wake-up are each one atomic step. -/
namespace EventCore
namespace Serializability

open MemoryStore

variable {Any Raw Value : Type}

/-- One `execute` call: its pipeline, the step its shell loop holds, and the streams it
has read during the current attempt. -/
structure Run (Any Raw Value E S : Type) where
  pipeline : ExecutePipeline Any Raw Value E S
  pending : PipelineStep Any Raw
  visited : List StreamId

namespace Run

variable {E S : Type}

def start (command : CommandLogic Any Raw Value E S) (policy : RetryPolicy) :
    Run Any Raw Value E S :=
  let (pipeline,pending) := (ExecutePipeline.new command policy).step
  ⟨pipeline,pending,[]⟩

/-- Dispatch the pending effect; the last component is the batch that was committed. -/
def dispatch (nowV7 : ℕ → Uuid) (applyJitter : ℕ → ℕ) (run : Run Any Raw Value E S)
    (store : StoreData Any Raw Value) :
    Option (Run Any Raw Value E S × StoreData Any Raw Value × Option (StreamWrites Any Raw)) :=
  match run.pending with
  | .yield (.readStream streamId) =>
    let items := readStream run.pipeline.command.event store streamId
    let (pipeline,pending) := run.pipeline.pumpStreamReads applyJitter (.ok items)
    some (⟨pipeline,pending,run.visited ++ [streamId]⟩,store,none)
  | .yield (.appendEvents writes) =>
    let (result,store) := appendEvents nowV7 store writes
    let (pipeline,pending) := run.pipeline.resume applyJitter (.eventsAppended result)
    some (⟨pipeline,pending,run.visited⟩,store,result.toOption.map fun _ => writes)
  | .yield (.sleep _) =>
    let (pipeline,pending) := run.pipeline.resume applyJitter .slept
    some (⟨pipeline,pending,[]⟩,store,none)
  | _ => none

end Run

/-- A successful append: who made it, what that attempt had read, and the store at the
instants before and after it. -/
structure Commit (ι Any Raw Value : Type) where
  run : ι
  visited : List StreamId
  before : StoreData Any Raw Value
  after : StoreData Any Raw Value
  writes : StreamWrites Any Raw

structure World (ι Any Raw Value : Type) (E S : ι → Type) where
  store : StoreData Any Raw Value
  runs : ∀ i, Run Any Raw Value (E i) (S i)
  commits : List (Commit ι Any Raw Value)

/-- Which run moves next, and the jitter its retry delay would get. -/
structure Label (ι : Type) where
  run : ι
  applyJitter : ℕ → ℕ

section System

variable {ι : Type} [DecidableEq ι] {E S : ι → Type} (nowV7 : ℕ → Uuid)
  (commands : ∀ i, CommandLogic Any Raw Value (E i) (S i)) (policies : ι → RetryPolicy)
  (initial : StoreData Any Raw Value)

def World.start : World ι Any Raw Value E S :=
  ⟨initial,fun i => Run.start (commands i) (policies i),[]⟩

def World.step (w : World ι Any Raw Value E S) (l : Label ι) :
    Option (World ι Any Raw Value E S) :=
  ((w.runs l.run).dispatch nowV7 l.applyJitter w.store).map fun (run,store,committed) =>
    { store := store
      runs := Function.update w.runs l.run run
      commits := w.commits ++
        (committed.map fun writes => ⟨l.run,(w.runs l.run).visited,w.store,store,writes⟩).toList }

def system : Runs.System (World ι Any Raw Value E S) (Label ι) where
  init w := w = World.start commands policies initial
  step := World.step nowV7

end System

def Grows (store store' : StoreData Any Raw Value) : Prop :=
  ∀ s, store.streamEvents s <+: store'.streamEvents s

theorem Grows.take_readStream {E : Type} {ev : Event Any Raw E}
    {store store' : StoreData Any Raw Value} (h : Grows store store') {s : StreamId} {n : ℕ}
    (hn : n ≤ (readStream ev store s).length) :
    (readStream ev store' s).take n = (readStream ev store s).take n := by
  obtain ⟨tail,htail⟩ := h s
  have happ : readStream ev store' s = readStream ev store s ++ tail.map (downcast ev s) := by
    simp [readStream,← htail]
  rw [happ,List.take_append_of_le_length hn]

section ReadSet

variable {E S : Type}

/-- What an attempt knows of the streams it has read: its version of each is a prefix
length of the current contents, and its state folds exactly these prefixes. -/
structure ReadSet (command : CommandLogic Any Raw Value E S) (store : StoreData Any Raw Value)
    (streams : List StreamId) (versions : HashMap StreamId StreamVersion) (state : S) : Prop where
  registered : ∀ s ∈ streams, (versions.get? s).isSome
  bounded : ∀ s v, versions.get? s = some v → v ≤ (readStream command.event store s).length
  folded : command.foldStreams
    (fun s => (readStream command.event store s).take ((versions.get? s).getD 0))
    streams command.default = .ok state

variable {command : CommandLogic Any Raw Value E S} {store store' : StoreData Any Raw Value}
  {streams : List StreamId} {versions : HashMap StreamId StreamVersion} {state : S}

theorem ReadSet.empty (store : StoreData Any Raw Value) :
    ReadSet command store [] ∅ command.default :=
  ⟨by simp,by simp,by simp⟩

theorem ReadSet.grow (h : ReadSet command store streams versions state)
    (hgrow : Grows store store') : ReadSet command store' streams versions state where
  registered := h.registered
  bounded s v hv := by
    have hle := h.bounded s v hv
    have hlen := (hgrow s).length_le
    rw [readStream_length,StoreData.currentVersion_eq] at hle ⊢
    exact hle.trans hlen
  folded := by
    rw [← h.folded]
    refine command.foldStreams_congr ?_ _
    intro s hs
    obtain ⟨v,hv⟩ := Option.isSome_iff_exists.mp (h.registered s hs)
    simpa [hv] using hgrow.take_readStream (h.bounded s v hv)

theorem ReadSet.read (h : ReadSet command store streams versions state) {s : StreamId}
    (hs : s ∉ streams) {state' : S}
    (hfold : command.foldItems (readStream command.event store s) state = .ok state') :
    ReadSet command store (streams ++ [s])
      (versions.insert s (readStream command.event store s).length) state' where
  registered t ht := by
    rw [HashMap.get?_insert]
    split_ifs with hts
    · rfl
    · rcases List.mem_append.mp ht with ht | ht
      · exact h.registered t ht
      · exact absurd (List.mem_singleton.mp ht) hts
  bounded t v hv := by
    rw [HashMap.get?_insert] at hv
    split_ifs at hv with hts
    · subst hts
      exact (Option.some.inj hv).symm.le
    · exact h.bounded t v hv
  folded := by
    rw [command.foldStreams_concat]
    have hprev : command.foldStreams (fun t => (readStream command.event store t).take
        ((HashMap.get? (versions.insert s (readStream command.event store s).length) t).getD 0))
        streams command.default = .ok state := by
      rw [← h.folded]
      refine command.foldStreams_congr ?_ _
      intro t ht
      have hts : t ≠ s := fun he => hs (he ▸ ht)
      simp only [HashMap.get?_insert_ne versions _ hts]
    rw [hprev]
    simpa only [Except.bind,HashMap.get?_insert_self,Option.getD_some,List.take_length] using hfold

theorem ReadSet.folded_current (h : ReadSet command store streams versions state)
    (hcurrent : ∀ s v, versions.get? s = some v → store.currentVersion s = v) :
    command.foldStreams (readStream command.event store) streams command.default = .ok state := by
  rw [← h.folded]
  refine command.foldStreams_congr ?_ _
  intro s hs
  obtain ⟨v,hv⟩ := Option.isSome_iff_exists.mp (h.registered s hs)
  have hlen : (readStream command.event store s).length = v := by
    rw [readStream_length,hcurrent s v hv]
  rw [hv,Option.getD_some,List.take_of_length_le hlen.le]

theorem ReadSet.congr (h : ReadSet command store streams versions state)
    {versions' : HashMap StreamId StreamVersion}
    (heq : ∀ s, versions'.get? s = versions.get? s) :
    ReadSet command store streams versions' state where
  registered s hs := by rw [heq]; exact h.registered s hs
  bounded s v hv := h.bounded s v (heq s ▸ hv)
  folded := by simpa only [heq] using h.folded

end ReadSet

section RunInv

variable {E S : Type}

/-- The step a run holds fits its pipeline's phase, and its read set fits the store. -/
def RunInv (command : CommandLogic Any Raw Value E S) (store : StoreData Any Raw Value)
    (run : Run Any Raw Value E S) : Prop :=
  run.pipeline.command = command ∧
  match run.pending with
  | .yield (.readStream streamId) => ∃ r,
    run.pipeline.phase = .awaitingStreamRead streamId r 0 ∧ r.streamIds = run.visited ∧
    streamId ∉ r.streamIds ∧ (∀ s ∈ r.streamIds ++ [streamId], s ∈ r.visited) ∧
    ReadSet command store r.streamIds r.expectedVersions r.state
  | .yield (.appendEvents writes) =>
    run.pipeline.phase = .awaitingAppend run.visited ∧ ∃ state events,
    ReadSet command store run.visited writes.expectedVersions state ∧
    command.handle state = .ok events ∧
    List.Forall₂ (StreamWrites.IsEntry command.event) events writes.entries
  | .yield (.sleep _) => run.pipeline.phase = .awaitingRetrySleep
  | .done _ => True
  | .waitForResult | .panicked _ => False

variable {command : CommandLogic Any Raw Value E S} {store store' : StoreData Any Raw Value}

theorem RunInv.grow {run : Run Any Raw Value E S} (h : RunInv command store run)
    (hgrow : Grows store store') : RunInv command store' run := by
  obtain ⟨hcmd,h⟩ := h
  refine ⟨hcmd,?_⟩
  cases hpending : run.pending with
  | yield effect =>
    rw [hpending] at h
    cases effect with
    | readStream streamId =>
      obtain ⟨r,hphase,hvisited,hnew,hseen,hread⟩ := h
      exact ⟨r,hphase,hvisited,hnew,hseen,hread.grow hgrow⟩
    | appendEvents writes =>
      obtain ⟨hphase,state,events,hread,hhandle,hentries⟩ := h
      exact ⟨hphase,state,events,hread.grow hgrow,hhandle,hentries⟩
    | sleep _ => exact h
  | waitForResult => simp [hpending] at h
  | done _ => trivial
  | panicked _ => simp [hpending] at h

theorem runInv_stepReading {p : ExecutePipeline Any Raw Value E S} (hcmd : p.command = command)
    (r : Reading S) (hseen : ∀ s ∈ r.streamIds, s ∈ r.visited)
    (hread : ReadSet command store r.streamIds r.expectedVersions r.state) :
    RunInv command store ⟨(p.stepReading r).1,(p.stepReading r).2,r.streamIds⟩ := by
  rcases p.stepReading_cases r with ⟨s,queue,hs,heq⟩ | ⟨events,writes,hhandle,hbuild,heq⟩ | ⟨e,heq⟩
  · rw [heq]
    refine ⟨hcmd,_,rfl,rfl,fun hmem => hs (hseen s hmem),?_,hread⟩
    intro t ht
    rcases List.mem_append.mp ht with ht | ht
    · exact Finset.mem_insert_of_mem (hseen t ht)
    · exact List.mem_singleton.mp ht ▸ Finset.mem_insert_self _ _
  · rw [heq]
    obtain ⟨hver,hentries⟩ := buildStreamWritesFromEvents_eq_ok hbuild
    exact ⟨hcmd,rfl,r.state,events,hread.congr hver,hcmd ▸ hhandle,hcmd ▸ hentries⟩
  · rw [heq]
    exact ⟨hcmd,trivial⟩

theorem runInv_initReading (p : ExecutePipeline Any Raw Value E S) (hcmd : p.command = command) :
    RunInv command store ⟨(p.stepReading (ExecutePipeline.initReading p.command)).1,
      (p.stepReading (ExecutePipeline.initReading p.command)).2,[]⟩ := by
  have hread : ReadSet command store [] ∅ p.command.default := hcmd ▸ ReadSet.empty store
  exact runInv_stepReading hcmd (ExecutePipeline.initReading p.command)
    (by simp [ExecutePipeline.initReading]) hread

theorem runInv_start (policy : RetryPolicy) : RunInv command store (Run.start command policy) :=
  runInv_initReading (ExecutePipeline.new command policy) rfl

end RunInv

/-- At the instant of the commit: the batch is what `handle` returns on the fold of the
whole contents of every stream the attempt visited, and each stream grows by exactly
the emitted events that belong to it. -/
def Commit.Correct {ι E S : Type} (command : CommandLogic Any Raw Value E S)
    (c : Commit ι Any Raw Value) : Prop :=
  ∃ state events,
    command.foldStreams (readStream command.event c.before) c.visited command.default =
      .ok state ∧
    command.handle state = .ok events ∧
    List.Forall₂ (StreamWrites.IsEntry command.event) events c.writes.entries ∧
    ∀ s, c.after.streamEvents s = c.before.streamEvents s ++
      (events.filter fun event => command.event.streamId event = s).map command.event.box

/-- The store went from `first` to `last` through exactly these commits, in order. -/
def CommitChain {ι : Type} (first : StoreData Any Raw Value) :
    List (Commit ι Any Raw Value) → StoreData Any Raw Value → Prop
  | [], last => last = first
  | c :: commits, last => c.before = first ∧ CommitChain c.after commits last

theorem CommitChain.concat {ι : Type} {first last : StoreData Any Raw Value}
    {commits : List (Commit ι Any Raw Value)} (h : CommitChain first commits last)
    {c : Commit ι Any Raw Value} (hc : c.before = last) :
    CommitChain first (commits ++ [c]) c.after := by
  induction commits generalizing first with
  | nil => exact ⟨hc.trans h,rfl⟩
  | cons d commits ih => exact ⟨h.1,ih h.2⟩

theorem eventsOf_isEntry {E : Type} {ev : Event Any Raw E} {events : List E}
    {entries : List (StreamWriteEntry Any Raw)}
    (h : List.Forall₂ (StreamWrites.IsEntry ev) events entries) (s : StreamId) :
    eventsOf entries s = (events.filter fun event => ev.streamId event = s).map ev.box := by
  induction h with
  | nil => rfl
  | @cons event entry _ _ hentry _ ih =>
    simp only [eventsOf] at ih ⊢
    obtain ⟨hstream,hbox,_,_⟩ := hentry
    by_cases hs : ev.streamId event = s <;> simp [hstream,hs,hbox,ih]

section Dispatch

variable {E S : Type} {command : CommandLogic Any Raw Value E S}
  {store store' : StoreData Any Raw Value}

theorem dispatch_spec {nowV7 : ℕ → Uuid} {applyJitter : ℕ → ℕ} {run run' : Run Any Raw Value E S}
    {committed : Option (StreamWrites Any Raw)} (hinv : RunInv command store run)
    (h : run.dispatch nowV7 applyJitter store = some (run',store',committed)) :
    RunInv command store' run' ∧ Grows store store' ∧
    (∀ outcome, run.pending ≠ .done outcome) ∧
    match committed with
    | none => store' = store
    | some writes => (∃ n, run'.pending = .done (.success n)) ∧
      Commit.Correct command (⟨(),run.visited,store,store',writes⟩ : Commit Unit Any Raw Value) := by
  obtain ⟨hcmd,hinv⟩ := hinv
  unfold Run.dispatch at h
  cases hpending : run.pending with
  | yield effect =>
    rw [hpending] at hinv h
    cases effect with
    | readStream streamId =>
      obtain ⟨r,hphase,hvisited,hnew,hseen,hread⟩ := hinv
      simp only [ExecutePipeline.pumpStreamReads,Option.some.injEq,Prod.mk.injEq] at h
      obtain ⟨rfl,rfl,rfl⟩ := h
      refine ⟨?_,fun s => List.prefix_rfl,by simp,rfl⟩
      rw [ExecutePipeline.pumpItems_eq applyJitter hphase,hcmd]
      cases hfold : command.foldItems (readStream command.event store streamId) r.state with
      | error e => exact ⟨hcmd,trivial⟩
      | ok state =>
        simp only [Nat.zero_add]
        have hstep := runInv_stepReading hcmd
          (run.pipeline.streamEnded streamId { r with state := state }
            (readStream command.event store streamId).length)
          hseen (hread.read hnew hfold)
        rw [← hvisited]
        exact hstep
    | appendEvents writes =>
      obtain ⟨hphase,state,events,hread,hhandle,hentries⟩ := hinv
      rcases appendEvents_cases nowV7 store writes with
        ⟨store₂,happ,hcurrent,hgrow⟩ | ⟨s,expected,_,_,happ⟩
      · simp only [happ,ExecutePipeline.resume,hphase,ExecutePipeline.finish,Except.toOption,
          Option.map_some,Option.some.injEq,Prod.mk.injEq] at h
        obtain ⟨rfl,rfl,rfl⟩ := h
        refine ⟨⟨hcmd,trivial⟩,fun s => ⟨_,(hgrow s).symm⟩,by simp,⟨_,rfl⟩,
          state,events,hread.folded_current hcurrent,hhandle,hentries,?_⟩
        intro s
        rw [← eventsOf_isEntry hentries]
        exact hgrow s
      · simp only [happ,ExecutePipeline.resume,hphase,Except.toOption,Option.map_none,
          Option.some.injEq,Prod.mk.injEq] at h
        obtain ⟨rfl,rfl,rfl⟩ := h
        refine ⟨?_,fun s => List.prefix_rfl,by simp,rfl⟩
        rcases run.pipeline.resumeConflict_cases applyJitter run.visited with
          ⟨p',delayMs,heq,hcmd',hphase'⟩ | heq
        · rw [heq]
          exact ⟨hcmd'.trans hcmd,hphase'⟩
        · rw [heq]
          exact ⟨hcmd,trivial⟩
    | sleep durationMs =>
      simp only [ExecutePipeline.resume,show run.pipeline.phase = .awaitingRetrySleep from hinv,
        Option.some.injEq,Prod.mk.injEq] at h
      obtain ⟨rfl,rfl,rfl⟩ := h
      exact ⟨runInv_initReading _ hcmd,fun s => List.prefix_rfl,by simp,rfl⟩
  | waitForResult => simp [hpending] at hinv
  | done outcome => simp [hpending] at h
  | panicked message => simp [hpending] at hinv

end Dispatch

section Serializable

variable {ι : Type} [DecidableEq ι] {E S : ι → Type} {nowV7 : ℕ → Uuid}
  {commands : ∀ i, CommandLogic Any Raw Value (E i) (S i)} {policies : ι → RetryPolicy}
  {initial : StoreData Any Raw Value}

structure WorldInv (commands : ∀ i, CommandLogic Any Raw Value (E i) (S i))
    (initial : StoreData Any Raw Value) (w : World ι Any Raw Value E S) : Prop where
  runs : ∀ i, RunInv (commands i) w.store (w.runs i)
  correct : ∀ c ∈ w.commits, c.Correct (commands c.run)
  chain : CommitChain initial w.commits w.store
  done : ∀ c ∈ w.commits, ∃ n, (w.runs c.run).pending = .done (.success n)
  once : (w.commits.map Commit.run).Nodup

theorem WorldInv.step {w w' : World ι Any Raw Value E S} {l : Label ι}
    (hinv : WorldInv commands initial w) (h : w.step nowV7 l = some w') :
    WorldInv commands initial w' := by
  obtain ⟨i,applyJitter⟩ := l
  simp only [World.step,Option.map_eq_some_iff,Prod.exists] at h
  obtain ⟨run',store',committed,hdispatch,rfl⟩ := h
  obtain ⟨hrun,hgrow,hlive,hcommitted⟩ := dispatch_spec (hinv.runs i) hdispatch
  have hruns : ∀ j, RunInv (commands j) store' (Function.update w.runs i run' j) := by
    intro j
    by_cases hj : j = i
    · subst hj; simpa using hrun
    · simpa [hj] using (hinv.runs j).grow hgrow
  -- the run that moves was not done, so it has not committed before
  have hnone : ∀ c ∈ w.commits, c.run ≠ i := by
    rintro c hc rfl
    obtain ⟨n,hn⟩ := hinv.done c hc
    exact hlive _ hn
  have hdone : ∀ c ∈ w.commits,
      ∃ n, (Function.update w.runs i run' c.run).pending = .done (.success n) := by
    intro c hc
    simpa [hnone c hc] using hinv.done c hc
  cases committed with
  | none =>
    have hstore : store' = w.store := hcommitted
    refine ⟨hruns,?_,?_,?_,?_⟩
    · simpa using hinv.correct
    · simpa [hstore] using hinv.chain
    · simpa using hdone
    · simpa using hinv.once
  | some writes =>
    obtain ⟨⟨n,hn⟩,hcorrect⟩ := hcommitted
    refine ⟨hruns,?_,hinv.chain.concat rfl,?_,?_⟩
    · intro c hc
      rcases List.mem_append.mp hc with hc | hc
      · exact hinv.correct c hc
      · obtain rfl := List.mem_singleton.mp hc
        exact hcorrect
    · intro c hc
      rcases List.mem_append.mp hc with hc | hc
      · exact hdone c hc
      · obtain rfl := List.mem_singleton.mp hc
        exact ⟨n,by simpa using hn⟩
    · have hfresh : i ∉ w.commits.map Commit.run := by
        simpa using hnone
      simpa [List.nodup_append,hinv.once] using hnone

theorem worldInv_of_reachable {w : World ι Any Raw Value E S}
    (h : Runs.Reachable (system nowV7 commands policies initial) w) :
    WorldInv commands initial w := by
  refine Runs.ReachableBy.invariant ?_ ?_ h
  · rintro w rfl
    exact ⟨fun i => runInv_start (policies i),by simp [World.start],rfl,by simp [World.start],
      by simp [World.start]⟩
  · exact fun w l w' hinv _ hstep => hinv.step hstep

/-- Optimistic concurrency is serializable: under every interleaving each commit is
correct at its own instant, the store's history is exactly the chain of the commits,
no run commits twice, and a run that ended in an error has no commit. -/
theorem commits_serializable {w : World ι Any Raw Value E S}
    (h : Runs.Reachable (system nowV7 commands policies initial) w) :
    (∀ c ∈ w.commits, c.Correct (commands c.run)) ∧
    CommitChain initial w.commits w.store ∧
    (w.commits.map Commit.run).Nodup ∧
    ∀ i e, (w.runs i).pending = .done (.error e) → ∀ c ∈ w.commits, c.run ≠ i := by
  have hinv := worldInv_of_reachable h
  refine ⟨hinv.correct,hinv.chain,hinv.once,?_⟩
  rintro i e herr c hc rfl
  obtain ⟨n,hn⟩ := hinv.done c hc
  rw [herr] at hn
  cases hn

end Serializable

/-- Both runs read the empty account, so the second append conflicts and is retried. -/
def raceLabels : List (Label Bool) :=
  [⟨false,id⟩,⟨true,id⟩,⟨false,id⟩,⟨true,id⟩,⟨true,id⟩,⟨true,id⟩,⟨true,id⟩]

theorem commits_serializable_race :
    ∃ w, Runs.exec (system id (fun _ : Bool => Sample.topUp) (fun _ => {}) .new)
        (World.start (fun _ => Sample.topUp) (fun _ => {}) .new) raceLabels = some w ∧
      w.commits.map (fun c => c.writes.entries.map (·.event)) = [[1],[2]] ∧
      (∀ c ∈ w.commits, c.Correct Sample.topUp) ∧ CommitChain .new w.commits w.store := by
  obtain ⟨w,hw,hcommits⟩ : ∃ w, Runs.exec (system id (fun _ : Bool => Sample.topUp)
      (fun _ => {}) .new) (World.start (fun _ => Sample.topUp) (fun _ => {}) .new) raceLabels =
      some w ∧ w.commits.map (fun c => c.writes.entries.map (·.event)) = [[1],[2]] :=
    ⟨_,rfl,rfl⟩
  have hreach := Runs.Reachable.exec (Runs.ReachableBy.init rfl) hw
  obtain ⟨hcorrect,hchain,_⟩ := commits_serializable hreach
  exact ⟨w,hw,hcommits,hcorrect,hchain⟩

end Serializability
end EventCore
