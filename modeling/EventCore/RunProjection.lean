import EventCore.EventReader
import EventCore.ProjectionProgress
import EventCore.ProjectorCoordinators

/-! `run_projection`: any number of calls at once on one backend, each leading its subscription
while it runs. Under every name they make progress as one run after another does. -/
namespace EventCore
namespace RunProjection

open Coordination ProjectionProgress

variable {C G Choice Raw P E X Err ι : Type}

/-- What a call is given: the projector with its fresh state, how its events are deserialized,
and the configuration. -/
structure Args (Raw P E X Err : Type) where
  projector : Projector P E X Err
  fromStr : Raw → Option E
  self : P
  pollMode : PollMode
  pollConfig : PollConfig := {}
  eventRetryConfig : EventRetryConfig := {}

structure Entry (Raw : Type) where
  position : Uuid
  eventType : String
  eventData : Raw

/-- `EventReader::read_events` as a runner uses it, for the events of one type. -/
def Args.readEvents (args : Args Raw P E X Err) (log : List (Entry Raw)) (filter : EventFilter)
    (page : EventPage) : List (E × Uuid) :=
  (((log.filter fun entry => IsAfter page.afterPosition entry.position).filter fun entry =>
    EventReader.matchesType args.projector.eventTypeName filter entry.eventType).take
      page.limit).filterMap fun entry => (args.fromStr entry.eventData).map (·,entry.position)

def Args.Decodes (args : Args Raw P E X Err) (log : List (Entry Raw)) : Prop :=
  ∀ entry ∈ log, entry.eventType = args.projector.eventTypeName →
    (args.fromStr entry.eventData).isSome

/-- The setup of the runner; it always has the backend as its checkpoint store. -/
def Args.setup (args : Args Raw P E X Err) : Setup P where
  self := args.self
  hasCheckpointStore := true
  pollMode := args.pollMode
  pollConfig := args.pollConfig
  eventRetryConfig := args.eventRetryConfig

/-- The runner at its first effect, from the checkpoint that is saved now. -/
def Args.begin (args : Args Raw P E X Err) (saved : Option Uuid) : Running P E X Err :=
  World.begin args.projector ⟨[],saved,none,[]⟩ args.setup

/-- How far a call is. One that was cut off has returned nothing. -/
inductive Call (G P E X Err : Type)
  | waiting
  | refused
  | leading (guard : G) (run : Running P E X Err)
  | ended (result : Option (Except ProjectionError Unit))

/-- `earlier` is what ended calls under a name have handled. -/
structure Backend (C G Raw P E X Err ι : Type) where
  coordinator : C
  checkpoints : String → Option Uuid
  log : List (Entry Raw)
  calls : ι → Call G P E X Err
  earlier : String → List (E × Uuid)

/-- A call and the outcome of its next effect, or the end of the call, or what happens around
the calls. A save that fails or is cut off may still have been persisted. -/
inductive Label (ι Raw Choice : Type)
  | start (call : ι) (choice : Choice)
  | load (call : ι) (error : Option String)
  | read (call : ι) (error : Option String)
  | save (call : ι) (error : Option String) (persisted : Bool)
  | wake (call : ι)
  | finish (call : ι) (choice : Choice)
  | abort (call : ι) (persisted : Bool) (choice : Choice)
  | arrive (entry : Entry Raw)
  | other (choice : Choice)

/-- What the checkpoint store holds after the pending effect was dispatched. -/
def checkpointsAfter (checkpoints : String → Option Uuid) (pending : ProjectionStep)
    (persisted : Bool) : String → Option Uuid :=
  match pending with
  | .yield (.saveCheckpoint name position) =>
    if persisted then Function.update checkpoints name (some position) else checkpoints
  | _ => checkpoints

section System

variable [DecidableEq ι] (coordinator : Coordinator C String G Choice)
  (args : ι → Args Raw P E X Err)

def name (i : ι) : String := (args i).projector.name

def Backend.close (b : Backend C G Raw P E X Err ι) (i : ι) (guard : G) (r : Running P E X Err)
    (persisted : Bool) (result : Option (Except ProjectionError Unit)) (choice : Choice) :
    Backend C G Raw P E X Err ι :=
  { b with
    coordinator := coordinator.drop b.coordinator guard choice
    checkpoints := checkpointsAfter b.checkpoints r.pending persisted
    calls := Function.update b.calls i (.ended result)
    earlier := Function.update b.earlier (name args i)
      (b.earlier (name args i) ++ r.pipeline.handled) }

def Backend.resume (b : Backend C G Raw P E X Err ι) (i : ι) (guard : G) (r : Running P E X Err)
    (result : ProjectionEffectResult E) : Backend C G Raw P E X Err ι :=
  { b with calls := Function.update b.calls i (.leading guard (r.resume result)) }

def Backend.step (b : Backend C G Raw P E X Err ι) :
    Label ι Raw Choice → Option (Backend C G Raw P E X Err ι)
  | .start i choice =>
    match b.calls i with
    | .waiting =>
      match coordinator.tryAcquire b.coordinator (name args i) choice with
      | (some guard,c) => some
          { b with
            coordinator := c
            calls := Function.update b.calls i
              (.leading guard ((args i).begin (b.checkpoints (name args i)))) }
      | (none,c) => some
          { b with
            coordinator := c
            calls := Function.update b.calls i .refused }
    | _ => none
  | .load i error =>
    match b.calls i with
    | .leading guard r =>
      match r.pending with
      | .yield (.loadCheckpoint name) =>
        some (b.resume i guard r (.checkpointLoaded (result error (b.checkpoints name))))
      | _ => none
    | _ => none
  | .read i error =>
    match b.calls i with
    | .leading guard r =>
      match r.pending with
      | .yield (.readEvents filter page) =>
        some (b.resume i guard r
          (.eventsRead (result error ((args i).readEvents b.log filter page))))
      | _ => none
    | _ => none
  | .save i error persisted =>
    match b.calls i with
    | .leading guard r =>
      match r.pending with
      | .yield (.saveCheckpoint ..) =>
        if error = none ∧ persisted = false then none
        else some (Backend.resume
          { b with checkpoints := checkpointsAfter b.checkpoints r.pending persisted }
          i guard r (.checkpointSaved (result error ())))
      | _ => none
    | _ => none
  | .wake i =>
    match b.calls i with
    | .leading guard r =>
      match r.pending with
      | .yield (.sleep _) => some (b.resume i guard r .slept)
      | _ => none
    | _ => none
  | .finish i choice =>
    match b.calls i with
    | .leading guard r =>
      match r.pending with
      | .done result => some (b.close coordinator args i guard r false (some result) choice)
      | _ => none
    | _ => none
  | .abort i persisted choice =>
    match b.calls i with
    | .leading guard r => some (b.close coordinator args i guard r persisted none choice)
    | _ => none
  | .arrive entry =>
    if ∀ e ∈ b.log, e.position < entry.position then some { b with log := b.log ++ [entry] }
    else none
  | .other choice => some { b with coordinator := coordinator.other b.coordinator choice }

def system (first : String → Option Uuid) (free : C) :
    Runs.System (Backend C G Raw P E X Err ι) (Label ι Raw Choice) where
  init b := b.coordinator = free ∧ b.checkpoints = first ∧
    (b.log.Pairwise fun e f => e.position < f.position) ∧ (∀ i, (args i).Decodes b.log) ∧
    (∀ i, b.calls i = .waiting) ∧ ∀ name, b.earlier name = []
  step := Backend.step coordinator args

/-- The environment of the coordinator keeps to what is allowed, and events are written as the
projectors read them. -/
def Allows (allowed : C → Choice → Prop) (b : Backend C G Raw P E X Err ι) :
    Label ι Raw Choice → Prop
  | .arrive entry => ∀ i, (args i).Decodes [entry]
  | .other choice => allowed b.coordinator choice
  | _ => True

def Call.guard : Call G P E X Err → Option G
  | .leading guard _ => some guard
  | _ => none

def Backend.leaders (b : Backend C G Raw P E X Err ι) : Leaders ι String G := fun i =>
  (b.calls i).guard.map (name args i,·)

end System

section Effects

/-- Effects name the projector's subscription, and ask for its events only. -/
def OnBehalf (projector : Projector P E X Err) : ProjectionStep → Prop
  | .yield (.loadCheckpoint name) => name = projector.name
  | .yield (.saveCheckpoint name _) => name = projector.name
  | .yield (.readEvents filter _) => filter = EventFilter.all.withEventType projector.eventTypeName
  | _ => True

structure Serves (projector : Projector P E X Err)
    (x : ProjectionPipeline P E X Err × ProjectionStep) : Prop where
  same : x.1.projector = projector
  onBehalf : OnBehalf projector x.2

variable {projector : Projector P E X Err} {p : ProjectionPipeline P E X Err}

theorem serves_stepPoll (h : p.projector = projector) (cursor : Option Uuid) (ctx : X) (n : ℕ) :
    Serves projector (p.stepPoll cursor ctx n) := by
  subst h
  exact ⟨rfl,rfl⟩

theorem serves_processes {events remaining : List (E × Uuid)} {i n : ℕ} {cursor : Option Uuid}
    {ctx : X} {x : ProjectionPipeline P E X Err × ProjectionStep}
    (hprocesses : ProjectionPipeline.Processes events remaining i n cursor ctx p x)
    (h : p.projector = projector) : Serves projector x := by
  induction hprocesses with
  | ended | pollSleep | fatal | exhausted | retrySleep => exact ⟨h,trivial⟩
  | save | skipSave => exact ⟨h,congrArg Projector.name h⟩
  | applied _ ih => exact ih h
  | skipped _ ih => exact ih h

theorem serves_processFrom (h : p.projector = projector) (events : List (E × Uuid)) (i n : ℕ)
    (cursor : Option Uuid) (ctx : X) : Serves projector (p.processFrom events i n cursor ctx) :=
  serves_processes (ProjectionPipeline.stepProcessing_processes ..) h

theorem serves_resume (h : p.projector = projector) (res : ProjectionEffectResult E) :
    Serves projector (p.resume res) := by
  unfold ProjectionPipeline.resume
  split
  · split
    · exact serves_stepPoll h ..
    · exact ⟨h,trivial⟩
    · exact ⟨h,trivial⟩
  · split
    · exact serves_processFrom h ..
    · unfold ProjectionPipeline.resumePollFailure
      split_ifs
      · exact ⟨h,trivial⟩
      · exact ⟨h,trivial⟩
    · exact ⟨h,trivial⟩
  · exact serves_processFrom h ..
  · exact serves_processFrom h ..
  · exact serves_processFrom h ..
  · exact serves_stepPoll h ..
  · exact serves_stepPoll h ..
  · exact ⟨h,trivial⟩

theorem serves_begin (args : Args Raw P E X Err) (saved : Option Uuid) :
    Serves args.projector ((args.begin saved).pipeline,(args.begin saved).pending) :=
  ⟨rfl,rfl⟩

variable (projector) in
theorem exists_step {v : ProjectionProgress.World P E X Err} {r : Running P E X Err}
    (hrun : v.run = some r) {res : ProjectionEffectResult E}
    (ha : Answers v.log v.saved r.pending res) {persisted : Bool}
    (hpersisted : res = .checkpointSaved (.ok ()) → persisted = true) :
    ∃ l, v.step projector l = some
      { v with saved := savedAfter v.saved r.pending persisted, run := some (r.resume res) } := by
  generalize hpending : r.pending = pending at ha
  cases ha with
  | load error =>
    refine ⟨.load error,?_⟩
    simp [ProjectionProgress.World.step,hrun,hpending,savedAfter]
  | read error =>
    refine ⟨.read error,?_⟩
    simp [ProjectionProgress.World.step,hrun,hpending,savedAfter]
  | save error =>
    refine ⟨.save error persisted,?_⟩
    have hok : ¬ (error = none ∧ persisted = false) := by
      rintro ⟨rfl,rfl⟩
      exact absurd (hpersisted rfl) (by decide)
    simp [ProjectionProgress.World.step,hrun,hpending,hok]
  | slept =>
    refine ⟨.wake,?_⟩
    simp [ProjectionProgress.World.step,hrun,hpending,savedAfter]

end Effects

section Selection

/-- The events of a projector's type, in the order of the log. -/
def Args.selected (args : Args Raw P E X Err) (log : List (Entry Raw)) : List (E × Uuid) :=
  log.filterMap fun entry =>
    if entry.eventType = args.projector.eventTypeName then
      (args.fromStr entry.eventData).map (·,entry.position)
    else none

variable {args : Args Raw P E X Err} {log : List (Entry Raw)}

theorem mem_selected {e : E × Uuid} (h : e ∈ args.selected log) :
    ∃ entry ∈ log, entry.position = e.2 := by
  simp only [Args.selected,List.mem_filterMap] at h
  obtain ⟨entry,hentry,hselect⟩ := h
  split_ifs at hselect
  obtain ⟨event,-,rfl⟩ := Option.map_eq_some_iff.mp hselect
  exact ⟨entry,hentry,rfl⟩

theorem ascending_selected (h : log.Pairwise fun e f => e.position < f.position) :
    Ascending (args.selected log) := by
  refine List.Pairwise.filterMap _ ?_ h
  intro e f hlt a ha b hb
  split_ifs at ha hb
  obtain ⟨_,-,rfl⟩ := Option.map_eq_some_iff.mp ha
  obtain ⟨_,-,rfl⟩ := Option.map_eq_some_iff.mp hb
  exact hlt

theorem take_filterMap {α β : Type} {f : α → Option β} {l : List α}
    (h : ∀ a ∈ l, (f a).isSome) (n : ℕ) : (l.take n).filterMap f = (l.filterMap f).take n := by
  induction l generalizing n with
  | nil => simp
  | cons a l ih =>
    obtain ⟨b,hb⟩ := Option.isSome_iff_exists.mp (h a (by simp))
    cases n with
    | zero => simp
    | succ n => simp [hb,ih (fun a ha => h a (by simp [ha])) n]

theorem readEvents_eq (hdecodes : args.Decodes log) {filter : EventFilter}
    (hfilter : filter = EventFilter.all.withEventType args.projector.eventTypeName)
    (page : EventPage) :
    args.readEvents log filter page = readPage (args.selected log) page := by
  subst hfilter
  have hmatches : ∀ entry : Entry Raw, EventReader.matchesType args.projector.eventTypeName
      (EventFilter.all.withEventType args.projector.eventTypeName) entry.eventType =
        decide (entry.eventType = args.projector.eventTypeName) := fun entry => rfl
  rw [Args.readEvents,take_filterMap,readPage,eventsAfter,Args.selected]
  · congr 1
    rw [List.filter_filter,List.filter_filterMap,List.filterMap_filter]
    refine List.filterMap_congr fun entry _ => ?_
    rw [hmatches]
    by_cases htype : entry.eventType = args.projector.eventTypeName
    · cases args.fromStr entry.eventData <;>
        by_cases hafter : IsAfter page.afterPosition entry.position <;>
          simp [htype,hafter,Option.filter]
    · simp [htype]
  · intro entry hentry
    simp only [List.mem_filter,hmatches,decide_eq_true_eq] at hentry
    rw [Option.isSome_map]
    exact hdecodes entry hentry.1.1 hentry.2

end Selection

section Progress

variable [DecidableEq ι] {coordinator : Coordinator C String G Choice}
  {args : ι → Args Raw P E X Err} {first : String → Option Uuid}
  {allowed : C → Choice → Prop} {Rep : C → Leaders ι String G → Prop}

def OneProjector (args : ι → Args Raw P E X Err) : Prop :=
  ∀ i j, name args i = name args j →
    (args i).projector = (args j).projector ∧ (args i).fromStr = (args j).fromStr

/-- What one call sees of the backend is the progress of its projector's runs. -/
structure Stands (args : ι → Args Raw P E X Err) (b : Backend C G Raw P E X Err ι) (k : ι)
    (v : ProjectionProgress.World P E X Err) : Prop where
  log : v.log = (args k).selected b.log
  saved : v.saved = b.checkpoints (name args k)
  earlier : v.earlier = b.earlier (name args k)
  run : ∀ r, v.run = some r ↔ ∃ i g, name args i = name args k ∧ b.calls i = .leading g r

structure Inv (args : ι → Args Raw P E X Err) (first : String → Option Uuid)
    (Rep : C → Leaders ι String G → Prop) (b : Backend C G Raw P E X Err ι) : Prop where
  rep : Rep b.coordinator (b.leaders args)
  serves : ∀ i g r, b.calls i = .leading g r → Serves (args i).projector (r.pipeline,r.pending)
  ascending : b.log.Pairwise fun e f => e.position < f.position
  decodes : ∀ i, (args i).Decodes b.log
  stands : ∀ k, ∃ v, Runs.Reachable
    (ProjectionProgress.system (args k).projector (first (name args k))) v ∧ Stands args b k v

/-- What a step does to the backend: a call begins to lead or is refused, goes on with an answer
to its effect, or is over; an event arrives; or the coordinator changes by itself. -/
inductive Moves (coordinator : Coordinator C String G Choice) (args : ι → Args Raw P E X Err)
    (allowed : C → Choice → Prop) (b : Backend C G Raw P E X Err ι) :
    Backend C G Raw P E X Err ι → Prop
  | leads {i g c choice} : b.calls i = .waiting →
      coordinator.tryAcquire b.coordinator (name args i) choice = (some g,c) →
      Moves coordinator args allowed b
        { b with
          coordinator := c
          calls := Function.update b.calls i
            (.leading g ((args i).begin (b.checkpoints (name args i)))) }
  | refused {i c choice} : b.calls i = .waiting →
      coordinator.tryAcquire b.coordinator (name args i) choice = (none,c) →
      Moves coordinator args allowed b
        { b with coordinator := c, calls := Function.update b.calls i .refused }
  | resumes {i g r res persisted} : b.calls i = .leading g r →
      Answers ((args i).selected b.log) (b.checkpoints (name args i)) r.pending res →
      (res = .checkpointSaved (.ok ()) → persisted = true) →
      Moves coordinator args allowed b (Backend.resume
        { b with checkpoints := checkpointsAfter b.checkpoints r.pending persisted } i g r res)
  | closes {i g r persisted result choice} : b.calls i = .leading g r →
      Moves coordinator args allowed b (b.close coordinator args i g r persisted result choice)
  | arrives {entry : Entry Raw} : (∀ e ∈ b.log, e.position < entry.position) →
      (∀ i, (args i).Decodes [entry]) →
      Moves coordinator args allowed b { b with log := b.log ++ [entry] }
  | other {choice} : allowed b.coordinator choice → Moves coordinator args allowed b
      { b with coordinator := coordinator.other b.coordinator choice }

theorem Moves.answered {b : Backend C G Raw P E X Err ι} {i : ι} {g : G} {r : Running P E X Err}
    {res : ProjectionEffectResult E} (hcall : b.calls i = .leading g r)
    (hanswer : Answers ((args i).selected b.log) (b.checkpoints (name args i)) r.pending res)
    (hsame : checkpointsAfter b.checkpoints r.pending true = b.checkpoints) :
    Moves coordinator args allowed b (b.resume i g r res) := by
  have h : Moves coordinator args allowed b (Backend.resume
      { b with checkpoints := checkpointsAfter b.checkpoints r.pending true } i g r res) :=
    .resumes hcall hanswer fun _ => rfl
  rwa [hsame] at h

theorem moves_of_step {b b' : Backend C G Raw P E X Err ι} {l : Label ι Raw Choice}
    (hserves : ∀ i g r, b.calls i = .leading g r →
      Serves (args i).projector (r.pipeline,r.pending))
    (hdecodes : ∀ i, (args i).Decodes b.log) (hl : Allows args allowed b l)
    (hstep : b.step coordinator args l = some b') : Moves coordinator args allowed b b' := by
  cases l with
  | start i choice =>
    simp only [Backend.step] at hstep
    split at hstep
    · next hwaiting =>
      split at hstep
      · next g c hacquire =>
        cases hstep
        exact .leads hwaiting hacquire
      · next c hacquire =>
        cases hstep
        exact .refused hwaiting hacquire
    · cases hstep
  | load i error =>
    simp only [Backend.step] at hstep
    split at hstep
    · next g r hcall =>
      have hbehalf := (hserves i g r hcall).onBehalf
      split at hstep
      · next loaded hpending =>
        cases hstep
        simp only [hpending] at hbehalf
        obtain rfl : loaded = name args i := hbehalf
        refine .answered hcall ?_ (by rw [hpending]; rfl)
        rw [hpending]
        exact .load error
      · cases hstep
    · cases hstep
  | read i error =>
    simp only [Backend.step] at hstep
    split at hstep
    · next g r hcall =>
      have hbehalf := (hserves i g r hcall).onBehalf
      split at hstep
      · next filter page hpending =>
        cases hstep
        simp only [hpending] at hbehalf
        refine .answered hcall ?_ (by rw [hpending]; rfl)
        rw [hpending,readEvents_eq (hdecodes i) hbehalf]
        exact .read error
      · cases hstep
    · cases hstep
  | save i error persisted =>
    simp only [Backend.step] at hstep
    split at hstep
    · next g r hcall =>
      split at hstep
      · next saved position hpending =>
        split_ifs at hstep with hok
        cases hstep
        refine .resumes hcall (by rw [hpending]; exact .save error) fun hres => ?_
        cases error with
        | none => simpa using hok
        | some e => cases hres
      · cases hstep
    · cases hstep
  | wake i =>
    simp only [Backend.step] at hstep
    split at hstep
    · next g r hcall =>
      split at hstep
      · next durationMs hpending =>
        cases hstep
        refine .answered hcall ?_ (by rw [hpending]; rfl)
        rw [hpending]
        exact .slept
      · cases hstep
    · cases hstep
  | finish i choice =>
    simp only [Backend.step] at hstep
    split at hstep
    · next g r hcall =>
      split at hstep
      · cases hstep
        exact .closes hcall
      · cases hstep
    · cases hstep
  | abort i persisted choice =>
    simp only [Backend.step] at hstep
    split at hstep
    · next g r hcall =>
      cases hstep
      exact .closes hcall
    · cases hstep
  | arrive entry =>
    simp only [Backend.step] at hstep
    split_ifs at hstep with hnew
    cases hstep
    exact .arrives hnew hl
  | other choice =>
    cases hstep
    exact .other hl

section Updates

variable {b : Backend C G Raw P E X Err ι} {i k : ι} {call : Call G P E X Err}

def Call.running : Call G P E X Err → Option (Running P E X Err)
  | .leading _ r => some r
  | _ => none

/-- Only call `i` runs under its name. -/
def Only (args : ι → Args Raw P E X Err) (b : Backend C G Raw P E X Err ι) (i : ι) : Prop :=
  ∀ j g r, name args j = name args i → j ≠ i → b.calls j ≠ .leading g r

theorem run_update (hi : name args i = name args k) (honly : Only args b i)
    (r : Running P E X Err) : call.running = some r ↔
      ∃ j g, name args j = name args k ∧ Function.update b.calls i call j = .leading g r := by
  constructor
  · intro hrunning
    cases call with
    | leading g r' =>
      obtain rfl := Option.some.inj hrunning
      exact ⟨i,g,hi,Function.update_self ..⟩
    | waiting | refused | ended => cases hrunning
  · rintro ⟨j,g,hj,hcall⟩
    by_cases hji : j = i
    · subst hji
      rw [Function.update_self] at hcall
      rw [hcall]
      rfl
    · rw [Function.update_of_ne hji] at hcall
      exact absurd hcall (honly j g r (hj.trans hi.symm) hji)

theorem run_update_other (hi : name args i ≠ name args k) (r : Running P E X Err) :
    (∃ j g, name args j = name args k ∧ Function.update b.calls i call j = .leading g r) ↔
      ∃ j g, name args j = name args k ∧ b.calls j = .leading g r := by
  have hcall : ∀ j, name args j = name args k → Function.update b.calls i call j = b.calls j := by
    intro j hj
    refine Function.update_of_ne ?_ ..
    rintro rfl
    exact hi hj
  refine exists_congr fun j => exists_congr fun g => and_congr_right fun hj => ?_
  rw [hcall j hj]

theorem leaders_update {b' : Backend C G Raw P E X Err ι}
    (h : b'.calls = Function.update b.calls i call) :
    b'.leaders args = Function.update (b.leaders args) i (call.guard.map (name args i,·)) := by
  funext j
  by_cases hji : j = i
  · subst hji
    simp [Backend.leaders,h]
  · simp [Backend.leaders,h,hji]

omit [DecidableEq ι] in
theorem leaders_eq {g : G} {r : Running P E X Err} (hcall : b.calls i = .leading g r) :
    b.leaders args i = some (name args i,g) := by
  simp [Backend.leaders,hcall,Call.guard]

theorem only_of_rep (hexclusive : Exclusive coordinator allowed Rep) {c : C}
    {leaders : Leaders ι String G} (hrep : Rep c leaders) {g : G}
    (hi : leaders i = some (name args i,g))
    (hothers : ∀ j, j ≠ i → leaders j = b.leaders args j) : Only args b i := by
  intro j g' r hname hji hj
  have hlead : leaders j = some (name args i,g') := by
    rw [hothers j hji,leaders_eq hj,hname]
  exact hji (hexclusive.alone hrep hlead hi)

end Updates

section Invariant

variable {b b' : Backend C G Raw P E X Err ι} {k : ι} {v v' : ProjectionProgress.World P E X Err}

theorem checkpointsAfter_cases {projector : Projector P E X Err} {pending : ProjectionStep}
    (hbehalf : OnBehalf projector pending) (checkpoints : String → Option Uuid)
    (persisted : Bool) : checkpointsAfter checkpoints pending persisted =
      Function.update checkpoints projector.name
        (savedAfter (checkpoints projector.name) pending persisted) := by
  cases pending with
  | yield effect =>
    cases effect with
    | saveCheckpoint saved position =>
      obtain rfl : saved = projector.name := hbehalf
      cases persisted with
      | false => exact (Function.update_eq_self ..).symm
      | true => rfl
    | readEvents | loadCheckpoint | sleep => exact (Function.update_eq_self ..).symm
  | done | panicked => exact (Function.update_eq_self ..).symm

/-- Where a call under another name has changed, everything stands as before. -/
theorem Stands.other (h : Stands args b k v) {i : ι} {call : Call G P E X Err} {c : C}
    {checkpoints : String → Option Uuid} {earlier : String → List (E × Uuid)}
    (hname : name args i ≠ name args k)
    (hcheckpoints : checkpoints (name args k) = b.checkpoints (name args k))
    (hearlier : earlier (name args k) = b.earlier (name args k)) :
    Stands args { b with
      coordinator := c
      checkpoints := checkpoints
      calls := Function.update b.calls i call
      earlier := earlier } k v where
  log := h.log
  saved := h.saved.trans hcheckpoints.symm
  earlier := h.earlier.trans hearlier.symm
  run r := (h.run r).trans (run_update_other hname r).symm

theorem Stands.own (h : Stands args b k v) {i : ι} {call : Call G P E X Err} {c : C}
    {checkpoints : String → Option Uuid} {earlier : String → List (E × Uuid)}
    (hname : name args i = name args k) (honly : Only args b i)
    (hsaved : v'.saved = checkpoints (name args k)) (hlog : v'.log = v.log)
    (hearlier : v'.earlier = earlier (name args k)) (hrun : v'.run = call.running) :
    Stands args { b with
      coordinator := c
      checkpoints := checkpoints
      calls := Function.update b.calls i call
      earlier := earlier } k v' where
  log := hlog.trans h.log
  saved := hsaved
  earlier := hearlier
  run r := by
    rw [hrun]
    exact run_update hname honly r

omit [DecidableEq ι] in
theorem Inv.arrives (h : Inv args first Rep b) {entry : Entry Raw}
    (hnew : ∀ e ∈ b.log, e.position < entry.position) (hdecodes : ∀ i, (args i).Decodes [entry]) :
    Inv args first Rep { b with log := b.log ++ [entry] } := by
  refine ⟨h.rep,h.serves,?_,fun i => ?_,fun k => ?_⟩
  · refine List.pairwise_append.mpr ⟨h.ascending,List.pairwise_singleton _ _,fun e he f hf => ?_⟩
    obtain rfl := List.mem_singleton.mp hf
    exact hnew e he
  · intro e he
    rcases List.mem_append.mp he with he | he
    · exact h.decodes i e he
    · exact hdecodes i e he
  · obtain ⟨v,hreach,hv⟩ := h.stands k
    have hlog : (args k).selected (b.log ++ [entry]) = v.log ++ (args k).selected [entry] := by
      rw [hv.log]
      exact List.filterMap_append
    by_cases htype : entry.eventType = (args k).projector.eventTypeName
    · obtain ⟨event,hevent⟩ := Option.isSome_iff_exists.mp
        (hdecodes k entry (List.mem_singleton_self _) htype)
      have hone : (args k).selected [entry] = [(event,entry.position)] := by
        simp [Args.selected,htype,hevent]
      refine ⟨_,hreach.step trivial (l := .arrive event entry.position)
        (t := { v with log := v.log ++ [(event,entry.position)] }) ?_,
        ⟨(hlog.trans (by rw [hone])).symm,hv.saved,hv.earlier,hv.run⟩⟩
      have hlater : ∀ e ∈ v.log, e.2 < entry.position := by
        intro e he
        rw [hv.log] at he
        obtain ⟨f,hf,hposition⟩ := mem_selected he
        exact hposition ▸ hnew f hf
      exact if_pos hlater
    · have hnone : (args k).selected [entry] = [] := by simp [Args.selected,htype]
      exact ⟨v,hreach,⟨(hlog.trans (by rw [hnone,List.append_nil])).symm,hv.saved,hv.earlier,hv.run⟩⟩

variable (hexclusive : Exclusive coordinator allowed Rep) (hone : OneProjector args)
include hexclusive

include hone in
theorem Inv.leads (h : Inv args first Rep b) {i : ι} {g : G} {c : C} {choice : Choice}
    (hwaiting : b.calls i = .waiting)
    (hacquire : coordinator.tryAcquire b.coordinator (name args i) choice = (some g,c)) :
    Inv args first Rep { b with
      coordinator := c
      calls := Function.update b.calls i
        (.leading g ((args i).begin (b.checkpoints (name args i)))) } := by
  have hidle : b.leaders args i = none := by simp [Backend.leaders,hwaiting,Call.guard]
  have hrep := hexclusive.acquired h.rep hidle hacquire
  have honly : Only args b i :=
    only_of_rep hexclusive hrep (Function.update_self ..) fun j hj => Function.update_of_ne hj ..
  refine ⟨?_,fun j g' r hj => ?_,h.ascending,h.decodes,fun k => ?_⟩
  · rw [leaders_update (b := b) rfl]
    exact hrep
  · by_cases hji : j = i
    · subst hji
      simp only [Function.update_self,Call.leading.injEq] at hj
      exact hj.2 ▸ serves_begin _ _
    · simp only [Function.update_of_ne hji] at hj
      exact h.serves j g' r hj
  · obtain ⟨v,hreach,hv⟩ := h.stands k
    by_cases hname : name args i = name args k
    · have hidle : v.run = none := by
        refine Option.eq_none_iff_forall_ne_some.mpr fun r hr => ?_
        obtain ⟨j,g',hj,hcall⟩ := (hv.run r).mp hr
        have hji : j ≠ i := fun hji => by simp [hji,hwaiting] at hcall
        exact honly j g' r (hj.trans hname.symm) hji hcall
      refine ⟨_,hreach.step trivial (l := .restart (args i).setup)
        (t := { v with run := some (v.begin (args k).projector (args i).setup) }) ?_,?_⟩
      · simp [ProjectionProgress.system,ProjectionProgress.World.step,hidle]
      · refine hv.own hname honly hv.saved rfl hv.earlier ?_
        rw [hname,← hv.saved,← (hone i k hname).1]
        rfl
    · exact ⟨v,hreach,hv.other hname rfl rfl⟩

theorem Inv.refused (h : Inv args first Rep b) {i : ι} {c : C} {choice : Choice}
    (hwaiting : b.calls i = .waiting)
    (hrefused : coordinator.tryAcquire b.coordinator (name args i) choice = (none,c)) :
    Inv args first Rep { b with
      coordinator := c, calls := Function.update b.calls i .refused } := by
  have hidle : b.leaders args i = none := by simp [Backend.leaders,hwaiting,Call.guard]
  have hcalls : ∀ j g r, Function.update b.calls i .refused j = .leading g r ↔
      b.calls j = .leading g r := by
    intro j g r
    by_cases hji : j = i
    · subst hji
      simp [hwaiting]
    · rw [Function.update_of_ne hji]
  refine ⟨?_,fun j g r hj => h.serves j g r ((hcalls j g r).mp hj),h.ascending,h.decodes,
    fun k => ?_⟩
  · rw [leaders_update (b := b) rfl,show (Call.refused : Call G P E X Err).guard.map (name args i,·) =
      b.leaders args i from hidle.symm,Function.update_eq_self]
    exact hexclusive.refused h.rep hrefused
  · obtain ⟨v,hreach,hv⟩ := h.stands k
    refine ⟨v,hreach,hv.log,hv.saved,hv.earlier,fun r => (hv.run r).trans ?_⟩
    simp only [hcalls]

include hone in
theorem Inv.resumes (h : Inv args first Rep b) {i : ι} {g : G} {r : Running P E X Err}
    {res : ProjectionEffectResult E} {persisted : Bool} (hcall : b.calls i = .leading g r)
    (hanswer : Answers ((args i).selected b.log) (b.checkpoints (name args i)) r.pending res)
    (hpersisted : res = .checkpointSaved (.ok ()) → persisted = true) :
    Inv args first Rep (Backend.resume
      { b with checkpoints := checkpointsAfter b.checkpoints r.pending persisted } i g r res) := by
  have honly : Only args b i := only_of_rep hexclusive h.rep (leaders_eq hcall) fun j _ => rfl
  have hserves := h.serves i g r hcall
  have hcheckpoints := checkpointsAfter_cases hserves.onBehalf b.checkpoints persisted
  refine ⟨?_,fun j g' r' hj => ?_,h.ascending,h.decodes,fun k => ?_⟩
  · rw [leaders_update (b := b) rfl]
    have hsame : ((Call.leading g (r.resume res)).guard.map (name args i,·)) =
        b.leaders args i := (leaders_eq hcall).symm
    rw [hsame,Function.update_eq_self]
    exact h.rep
  · by_cases hji : j = i
    · subst hji
      simp only [Backend.resume,Function.update_self,Call.leading.injEq] at hj
      rw [← hj.2]
      exact serves_resume hserves.same res
    · simp only [Backend.resume,Function.update_of_ne hji] at hj
      exact h.serves j g' r' hj
  · obtain ⟨v,hreach,hv⟩ := h.stands k
    by_cases hname : name args i = name args k
    · have hrun : v.run = some r := (hv.run r).mpr ⟨i,g,hname,hcall⟩
      have hsees : (args i).selected b.log = v.log := by
        rw [hv.log,Args.selected,Args.selected,(hone i k hname).1,(hone i k hname).2]
      rw [hsees,hname,← hv.saved] at hanswer
      obtain ⟨l,hl⟩ := exists_step (args k).projector hrun hanswer hpersisted
      refine ⟨_,hreach.step trivial hl,?_⟩
      refine hv.own hname honly ?_ rfl hv.earlier rfl
      rw [hcheckpoints,hv.saved,← hname]
      exact (Function.update_self (args i).projector.name _ b.checkpoints).symm
    · refine ⟨v,hreach,hv.other hname ?_ rfl⟩
      rw [hcheckpoints]
      exact Function.update_of_ne (Ne.symm hname) ..

theorem Inv.closes (h : Inv args first Rep b) {i : ι} {g : G} {r : Running P E X Err}
    (hcall : b.calls i = .leading g r) (persisted : Bool)
    (result : Option (Except ProjectionError Unit)) (choice : Choice) :
    Inv args first Rep (b.close coordinator args i g r persisted result choice) := by
  have honly : Only args b i := only_of_rep hexclusive h.rep (leaders_eq hcall) fun j _ => rfl
  have hcheckpoints := checkpointsAfter_cases (h.serves i g r hcall).onBehalf b.checkpoints persisted
  refine ⟨?_,fun j g' r' hj => ?_,h.ascending,h.decodes,fun k => ?_⟩
  · rw [leaders_update (b := b) rfl]
    exact hexclusive.dropped h.rep (leaders_eq hcall)
  · by_cases hji : j = i
    · subst hji
      simp [Backend.close] at hj
    · simp only [Backend.close,Function.update_of_ne hji] at hj
      exact h.serves j g' r' hj
  · obtain ⟨v,hreach,hv⟩ := h.stands k
    by_cases hname : name args i = name args k
    · have hrun : v.run = some r := (hv.run r).mpr ⟨i,g,hname,hcall⟩
      refine ⟨_,hreach.step trivial (l := .crash persisted) (t :=
        { v with
          run := none
          saved := savedAfter v.saved r.pending persisted
          earlier := v.earlier ++ r.pipeline.handled }) ?_,?_⟩
      · simp [ProjectionProgress.system,ProjectionProgress.World.step,hrun]
      · refine hv.own hname honly ?_ rfl ?_ rfl
        · rw [hcheckpoints,hv.saved,← hname]
          exact (Function.update_self (args i).projector.name _ b.checkpoints).symm
        · rw [hv.earlier,← hname,Function.update_self]
    · refine ⟨v,hreach,hv.other hname ?_ (Function.update_of_ne (Ne.symm hname) ..)⟩
      rw [hcheckpoints]
      exact Function.update_of_ne (Ne.symm hname) ..

include hone in
theorem Inv.moves (h : Inv args first Rep b) (hmoves : Moves coordinator args allowed b b') :
    Inv args first Rep b' := by
  cases hmoves with
  | leads hwaiting hacquire => exact h.leads hexclusive hone hwaiting hacquire
  | refused hwaiting hrefused => exact h.refused hexclusive hwaiting hrefused
  | resumes hcall hanswer hpersisted => exact h.resumes hexclusive hone hcall hanswer hpersisted
  | closes hcall => exact h.closes hexclusive hcall _ _ _
  | arrives hnew hdecodes => exact h.arrives hnew hdecodes
  | other hallowed =>
    refine ⟨hexclusive.other h.rep hallowed,h.serves,h.ascending,h.decodes,fun k => ?_⟩
    obtain ⟨v,hreach,hv⟩ := h.stands k
    exact ⟨v,hreach,⟨hv.log,hv.saved,hv.earlier,hv.run⟩⟩

include hone in
theorem inv_of_reachable {free : C} (hfree : Rep free fun _ => none)
    (h : Runs.ReachableBy (system coordinator args first free) (Allows args allowed) b) :
    Inv args first Rep b := by
  refine Runs.ReachableBy.invariant ?_ (fun b l b' hinv hl hstep => ?_) h
  · rintro b ⟨rfl,rfl,hlog,hdecodes,hwaiting,hearlier⟩
    refine ⟨?_,fun i g r hi => by simp [hwaiting] at hi,hlog,hdecodes,fun k => ?_⟩
    · have hnone : b.leaders args = fun _ => none := by
        funext i
        simp [Backend.leaders,hwaiting,Call.guard]
      rwa [hnone]
    · refine ⟨⟨(args k).selected b.log,b.checkpoints (name args k),none,[]⟩,
        .init ⟨ascending_selected hlog,rfl,rfl,rfl⟩,⟨rfl,rfl,(hearlier _).symm,fun r => ?_⟩⟩
      simp [hwaiting]
  · exact hinv.moves hexclusive hone (moves_of_step hinv.serves hinv.decodes hl hstep)

/-- What has been handled under a name: by calls that are over, or by the one that leads. -/
def Backend.Handled (args : ι → Args Raw P E X Err) (b : Backend C G Raw P E X Err ι)
    (i : ι) (e : E × Uuid) : Prop :=
  e ∈ b.earlier (name args i) ∨
    ∃ j g r, name args j = name args i ∧ b.calls j = .leading g r ∧ e ∈ r.pipeline.handled

omit hexclusive [DecidableEq ι] in
theorem Stands.handled (h : Stands args b k v) {e : E × Uuid} (he : e ∈ v.everHandled) :
    b.Handled args k e := by
  simp only [ProjectionProgress.World.everHandled,List.mem_append] at he
  rcases he with he | he
  · exact .inl (h.earlier ▸ he)
  · cases hrun : v.run with
    | none => simp [hrun] at he
    | some r =>
      obtain ⟨j,g,hj,hcall⟩ := (h.run r).mp hrun
      exact .inr ⟨j,g,r,hj,hcall,by simpa [hrun] using he⟩

include hone in
/-- Calls of `run_projection` on one backend with an exclusive coordinator, in any number and any
interleaving, with refusals, failures, crashes and restarts: never do two calls run under one
name; a call handles an initial segment of the events after its start and polls from the last
one handled; and nothing at or before its start, or at or before the saved checkpoint, was
left out, from where the first call under the name began. -/
theorem calls_progress {free : C} (hfree : Rep free fun _ => none)
    (h : Runs.ReachableBy (system coordinator args first free) (Allows args allowed) b) :
    (∀ i j g g' r r', b.calls i = .leading g r → b.calls j = .leading g' r' →
      name args i = name args j → i = j) ∧
    (∀ i g r, b.calls i = .leading g r →
      r.pipeline.handled <+: eventsAfter ((args i).selected b.log) r.start ∧
      (∀ filter page, r.pending = .yield (.readEvents filter page) →
        page.afterPosition = r.pipeline.lastHandled r.start) ∧
      ∀ e ∈ (args i).selected b.log, IsAfter (first (name args i)) e.2 → ¬ IsAfter r.start e.2 →
        b.Handled args i e) ∧
    ∀ i p, b.checkpoints (name args i) = some p → ∀ e ∈ (args i).selected b.log,
      IsAfter (first (name args i)) e.2 → e.2 ≤ p → b.Handled args i e := by
  have hinv := inv_of_reachable hexclusive hone hfree h
  refine ⟨fun i j g g' r r' hi hj hname => ?_,fun i g r hi => ?_,fun i p hp e he hf hle => ?_⟩
  · exact hexclusive.alone hinv.rep (leaders_eq hi) (hname ▸ leaders_eq hj)
  · obtain ⟨v,hreach,hv⟩ := hinv.stands i
    have hworld := worldInv_of_reachable hreach
    have hrun : v.run = some r := (hv.run r).mpr ⟨i,g,rfl,hi⟩
    have hr := hworld.run r hrun
    refine ⟨hv.log ▸ hr.handled_prefix,fun filter page hpending => ?_,fun e he hf hs => ?_⟩
    · have hfits := hr.fits
      have hcursor := hr.cursor
      rw [hpending] at hfits
      generalize r.pipeline.phase = phase at hfits hcursor
      cases hfits with
      | read => exact hcursor _ rfl
    · exact hv.handled ((hworld.start r hrun).covered e (hv.log ▸ he) hf hs)
  · obtain ⟨v,hreach,hv⟩ := hinv.stands i
    refine hv.handled ((worldInv_of_reachable hreach).saved.covered e (hv.log ▸ he) hf ?_)
    simpa [hv.saved,hp] using hle

end Invariant

end Progress

def totals (_ : Fin 3) : Args ℕ ℕ ℕ Unit String where
  projector := total
  fromStr := some
  self := 0
  pollMode := .batch
  pollConfig := (totalSetup .batch true).pollConfig

/-- While the first call leads, the second is refused. The first crashes in a save that is
persisted all the same, and the third goes on from there. -/
def takeover (first second third : Fin 3) : List (Label (Fin 3) ℕ Unit) :=
  [.start first (),.start second (),.load first none,.read first none,.save first none true,
    .abort first true (),.start third (),.load third none,.arrive ⟨30,"Deposited",7⟩,
    .read third none,.save third none true,.finish third ()]

def twoDeposits : Backend (List String) String ℕ ℕ ℕ Unit String (Fin 3) where
  coordinator := []
  checkpoints _ := none
  log := [⟨10,"Deposited",5⟩,⟨20,"Deposited",6⟩]
  calls _ := .waiting
  earlier _ := []

theorem calls_progress_takeover :
    ∃ b, Runs.exec (system ProjectorCoordinators.fileCoordinator totals (fun _ => none) [])
        twoDeposits (takeover 0 1 2) = some b ∧
      b.checkpoints "total" = some 30 ∧ (b.earlier "total").map Prod.snd = [10,20,30] ∧
      ∀ e ∈ (totals 0).selected b.log, e.2 ≤ 30 → b.Handled totals 0 e := by
  obtain ⟨b,hb,hsaved,hearlier⟩ : ∃ b, Runs.exec
      (system ProjectorCoordinators.fileCoordinator totals (fun _ => none) [])
        twoDeposits (takeover 0 1 2) = some b ∧
      b.checkpoints "total" = some 30 ∧ (b.earlier "total").map Prod.snd = [10,20,30] :=
    ⟨_,rfl,rfl,rfl⟩
  have hdecodes : ∀ (i : Fin 3) log, (totals i).Decodes log := fun _ _ _ _ _ => rfl
  have hstart : Runs.ReachableBy
      (system ProjectorCoordinators.fileCoordinator totals (fun _ => none) [])
      (Allows totals fun _ _ => True) twoDeposits :=
    .init ⟨rfl,rfl,by simp [twoDeposits],fun i => hdecodes i _,fun _ => rfl,fun _ => rfl⟩
  have hreach := Runs.ReachableBy.exec hstart
    (.of_forall (fun s l => by cases l <;> simp [Allows,hdecodes]) _ _) hb
  have hprogress := calls_progress (table_exclusive ProjectorCoordinators.lockPath)
    (fun i j _ => ⟨rfl,rfl⟩) (tableRep_nil _) hreach
  exact ⟨b,hb,hsaved,hearlier,fun e he hle => hprogress.2.2 0 30 hsaved e he trivial hle⟩

end RunProjection
end EventCore
