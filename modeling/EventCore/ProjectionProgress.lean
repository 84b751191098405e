import EventCore.ProjectionPipeline
import EventCore.Runs

/-! Runs of one projector over a growing log, with crashes at any effect and restarts from
the last saved checkpoint. -/
namespace EventCore
namespace ProjectionProgress

variable {P E X Err : Type}

/-- A runner: its pipeline, the step it holds, and the position the run started from. -/
structure Running (P E X Err : Type) where
  pipeline : ProjectionPipeline P E X Err
  pending : ProjectionStep
  start : Option Uuid

/-- What a run is started with; the projector's own state is fresh. -/
structure Setup (P : Type) where
  self : P
  hasCheckpointStore : Bool
  pollMode : PollMode
  pollConfig : PollConfig
  eventRetryConfig : EventRetryConfig

/-- `log` holds the events of the projector's type; `earlier` what ended runs handled. -/
structure World (P E X Err : Type) where
  log : List (E × Uuid)
  saved : Option Uuid
  run : Option (Running P E X Err)
  earlier : List (E × Uuid)

/-- Results of the effects (`none` is success), a crash, a restart, or a new event. A save
that fails or is cut off by a crash may still have been persisted. -/
inductive Label (P E : Type)
  | restart (setup : Setup P)
  | crash (persisted : Bool)
  | load (error : Option String)
  | read (error : Option String)
  | save (error : Option String) (persisted : Bool)
  | wake
  | arrive (event : E) (position : Uuid)

def eventsAfter (log : List (E × Uuid)) (cursor : Option Uuid) : List (E × Uuid) :=
  log.filter fun e => IsAfter cursor e.2

/-- A successful page read: the first matching events after the page's cursor. -/
def readPage (log : List (E × Uuid)) (page : EventPage) : List (E × Uuid) :=
  (eventsAfter log page.afterPosition).take page.limit

def Running.resume (r : Running P E X Err) (result : ProjectionEffectResult E) :
    Running P E X Err :=
  let (pipeline,pending) := r.pipeline.resume result
  { r with pipeline := pipeline, pending := pending }

def World.begin (projector : Projector P E X Err) (w : World P E X Err) (setup : Setup P) :
    Running P E X Err :=
  let (pipeline,pending) := (ProjectionPipeline.new projector setup.self
    setup.hasCheckpointStore setup.pollMode setup.pollConfig setup.eventRetryConfig).step
  ⟨pipeline,pending,if setup.hasCheckpointStore then w.saved else none⟩

/-- What the checkpoint store holds after a save was dispatched. -/
def savedAfter (saved : Option Uuid) (pending : ProjectionStep) (persisted : Bool) : Option Uuid :=
  match pending with
  | .yield (.saveCheckpoint _ position) => if persisted then some position else saved
  | _ => saved

def result {α : Type} (error : Option String) (a : α) : Except String α :=
  match error with
  | none => .ok a
  | some e => .error e

def World.step (projector : Projector P E X Err) (w : World P E X Err) :
    Label P E → Option (World P E X Err)
  | .restart setup =>
    match w.run with
    | some _ => none
    | none => some { w with run := some (w.begin projector setup) }
  | .crash persisted => w.run.map fun r =>
    { w with
      run := none
      saved := savedAfter w.saved r.pending persisted
      earlier := w.earlier ++ r.pipeline.handled }
  | .load error => w.run.bind fun r =>
    match r.pending with
    | .yield (.loadCheckpoint _) =>
      some { w with run := some (r.resume (.checkpointLoaded (result error w.saved))) }
    | _ => none
  | .read error => w.run.bind fun r =>
    match r.pending with
    | .yield (.readEvents _ page) =>
      some { w with run := some (r.resume (.eventsRead (result error (readPage w.log page)))) }
    | _ => none
  | .save error persisted => w.run.bind fun r =>
    match r.pending with
    | .yield (.saveCheckpoint ..) =>
      if error = none ∧ persisted = false then none
      else some
        { w with
          saved := savedAfter w.saved r.pending persisted
          run := some (r.resume (.checkpointSaved (result error ()))) }
    | _ => none
  | .wake => w.run.bind fun r =>
    match r.pending with
    | .yield (.sleep _) => some { w with run := some (r.resume .slept) }
    | _ => none
  | .arrive event position =>
    if ∀ e ∈ w.log, e.2 < position then some { w with log := w.log ++ [(event,position)] }
    else none

def Ascending (log : List (E × Uuid)) : Prop := log.Pairwise fun a b => a.2 < b.2

/-- Nothing runs yet, and the first run will start from `first`. -/
def system (projector : Projector P E X Err) (first : Option Uuid) :
    Runs.System (World P E X Err) (Label P E) where
  init w := Ascending w.log ∧ w.saved = first ∧ w.run = none ∧ w.earlier = []
  step := World.step projector

/-- Everything handled so far, by earlier runs or the current one. -/
def World.everHandled (w : World P E X Err) : List (E × Uuid) :=
  w.earlier ++ (w.run.map fun r => r.pipeline.handled).getD []

theorem readPage_prefix (log : List (E × Uuid)) (page : EventPage) :
    readPage log page <+: eventsAfter log page.afterPosition :=
  List.take_prefix _ _

theorem ascending_eventsAfter {log : List (E × Uuid)} (h : Ascending log)
    (cursor : Option Uuid) : Ascending (eventsAfter log cursor) :=
  h.sublist List.filter_sublist

theorem mem_eventsAfter {log : List (E × Uuid)} {cursor : Option Uuid} {e : E × Uuid} :
    e ∈ eventsAfter log cursor ↔ e ∈ log ∧ IsAfter cursor e.2 := by
  simp [eventsAfter]

theorem Ascending.split {l r : List (E × Uuid)} {e : E × Uuid} (h : Ascending (l ++ e :: r)) :
    eventsAfter (l ++ e :: r) (some e.2) = r ∧ ∀ x ∈ l ++ e :: r, x.2 ≤ e.2 → x ∈ l ++ [e] := by
  obtain ⟨_,hr,hl⟩ := List.pairwise_append.mp h
  have hlt : ∀ x ∈ l, x.2 < e.2 := fun x hx => hl x hx e List.mem_cons_self
  have hgt : ∀ x ∈ r, e.2 < x.2 := (List.pairwise_cons.mp hr).1
  constructor
  · have hnil : l.filter (fun x => decide (IsAfter (some e.2) x.2)) = [] := by
      rw [List.filter_eq_nil_iff]
      intro x hx
      simpa using (hlt x hx).le
    have hall : r.filter (fun x => decide (IsAfter (some e.2) x.2)) = r := by
      rw [List.filter_eq_self]
      intro x hx
      simpa using hgt x hx
    rw [eventsAfter,List.filter_append,hnil,List.filter_cons,hall]
    simp
  · intro x hx hle
    rcases List.mem_append.mp hx with hx | hx
    · exact List.mem_append_left _ hx
    · rcases List.mem_cons.mp hx with rfl | hx
      · exact List.mem_append_right _ List.mem_cons_self
      · exact absurd (hgt x hx) (not_lt.mpr hle)

/-- After a prefix of what follows `start`, the last event of the prefix is the cursor that
leads to the rest. -/
theorem append_eventsAfter_last {log handled : List (E × Uuid)} (hlog : Ascending log)
    {start : Option Uuid} (h : handled <+: eventsAfter log start) :
    handled ++ eventsAfter log ((handled.getLast?.map Prod.snd).or start) =
      eventsAfter log start := by
  obtain ⟨tail,htail⟩ := h
  rcases List.eq_nil_or_concat handled with rfl | ⟨l,e,rfl⟩
  · simp
  · simp only [List.concat_eq_append,List.append_assoc,List.singleton_append] at htail ⊢
    have hstart : IsAfter start e.2 := by
      have he : e ∈ eventsAfter log start := by simp [← htail]
      exact (mem_eventsAfter.mp he).2
    have hafter : eventsAfter log (some e.2) = eventsAfter (eventsAfter log start) (some e.2) := by
      rw [eventsAfter,eventsAfter,eventsAfter,List.filter_filter]
      congr 1
      funext x
      by_cases hx : e.2 < x.2
      · simp [hx,hstart.mono hx]
      · simp [hx]
    have hsplit := (htail ▸ ascending_eventsAfter hlog start : Ascending (l ++ e :: tail)).split.1
    simp [hafter,← htail,hsplit]

structure RunInv (log : List (E × Uuid)) (saved : Option Uuid) (r : Running P E X Err) : Prop where
  fits : Fits r.pending r.pipeline.phase
  inOrder : r.pipeline.handled ++ r.pipeline.phase.rest <+: eventsAfter log r.start
  cursor : ∀ c, r.pipeline.phase.cursor = some c → c = r.pipeline.lastHandled r.start
  loading : r.pipeline.phase = .awaitingCheckpoint → r.pipeline.handled = [] ∧ r.start = saved

/-- A cursor that the log accounts for: no new event can land at or below it, and all
events between the first run's start and it have been handled. -/
structure Good (first : Option Uuid) (log handled : List (E × Uuid)) (c : Option Uuid) : Prop where
  known : c = none ∨ c = first ∨ ∃ e ∈ log, c = some e.2
  covered : ∀ e ∈ log, IsAfter first e.2 → ¬ IsAfter c e.2 → e ∈ handled

theorem Good.none {first : Option Uuid} {log handled : List (E × Uuid)} :
    Good first log handled none :=
  ⟨.inl rfl,fun _ _ _ h => absurd trivial h⟩

theorem Good.mono {first c : Option Uuid} {log handled handled' : List (E × Uuid)}
    (h : Good first log handled c) (hsub : handled ⊆ handled') : Good first log handled' c :=
  ⟨h.known,fun e he hf hc => hsub (h.covered e he hf hc)⟩

theorem Good.arrive {first c : Option Uuid} {log handled : List (E × Uuid)} {e : E × Uuid}
    (h : Good first log handled c) (hnew : ∀ x ∈ log, x.2 < e.2) :
    Good first (log ++ [e]) handled c where
  known := h.known.imp_right (Or.imp_right fun ⟨x,hx,hc⟩ => ⟨x,List.mem_append_left _ hx,hc⟩)
  covered x hx hf hc := by
    rcases List.mem_append.mp hx with hx | hx
    · exact h.covered x hx hf hc
    · obtain rfl := List.mem_singleton.mp hx
      rcases h.known with rfl | rfl | ⟨y,hy,rfl⟩
      · exact absurd trivial hc
      · exact absurd hf hc
      · exact absurd (hnew y hy) hc

theorem Good.last {first start : Option Uuid} {log all handled : List (E × Uuid)}
    (hlog : Ascending log) (h : Good first log all start)
    (hpre : handled <+: eventsAfter log start) (hsub : handled ⊆ all) :
    Good first log all ((handled.getLast?.map Prod.snd).or start) := by
  rcases List.eq_nil_or_concat handled with rfl | ⟨l,e,rfl⟩
  · simpa using h
  · obtain ⟨tail,htail⟩ := hpre
    simp only [List.concat_eq_append,List.append_assoc,List.singleton_append] at htail hsub
    have hsplit := (htail ▸ ascending_eventsAfter hlog start : Ascending (l ++ e :: tail)).split.2
    have he : e ∈ eventsAfter log start := by simp [← htail]
    simp only [List.concat_eq_append,List.getLast?_append,List.getLast?_singleton,Option.some_or,
      Option.map_some]
    refine ⟨.inr (.inr ⟨e,(mem_eventsAfter.mp he).1,rfl⟩),?_⟩
    intro x hx hf hc
    by_cases hs : IsAfter start x.2
    · exact hsub (hsplit x (htail ▸ mem_eventsAfter.mpr ⟨hx,hs⟩) (not_lt.mp hc))
    · exact h.covered x hx hf hs

section Resume

variable {log : List (E × Uuid)} {saved start : Option Uuid} {p : ProjectionPipeline P E X Err}

theorem runInv_stepPoll {c : Option Uuid} (ctx : X) (n : ℕ)
    (hpre : p.handled <+: eventsAfter log start) (hc : c = p.lastHandled start) :
    RunInv log saved ⟨(p.stepPoll c ctx n).1,(p.stepPoll c ctx n).2,start⟩ where
  fits := by cases c <;> exact .read
  inOrder := by
    rw [show (p.stepPoll c ctx n).1.phase.rest = [] from rfl,List.append_nil]
    exact hpre
  cursor c' hc' := by
    cases hc'
    exact hc
  loading h := by simp [ProjectionPipeline.stepPoll] at h

theorem runInv_settled {remaining : List (E × Uuid)}
    {r : ProjectionPipeline P E X Err × ProjectionStep}
    (h : ProjectionPipeline.Settled start p remaining r)
    (hpre : p.handled ++ remaining <+: eventsAfter log start) :
    RunInv log saved ⟨r.1,r.2,start⟩ where
  fits := h.fits
  inOrder := h.inOrder.trans hpre
  cursor := h.cursor
  loading hphase := by
    have hleaves := h.leaves
    rw [hphase] at hleaves
    exact hleaves.elim

theorem runInv_finish {result : Except ProjectionError Unit}
    (hpre : p.handled <+: eventsAfter log start) :
    RunInv log saved ⟨(p.finish result).1,(p.finish result).2,start⟩ where
  fits := .done
  inOrder := by
    rw [show (p.finish result).1.phase.rest = [] from rfl,List.append_nil]
    exact hpre
  cursor := by simp [ProjectionPipeline.finish,ProjectionPhase.cursor]
  loading h := by simp [ProjectionPipeline.finish] at h

inductive Answers (log : List (E × Uuid)) (saved : Option Uuid) :
    ProjectionStep → ProjectionEffectResult E → Prop
  | load {name : String} (error : Option String) :
      Answers log saved (.yield (.loadCheckpoint name)) (.checkpointLoaded (result error saved))
  | read {filter : EventFilter} {page : EventPage} (error : Option String) :
      Answers log saved (.yield (.readEvents filter page))
        (.eventsRead (result error (readPage log page)))
  | save {name : String} {position : Uuid} (error : Option String) :
      Answers log saved (.yield (.saveCheckpoint name position))
        (.checkpointSaved (result error ()))
  | slept {durationMs : ℕ} : Answers log saved (.yield (.sleep durationMs)) .slept

theorem RunInv.handled_prefix {r : Running P E X Err} (h : RunInv log saved r) :
    r.pipeline.handled <+: eventsAfter log r.start :=
  (List.prefix_append _ _).trans h.inOrder

theorem handled_append_readPage {c : Option Uuid} (hlog : Ascending log)
    (hpre : p.handled <+: eventsAfter log start) (hc : c = p.lastHandled start) :
    p.handled ++ readPage log ⟨c,ProjectionPipeline.BATCH_SIZE⟩ <+: eventsAfter log start := by
  obtain ⟨tail,htail⟩ := readPage_prefix log ⟨c,ProjectionPipeline.BATCH_SIZE⟩
  refine ⟨tail,?_⟩
  rw [List.append_assoc,htail,hc]
  exact append_eventsAfter_last hlog hpre

/-- Resuming with the result of the pending effect keeps the invariant, whatever the
checkpoint store holds afterwards, and forgets no handled event. -/
theorem RunInv.resume {r : Running P E X Err} (hlog : Ascending log) (h : RunInv log saved r)
    {res : ProjectionEffectResult E} (ha : Answers log saved r.pending res)
    (saved' : Option Uuid) :
    RunInv log saved' (r.resume res) ∧ r.pipeline.handled <+: (r.resume res).pipeline.handled := by
  have hpre := h.handled_prefix
  obtain ⟨p,pending,start⟩ := r
  obtain ⟨hfits,horder,hcursor,hloading⟩ := h
  simp only at hfits horder hcursor hloading ha hpre
  unfold Running.resume ProjectionPipeline.resume
  simp only
  -- one case for each phase that waits for a result
  generalize hphase : p.phase = phase at hfits horder hcursor hloading
  cases hfits with
  | load =>
    obtain ⟨hnil,rfl⟩ := hloading rfl
    cases ha with
    | load error =>
    cases error with
    | none =>
      have hlast : start = p.lastHandled start := by simp [ProjectionPipeline.lastHandled,hnil]
      exact ⟨runInv_stepPoll _ _ hpre hlast,List.prefix_rfl⟩
    | some e => exact ⟨runInv_finish hpre,List.prefix_rfl⟩
  | @read _ c ctx _ =>
    have hc := hcursor _ rfl
    cases ha with
    | read error =>
    cases error with
    | none =>
      have hset := ProjectionPipeline.processFrom_settled
        (readPage log ⟨c,ProjectionPipeline.BATCH_SIZE⟩) 0 0 ctx hc
      exact ⟨runInv_settled hset (handled_append_readPage hlog hpre hc),hset.keeps⟩
    | some e =>
      simp only [result,ProjectionPipeline.resumePollFailure]
      split_ifs
      · exact ⟨runInv_finish hpre,List.prefix_rfl⟩
      · refine ⟨⟨.pollFailureSleep,?_,?_,by simp⟩,List.prefix_rfl⟩
        · show p.handled ++ [] <+: eventsAfter log start
          rwa [List.append_nil]
        · rintro c ⟨⟩
          exact hc
  | @save _ _ events i ctx =>
    cases ha
    have hset := ProjectionPipeline.processFrom_settled events (i+1) 0 ctx (hcursor _ rfl)
    exact ⟨runInv_settled hset horder,hset.keeps⟩
  | @skipSave _ _ events i ctx =>
    cases ha
    have hset := ProjectionPipeline.processFrom_settled events (i+1) 0 ctx (hcursor _ rfl)
    exact ⟨runInv_settled hset horder,hset.keeps⟩
  | @retrySleep _ events i n _ ctx =>
    cases ha
    have hset := ProjectionPipeline.processFrom_settled events i n ctx (hcursor _ rfl)
    exact ⟨runInv_settled hset horder,hset.keeps⟩
  | pollFailureSleep =>
    cases ha
    exact ⟨runInv_stepPoll _ _ hpre (hcursor _ rfl),List.prefix_rfl⟩
  | pollSleep =>
    cases ha
    exact ⟨runInv_stepPoll _ _ hpre (hcursor _ rfl),List.prefix_rfl⟩
  | done => cases ha

end Resume

section Progress

variable {projector : Projector P E X Err} {first : Option Uuid}

structure WorldInv (first : Option Uuid) (w : World P E X Err) : Prop where
  ascending : Ascending w.log
  run : ∀ r, w.run = some r → RunInv w.log w.saved r
  saved : Good first w.log w.everHandled w.saved
  start : ∀ r, w.run = some r → Good first w.log w.everHandled r.start

variable (projector) in
theorem runInv_begin (w : World P E X Err) (setup : Setup P) :
    RunInv w.log w.saved (w.begin projector setup) ∧
    (w.begin projector setup).pipeline.handled = [] := by
  obtain ⟨self,hasStore,pollMode,pollConfig,eventRetryConfig⟩ := setup
  cases hasStore with
  | true =>
    refine ⟨⟨.load,List.nil_prefix,?_,fun _ => ⟨rfl,rfl⟩⟩,rfl⟩
    rintro c ⟨⟩
  | false =>
    refine ⟨⟨.read,List.nil_prefix,?_,?_⟩,rfl⟩
    · rintro c ⟨⟩
      rfl
    · rintro ⟨⟩

theorem good_savedAfter {w : World P E X Err} (h : WorldInv first w) {r : Running P E X Err}
    (hrun : w.run = some r) (persisted : Bool) :
    Good first w.log w.everHandled (savedAfter w.saved r.pending persisted) := by
  have hinv := h.run r hrun
  have hlast : Good first w.log w.everHandled (r.pipeline.lastHandled r.start) := by
    refine (h.start r hrun).last h.ascending hinv.handled_prefix ?_
    simp [World.everHandled,hrun]
  have hfits := hinv.fits
  have hcursor := hinv.cursor
  unfold savedAfter
  generalize r.pending = pending at hfits
  generalize r.pipeline.phase = phase at hfits hcursor
  cases hfits with
  | save => cases persisted with
    | true => simpa [hcursor _ rfl] using hlast
    | false => simpa using h.saved
  | skipSave => cases persisted with
    | true => simpa [hcursor _ rfl] using hlast
    | false => simpa using h.saved
  | _ => exact h.saved

/-- Every label that resumes the current run: what the store holds may have changed, and
the run goes on with a result of its pending effect. -/
theorem WorldInv.resume {w : World P E X Err} (h : WorldInv first w) {r : Running P E X Err}
    (hrun : w.run = some r) {res : ProjectionEffectResult E}
    (ha : Answers w.log w.saved r.pending res) {saved : Option Uuid}
    (hsaved : Good first w.log w.everHandled saved) :
    WorldInv first { w with saved := saved, run := some (r.resume res) } := by
  obtain ⟨hinv,hkeeps⟩ := (h.run r hrun).resume h.ascending ha saved
  have hsub : w.everHandled ⊆
      World.everHandled { w with saved := saved, run := some (r.resume res) } := by
    intro e he
    simp only [World.everHandled,hrun,Option.map_some,Option.getD_some,List.mem_append] at he ⊢
    exact he.imp_right fun he => hkeeps.subset he
  refine ⟨h.ascending,?_,hsaved.mono hsub,?_⟩
  · rintro _ ⟨⟩
    exact hinv
  · rintro _ ⟨⟩
    exact (h.start r hrun).mono hsub

/-- What a step does: it starts a run, ends one in a crash, resumes it with a result of its
pending effect, or lets an event arrive. -/
theorem World.step_cases {w w' : World P E X Err} {l : Label P E}
    (hstep : w.step projector l = some w') :
    (∃ setup, w.run = none ∧ w' = { w with run := some (w.begin projector setup) }) ∨
    (∃ r persisted, w.run = some r ∧
      w' = { w with
        run := none
        saved := savedAfter w.saved r.pending persisted
        earlier := w.earlier ++ r.pipeline.handled }) ∨
    (∃ r res persisted, w.run = some r ∧ Answers w.log w.saved r.pending res ∧
      w' = { w with
        saved := savedAfter w.saved r.pending persisted, run := some (r.resume res) }) ∨
    ∃ e : E × Uuid, (∀ x ∈ w.log, x.2 < e.2) ∧ w' = { w with log := w.log ++ [e] } := by
  cases l with
  | restart setup =>
    simp only [World.step] at hstep
    cases hrun : w.run with
    | some r => simp [hrun] at hstep
    | none =>
      simp only [hrun,Option.some.injEq] at hstep
      exact .inl ⟨setup,rfl,hstep.symm⟩
  | crash persisted =>
    simp only [World.step,Option.map_eq_some_iff] at hstep
    obtain ⟨r,hrun,rfl⟩ := hstep
    exact .inr (.inl ⟨r,persisted,hrun,rfl⟩)
  | load error =>
    simp only [World.step,Option.bind_eq_some_iff] at hstep
    obtain ⟨r,hrun,hstep⟩ := hstep
    split at hstep
    · next hpending =>
      cases hstep
      refine .inr (.inr (.inl ⟨r,.checkpointLoaded (result error w.saved),false,hrun,?_,?_⟩))
      · rw [hpending]
        exact .load error
      · rw [hpending]
        rfl
    · cases hstep
  | read error =>
    simp only [World.step,Option.bind_eq_some_iff] at hstep
    obtain ⟨r,hrun,hstep⟩ := hstep
    split at hstep
    · next filter page hpending =>
      cases hstep
      refine .inr (.inr (.inl ⟨r,.eventsRead (result error (readPage w.log page)),false,hrun,?_,?_⟩))
      · rw [hpending]
        exact .read error
      · rw [hpending]
        rfl
    · cases hstep
  | save error persisted =>
    simp only [World.step,Option.bind_eq_some_iff] at hstep
    obtain ⟨r,hrun,hstep⟩ := hstep
    split at hstep
    · next hpending =>
      split_ifs at hstep
      cases hstep
      refine .inr (.inr (.inl ⟨r,.checkpointSaved (result error ()),persisted,hrun,?_,?_⟩))
      · rw [hpending]
        exact .save error
      · rw [hpending]
    · cases hstep
  | wake =>
    simp only [World.step,Option.bind_eq_some_iff] at hstep
    obtain ⟨r,hrun,hstep⟩ := hstep
    split at hstep
    · next hpending =>
      cases hstep
      refine .inr (.inr (.inl ⟨r,.slept,false,hrun,?_,?_⟩))
      · rw [hpending]
        exact .slept
      · rw [hpending]
        rfl
    · cases hstep
  | arrive event position =>
    simp only [World.step] at hstep
    split_ifs at hstep with hnew
    cases hstep
    exact .inr (.inr (.inr ⟨_,hnew,rfl⟩))

theorem WorldInv.step {w w' : World P E X Err} {l : Label P E} (h : WorldInv first w)
    (hstep : w.step projector l = some w') : WorldInv first w' := by
  obtain ⟨setup,hrun,rfl⟩ | ⟨r,persisted,hrun,rfl⟩ | ⟨r,res,persisted,hrun,ha,rfl⟩ | ⟨e,hnew,rfl⟩ :=
    World.step_cases hstep
  · obtain ⟨hinv,hnil⟩ := runInv_begin projector w setup
    have hever : World.everHandled { w with run := some (w.begin projector setup) } =
        w.everHandled := by simp [World.everHandled,hrun,hnil]
    refine ⟨h.ascending,?_,hever ▸ h.saved,?_⟩
    · rintro _ ⟨⟩
      exact hinv
    · rintro _ ⟨⟩
      rw [hever,World.begin]
      cases setup.hasCheckpointStore with
      | true => exact h.saved
      | false => exact Good.none
  · have hever : w.everHandled = w.earlier ++ r.pipeline.handled := by
      simp [World.everHandled,hrun]
    refine ⟨h.ascending,by simp,?_,by simp⟩
    have hgood := good_savedAfter h hrun persisted
    rw [hever] at hgood
    simpa [World.everHandled] using hgood
  · exact h.resume hrun ha (good_savedAfter h hrun persisted)
  · refine ⟨?_,?_,h.saved.arrive hnew,fun r hrun => (h.start r hrun).arrive hnew⟩
    · refine List.pairwise_append.mpr ⟨h.ascending,List.pairwise_singleton _ _,?_⟩
      intro x hx y hy
      obtain rfl := List.mem_singleton.mp hy
      exact hnew x hx
    · intro r hrun
      obtain ⟨hfits,horder,hcursor,hloading⟩ := h.run r hrun
      refine ⟨hfits,horder.trans ?_,hcursor,hloading⟩
      rw [eventsAfter,eventsAfter,List.filter_append]
      exact List.prefix_append _ _

theorem worldInv_of_reachable {w : World P E X Err}
    (h : Runs.Reachable (system projector first) w) : WorldInv first w := by
  refine Runs.ReachableBy.invariant ?_ (fun _ _ _ hinv _ hstep => hinv.step hstep) h
  rintro w ⟨hlog,rfl,hrun,_⟩
  exact ⟨hlog,by simp [hrun],⟨.inr (.inl rfl),fun _ _ hf hc => absurd hf hc⟩,by simp [hrun]⟩

/-- The projector of a run is in the state that its calls led to. -/
theorem follows_of_reachable {w : World P E X Err}
    (h : Runs.Reachable (system projector first) w) :
    ∀ r, w.run = some r → ∃ self, ProjectionPipeline.Follows projector self r.pipeline := by
  refine Runs.ReachableBy.invariant (I := fun w => ∀ r, w.run = some r →
    ∃ self, ProjectionPipeline.Follows projector self r.pipeline) ?_ ?_ h
  · rintro w ⟨-,-,hrun,-⟩
    simp [hrun]
  intro w l w' hinv _ hstep
  obtain ⟨setup,hrun,rfl⟩ | ⟨r,persisted,hrun,rfl⟩ | ⟨r,res,persisted,hrun,ha,rfl⟩ | ⟨e,hnew,rfl⟩ :=
    World.step_cases hstep
  · rintro _ ⟨⟩
    exact ⟨setup.self,(ProjectionPipeline.follows_new ..).step⟩
  · simp
  · rintro _ ⟨⟩
    obtain ⟨self,hfollows⟩ := hinv r hrun
    exact ⟨self,hfollows.resume res⟩
  · exact hinv

/-- Projection progress is sound: a run handles an initial segment of the events after its
start, each at most once and in order, and its projector is in the state that the recorded calls
led to; every poll reads from the last handled position; and everything between the first run's
start and a saved checkpoint has been handled. -/
theorem progress_sound {w : World P E X Err} (h : Runs.Reachable (system projector first) w) :
    (∀ r, w.run = some r →
      r.pipeline.handled <+: eventsAfter w.log r.start ∧
      (r.pipeline.handled.map Prod.snd).Pairwise (· < ·) ∧
      (∃ self ctx, Calls projector (self,projector.defaultContext) r.pipeline.calls
        (r.pipeline.self,ctx)) ∧
      ∀ filter page, r.pending = .yield (.readEvents filter page) →
        page.afterPosition = r.pipeline.lastHandled r.start) ∧
    ∀ p, w.saved = some p →
      ∀ e ∈ w.log, IsAfter first e.2 → e.2 ≤ p → e ∈ w.everHandled := by
  have hinv := worldInv_of_reachable h
  constructor
  · intro r hrun
    have hr := hinv.run r hrun
    refine ⟨hr.handled_prefix,?_,?_,?_⟩
    · rw [List.pairwise_map]
      exact (ascending_eventsAfter hinv.ascending r.start).sublist hr.handled_prefix.sublist
    · obtain ⟨self,-,ctx,hcalls,-⟩ := follows_of_reachable h r hrun
      exact ⟨self,ctx,hcalls⟩
    · intro filter page hpending
      have hfits := hr.fits
      have hcursor := hr.cursor
      rw [hpending] at hfits
      generalize r.pipeline.phase = phase at hfits hcursor
      cases hfits with
      | read => exact hcursor _ rfl
  · intro p hp e he hf hle
    exact hinv.saved.covered e he hf (by simpa [hp] using hle)

end Progress

/-- A running total; amounts above one hundred are refused and skipped. -/
def total : Projector ℕ ℕ Unit String where
  name := "total"
  eventTypeName := "Deposited"
  defaultContext := ()
  apply sum amount _ ctx :=
    if amount ≤ 100 then (.ok (),sum+amount,ctx) else (.error "amount above limit",sum,ctx)
  onError sum _ := (.skip,sum)

def totalSetup (pollMode : PollMode) (hasCheckpointStore : Bool) : Setup ℕ :=
  ⟨0,hasCheckpointStore,pollMode,{},{}⟩

/-- The second save is lost in a crash, so the second run starts after the first event. -/
def crashLabels : List (Label ℕ ℕ) :=
  [.restart (totalSetup .continuous true),.load none,.read none,.save none true,.crash false,
    .restart (totalSetup .continuous true),.load none,.arrive 7 30,.read none,.save none true]

theorem progress_sound_crash :
    ∃ w, Runs.exec (system total none) ⟨[(5,10),(500,20)],none,none,[]⟩ crashLabels = some w ∧
      w.saved = some 20 ∧ w.everHandled.map Prod.snd = [10,20,20,30] ∧
      ∀ e ∈ w.log, e.2 ≤ 20 → e ∈ w.everHandled := by
  obtain ⟨w,hw,hsaved,hever⟩ : ∃ w, Runs.exec (system total none)
      ⟨[(5,10),(500,20)],none,none,[]⟩ crashLabels = some w ∧ w.saved = some 20 ∧
      w.everHandled.map Prod.snd = [10,20,20,30] := ⟨_,rfl,rfl,rfl⟩
  have hinit : (system total none).init ⟨[(5,10),(500,20)],none,none,[]⟩ :=
    ⟨by simp [Ascending],rfl,rfl,rfl⟩
  have hreach := Runs.Reachable.exec (.init hinit) hw
  exact ⟨w,hw,hsaved,hever,fun e he => (progress_sound hreach).2 20 hsaved e he trivial⟩

end ProjectionProgress
end EventCore
