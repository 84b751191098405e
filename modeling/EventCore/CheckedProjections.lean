import EventCore.ProjectionProgress
import EventCore.Replays

/-! Checked projections: a pure projection whose effects go to a sink, driven by the projection
runner. The in-memory sink outlives its runs, so after a crash it is given events again. -/
namespace EventCore
namespace CheckedProjections

open ProjectionProgress Replays

variable {Q K R E F PErr SErr : Type}

inductive ProjectionAction (F : Type)
  | apply (effect : F)
  | ignore (reason : String)

structure ModelProjection (Q E F PErr : Type) where
  name : String
  eventTypeName : String
  project : Q → E → Uuid → Except PErr (ProjectionAction F) × Q

structure ProjectionSink (K F SErr : Type) where
  apply : K → F → Uuid → Except SErr Unit × K

/-- The read model in memory; `applyTo` is that of its effects. -/
def inMemoryProjectionSink (applyTo : F → R → R) : ProjectionSink R F Empty where
  apply previous effect _ := (.ok (),applyTo effect previous)

inductive CheckedProjectionError (PErr SErr : Type)
  | projection (error : PErr)
  | sink (error : SErr)

def checkedProjection (projection : ModelProjection Q E F PErr) (sink : ProjectionSink K F SErr) :
    Projector (Q × K) E Unit (CheckedProjectionError PErr SErr) where
  name := projection.name
  eventTypeName := projection.eventTypeName
  defaultContext := ()
  apply self event position ctx :=
    match projection.project self.1 event position with
    | (.error e,q) => (.error (.projection e),(q,self.2),ctx)
    | (.ok (.apply effect),q) =>
      match sink.apply self.2 effect position with
      | (.ok _,k) => (.ok (),(q,k),ctx)
      | (.error e,k) => (.error (.sink e),(q,k),ctx)
    | (.ok (.ignore _),q) => (.ok (),(q,self.2),ctx)

/-- Runs of a checked projection, and the read model of the sink that they all share. -/
structure Shared (Q R E PErr : Type) where
  world : World (Q × R) E Unit (CheckedProjectionError PErr Empty)
  readModel : R

section System

variable (projection : ModelProjection Q E F PErr) (applyTo : F → R → R)

def Shared.step (s : Shared Q R E PErr) (l : Label (Q × R) E) : Option (Shared Q R E PErr) :=
  (s.world.step (checkedProjection projection (inMemoryProjectionSink applyTo)) l).map fun w =>
    { world := w
      readModel := match w.run with
        | some r => r.pipeline.self.2
        | none => s.readModel }

def system (first : Option Uuid) (initial : R) :
    Runs.System (Shared Q R E PErr) (Label (Q × R) E) where
  init s := (ProjectionProgress.system (checkedProjection projection
    (inMemoryProjectionSink applyTo)) first).init s.world ∧ s.readModel = initial
  step := Shared.step projection applyTo

/-- A run is one of `run_projection`, which checkpoints, with a clone of the sink. -/
def Allows (s : Shared Q R E PErr) : Label (Q × R) E → Prop
  | .restart setup => setup.hasCheckpointStore = true ∧ setup.self.2 = s.readModel
  | _ => True

instance [DecidableEq R] (s : Shared Q R E PErr) (l : Label (Q × R) E) :
    Decidable (Allows s l) := by
  cases l <;> unfold Allows <;> infer_instance

end System

section Effects

/-- What an event does to the read model, when `effectOf` is the action on it. -/
def record (effectOf : E → Uuid → Except PErr (ProjectionAction F)) (applyTo : F → R → R)
    (previous : R) (e : E × Uuid) : R :=
  match effectOf e.1 e.2 with
  | .ok (.apply effect) => applyTo effect previous
  | _ => previous

variable {projection : ModelProjection Q E F PErr} {applyTo : F → R → R}
  {effectOf : E → Uuid → Except PErr (ProjectionAction F)}

variable (applyTo) in
theorem apply_cases (hpure : ∀ q event position,
    (projection.project q event position).1 = effectOf event position) (self : Q × R) (event : E)
    (position : Uuid) (ctx : Unit) :
    (∃ q, (checkedProjection projection (inMemoryProjectionSink applyTo)).apply self event position
      ctx = (.ok (),(q,record effectOf applyTo self.2 (event,position)),ctx)) ∨
    ∃ e q, (checkedProjection projection (inMemoryProjectionSink applyTo)).apply self event position
      ctx = (.error e,(q,self.2),ctx) := by
  have heffect := hpure self.1 event position
  simp only [checkedProjection,inMemoryProjectionSink,record,← heffect]
  rcases projection.project self.1 event position with ⟨action,q⟩
  cases action with
  | error e => exact .inr ⟨_,q,rfl⟩
  | ok action =>
    cases action with
    | apply effect => exact .inl ⟨q,rfl⟩
    | ignore reason => exact .inl ⟨q,rfl⟩

/-- The read model of a runner is what its calls have made of the one that it started with. -/
def Sunk (projection : ModelProjection Q E F PErr) (applyTo : F → R → R) (start : R)
    (p : ProjectionPipeline (Q × R) E Unit (CheckedProjectionError PErr Empty)) : Prop :=
  ∃ self, ProjectionPipeline.Follows
    (checkedProjection projection (inMemoryProjectionSink applyTo)) self p ∧ self.2 = start

/-- An event that is applied is recorded, and one that is not ends the run. -/
theorem calls_fold (hpure : ∀ q event position,
    (projection.project q event position).1 = effectOf event position) {start s : (Q × R) × Unit}
    {calls : List (ProjectorCall E)}
    (h : Calls (checkedProjection projection (inMemoryProjectionSink applyTo)) start calls s) :
    s.1.2 = (calls.filterMap ProjectorCall.handled).foldl (record effectOf applyTo) start.1.2 := by
  induction h with
  | nil => rfl
  | @concat calls call s s' _ hmakes ih =>
    rw [List.filterMap_append,List.foldl_append,← ih]
    cases hmakes with
    | @applied event position _ _ happly =>
      rcases apply_cases applyTo hpure s.1 event position s.2 with ⟨q,hcase⟩ | ⟨e,q,hcase⟩
      · cases happly.symm.trans hcase
        rfl
      · cases happly.symm.trans hcase
    | @failed event position n _ _ _ _ _ happly hdecision =>
      rcases apply_cases applyTo hpure s.1 event position s.2 with ⟨q,hcase⟩ | ⟨e,q,hcase⟩
      · cases happly.symm.trans hcase
      · cases happly.symm.trans hcase
        cases hdecision
        rfl

variable {start : R}
  {p : ProjectionPipeline (Q × R) E Unit (CheckedProjectionError PErr Empty)}

theorem Sunk.folds (hpure : ∀ q event position,
    (projection.project q event position).1 = effectOf event position)
    (h : Sunk projection applyTo start p) :
    p.self.2 = p.handled.foldl (record effectOf applyTo) start := by
  obtain ⟨self,⟨-,ctx,hcalls,-⟩,rfl⟩ := h
  exact calls_fold hpure hcalls

theorem Sunk.resume (h : Sunk projection applyTo start p) (res : ProjectionEffectResult E) :
    Sunk projection applyTo start (p.resume res).1 := by
  obtain ⟨self,hfollows,hself⟩ := h
  exact ⟨self,hfollows.resume res,hself⟩

end Effects

section Places

variable {P X Err : Type} {projector : Projector P E X Err} {first : Option Uuid} {initial : R}
  {fold : R → E × Uuid → R} {w w' : World P E X Err} {l : Label P E}

/-- The checkpoint behind the last of these events. -/
def cursorOf (first : Option Uuid) (events : List (E × Uuid)) : Option Uuid :=
  (events.getLast?.map Prod.snd).or first

theorem cursorOf_append (first : Option Uuid) (done more : List (E × Uuid)) :
    cursorOf first (done ++ more) = (more.getLast?.map Prod.snd).or (cursorOf first done) := by
  simp only [cursorOf,List.getLast?_append,Option.map_or,Option.or_assoc]

theorem step_cases (hstep : w.step projector l = some w') :
    (∃ setup, l = .restart setup ∧ w.run = none ∧
      w' = { w with run := some (w.begin projector setup) }) ∨
    (∃ r persisted, w.run = some r ∧
      w' = { w with
        run := none
        saved := savedAfter w.saved r.pending persisted
        earlier := w.earlier ++ r.pipeline.handled }) ∨
    (∃ r res persisted, w.run = some r ∧ Answers w.log w.saved r.pending res ∧
      w' = { w with
        saved := savedAfter w.saved r.pending persisted, run := some (r.resume res) }) ∨
    ∃ e : E × Uuid, (∀ x ∈ w.log, x.2 < e.2) ∧ w' = { w with log := w.log ++ [e] } := by
  rcases World.step_cases hstep with ⟨setup,hrun,hw'⟩ | hothers
  · cases l with
    | restart other =>
      simp only [World.step,hrun,Option.some.injEq] at hstep
      exact .inl ⟨other,rfl,hrun,hstep.symm⟩
    | arrive event position =>
      simp only [World.step] at hstep
      split_ifs at hstep
      have hruns := congrArg World.run (Option.some.inj hstep)
      simp [hw',hrun] at hruns
    | crash persisted => simp [World.step,hrun] at hstep
    | load error => simp [World.step,hrun] at hstep
    | read error => simp [World.step,hrun] at hstep
    | save error persisted => simp [World.step,hrun] at hstep
    | wake => simp [World.step,hrun] at hstep
  · exact .inr hothers

/-- The checkpoint that is saved lies within what the runner has read since it started. -/
def Placed (fold : R → E × Uuid → R) (first : Option Uuid) (initial : R) (w : World P E X Err) :
    Prop :=
  ∃ done, Replay fold initial (eventsAfter w.log first) w.earlier done ∧
    match w.run with
    | none => w.saved = cursorOf first done
    | some r => r.start = cursorOf first done ∧ ∃ kept lost, r.pipeline.handled = kept ++ lost ∧
      w.saved = cursorOf first (done ++ kept)

theorem append_handled_prefix (hinv : WorldInv first w) {done : List (E × Uuid)}
    (hdone : done <+: eventsAfter w.log first) {r : Running P E X Err} (hrun : w.run = some r)
    (hstart : r.start = cursorOf first done) :
    done ++ r.pipeline.handled <+: eventsAfter w.log first := by
  have hhandled := RunInv.handled_prefix (hinv.run r hrun)
  rw [hstart] at hhandled
  rw [← append_eventsAfter_last hinv.ascending hdone]
  exact (List.prefix_append_right_inj _).mpr hhandled

theorem savedAfter_placed (hinv : WorldInv first w) {done kept lost : List (E × Uuid)}
    {r : Running P E X Err} (hrun : w.run = some r) (hstart : r.start = cursorOf first done)
    (hhandled : r.pipeline.handled = kept ++ lost) (hsaved : w.saved = cursorOf first (done ++ kept))
    (persisted : Bool) :
    ∃ kept lost, r.pipeline.handled = kept ++ lost ∧
      savedAfter w.saved r.pending persisted = cursorOf first (done ++ kept) := by
  have hlast : r.pipeline.lastHandled r.start = cursorOf first (done ++ r.pipeline.handled) := by
    rw [cursorOf_append,← hstart]
    rfl
  have hrunner := hinv.run r hrun
  have hfits := hrunner.fits
  have hcursor := hrunner.cursor
  have hunsaved : ∃ kept lost, r.pipeline.handled = kept ++ lost ∧
      w.saved = cursorOf first (done ++ kept) := ⟨kept,lost,hhandled,hsaved⟩
  have hnow : ∀ position, some position = r.pipeline.lastHandled r.start →
      ∃ kept lost, r.pipeline.handled = kept ++ lost ∧
        (if persisted then some position else w.saved) = cursorOf first (done ++ kept) := by
    intro position hposition
    cases persisted with
    | true =>
      refine ⟨r.pipeline.handled,[],(List.append_nil _).symm,?_⟩
      rw [if_pos rfl,hposition,hlast]
    | false => simpa using hunsaved
  unfold savedAfter
  generalize r.pending = pending at hfits
  generalize r.pipeline.phase = phase at hfits hcursor
  cases hfits with
  | save => exact hnow _ (hcursor _ rfl)
  | skipSave => exact hnow _ (hcursor _ rfl)
  | _ => exact hunsaved

theorem Placed.step (hfold : Idempotent fold) (hinv : WorldInv first w)
    (h : Placed fold first initial w)
    (hstore : ∀ setup, l = .restart setup → setup.hasCheckpointStore = true)
    (hstep : w.step projector l = some w') : Placed fold first initial w' := by
  obtain ⟨done,hreplay,hplace⟩ := h
  obtain ⟨setup,rfl,hrun,rfl⟩ | ⟨r,persisted,hrun,rfl⟩ | ⟨r,res,persisted,hrun,ha,rfl⟩ |
    ⟨e,hnew,rfl⟩ := step_cases hstep
  · rw [hrun] at hplace
    have hbegins := (runInv_begin projector w setup).2
    refine ⟨done,hreplay,?_,[],[],hbegins,?_⟩
    · rw [World.begin,hstore setup rfl]
      exact hplace
    · rw [List.append_nil]
      exact hplace
  · rw [hrun] at hplace
    obtain ⟨hstart,kept,lost,hhandled,hsaved⟩ := hplace
    obtain ⟨kept,lost,hhandled,hsaved⟩ :=
      savedAfter_placed hinv hrun hstart hhandled hsaved persisted
    have hread := append_handled_prefix hinv hreplay.within hrun hstart
    rw [hhandled] at hread
    have hnodup : (eventsAfter w.log first).Nodup :=
      (ascending_eventsAfter hinv.ascending first).imp fun hlt heq =>
        absurd (heq ▸ hlt) (lt_irrefl _)
    refine ⟨done ++ kept,?_,hsaved⟩
    rw [hhandled]
    exact hreplay.restart hfold hnodup hread
  · rw [hrun] at hplace
    obtain ⟨hstart,kept,lost,hhandled,hsaved⟩ := hplace
    obtain ⟨kept,lost,hhandled,hsaved⟩ :=
      savedAfter_placed hinv hrun hstart hhandled hsaved persisted
    obtain ⟨more,hmore⟩ := ((hinv.run r hrun).resume hinv.ascending ha w.saved).2
    refine ⟨done,hreplay,hstart,kept,lost ++ more,?_,hsaved⟩
    rw [← hmore,hhandled,List.append_assoc]
  · refine ⟨done,?_,hplace⟩
    rw [eventsAfter,List.filter_append]
    exact hreplay.grow _

theorem filter_upTo {log : List (E × Uuid)} (hlog : Ascending log) {events : List (E × Uuid)}
    (h : events <+: eventsAfter log first) :
    (eventsAfter log first).filter (fun e => ¬IsAfter (cursorOf first events) e.2) = events := by
  have hupTo : ∀ e ∈ events, ¬IsAfter (cursorOf first events) e.2 := by
    rcases List.eq_nil_or_concat events with rfl | ⟨l,last,rfl⟩
    · simp
    · rw [List.concat_eq_append] at h ⊢
      have hascending := (ascending_eventsAfter hlog first).sublist h.sublist
      have hlast := (List.pairwise_append.mp hascending).2.2
      intro e he
      rcases List.mem_append.mp he with he | he
      · simpa [cursorOf] using (hlast e he last List.mem_cons_self).le
      · simp [cursorOf,List.mem_singleton.mp he]
  have hbeyond : ∀ e ∈ eventsAfter log (cursorOf first events),
      IsAfter (cursorOf first events) e.2 := fun e he => (mem_eventsAfter.mp he).2
  have hsplit : events ++ eventsAfter log (cursorOf first events) = eventsAfter log first :=
    append_eventsAfter_last hlog h
  have hnothing : (eventsAfter log (cursorOf first events)).filter
      (fun e => ¬IsAfter (cursorOf first events) e.2) = [] := by
    rw [List.filter_eq_nil_iff]
    intro e he
    simpa using hbeyond e he
  have hall : events.filter (fun e => ¬IsAfter (cursorOf first events) e.2) = events := by
    rw [List.filter_eq_self]
    intro e he
    simpa using hupTo e he
  rw [← hsplit,List.filter_append,hall,hnothing,List.append_nil]

end Places

section ReadModels

variable {projection : ModelProjection Q E F PErr} {applyTo : F → R → R}
  {effectOf : E → Uuid → Except PErr (ProjectionAction F)} {first : Option Uuid} {initial : R}
  {s s' : Shared Q R E PErr} {l : Label (Q × R) E}

/-- The read model is what all runs have handled, in the order in which they did. -/
structure Recorded (projection : ModelProjection Q E F PErr) (applyTo : F → R → R)
    (effectOf : E → Uuid → Except PErr (ProjectionAction F)) (initial : R)
    (s : Shared Q R E PErr) : Prop where
  readModel : s.readModel = s.world.everHandled.foldl (record effectOf applyTo) initial
  run : ∀ r, s.world.run = some r → Sunk projection applyTo
    (s.world.earlier.foldl (record effectOf applyTo) initial) r.pipeline

theorem Sunk.everHandled (hpure : ∀ q event position,
    (projection.project q event position).1 = effectOf event position)
    {w : World (Q × R) E Unit (CheckedProjectionError PErr Empty)}
    {r : Running (Q × R) E Unit (CheckedProjectionError PErr Empty)} (hrun : w.run = some r)
    (h : Sunk projection applyTo (w.earlier.foldl (record effectOf applyTo) initial) r.pipeline) :
    r.pipeline.self.2 = w.everHandled.foldl (record effectOf applyTo) initial := by
  rw [h.folds hpure,← List.foldl_append]
  simp [World.everHandled,hrun]

theorem Recorded.step (hpure : ∀ q event position,
    (projection.project q event position).1 = effectOf event position)
    (h : Recorded projection applyTo effectOf initial s) (hallows : Allows s l)
    (hstep : s.step projection applyTo l = some s') :
    Recorded projection applyTo effectOf initial s' := by
  obtain ⟨w',hworld,rfl⟩ := Option.map_eq_some_iff.mp hstep
  obtain ⟨setup,rfl,hrun,rfl⟩ | ⟨r,persisted,hrun,rfl⟩ | ⟨r,res,persisted,hrun,ha,rfl⟩ |
    ⟨e,hnew,rfl⟩ := step_cases hworld
  · have hread := h.readModel
    simp only [World.everHandled,hrun,Option.map_none,Option.getD_none,List.append_nil] at hread
    have hsunk : Sunk projection applyTo
        (s.world.earlier.foldl (record effectOf applyTo) initial)
        (s.world.begin (checkedProjection projection (inMemoryProjectionSink applyTo))
          setup).pipeline :=
      ⟨setup.self,(ProjectionPipeline.follows_new ..).step,hallows.2.trans hread⟩
    refine ⟨hsunk.everHandled hpure rfl,?_⟩
    intro r hr
    rw [← Option.some.inj hr]
    exact hsunk
  · refine ⟨?_,by simp⟩
    have hread := h.readModel
    simp only [World.everHandled,hrun,Option.map_some,Option.getD_some] at hread
    simpa [World.everHandled] using hread
  · have hsunk := (h.run r hrun).resume res
    refine ⟨hsunk.everHandled hpure rfl,?_⟩
    intro r' hr'
    rw [← Option.some.inj hr']
    exact hsunk
  · refine ⟨?_,h.run⟩
    cases hrun : s.world.run with
    | none =>
      have hread := h.readModel
      simpa [World.everHandled,hrun] using hread
    | some r => exact Sunk.everHandled hpure rfl (h.run r hrun)

theorem recorded_of_reachable (hpure : ∀ q event position,
    (projection.project q event position).1 = effectOf event position)
    (h : Runs.ReachableBy (system projection applyTo first initial) Allows s) :
    Recorded projection applyTo effectOf initial s := by
  refine Runs.ReachableBy.invariant ?_ (fun _ _ _ hinv hallows hstep =>
    hinv.step hpure hallows hstep) h
  rintro s ⟨⟨-,-,hrun,hearlier⟩,hread⟩
  exact ⟨by simp [hread,World.everHandled,hrun,hearlier],by simp [hrun]⟩

theorem placed_of_reachable {fold : R → E × Uuid → R} (hfold : Idempotent fold)
    (h : Runs.ReachableBy (system projection applyTo first initial) Allows s) :
    WorldInv first s.world ∧ Placed fold first initial s.world := by
  refine Runs.ReachableBy.invariant
    (I := fun s => WorldInv first s.world ∧ Placed fold first initial s.world) ?_ ?_ h
  · rintro s ⟨hinit,-⟩
    refine ⟨worldInv_of_reachable (.init hinit),[],?_,?_⟩
    · rw [hinit.2.2.2]
      exact Replay.nil _ _ _
    · rw [hinit.2.2.1]
      exact hinit.2.1
  · rintro s l s' ⟨hinv,hplaced⟩ hallows hstep
    obtain ⟨w',hworld,rfl⟩ := Option.map_eq_some_iff.mp hstep
    refine ⟨hinv.step hworld,hplaced.step hfold hinv ?_ hworld⟩
    rintro setup rfl
    exact hallows.1

/-- However often its runs crash, lose their checkpoints and start again, the read model is made
of the events handled, one after the other, with those that came again recorded again. Where
recording events again changes nothing, it is exactly the log, each event once, whenever a run
has come as far as any run before it. -/
theorem read_model_caught_up (hpure : ∀ q event position,
    (projection.project q event position).1 = effectOf event position)
    (h : Runs.ReachableBy (system projection applyTo first initial) Allows s) :
    s.readModel = s.world.everHandled.foldl (record effectOf applyTo) initial ∧
    (Idempotent (record effectOf applyTo) → ∀ r, s.world.run = some r →
      (∀ e ∈ s.world.everHandled, ¬IsAfter (r.pipeline.lastHandled r.start) e.2) →
      s.readModel = ((eventsAfter s.world.log first).filter fun e =>
        ¬IsAfter (r.pipeline.lastHandled r.start) e.2).foldl (record effectOf applyTo) initial) := by
  have hrecorded := recorded_of_reachable hpure h
  refine ⟨hrecorded.readModel,fun hidempotent r hrun hcaught => ?_⟩
  obtain ⟨hinv,done,hreplay,hplace⟩ := placed_of_reachable hidempotent h
  rw [hrun] at hplace
  have hread := append_handled_prefix hinv hreplay.within hrun hplace.1
  have hlast : r.pipeline.lastHandled r.start = cursorOf first (done ++ r.pipeline.handled) := by
    rw [cursorOf_append,← hplace.1]
    rfl
  have hever : s.world.everHandled = s.world.earlier ++ r.pipeline.handled := by
    simp [World.everHandled,hrun]
  have hupTo := filter_upTo hinv.ascending hread
  rw [← hlast] at hupTo
  have hcovers : s.world.earlier ⊆ done ++ r.pipeline.handled := by
    intro e he
    rw [← hupTo,List.mem_filter]
    refine ⟨hreplay.drawn he,?_⟩
    simpa using hcaught e (hever ▸ List.mem_append_left _ he)
  rw [hupTo,hrecorded.readModel,hever]
  exact hreplay.catchesUp _ hread hcovers

end ReadModels

def largestAction (amount : ℕ) (_ : Uuid) : Except String (ProjectionAction ℕ) :=
  .ok (if amount ≤ 100 then .apply amount else .ignore "too large")

/-- The largest deposit so far; one of more than a hundred is not counted. -/
def largest : ModelProjection Unit ℕ ℕ String where
  name := "largest"
  eventTypeName := "Deposited"
  project _ amount position := (largestAction amount position,())

theorem idempotent_largest : Idempotent (record largestAction max) := by
  have hstep : ∀ highest e, record largestAction max highest e =
      max (if e.1 ≤ 100 then e.1 else 0) highest := by
    intro highest e
    by_cases hsmall : e.1 ≤ 100 <;> simp [record,largestAction,hsmall]
  refine Idempotent.of_comm (fun s a b => ?_) fun s a => ?_
  · simp only [hstep]
    exact max_left_comm _ _ _
  · simp only [hstep]
    exact max_eq_right (le_max_left _ _)

def largestRun (highest : ℕ) : Label (Unit × ℕ) ℕ :=
  .restart ⟨((),highest),true,.continuous,{ maxConsecutivePollFailures := Nat.succPNat 4 },{}⟩

/-- The second save is lost in a crash, so the second event comes again. -/
def lostSave : List (Label (Unit × ℕ) ℕ) :=
  [largestRun 0,.load none,.read none,.save none true,.crash false,
    largestRun 70,.load none,.read none]

theorem read_model_caught_up_lost :
    ∃ s : Shared Unit ℕ ℕ String,
      Runs.exec (system largest max none 0) ⟨⟨[(5,10),(70,20),(500,30)],none,none,[]⟩,0⟩ lostSave =
        some s ∧ s.world.everHandled.map Prod.snd = [10,20,20] ∧
      s.readModel = ((eventsAfter s.world.log none).filter fun e =>
        ¬IsAfter (some 20) e.2).foldl (record largestAction max) 0 := by
  obtain ⟨s,r,hs,hever,hrun,hlast⟩ : ∃ s r, Runs.exec (system largest max none 0)
      ⟨⟨[(5,10),(70,20),(500,30)],none,none,[]⟩,0⟩ lostSave = some s ∧
      s.world.everHandled.map Prod.snd = [10,20,20] ∧ s.world.run = some r ∧
      r.pipeline.lastHandled r.start = some 20 := ⟨_,_,rfl,rfl,rfl,rfl⟩
  have hinit : (system largest max none 0).init
      (⟨⟨[(5,10),(70,20),(500,30)],none,none,[]⟩,0⟩ : Shared Unit ℕ ℕ String) :=
    ⟨⟨by simp [Ascending],rfl,rfl,rfl⟩,rfl⟩
  have hreach : Runs.ReachableBy (system largest max none 0) Allows s :=
    Runs.ReachableBy.exec (.init hinit) (by decide) hs
  refine ⟨s,hs,hever,?_⟩
  have hcaught : ∀ e ∈ s.world.everHandled, ¬IsAfter (r.pipeline.lastHandled r.start) e.2 := by
    intro e he
    have hmem := List.mem_map_of_mem (f := Prod.snd) he
    rw [hever] at hmem
    rw [hlast]
    simp only [List.mem_cons,List.not_mem_nil,or_false] at hmem
    rcases hmem with hposition | hposition | hposition <;> rw [hposition] <;> decide
  have hpure : ∀ q event position,
      (largest.project q event position).1 = largestAction event position := fun _ _ _ => rfl
  have hexact := (read_model_caught_up hpure hreach).2 idempotent_largest r hrun hcaught
  rwa [hlast] at hexact

end CheckedProjections
end EventCore
