import EventCore.ProjectionProgress

/-! Batch runs over a log that does not change: one page, then done. -/
namespace EventCore
namespace BatchProjection

open ProjectionProgress

variable {P E X Err : Type}

def IsEffectResult : Label P E → Prop
  | .load _ | .read _ | .save .. | .wake => True
  | .restart _ | .crash _ | .arrive .. => False

/-- One run, just started on a store with this log and checkpoint. -/
def runSystem (projector : Projector P E X Err) (log : List (E × Uuid)) (saved : Option Uuid)
    (setup : Setup P) : Runs.System (World P E X Err) (Label P E) where
  init w := w = ⟨log,saved,some (World.begin projector ⟨log,saved,none,[]⟩ setup),[]⟩
  step := World.step projector

/-- Where the run starts from: the checkpoint, when there is a store for it. -/
def startOf (setup : Setup P) (saved : Option Uuid) : Option Uuid :=
  if setup.hasCheckpointStore then saved else none

/-- Before the page is read nothing is handled; from then on the handled events and the
rest of the page make up `page`. -/
def BatchShape (page : List (E × Uuid)) (r : Running P E X Err) : Prop :=
  match r.pipeline.phase with
  | .awaitingCheckpoint | .awaitingEvents .. | .awaitingPollFailureSleep .. =>
    r.pipeline.handled = []
  | .awaitingPollSleep .. => False
  | .done => r.pending = .done (.ok ()) → r.pipeline.handled = page
  | phase => r.pipeline.handled ++ phase.rest = page

theorem batchShape_settled {start : Option Uuid} {p : ProjectionPipeline P E X Err}
    {remaining page : List (E × Uuid)} {r : ProjectionPipeline P E X Err × ProjectionStep}
    (h : ProjectionPipeline.Settled start p remaining r) (hbatch : p.pollMode = .batch)
    (hpage : p.handled ++ remaining = page) : BatchShape page ⟨r.1,r.2,start⟩ := by
  obtain ⟨p',pending⟩ := r
  have hfits := h.fits
  have hleaves := h.leaves
  have hnosleep := h.batch hbatch
  have hexact := h.exact
  unfold BatchShape
  simp only at hfits hleaves hnosleep hexact ⊢
  generalize p'.phase = phase at hfits hleaves hnosleep hexact
  cases hfits with
  | load => exact hleaves.elim
  | read => exact hleaves.elim
  | pollFailureSleep => exact hleaves.elim
  | pollSleep => exact hnosleep _ _ rfl
  | done =>
    intro hok
    rw [← hpage,← hexact (by simp [hok])]
    simp [ProjectionPhase.rest]
  | save | skipSave | retrySleep => exact hpage ▸ hexact (by simp)

theorem batchShape_failed {start : Option Uuid} {p : ProjectionPipeline P E X Err}
    {page : List (E × Uuid)} {e : ProjectionError} :
    BatchShape page ⟨(p.finish (.error e)).1,(p.finish (.error e)).2,start⟩ := by
  simp [BatchShape,ProjectionPipeline.finish]

structure BatchInv (log : List (E × Uuid)) (start : Option Uuid) (r : Running P E X Err) :
    Prop where
  startEq : r.start = start
  mode : r.pipeline.pollMode = .batch
  shape : BatchShape ((eventsAfter log start).take ProjectionPipeline.BATCH_SIZE) r

theorem BatchInv.resume {log : List (E × Uuid)} {saved start : Option Uuid}
    {r : Running P E X Err} (hrun : RunInv log saved r) (h : BatchInv log start r)
    {res : ProjectionEffectResult E} (ha : Answers log saved r.pending res) :
    BatchInv log start (r.resume res) := by
  obtain ⟨p,pending,start'⟩ := r
  obtain ⟨rfl,hmode,hshape⟩ := h
  obtain ⟨hfits,horder,hcursor,hloading⟩ := hrun
  simp only at hfits hcursor hloading hmode ha ⊢
  unfold BatchShape at hshape
  simp only at hshape
  unfold Running.resume ProjectionPipeline.resume
  simp only
  generalize hphase : p.phase = phase at hfits hcursor hloading hshape
  cases hfits with
  | load =>
    cases ha with
    | load error => cases error with
      | none => exact ⟨rfl,hmode,hshape⟩
      | some e => exact ⟨rfl,hmode,batchShape_failed⟩
  | @read _ c ctx _ =>
    have hc : c = start' := by
      simpa [ProjectionPipeline.lastHandled,show p.handled = [] from hshape] using hcursor _ rfl
    cases ha with
    | read error => cases error with
      | none =>
        have hset := ProjectionPipeline.processFrom_settled
          (readPage log ⟨c,ProjectionPipeline.BATCH_SIZE⟩) 0 0 ctx (hcursor _ rfl)
        refine ⟨rfl,hset.mode.trans hmode,batchShape_settled hset hmode ?_⟩
        rw [show p.handled = [] from hshape,hc]
        rfl
      | some e =>
        simp only [result,ProjectionPipeline.resumePollFailure]
        split_ifs
        · exact ⟨rfl,hmode,batchShape_failed⟩
        · exact ⟨rfl,hmode,hshape⟩
  | @save _ _ events i ctx =>
    cases ha
    have hset := ProjectionPipeline.processFrom_settled events (i+1) 0 ctx (hcursor _ rfl)
    exact ⟨rfl,hset.mode.trans hmode,batchShape_settled hset hmode hshape⟩
  | @skipSave _ _ events i ctx =>
    cases ha
    have hset := ProjectionPipeline.processFrom_settled events (i+1) 0 ctx (hcursor _ rfl)
    exact ⟨rfl,hset.mode.trans hmode,batchShape_settled hset hmode hshape⟩
  | @retrySleep _ events i n _ ctx =>
    cases ha
    have hset := ProjectionPipeline.processFrom_settled events i n ctx (hcursor _ rfl)
    exact ⟨rfl,hset.mode.trans hmode,batchShape_settled hset hmode hshape⟩
  | pollFailureSleep =>
    cases ha
    exact ⟨rfl,hmode,hshape⟩
  | pollSleep => exact hshape.elim
  | done => cases ha

section Batch

variable {projector : Projector P E X Err} {log : List (E × Uuid)} {saved : Option Uuid}
  {setup : Setup P}

/-- The run is alive, its log is the one it started with, and it follows the batch shape. -/
def WorldBatchInv (log : List (E × Uuid)) (start : Option Uuid) (w : World P E X Err) : Prop :=
  w.log = log ∧ ∃ r, w.run = some r ∧ RunInv log w.saved r ∧ BatchInv log start r

theorem step_effectResult {w w' : World P E X Err} {l : Label P E} (hl : IsEffectResult l)
    {r : Running P E X Err} (hrun : w.run = some r) (hstep : w.step projector l = some w') :
    ∃ res, Answers w.log w.saved r.pending res ∧ w'.log = w.log ∧ w'.run = some (r.resume res) := by
  cases l with
  | restart | crash | arrive => exact hl.elim
  | load error =>
    simp only [World.step,hrun,Option.bind_some] at hstep
    split at hstep
    · next hpending =>
      cases hstep
      exact ⟨_,hpending ▸ .load error,rfl,rfl⟩
    · cases hstep
  | read error =>
    simp only [World.step,hrun,Option.bind_some] at hstep
    split at hstep
    · next hpending =>
      cases hstep
      exact ⟨_,hpending ▸ .read error,rfl,rfl⟩
    · cases hstep
  | save error persisted =>
    simp only [World.step,hrun,Option.bind_some] at hstep
    split at hstep
    · next hpending =>
      split_ifs at hstep
      cases hstep
      exact ⟨_,hpending ▸ .save error,rfl,rfl⟩
    · cases hstep
  | wake =>
    simp only [World.step,hrun,Option.bind_some] at hstep
    split at hstep
    · next hpending =>
      cases hstep
      exact ⟨_,hpending ▸ .slept,rfl,rfl⟩
    · cases hstep

theorem worldBatchInv_of_reachable (hlog : Ascending log) (hbatch : setup.pollMode = .batch)
    {w : World P E X Err}
    (h : Runs.ReachableBy (runSystem projector log saved setup) (fun _ l => IsEffectResult l) w) :
    WorldBatchInv log (startOf setup saved) w := by
  refine Runs.ReachableBy.invariant ?_ ?_ h
  · rintro w rfl
    obtain ⟨hinv,hnil⟩ := runInv_begin projector ⟨log,saved,none,[]⟩ setup
    refine ⟨rfl,_,rfl,hinv,rfl,?_,?_⟩
    · obtain ⟨self,hasStore,pollMode,pollConfig,eventRetryConfig⟩ := setup
      cases hasStore <;> exact hbatch
    · obtain ⟨self,hasStore,pollMode,pollConfig,eventRetryConfig⟩ := setup
      cases hasStore <;> exact hnil
  · rintro w l w' ⟨rfl,r,hrun,hinv,hb⟩ hl hstep
    obtain ⟨res,ha,hlog',hrun'⟩ := step_effectResult hl hrun hstep
    refine ⟨hlog',_,hrun',(hinv.resume hlog ha _).1,hb.resume hinv ha⟩

theorem batch_handled (hlog : Ascending log) (hbatch : setup.pollMode = .batch)
    {w : World P E X Err}
    (h : Runs.ReachableBy (runSystem projector log saved setup) (fun _ l => IsEffectResult l) w)
    {r : Running P E X Err} (hrun : w.run = some r) (hok : r.pending = .done (.ok ())) :
    r.pipeline.handled =
      (eventsAfter log (startOf setup saved)).take ProjectionPipeline.BATCH_SIZE := by
  obtain ⟨_,r',hrun',hinv,hb⟩ := worldBatchInv_of_reachable hlog hbatch h
  obtain rfl : r = r' := Option.some.inj (hrun.symm.trans hrun')
  have hshape := hb.shape
  have hfits := hinv.fits
  rw [hok] at hfits
  unfold BatchShape at hshape
  generalize r.pipeline.phase = phase at hfits hshape
  cases hfits with
  | done => exact hshape hok

/-- A batch run that returns Ok has handled every available event exactly when these fit
into one page. -/
theorem batch_handles_all_iff (hlog : Ascending log) (hbatch : setup.pollMode = .batch)
    {w : World P E X Err}
    (h : Runs.ReachableBy (runSystem projector log saved setup) (fun _ l => IsEffectResult l) w)
    {r : Running P E X Err} (hrun : w.run = some r) (hok : r.pending = .done (.ok ())) :
    (∀ e ∈ eventsAfter log (startOf setup saved), e ∈ r.pipeline.handled) ↔
      (eventsAfter log (startOf setup saved)).length ≤ 1000 := by
  rw [batch_handled hlog hbatch h hrun hok]
  have hsorted := ascending_eventsAfter hlog (startOf setup saved)
  constructor
  · intro hall
    have hnodup : (eventsAfter log (startOf setup saved)).Nodup :=
      hsorted.imp fun hlt he => absurd (he ▸ hlt) (lt_irrefl _)
    have hle := (hnodup.subperm hall).length_le
    exact hle.trans (List.length_take_le _ _)
  · intro hle e he
    have hlen : (eventsAfter log (startOf setup saved)).length ≤ ProjectionPipeline.BATCH_SIZE := hle
    rwa [List.take_of_length_le hlen]

end Batch

/-- `n` deposits of one, at positions `0` to `n-1`. -/
def depositLog (n : ℕ) : List (ℕ × Uuid) := (List.range n).map fun i => (1,i)

theorem ascending_depositLog (n : ℕ) : Ascending (depositLog n) := by
  rw [Ascending,depositLog,List.pairwise_map]
  exact List.pairwise_lt_range

theorem eventsAfter_none (log : List (ℕ × Uuid)) : eventsAfter log none = log := by
  simp [eventsAfter]

theorem stepProcessing_total {events remaining : List (ℕ × Uuid)}
    (hsmall : ∀ e ∈ remaining, e.1 ≤ 100) {i n : ℕ} {c : Option Uuid}
    {p : ProjectionPipeline ℕ ℕ Unit String} (hproj : p.projector = total)
    (hstore : p.hasCheckpointStore = false) (hbatch : p.pollMode = .batch) :
    (ProjectionPipeline.stepProcessing events remaining i n c () p).2 = .done (.ok ()) := by
  induction remaining generalizing i n c p with
  | nil => simp [ProjectionPipeline.stepProcessing,ProjectionPipeline.stepPageEnd,hbatch,
      ProjectionPipeline.finish]
  | cons e remaining ih =>
    have he : e.1 ≤ 100 := hsmall e List.mem_cons_self
    obtain ⟨self,hself⟩ : ∃ self, p.projector.apply p.self e.1 e.2 () = (.ok (),self,()) :=
      ⟨p.self+e.1,by simp [hproj,total,he]⟩
    simp only [ProjectionPipeline.stepProcessing,hself,hstore,Bool.false_eq_true,if_false]
    exact ih (fun x hx => hsmall x (List.mem_cons_of_mem _ hx)) hproj rfl hbatch

theorem read_depositLog (n : ℕ) :
    ∃ w r, Runs.ReachableBy (runSystem total (depositLog n) none (totalSetup .batch false))
        (fun _ l => IsEffectResult l) w ∧
      w.run = some r ∧ r.pending = .done (.ok ()) := by
  refine ⟨_,_,.step (.init rfl) (l := .read none) trivial rfl,rfl,?_⟩
  refine stepProcessing_total ?_ rfl rfl rfl
  intro e he
  have hmem := List.mem_of_mem_drop he
  have hlog : e ∈ depositLog n := (mem_eventsAfter.mp (List.mem_of_mem_take hmem)).1
  obtain ⟨i,_,rfl⟩ := List.mem_map.mp hlog
  simp

/-- One event more than a page: the run ends well and leaves it unhandled. -/
theorem batch_leaves_last_event :
    ∃ w r, Runs.ReachableBy (runSystem total (depositLog 1001) none (totalSetup .batch false))
        (fun _ l => IsEffectResult l) w ∧
      w.run = some r ∧ r.pending = .done (.ok ()) ∧
      (1,1000) ∈ eventsAfter (depositLog 1001) none ∧ (1,1000) ∉ r.pipeline.handled := by
  obtain ⟨w,r,hreach,hrun,hok⟩ := read_depositLog 1001
  refine ⟨w,r,hreach,hrun,hok,?_,?_⟩
  · rw [eventsAfter_none]
    exact List.mem_map.mpr ⟨1000,by simp,rfl⟩
  · rw [batch_handled (ascending_depositLog _) rfl hreach hrun hok,
      show startOf (totalSetup .batch false) none = none from rfl,eventsAfter_none,depositLog,
      ← List.map_take,List.take_range]
    simp [ProjectionPipeline.BATCH_SIZE]

theorem batch_handles_all_iff_two :
    ∃ w r, Runs.ReachableBy (runSystem total (depositLog 2) none (totalSetup .batch false))
        (fun _ l => IsEffectResult l) w ∧
      w.run = some r ∧
      ((∀ e ∈ eventsAfter (depositLog 2) none, e ∈ r.pipeline.handled) ↔
        (eventsAfter (depositLog 2) none).length ≤ 1000) := by
  obtain ⟨w,r,hreach,hrun,hok⟩ := read_depositLog 2
  exact ⟨w,r,hreach,hrun,batch_handles_all_iff (ascending_depositLog _) rfl hreach hrun hok⟩

end BatchProjection
end EventCore
