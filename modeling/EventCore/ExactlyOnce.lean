import EventCore.DrainCycle

/-! Whatever runners compete, crash or lose their connections, every position is projected once. -/
namespace EventCore
namespace ExactlyOnce
open Interaction Runs ProjectionSource TransactionalRunner ProjectionDestination ProjectionRules
open RunnerLogic TransactionalProjection DrainCycle PagedScan

section Projection

variable {P Ev Er : Type}

section Runner

variable {selects : ProjectionSelectionId → PersistedEventEnvelope P → Bool}
  {source : RunId → DeliverySourceId} {config : RunId → PostgresProjectionConfig}
  {i : RunId} {w : World P} {k : Known} {drained : Drained}

theorem spec_runCycles (pages cycles : ℕ) (hbetween : Between i k w drained) :
    Spec selects source config i (fun _ => True) (fun _ _ => True) w
      (runCycles (source i) (config i) pages cycles drained : Runner P Ev Er _) := by
  induction cycles generalizing k w drained with
  | zero => exact Spec.cut trivial
  | succ cycles ih =>
    refine Spec.bind (((spec_drainCycle pages hbetween.knows hbetween.idle
      hbetween.behind).mono_cut fun _ _ => trivial).mono fun w₁ r ⟨h₁,hreturned⟩ => ?_)
    match r with
    | (.stopped _,_) => exact Spec.bind (spec_release.mono fun _ _ _ => Spec.pure trivial)
    | (.caughtUp _,drained') =>
      by_cases hcontinuous : (config i).continuous = true
      · simp only [hcontinuous,if_true]
        obtain ⟨k',hbetween'⟩ := hreturned.between hbetween h₁
        refine Spec.bind ((spec_pollSleep hbetween'.knows).mono fun w₂ cancelled ⟨h₂,hk₂⟩ => ?_)
        by_cases hcancelled : cancelled = true
        · rw [if_pos hcancelled]
          exact Spec.bind (spec_release.mono fun _ _ _ => Spec.pure trivial)
        · rw [if_neg hcancelled]
          exact ih ⟨hk₂,hbetween'.idle,hbetween'.behind,hbetween'.own,
            fun p hp => h₂.skips (hbetween'.skipped p hp)⟩
      · simp only [hcontinuous]
        exact Spec.bind (spec_release.mono fun _ _ _ => Spec.pure trivial)

theorem spec_run (unrolling : ℕ) (hfresh : Fresh i w) :
    Spec selects source config i (fun _ => True) (fun _ _ => True) w
      (runTransactionalProjection (source i) (config i) unrolling : Runner P Ev Er _) :=
  spec_first hfresh fun _ _ _ hbetween => spec_runCycles unrolling unrolling hbetween

end Runner

section Ascending

theorem filter_le_prefix {l : List ℕ} (h : l.Pairwise (· < ·)) (p : ℕ) :
    l.filter (· ≤ p) <+: l := by
  induction l with
  | nil => simp
  | cons x l ih =>
    obtain ⟨hx,hl⟩ := List.pairwise_cons.mp h
    by_cases hxp : x ≤ p
    · have hcons : (x :: l).filter (· ≤ p) = x :: l.filter (· ≤ p) := by simp [hxp]
      rw [hcons]
      exact List.cons_prefix_cons.mpr ⟨rfl,ih hl⟩
    · have hnil : (x :: l).filter (· ≤ p) = [] := by
        rw [List.filter_eq_nil_iff]
        intro y hy
        rcases List.mem_cons.mp hy with rfl | hy
        · simpa using hxp
        · have := hx y hy
          simp
          omega
      rw [hnil]
      exact List.nil_prefix

theorem getLast?_of_max {l : List ℕ} (h : l.Pairwise (· < ·)) {p : ℕ} (hp : p ∈ l)
    (hmax : ∀ q ∈ l, q ≤ p) : l.getLast? = some p := by
  obtain ⟨l₁,l₂,rfl⟩ := List.append_of_mem hp
  cases l₂ with
  | nil => simp
  | cons q l₂ =>
    have hlt : p < q := (List.pairwise_cons.mp (List.pairwise_append.mp h).2.1).1 q (by simp)
    have := hmax q (by simp)
    omega

theorem sublist_eq_filter {l d : List ℕ} (hsub : l.Sublist d) (hd : d.Pairwise (· < ·)) :
    l = d.filter (· ∈ l) := by
  have hasc := hd.sublist hsub
  refine List.Perm.eq_of_pairwise (fun _ _ _ _ hab hba => absurd (hab.trans hba) (lt_irrefl _))
    hasc (hd.filter _) ?_
  rw [List.perm_ext_iff_of_nodup (hasc.imp ne_of_lt) ((hd.filter _).imp ne_of_lt)]
  intro p
  simp only [List.mem_filter,decide_eq_true_eq]
  exact ⟨fun hp => ⟨hsub.subset hp,hp⟩,And.right⟩

end Ascending

section Statement

variable (selects : ProjectionSelectionId → PersistedEventEnvelope P → Bool)
  (source : RunId → DeliverySourceId) (config : RunId → PostgresProjectionConfig)

/-- The read model holds one successful application for each position of a gap-free beginning of
the selected deliveries, less those that a projector skipped; the stored progress is the end of
that beginning. After-commit work was begun at most once, for committed applications only. -/
structure ProjectedOnce (w : World P) : Prop where
  effects : ∃ source selection delivered skipped,
    delivered <+: ((w.log source).visible.filter (selects selection)).map (·.position) ∧
    delivered.Pairwise (· < ·) ∧ skipped ⊆ w.skips ∧
    w.readModel.map (·.position) = delivered.filter (· ∉ skipped) ∧
    (∀ a ∈ w.readModel, a.succeeded = true) ∧
    w.progress = delivered.getLast?.map fun position => ⟨source,selection,position⟩
  afterCommit : w.executed.Nodup ∧ w.executed ⊆ w.readModel

/-- What one step may do to the destination: effects and progress move together and upwards. -/
structure Moves (w w' : World P) : Prop where
  readModel : w.readModel <+: w'.readModel
  together : ∀ a ∈ w'.readModel, a ∉ w.readModel → ∃ q ∈ w'.progress, q.position = a.position
  progress : ∀ p ∈ w.progress, ∃ q ∈ w'.progress,
    q.sourceId = p.sourceId ∧ q.selectionId = p.selectionId ∧ p.position ≤ q.position

/-- Progress was stored under another source or another selection than the run's. -/
def Foreign (i : RunId) (w : World P) : Prop :=
  ∃ p ∈ w.progress, p.sourceId ≠ source i ∨ p.selectionId ≠ (config i).selection

/-- Any number of runs of one projector, each over its own source and configuration. -/
def runSystem : System (State RunId (Request P Ev Er) (Answer P Ev Er) (World P)
    (Except (TransactionalProjectionError Er) ProjectionRunOutcome))
    (Label RunId (Choice Ev Er) (Happening P)) :=
  (World.machine selects).system
    (fun i unrolling => runTransactionalProjection (source i) (config i) unrolling) Initial

end Statement

variable {selects : ProjectionSelectionId → PersistedEventEnvelope P → Bool}
  {source : RunId → DeliverySourceId} {config : RunId → PostgresProjectionConfig}

theorem Moves.unchanged {w w' : World P} (hreadModel : w'.readModel = w.readModel)
    (hprogress : w'.progress = w.progress) : Moves w w' := by
  constructor
  · exact hreadModel ▸ List.prefix_rfl
  · intro a ha hnew
    exact absurd (hreadModel ▸ ha) hnew
  · intro p hp
    exact ⟨p,hprogress ▸ hp,rfl,rfl,le_rfl⟩

theorem moves_of_guar {i : RunId} {w w' : World P} (h : Guar source config i w w') :
    Moves w w' := by
  rcases h.destination with ⟨hreadModel,hprogress⟩ | hadvance
  · exact .unchanged hreadModel hprogress
  · obtain ⟨applications,position,hreadModel,hown,hprogress,hold⟩ := hadvance.moves
    constructor
    · rw [hreadModel]
      exact List.prefix_append _ _
    · intro a ha hnew
      rw [hreadModel] at ha
      have happlied := (List.mem_append.mp ha).resolve_left hnew
      exact ⟨_,hprogress,(hown a happlied).2.symm⟩
    · intro p hp
      obtain ⟨hsource,hselection,hlt⟩ := hold p hp
      exact ⟨_,hprogress,hsource.symm,hselection.symm,hlt.le⟩

theorem unchanged_of_foreign {i : RunId} {w w' : World P} (h : Guar source config i w w')
    (hforeign : Foreign source config i w) :
    w'.readModel = w.readModel ∧ w'.progress = w.progress := by
  rcases h.destination with hsame | hadvance
  · exact hsame
  · obtain ⟨_,_,_,_,_,hold⟩ := hadvance.moves
    obtain ⟨p,hp,hne⟩ := hforeign
    obtain ⟨hsource,hselection,_⟩ := hold p hp
    rcases hne with hne | hne
    · exact absurd hsource hne
    · exact absurd hselection hne

theorem happen_destination {w w' : World P} {b : Happening P} (h : w.happen b = some w') :
    w'.readModel = w.readModel ∧ w'.progress = w.progress := by
  cases b with
  | disconnect i =>
    obtain rfl := Option.some.inj h
    exact ⟨rfl,rfl⟩
  | deliver source envelope =>
    obtain ⟨_,_,rfl⟩ := Option.map_eq_some_iff.mp h
    exact ⟨rfl,rfl⟩

theorem projectedOnce_of_inv {w : World P} (h : Inv selects w) : ProjectedOnce selects w := by
  refine ⟨?_,h.executed_nodup,h.executed⟩
  cases hprogress : w.progress with
  | none =>
    have hnil : w.readModel = [] := by
      have hsub := h.sublist
      rw [delivered,hprogress] at hsub
      simpa using hsub
    exact ⟨"","",[],[],List.nil_prefix,List.Pairwise.nil,by simp,by simp [hnil],h.succeeded,rfl⟩
  | some progress =>
    have hvalid := h.logs progress.sourceId
    have hall : (((w.log progress.sourceId).visible.filter
        (selects progress.selectionId)).map (·.position)).Pairwise (· < ·) :=
      List.pairwise_map.mpr (hvalid.ascending.filter _)
    have hdelivered : delivered selects w = (((w.log progress.sourceId).visible.filter
        (selects progress.selectionId)).map (·.position)).filter (· ≤ progress.position) := by
      rw [delivered,hprogress,List.filter_map]
      simp only [Log.within,after_none,decide_true,DeliveryUpperBound.allows,
        List.filter_filter,Function.comp_def]
      congr 2
      funext e
      rw [Bool.true_and,Bool.and_comm]
    have hasc : (delivered selects w).Pairwise (· < ·) := hdelivered ▸ hall.filter _
    have hmax : ∀ q ∈ delivered selects w, q ≤ progress.position := by
      intro q hq
      rw [hdelivered] at hq
      simpa using (List.mem_filter.mp hq).2
    refine ⟨progress.sourceId,progress.selectionId,delivered selects w,
      (delivered selects w).filter (· ∉ w.readModel.map (·.position)),?_,hasc,?_,?_,h.succeeded,?_⟩
    · rw [hdelivered]
      exact filter_le_prefix hall _
    · intro p hp
      obtain ⟨hmem,hnot⟩ := List.mem_filter.mp hp
      exact (h.accounted p hmem).resolve_left (by simpa using hnot)
    · refine (sublist_eq_filter h.sublist hasc).trans (List.filter_congr fun p hp => ?_)
      simp only [List.mem_filter,hp,true_and]
      by_cases hmem : p ∈ w.readModel.map (·.position) <;> simp [hmem]
    · rw [getLast?_of_max hasc (h.last progress hprogress).1 hmax]
      rfl

/-- Transactional projection is exactly-once over every run of competing runners, and a runner
of a foreign identity changes nothing. -/
theorem exactly_once {s : State RunId (Request P Ev Er) (Answer P Ev Er) (World P)
      (Except (TransactionalProjectionError Er) ProjectionRunOutcome)}
    (hs : Reachable (runSystem selects source config) s) :
    ProjectedOnce selects s.world ∧
    ∀ l t, (runSystem selects source config).step s l = some t → Moves s.world t.world ∧
      ∀ i, l.client? = some i → Foreign source config i s.world →
        t.world.readModel = s.world.readModel ∧ t.world.progress = s.world.progress := by
  have hprograms : ∀ i (unrolling : ℕ) (w : World P), Inv selects w → Fresh i w →
      Spec selects source config i (fun _ => True) (fun _ _ => True) w
        (runTransactionalProjection (source i) (config i) unrolling : Runner P Ev Er _) :=
    fun i unrolling w _ hfresh => spec_run unrolling hfresh
  obtain ⟨hinv,hclients⟩ := reachable_sound (R := rules selects source config) hprograms
    (fun w hw => ⟨hw.inv,fun i => hw.fresh i⟩) hs
  refine ⟨projectedOnce_of_inv hinv,fun l t hstep => ?_⟩
  have hstep' : (World.machine selects).step
      (fun i unrolling => runTransactionalProjection (source i) (config i) unrolling) s l = some t :=
    hstep
  obtain ⟨_,_,hlabel⟩ :=
    step_sound (R := rules selects source config) hprograms hinv hclients hstep'
  cases l with
  | start i n =>
    obtain ⟨hworld,_⟩ := hlabel
    rw [hworld]
    exact ⟨.unchanged rfl rfl,fun _ _ _ => ⟨rfl,rfl⟩⟩
  | ask i c =>
    refine ⟨moves_of_guar hlabel.1,fun j hj hforeign => ?_⟩
    obtain rfl := Option.some.inj hj
    exact unchanged_of_foreign hlabel.1 hforeign
  | orphan i c =>
    refine ⟨moves_of_guar hlabel,fun j hj hforeign => ?_⟩
    obtain rfl := Option.some.inj hj
    exact unchanged_of_foreign hlabel hforeign
  | crash i =>
    rw [show t.world = s.world from hlabel]
    exact ⟨.unchanged rfl rfl,fun _ _ _ => ⟨rfl,rfl⟩⟩
  | background b =>
    obtain ⟨w',hhappen,rfl⟩ := Option.map_eq_some_iff.mp hstep'
    obtain ⟨hreadModel,hprogress⟩ := happen_destination hhappen
    exact ⟨.unchanged hreadModel hprogress,fun _ h => nomatch h⟩

end Projection

abbrev OneOrder.runs : System (State RunId (Request Unit Unit Unit) (Answer Unit Unit Unit)
    (World Unit) (Except (TransactionalProjectionError Unit) ProjectionRunOutcome))
    (Label RunId (Choice Unit Unit) (Happening Unit)) :=
  runSystem OneOrder.selects OneOrder.source OneOrder.config

/-- The same steps as before, taken by whole runs. -/
def OneOrder.projected : State RunId (Request Unit Unit Unit) (Answer Unit Unit Unit)
    (World Unit) (Except (TransactionalProjectionError Unit) ProjectionRunOutcome) :=
  (exec OneOrder.runs ⟨OneOrder.world,fun _ => .waiting⟩ OneOrder.labels).get (by decide +kernel)

theorem exactly_once_oneOrder : ProjectedOnce OneOrder.selects OneOrder.projected.world ∧
    OneOrder.projected.world.readModel = [⟨0,0,1,true⟩] :=
  ⟨(exactly_once (.exec (.init ⟨OneOrder.world_initial,fun _ => rfl⟩) (Option.some_get _).symm)).1,
    by decide +kernel⟩

end ExactlyOnce
end EventCore
