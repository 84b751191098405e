import EventCore.RunnerLogic

/-! A runner commits one position after the other, each with one successful application or with a
decision to skip it. -/
namespace EventCore
namespace TransactionalProjection
open Interaction ProjectionSource TransactionalRunner ProjectionDestination ProjectionRules
open RunnerLogic PagedScan

variable {P Ev Er α β : Type}
variable {selects : ProjectionSelectionId → PersistedEventEnvelope P → Bool}
  {source : RunId → DeliverySourceId} {config : RunId → PostgresProjectionConfig}
  {i : RunId} {C : World P → Prop} {w : World P} {k : Known}

section Connection

theorem spec_dbQuiet {q : DbRequest} {e : TransactionalProjectionError Er} (hq : q ≠ .commit) :
    Spec selects source config i C (fun w' _ => Onward w w') w (db e q : Runner P Ev Er _) := by
  refine Spec.db fun w' hrely hinv hlost r w'' hexecute => ?_
  have hquiet := execute_quiet hinv.holder hlost hq hexecute
  exact ⟨hquiet.inv hinv,hquiet.guar,hrely.onward.trans hquiet.onward⟩

theorem spec_rollbackPreservingError {Q : World P → α → Prop}
    (e : TransactionalProjectionError Er) :
    Spec selects source config i C Q w
      (rollbackPreservingError e : Runner P Ev Er α) := by
  refine Spec.bind (Spec.askDb (fun _ _ => trivial) ?_)
  intro w' _ hinv hlost r w'' hexecute
  have hquiet := execute_quiet hinv.holder hlost (by simp) hexecute
  exact ⟨hquiet.inv hinv,hquiet.guar,trivial⟩

theorem spec_release :
    Spec selects source config i C (fun w' _ => Onward w w') w (release : Runner P Ev Er Unit) := by
  refine Spec.bind ((spec_dbQuiet (by simp)).mono fun w' _ h => ?_)
  exact (spec_dbQuiet (by simp)).mono fun w'' _ h' => h.trans h'

theorem spec_begin {e : TransactionalProjectionError Er} (hk : Knows i k w)
    (htx : k.transaction = none) :
    Spec selects source config i C
      (fun w' _ => Onward w w' ∧ Knows i { k with transaction := some {} } w') w
      (db e .begin : Runner P Ev Er _) := by
  refine Spec.dbHeld hk (by simp) fun w' r w'' hk' _ hholder htx' hprogress hexecute => ?_
  simp only [World.execute,htx'.trans htx] at hexecute
  obtain rfl := (Prod.mk.inj (Option.some.inj hexecute)).2
  exact ⟨hk'.own,hk'.told,.inr ⟨hholder,setTransaction_transaction w' i _,hprogress⟩⟩

theorem spec_rollback {e : TransactionalProjectionError Er} (hk : Knows i k w) :
    Spec selects source config i C
      (fun w' _ => Onward w w' ∧ Knows i { k with transaction := none } w' ∧
        w'.progress = k.progress) w
      (db e .rollback : Runner P Ev Er _) := by
  refine Spec.dbHeld hk (by simp) fun w' r w'' hk' _ hholder htx hprogress hexecute => ?_
  obtain ⟨_,_,heq⟩ := Option.map_eq_some_iff.mp hexecute
  obtain rfl := (Prod.mk.inj heq).2
  exact ⟨⟨hk'.own,hk'.told,.inr ⟨hholder,setTransaction_transaction w' i _,hprogress⟩⟩,hprogress⟩

theorem spec_loadProgress (hk : Knows i k w) (htx : k.transaction = some {}) :
    Spec selects source config i C
      (fun w' r => Onward w w' ∧ Knows i k w' ∧ r = k.progress) w
      (loadProgress : Runner P Ev Er (Option ProjectionProgress)) := by
  refine Spec.dbHeld hk (by simp) fun w' r w'' hk' _ _ htx' hprogress hexecute => ?_
  simp only [World.execute,htx'.trans htx,Option.map_some] at hexecute
  obtain ⟨hr,rfl⟩ := Prod.mk.inj (Option.some.inj hexecute)
  exact ⟨hk',hr.symm.trans hprogress⟩

theorem spec_advanceProgress {applications : List Application} (hk : Knows i k w)
    (htx : k.transaction = some ⟨applications,none⟩) (progress : ProjectionProgress) :
    Spec selects source config i C
      (fun w' _ => Onward w w' ∧
        Knows i { k with transaction := some ⟨applications,some progress⟩ } w') w
      (advanceProgress progress : Runner P Ev Er Unit) := by
  unfold advanceProgress
  by_cases hposition : progress.position ≤ i64Max
  · rw [if_pos hposition]
    refine Spec.dbHeld hk (by simp) fun w' r w'' hk' _ hholder htx' hprogress hexecute => ?_
    simp only [World.execute,htx'.trans htx,Option.map_some] at hexecute
    obtain rfl := (Prod.mk.inj (Option.some.inj hexecute)).2
    exact ⟨hk'.own,hk'.told,.inr ⟨hholder,setTransaction_transaction w' i _,hprogress⟩⟩
  · rw [if_neg hposition]
    exact Spec.throw _

theorem spec_acquireLeader (hfresh : Fresh i w) :
    Spec selects source config i C
      (fun w' _ => ∃ k : Known, k.transaction = none ∧ k.own = [] ∧ Knows i k w') w
      (acquireLeader : Runner P Ev Er Unit) := by
  have hacquire : Spec selects source config i C (fun w' _ => Fresh i w') w
      ((ask .acquire : Runner P Ev Er _) >>= orThrow .leadershipLost) := by
    refine Spec.bind (Spec.ask fun w' hrely hinv c a w'' hperform => ?_)
    have hfresh' : Fresh i w' := hfresh.rely hrely
    cases c <;> cases hperform
    · exact ⟨hinv,(Quiet.refl hinv.holder i).guar,Spec.pure hfresh'⟩
    · exact ⟨hinv,(Quiet.refl hinv.holder i).guar,Spec.throw _⟩
  refine Spec.bind (hacquire.mono fun w _ hfresh => Spec.bind ((Spec.db (Q := fun w' acquired =>
    acquired = true → ∃ k : Known, k.transaction = none ∧ k.own = [] ∧ Knows i k w') ?_).mono ?_))
  · intro w' hrely hinv hlost acquired w'' hexecute
    have hquiet := execute_quiet hinv.holder hlost (by simp) hexecute
    have hfresh' : Fresh i w' := hfresh.rely hrely
    refine ⟨hquiet.inv hinv,hquiet.guar,fun hacquired => ⟨⟨none,_,[],_⟩,rfl,rfl,
      by rw [hquiet.readModel,hfresh'.own],rfl,.inr ⟨?_,?_,rfl⟩⟩⟩
    · simp only [World.execute] at hexecute
      cases hholder : w'.holder with
      | none =>
        simp only [hholder] at hexecute
        obtain rfl := (Prod.mk.inj (Option.some.inj hexecute)).2
        rfl
      | some j =>
        simp only [hholder] at hexecute
        obtain ⟨hj,rfl⟩ := Prod.mk.inj (Option.some.inj hexecute)
        rw [hholder,of_decide_eq_true (hj.trans hacquired)]
    · have hsession : w''.session i = w'.session i := by
        simp only [World.execute] at hexecute
        cases hholder : w'.holder <;> simp only [hholder] at hexecute <;>
          obtain rfl := (Prod.mk.inj (Option.some.inj hexecute)).2 <;> rfl
      have hnone : (w'.session i).transaction = none := by
        simpa [hlost] using hfresh'.transaction
      rw [hsession,hnone]
  · intro w' acquired hacquired
    by_cases hlock : acquired = true
    · rw [if_pos hlock]
      exact Spec.pure (hacquired hlock)
    · rw [if_neg hlock]
      refine Spec.bind (Spec.askDb (fun _ _ => Spec.throw _) ?_)
      intro u _ hinv hlost r u' hexecute
      have hquiet := execute_quiet hinv.holder hlost (by simp) hexecute
      exact ⟨hquiet.inv hinv,hquiet.guar,Spec.throw _⟩

end Connection

section Envelope

/-- What is known to lie before a position: progress under the run's own identity, and lower. -/
def Pending (source : RunId → DeliverySourceId) (config : RunId → PostgresProjectionConfig)
    (i : RunId) (progress : Option ProjectionProgress) (position : ℕ) : Prop :=
  ∀ p ∈ progress, p.sourceId = source i ∧ p.selectionId = (config i).selection ∧
    p.position < position

def Passed (progress : Option ProjectionProgress) (position : ℕ) : Prop :=
  ∃ p ∈ progress, position ≤ p.position

/-- A delivered position that is the next one of the selection unless it is passed already. -/
structure Due (selects : ProjectionSelectionId → PersistedEventEnvelope P → Bool)
    (source : DeliverySourceId) (selection : ProjectionSelectionId)
    (progress : Option ProjectionProgress) (w : World P) (e : PersistedEventEnvelope P) :
    Prop where
  visible : e ∈ (w.log source).visible
  selected : selects selection e = true
  sealed_ge : e.position ≤ (w.log source).sealed
  next : ∀ f ∈ (w.log source).visible, selects selection f = true →
    (∀ p ∈ progress, p.position < f.position) → (∀ p ∈ progress, p.position < e.position) →
    e.position ≤ f.position

theorem Due.onward {s : DeliverySourceId} {sel : ProjectionSelectionId}
    {progress : Option ProjectionProgress} {w w' : World P} {e : PersistedEventEnvelope P}
    (h : Due selects s sel progress w e) (honward : Onward w w') :
    Due selects s sel progress w' e := by
  have hgrows := honward.log s
  have hmem : ∀ f : PersistedEventEnvelope P, f.position ≤ (w.log s).sealed →
      (f ∈ (w'.log s).visible ↔ f ∈ (w.log s).visible) := by
    intro f hf
    have hfrozen := congrArg (f ∈ ·) hgrows.frozen
    simpa [hf] using hfrozen
  constructor
  · exact (hmem e h.sealed_ge).mpr h.visible
  · exact h.selected
  · exact h.sealed_ge.trans hgrows.sealed_le
  · intro f hf hsel hprogress hpending
    by_cases hsealed : f.position ≤ (w.log s).sealed
    · exact h.next f ((hmem f hsealed).mp hf) hsel hprogress hpending
    · have := h.sealed_ge
      omega

theorem delivered_next {e : PersistedEventEnvelope P} (hinv : Inv selects w)
    (hdue : Due selects (source i) (config i).selection w.progress w e)
    (hpending : Pending source config i w.progress e.position) :
    ((w.log (source i)).within (selects (config i).selection) none
      (.inclusive e.position)).map (·.position) = delivered selects w ++ [e.position] := by
  have hlog := hinv.logs (source i)
  have hpositive := hlog.positive e hdue.visible
  have hbelow : ∀ p ∈ w.progress, p.position < e.position := fun p hp => (hpending p hp).2.2
  unfold delivered
  cases hp : w.progress with
  | none =>
    have hnil : (w.log (source i)).within (selects (config i).selection) none (.inclusive 0) =
        [] := by
      rw [List.eq_nil_iff_forall_not_mem]
      intro f hf
      obtain ⟨hvisible,_,hallows,_⟩ := Log.mem_within.mp hf
      have hzero : f.position ≤ 0 := by simpa [DeliveryUpperBound.allows] using hallows
      have := hlog.positive f hvisible
      omega
    have hnext := Log.within_next hlog hdue.visible hdue.selected hpositive fun f hf hsel _ =>
      hdue.next f hf hsel (by simp [hp]) hbelow
    rw [hnext,hnil]
    rfl
  | some progress =>
    obtain ⟨hsource,hselection,hlt⟩ := hpending progress hp
    have hnext := Log.within_next hlog hdue.visible hdue.selected hlt fun f hf hsel hf' =>
      hdue.next f hf hsel (by simpa [hp] using hf') hbelow
    rw [hnext,List.map_append,← hsource,← hselection]
    rfl

theorem le_progress_of_mem_delivered {p : ℕ} (hp : p ∈ delivered selects w) :
    ∃ progress ∈ w.progress, p ≤ progress.position := by
  unfold delivered at hp
  cases hprogress : w.progress with
  | none => simp [hprogress] at hp
  | some progress =>
    simp only [hprogress,List.mem_map] at hp
    obtain ⟨f,hf,rfl⟩ := hp
    have hallows := (Log.mem_within.mp hf).2.2.1
    exact ⟨progress,rfl,by simpa [DeliveryUpperBound.allows] using hallows⟩

/-- What a position may be committed with: its one successful application, or nothing after a
decision to skip it. -/
def Justified (i : RunId) (skips : List ℕ) (position : ℕ) (applications : List Application) :
    Prop :=
  (∃ a, applications = [a] ∧ a.run = i ∧ a.position = position ∧ a.succeeded = true) ∨
    applications = [] ∧ position ∈ skips

theorem Justified.own {skips : List ℕ} {position : ℕ} {applications : List Application}
    (h : Justified i skips position applications) :
    ∀ a ∈ applications, a.run = i ∧ a.position = position ∧ a.succeeded = true := by
  rcases h with ⟨a,rfl,ha⟩ | ⟨rfl,_⟩
  · simpa using ha
  · simp

def committed (w : World P) (i : RunId) (applications : List Application)
    (progress : ProjectionProgress) : World P :=
  { w.setTransaction i none with
    readModel := w.readModel ++ applications
    progress := some progress }

section Commit

variable {e : PersistedEventEnvelope P} {applications : List Application}

theorem not_executed (hinv : Inv selects w) (hpending : ∀ progress ∈ w.progress,
    progress.position < e.position) {a : Application} (ha : a.position = e.position) :
    a ∉ w.executed := by
  intro hexecuted
  have hmem := List.mem_map_of_mem (f := (·.position)) (hinv.executed hexecuted)
  obtain ⟨progress,hprogress,hle⟩ := le_progress_of_mem_delivered (hinv.sublist.subset hmem)
  have := hpending progress hprogress
  omega

theorem committed_inv (hinv : Inv selects w)
    (hdue : Due selects (source i) (config i).selection w.progress w e)
    (hpending : Pending source config i w.progress e.position)
    (hjustified : Justified i w.skips e.position applications) :
    Inv selects (committed w i applications ⟨source i,(config i).selection,e.position⟩) := by
  have hdelivered : delivered selects
      (committed w i applications ⟨source i,(config i).selection,e.position⟩) =
      delivered selects w ++ [e.position] := delivered_next hinv hdue hpending
  constructor
  · exact hinv.logs
  · intro j hj
    by_cases hij : i = j
    · subst hij
      simpa [committed,World.setTransaction] using hinv.holder i hj
    · simpa [committed,World.setTransaction,Function.update_of_ne (Ne.symm hij)] using
        hinv.holder j hj
  · rw [hdelivered]
    simp only [committed,List.map_append]
    rcases hjustified with ⟨a,rfl,_,ha,_⟩ | ⟨rfl,_⟩
    · exact hinv.sublist.append (by simp [ha])
    · simpa using hinv.sublist.trans (List.sublist_append_left _ _)
  · rw [hdelivered]
    intro p hp
    simp only [committed,List.map_append,List.mem_append]
    rcases List.mem_append.mp hp with hp | hp
    · exact (hinv.accounted p hp).imp_left .inl
    · obtain rfl := List.mem_singleton.mp hp
      rcases hjustified with ⟨a,rfl,_,ha,_⟩ | ⟨_,hskip⟩
      · exact .inl (.inr (by simp [ha]))
      · exact .inr hskip
  · intro a ha
    rcases List.mem_append.mp ha with ha | ha
    · exact hinv.succeeded a ha
    · exact (hjustified.own a ha).2.2
  · intro progress hprogress
    obtain rfl := Option.some.inj hprogress
    rw [hdelivered]
    exact ⟨by simp,hdue.sealed_ge⟩
  · exact hinv.executed_nodup
  · exact fun a ha => List.mem_append_left _ (hinv.executed ha)

theorem committed_guar (hholder : w.holder = some i)
    (hpending : Pending source config i w.progress e.position)
    (hjustified : Justified i w.skips e.position applications) :
    Guar source config i w
      (committed w i applications ⟨source i,(config i).selection,e.position⟩) where
  onward := .of_log_eq rfl (fun _ h => h) fun _ h => List.mem_append_left _ h
  session := fun j hij => Function.update_of_ne (Ne.symm hij) _ _
  holder := fun _ _ h => h
  reported := fun _ _ => rfl
  executed := ⟨[],by simp [committed,World.setTransaction],by simp⟩
  destination := .inr ⟨hholder,applications,e.position,rfl,
    fun a ha => ⟨(hjustified.own a ha).1,(hjustified.own a ha).2.1⟩,rfl,hpending⟩

end Commit

end Envelope

section Steps

variable {Q : World P → EnvelopeResult → Prop} {e : PersistedEventEnvelope P}

theorem spec_positionIsPending (hk : Knows i k w) (htx : k.transaction = some {})
    (position : ℕ) :
    Spec selects source config i C (fun w' pending => Onward w w' ∧ Knows i k w' ∧
      if pending = true then Pending source config i k.progress position else Passed k.progress position) w
      (positionIsPending (source i) (config i) position : Runner P Ev Er Bool) := by
  refine Spec.bind ((spec_loadProgress hk htx).result.mono fun w' r hr => ?_)
  match r with
  | .error _ => exact Spec.throw _
  | .ok none =>
    obtain ⟨honward,hk',hprogress⟩ := hr none rfl
    refine Spec.pure ⟨honward,hk',?_⟩
    rw [if_pos rfl]
    intro progress hp
    rw [← hprogress] at hp
    cases hp
  | .ok (some progress) =>
    obtain ⟨honward,hk',hprogress⟩ := hr (some progress) rfl
    unfold validateIdentity
    by_cases hsource : progress.sourceId = source i
    · by_cases hselection : progress.selectionId = (config i).selection
      · simp only [hsource,hselection,ne_eq,not_true_eq_false,if_false]
        refine Spec.pure ⟨honward,hk',?_⟩
        by_cases hlt : progress.position < position
        · rw [if_pos (decide_eq_true hlt)]
          intro other hother
          rw [← hprogress] at hother
          obtain rfl := Option.some.inj hother
          exact ⟨hsource,hselection,hlt⟩
        · rw [if_neg (by simpa using hlt)]
          exact ⟨progress,hprogress.symm,by omega⟩
      · simp only [hsource,hselection,ne_eq,not_true_eq_false,not_false_eq_true,if_false,if_true]
        exact Spec.throw _
    · simp only [hsource,ne_eq,not_false_eq_true,if_true]
      exact Spec.throw _

theorem spec_whenPending (hk : Knows i k w) (htx : k.transaction = none) {position : ℕ}
    {pending : Runner P Ev Er EnvelopeResult}
    (hpending : ∀ w', Onward w w' → Knows i { k with transaction := some {} } w' →
      Pending source config i k.progress position → Spec selects source config i C Q w' pending)
    (hsuppressed : ∀ w', Onward w w' → Knows i k w' → Passed k.progress position → Q w' .suppressed) :
    Spec selects source config i C Q w
      (whenPending (source i) (config i) position pending) := by
  refine Spec.bind ((spec_begin hk htx).mono fun w₁ _ ⟨h₁,hk₁⟩ => ?_)
  refine Spec.bind ((spec_positionIsPending hk₁ rfl position).result.mono fun w₂ r hr => ?_)
  match r with
  | .error e => exact spec_rollbackPreservingError e
  | .ok true =>
    obtain ⟨h₂,hk₂,hcase⟩ := hr true rfl
    exact hpending w₂ (h₁.trans h₂) hk₂ (by simpa using hcase)
  | .ok false =>
    obtain ⟨h₂,hk₂,hcase⟩ := hr false rfl
    refine Spec.bind ((spec_rollback hk₂).mono fun w₃ _ ⟨h₃,hk₃,_⟩ => ?_)
    have hk₃' : Knows i k w₃ := by rwa [show k = { k with transaction := none } by rw [← htx]]
    exact Spec.pure (hsuppressed w₃ ((h₁.trans h₂).trans h₃) hk₃' (by simpa using hcase))

theorem spec_commit {applications : List Application} {error : TransactionalProjectionError Er}
    (hk : Knows i { k with
      transaction := some ⟨applications,some ⟨source i,(config i).selection,e.position⟩⟩ } w)
    (hdue : Due selects (source i) (config i).selection k.progress w e)
    (hpending : Pending source config i k.progress e.position)
    (hjustified : Justified i w.skips e.position applications) :
    Spec selects source config i C (fun w' _ => Onward w w' ∧
      Knows i ⟨none,some ⟨source i,(config i).selection,e.position⟩,k.own ++ applications,k.told⟩ w' ∧
      applications ⊆ w'.readModel ∧ ∀ a ∈ applications, a ∉ w'.executed) w
      (db error .commit : Runner P Ev Er _) := by
  refine Spec.db fun w' hrely hinv hlost r w'' hexecute => ?_
  have hk' := hk.rely hrely
  obtain ⟨hholder,htx,hprogress⟩ : w'.holder = some i ∧ (w'.session i).transaction = some
      ⟨applications,some ⟨source i,(config i).selection,e.position⟩⟩ ∧
      w'.progress = k.progress := by
    simpa [hlost] using hk'.held
  simp only [World.execute,htx,Option.map_some] at hexecute
  obtain rfl := (Prod.mk.inj (Option.some.inj hexecute)).2
  change _ ∧ Guar source config i w' (committed w' i applications _) ∧ _
  rw [← hprogress] at hdue hpending
  have hdue' := hdue.onward hrely.onward
  have hjustified' : Justified i w'.skips e.position applications :=
    hjustified.imp_right fun h => ⟨h.1,hrely.onward.skips h.2⟩
  have hguar := committed_guar (e := e) hholder hpending hjustified'
  have hrun : ∀ a ∈ applications, a.run = i := fun a ha => (hjustified'.own a ha).1
  have hlower : ∀ p ∈ w'.progress, p.position < e.position := fun p hp => (hpending p hp).2.2
  refine ⟨committed_inv hinv hdue' hpending hjustified',hguar,hrely.onward.trans hguar.onward,
    ⟨?_,hk'.told,.inr ⟨hholder,setTransaction_transaction w' i none,rfl⟩⟩,
    fun a ha => List.mem_append_right _ ha,
    fun a ha => not_executed hinv hlower (hjustified'.own a ha).2.1⟩
  exact (own_append_self hrun).trans (congrArg (· ++ applications) hk'.own)

theorem spec_commitAt {applications : List Application}
    (hk : Knows i { k with transaction := some ⟨applications,none⟩ } w)
    (hdue : Due selects (source i) (config i).selection k.progress w e)
    (hpending : Pending source config i k.progress e.position)
    (hjustified : Justified i w.skips e.position applications) :
    Spec selects source config i C (fun w' _ => Onward w w' ∧
      Knows i ⟨none,some ⟨source i,(config i).selection,e.position⟩,k.own ++ applications,k.told⟩ w' ∧
      applications ⊆ w'.readModel ∧ ∀ a ∈ applications, a ∉ w'.executed) w
      (commitAt (source i) (config i) e.position : Runner P Ev Er Unit) := by
  refine Spec.bind ((spec_advanceProgress hk rfl _).result.mono fun w₁ r hr => ?_)
  match r with
  | .error error => exact spec_rollbackPreservingError _
  | .ok _ =>
    obtain ⟨h₁,hk₁⟩ := hr () rfl
    have hjustified₁ : Justified i w₁.skips e.position applications :=
      hjustified.imp_right fun h => ⟨h.1,h₁.skips h.2⟩
    exact (spec_commit hk₁ (hdue.onward h₁) hpending hjustified₁).mono
      fun w₂ _ ⟨h₂,hk₂⟩ => ⟨h₁.trans h₂,hk₂⟩

/-- What came of an envelope, told by the result that the runner returns for it. -/
def Outcome (source : RunId → DeliverySourceId) (config : RunId → PostgresProjectionConfig)
    (i : RunId) (k : Known) (position : ℕ) (w : World P) : EnvelopeResult → Prop
  | .processed => ∃ a : Application, a.position = position ∧
      Knows i ⟨none,some ⟨source i,(config i).selection,position⟩,k.own ++ [a],k.told⟩ w
  | .skipped => position ∈ w.skips ∧
      Knows i ⟨none,some ⟨source i,(config i).selection,position⟩,k.own,k.told⟩ w
  | .suppressed => Passed k.progress position ∧ Knows i k w
  | .stopped => Pending source config i k.progress position ∧ Knows i k w ∧
      w.progress = k.progress

theorem spec_skipPosition (hk : Knows i k w) (htx : k.transaction = none)
    (hdue : Due selects (source i) (config i).selection k.progress w e)
    (hskip : e.position ∈ w.skips) :
    Spec selects source config i C
      (fun w' r => Onward w w' ∧ Outcome source config i k e.position w' r) w
      (skipPosition (source i) (config i) e.position : Runner P Ev Er EnvelopeResult) := by
  refine spec_whenPending hk htx (fun w₁ h₁ hk₁ hpending => ?_)
    (fun w₁ h₁ hk₁ hpassed => ⟨h₁,hpassed,hk₁⟩)
  refine Spec.bind ((spec_commitAt hk₁ (hdue.onward h₁) hpending
    (.inr ⟨rfl,h₁.skips hskip⟩)).mono fun w₂ _ ⟨h₂,hk₂,_⟩ => Spec.pure ?_)
  rw [List.append_nil] at hk₂
  exact ⟨h₁.trans h₂,h₂.skips (h₁.skips hskip),hk₂⟩

theorem write_quiet (hinv : Inv selects w) (i : RunId) (a : Application) (n : ℕ) :
    Quiet i w { w.write i a with applications := n } := by
  unfold World.write
  cases htx : (w.session i).transaction with
  | none => exact ⟨fun _ _ => rfl,fun _ _ => Iff.rfl,hinv.holder i,rfl,rfl,rfl,rfl,rfl,rfl⟩
  | some transaction =>
    refine ⟨fun j hij => Function.update_of_ne (Ne.symm hij) _ _,fun _ _ => Iff.rfl,fun h => ?_,
      rfl,rfl,rfl,rfl,rfl,rfl⟩
    simpa [World.setTransaction] using hinv.holder i h

theorem spec_apply (hk : Knows i { k with transaction := some {} } w) (event : Ev)
    (position : ℕ) :
    Spec selects source config i C (fun w' (r : Except Er Application) => Onward w w' ∧
      ∃ a : Application, Knows i { k with transaction := some ⟨[a],none⟩ } w' ∧
        ∀ a', r = .ok a' → a' = a ∧ a.run = i ∧ a.position = position ∧ a.succeeded = true) w
      (ask (.apply event position) : Runner P Ev Er _) := by
  refine Spec.ask fun w' hrely hinv c r w'' hperform => ?_
  cases c with
  | applied outcome =>
    obtain ⟨rfl,rfl⟩ := Prod.mk.inj (Option.some.inj hperform)
    have hk' := hk.rely hrely
    have hquiet := write_quiet hinv i ⟨i,w'.applications,position,outcome.isOk⟩
      (w'.applications+1)
    refine ⟨hquiet.inv hinv,hquiet.guar,hrely.onward.trans hquiet.onward,
      ⟨i,w'.applications,position,outcome.isOk⟩,
      ⟨by rw [hquiet.readModel,hk'.own],by rw [hquiet.reported,hk'.told],?_⟩,?_⟩
    · rcases hk'.held with hlost | ⟨hholder,htx,hprogress⟩
      · left
        unfold World.write
        cases htx : (w'.session i).transaction <;> simpa [World.setTransaction] using hlost
      · refine .inr ⟨?_,?_,hquiet.progress.trans hprogress⟩
        · simpa [World.write,htx,World.setTransaction] using hholder
        · simp [World.write,htx,World.setTransaction]
    · intro a' ha'
      cases outcome with
      | error error => cases ha'
      | ok _ => exact ⟨(Except.ok.inj ha').symm,rfl,rfl,rfl⟩
  | _ => cases hperform

theorem spec_onError (hk : Knows i k w) (position : ℕ) (error : Er) (attempt : ℕ) :
    Spec selects source config i C (fun w' (decision : ProjectionFailureDecision) =>
      Onward w w' ∧ Knows i k w' ∧ (decision = .skip → position ∈ w'.skips)) w
      (ask (.onError position error attempt) : Runner P Ev Er _) := by
  refine Spec.ask fun w' hrely hinv c r w'' hperform => ?_
  have hk' := hk.rely hrely
  cases c with
  | decided decision =>
    obtain ⟨rfl,rfl⟩ := Prod.mk.inj (Option.some.inj hperform)
    by_cases hskip : decision = .skip
    · rw [if_pos hskip]
      have honward : Onward w' { w' with skips := position :: w'.skips } :=
        .of_log_eq rfl (fun _ h => List.mem_cons_of_mem _ h) fun _ h => h
      exact ⟨hinv.keep honward hinv.holder rfl rfl rfl,
        ⟨honward,fun _ _ => rfl,fun _ _ h => h,fun _ _ => rfl,⟨[],by simp,by simp⟩,.inl ⟨rfl,rfl⟩⟩,
        hrely.onward.trans honward,⟨hk'.own,hk'.told,hk'.held⟩,fun _ => List.mem_cons_self⟩
    · rw [if_neg hskip]
      exact ⟨hinv,(Quiet.refl hinv.holder i).guar,hrely.onward,hk',fun h => absurd h hskip⟩
  | _ => cases hperform

/-- The work left for after the commit is begun once, since its position was not committed
before. -/
theorem spec_execute {a : Application} {error : TransactionalProjectionError Er}
    (hk : Knows i k w) (hrun : a.run = i) (hcommitted : a ∈ w.readModel)
    (hexecuted : a ∉ w.executed) :
    Spec selects source config i C (fun w' _ => Onward w w' ∧ Knows i k w') w
      ((ask (.execute a) : Runner P Ev Er _) >>= orThrow error) := by
  have hexecute : ∀ w', Rely i w w' → Inv selects w' →
      Inv selects { w' with executed := w'.executed ++ [a] } ∧
      Guar source config i w' { w' with executed := w'.executed ++ [a] } := by
    intro w' hrely hinv
    have hnew : a ∉ w'.executed := by
      intro ha
      have hown : a ∈ own i w'.executed := by simpa [own,hrun] using ha
      rw [hrely.own_executed] at hown
      exact hexecuted (List.mem_of_mem_filter hown)
    constructor
    · exact ⟨hinv.logs,hinv.holder,hinv.sublist,hinv.accounted,hinv.succeeded,hinv.last,
        List.nodup_append.mpr ⟨hinv.executed_nodup,List.nodup_singleton a,
          fun b hb c hc => by
            obtain rfl := List.mem_singleton.mp hc
            rintro rfl
            exact hnew hb⟩,
        List.append_subset.mpr ⟨hinv.executed,
          List.cons_subset.mpr ⟨hrely.onward.readModel hcommitted,List.nil_subset _⟩⟩⟩
    · exact ⟨.of_log_eq rfl (fun _ h => h) fun _ h => h,fun _ _ => rfl,fun _ _ h => h,
        fun _ _ => rfl,⟨[a],rfl,by simpa using hrun⟩,.inl ⟨rfl,rfl⟩⟩
  refine Spec.bind (Spec.ask fun w' hrely hinv c r w'' hperform => ?_)
  have hk' := hk.rely hrely
  obtain ⟨hinv',hguar⟩ := hexecute w' hrely hinv
  cases c with
  | ok =>
    obtain ⟨rfl,rfl⟩ := Prod.mk.inj (Option.some.inj hperform)
    exact ⟨hinv',hguar,Spec.pure ⟨hrely.onward.trans hguar.onward,⟨hk'.own,hk'.told,hk'.held⟩⟩⟩
  | fail =>
    obtain ⟨rfl,rfl⟩ := Prod.mk.inj (Option.some.inj hperform)
    exact ⟨hinv',hguar,Spec.throw _⟩
  | _ => cases hperform

theorem spec_retrySleep (hk : Knows i k w) (attempt : ℕ) :
    Spec selects source config i C (fun w' _ => Onward w w' ∧ Knows i k w') w
      (ask (.retrySleep attempt) : Runner P Ev Er _) := by
  refine Spec.ask fun w' hrely hinv c r w'' hperform => ?_
  cases c with
  | ok =>
    obtain ⟨_,rfl⟩ := Prod.mk.inj (Option.some.inj hperform)
    exact ⟨hinv,(Quiet.refl hinv.holder i).guar,hrely.onward,hk.rely hrely⟩
  | _ => cases hperform

theorem spec_attempt (htx : k.transaction = none) (event : Ev) (retriesLeft attempt : ℕ)
    (hk : Knows i { k with transaction := some {} } w)
    (hdue : Due selects (source i) (config i).selection k.progress w e)
    (hpending : Pending source config i k.progress e.position)
    (hretry : ∀ n w', retriesLeft = n+1 → Onward w w' → Knows i k w' →
      Spec selects source config i C
        (fun w'' r => Onward w' w'' ∧ Outcome source config i k e.position w'' r) w'
        (do
          let _ ← ask (.retrySleep attempt)
          whenPending (source i) (config i) e.position
            (applyLoop (source i) (config i) event e.position n (attempt+1)) :
          Runner P Ev Er EnvelopeResult)) :
    Spec selects source config i C
      (fun w' r => Onward w w' ∧ Outcome source config i k e.position w' r) w
      (applyLoop (source i) (config i) event e.position retriesLeft attempt :
        Runner P Ev Er EnvelopeResult) := by
  rw [applyLoop.eq_def]
  refine Spec.bind ((spec_apply hk event e.position).mono fun w₁ r ⟨h₁,a,hk₁,hr⟩ => ?_)
  match r with
  | .ok a' =>
    obtain ⟨rfl,hrun,hposition,hsucceeded⟩ := hr a' rfl
    have hjustified : Justified i w₁.skips e.position [a'] :=
      .inl ⟨a',rfl,hrun,hposition,hsucceeded⟩
    refine Spec.bind ((spec_commitAt hk₁ (hdue.onward h₁) hpending hjustified).mono
      fun w₂ _ ⟨h₂,hk₂,hmem,hnew⟩ => ?_)
    refine Spec.bind ((spec_execute hk₂ hrun (hmem List.mem_cons_self)
      (hnew a' List.mem_cons_self)).mono fun w₃ _ ⟨h₃,hk₃⟩ => Spec.pure ?_)
    exact ⟨(h₁.trans h₂).trans h₃,a',hposition,hk₃⟩
  | .error error =>
    refine Spec.bind ((spec_onError hk₁ e.position error attempt).mono
      fun w₂ decision ⟨h₂,hk₂,hskip⟩ => ?_)
    refine Spec.bind ((spec_rollback hk₂).mono fun w₃ _ ⟨h₃,hk₃,hprogress₃⟩ => ?_)
    have hk₃' : Knows i k w₃ := by rwa [show k = { k with transaction := none } by rw [← htx]]
    have h₁₃ := (h₁.trans h₂).trans h₃
    cases decision with
    | retry =>
      cases retriesLeft with
      | zero => exact Spec.throw _
      | succ n => exact (hretry n w₃ rfl h₁₃ hk₃').mono fun w₄ r h => ⟨h₁₃.trans h.1,h.2⟩
    | skip =>
      exact (spec_skipPosition hk₃' htx (hdue.onward h₁₃) (h₃.skips (hskip rfl))).mono
        fun w₄ r h => ⟨h₁₃.trans h.1,h.2⟩
    | stop => exact Spec.pure ⟨h₁₃,hpending,hk₃',hprogress₃⟩
    | fatal => exact Spec.throw _

theorem spec_applyLoop (htx : k.transaction = none) (event : Ev) (retriesLeft attempt : ℕ)
    (hk : Knows i { k with transaction := some {} } w)
    (hdue : Due selects (source i) (config i).selection k.progress w e)
    (hpending : Pending source config i k.progress e.position) :
    Spec selects source config i C
      (fun w' r => Onward w w' ∧ Outcome source config i k e.position w' r) w
      (applyLoop (source i) (config i) event e.position retriesLeft attempt :
        Runner P Ev Er EnvelopeResult) := by
  induction retriesLeft generalizing w attempt with
  | zero => exact spec_attempt htx event 0 attempt hk hdue hpending fun _ _ h => nomatch h
  | succ retriesLeft ih =>
    refine spec_attempt htx event (retriesLeft+1) attempt hk hdue hpending fun n w₁ hn h₁ hk₁ => ?_
    obtain rfl := Nat.succ.inj hn
    refine Spec.bind ((spec_retrySleep hk₁ attempt).mono fun w₂ _ ⟨h₂,hk₂⟩ => ?_)
    refine spec_whenPending hk₂ htx (fun w₃ h₃ hk₃ _ => ?_)
      (fun w₃ h₃ hk₃ hpassed => ⟨h₂.trans h₃,hpassed,hk₃⟩)
    have h₁₃ := (h₁.trans h₂).trans h₃
    exact (ih (attempt+1) hk₃ (hdue.onward h₁₃)).mono
      fun w₄ r h => ⟨(h₂.trans h₃).trans h.1,h.2⟩

theorem spec_processEnvelope (hk : Knows i k w) (htx : k.transaction = none)
    (hdue : Due selects (source i) (config i).selection k.progress w e) :
    Spec selects source config i C
      (fun w' r => Onward w w' ∧ Outcome source config i k e.position w' r) w
      (processEnvelope (source i) (config i) e : Runner P Ev Er EnvelopeResult) := by
  refine spec_whenPending hk htx (fun w₁ h₁ hk₁ hpending => ?_)
    (fun w₁ h₁ hk₁ hpassed => ⟨h₁,hpassed,hk₁⟩)
  refine Spec.bind (Spec.ask fun w' hrely hinv c r w'' hperform => ?_)
  cases c with
  | decoded event =>
    obtain ⟨rfl,rfl⟩ := Prod.mk.inj (Option.some.inj hperform)
    refine ⟨hinv,(Quiet.refl hinv.holder i).guar,?_⟩
    match event with
    | .error _ => exact spec_rollbackPreservingError _
    | .ok event =>
      have h₁' := h₁.trans hrely.onward
      exact (spec_applyLoop htx event _ 1 (hk₁.rely hrely) (hdue.onward h₁') hpending).mono
        fun w₂ r h => ⟨h₁'.trans h.1,h.2⟩
  | _ => cases hperform

theorem spec_loadValidatedProgress (hk : Knows i k w) (htx : k.transaction = none) :
    Spec selects source config i C (fun w' after => Onward w w' ∧ Knows i k w' ∧
      ∀ a ∈ after, Passed k.progress a) w
      (loadValidatedProgress (source i) (config i) : Runner P Ev Er (Option ℕ)) := by
  have hidle : k = { k with transaction := none } := by rw [← htx]
  refine Spec.bind ((spec_begin hk htx).mono fun w₁ _ ⟨h₁,hk₁⟩ => ?_)
  refine Spec.bind ((spec_loadProgress hk₁ rfl).result.mono fun w₂ r hr => ?_)
  match r with
  | .error e => exact spec_rollbackPreservingError e
  | .ok none =>
    obtain ⟨h₂,hk₂,_⟩ := hr none rfl
    refine Spec.bind ((spec_rollback hk₂).mono fun w₃ _ ⟨h₃,hk₃,_⟩ => ?_)
    exact Spec.pure ⟨(h₁.trans h₂).trans h₃,by rwa [hidle],by simp⟩
  | .ok (some progress) =>
    obtain ⟨h₂,hk₂,hprogress⟩ := hr (some progress) rfl
    match hvalidate : (validateIdentity (source i) (config i) progress :
        Except (TransactionalProjectionError Er) Unit) with
    | .error e =>
      simp only [hvalidate]
      exact spec_rollbackPreservingError e
    | .ok _ =>
      simp only [hvalidate]
      refine Spec.bind ((spec_rollback hk₂).mono fun w₃ _ ⟨h₃,hk₃,_⟩ => ?_)
      refine Spec.pure ⟨(h₁.trans h₂).trans h₃,by rwa [hidle],fun a ha => ?_⟩
      obtain rfl := Option.some.inj ha
      exact ⟨progress,hprogress.symm,le_rfl⟩

end Steps

end TransactionalProjection
end EventCore
