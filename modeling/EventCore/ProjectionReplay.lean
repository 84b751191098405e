import EventCore.ResetLeadership

/-! Every reset commits all of it or nothing, and a replay after a reset goes on under the same
leadership as a run does on what the reset has left. -/
namespace EventCore
namespace ProjectionReplay
open Interaction Runs ProjectionSource ProjectionReset ResetRules ResetLeadership
open TransactionalRunner hiding Request Answer ask
open ProjectionDestination hiding World Choice

variable {P Ev Er Cb M α β ε : Type}
variable {selects : ProjectionSelectionId → PersistedEventEnvelope P → Bool} {job : RunId → Job}
  {source : RunId → DeliverySourceId} {config : RunId → PostgresProjectionConfig} {i : RunId}
  {w w' : World P M}

def Cleared (i : RunId) (w : World P M) : Prop :=
  ∃ content, own i w = [(i,⟨some content,true⟩,{})]

def Failed (i : RunId) (w : World P M) : ProjectionResetError Cb → Prop
  | .commitIndeterminate | .leadershipLost => own i w = [] ∨ Cleared i w
  | _ => own i w = []

theorem Failed.of_own (h : own i w = []) (e : ProjectionResetError Cb) : Failed i w e := by
  cases e with
  | commitIndeterminate | leadershipLost => exact .inl h
  | _ => exact h

section Spec

variable (selects job source config)

/-- The part ends in `Q` if it succeeds and in `E` if it fails. -/
def Spec (i : RunId) (E : World P M → ε → Prop) (Q : World P M → α → Prop) (w : World P M)
    (p : Resetter P Ev Er Cb ε α) : Prop :=
  (rules selects job source config).Meets i (fun w (r : Option (Except ε α)) => match r with
    | none => True
    | some (.error e) => E w e
    | some (.ok a) => Q w a) w p

variable {selects job source config} {E : World P M → ε → Prop}

theorem Spec.pure {Q : World P M → α → Prop} {a : α} (h : Q w a) :
    Spec selects job source config i E Q w (pure a : Resetter P Ev Er Cb ε α) :=
  h

theorem Spec.bind {Q : World P M → β → Prop} {p : Resetter P Ev Er Cb ε α}
    {f : α → Resetter P Ev Er Cb ε β}
    (hp : Spec selects job source config i E
      (fun w a => Spec selects job source config i E Q w (f a)) w p) :
    Spec selects job source config i E Q w (p >>= f) :=
  Rules.Meets.bindExcept (hp.mono fun _ r hr => match r with
    | none => hr
    | some (.error _) => hr
    | some (.ok _) => hr)

theorem Spec.mono {Q Q' : World P M → α → Prop} {p : Resetter P Ev Er Cb ε α}
    (hp : Spec selects job source config i E Q w p) (h : ∀ w a, Q w a → Q' w a) :
    Spec selects job source config i E Q' w p :=
  Rules.Meets.mono (fun w r hr => match r with
    | none => hr
    | some (.error _) => hr
    | some (.ok a) => h w a hr) hp

theorem Spec.mono_error {E' : World P M → ε → Prop} {Q : World P M → α → Prop}
    {p : Resetter P Ev Er Cb ε α} (hp : Spec selects job source config i E Q w p)
    (h : ∀ w e, E w e → E' w e) : Spec selects job source config i E' Q w p :=
  Rules.Meets.mono (fun w r hr => match r with
    | none => hr
    | some (.error e) => h w e hr
    | some (.ok _) => hr) hp

theorem Spec.askDb {d : DbRequest} {Q : World P M → Except Unit d.Reply → Prop}
    (hd : d ≠ .commit) (hfail : ∀ w', Rely i w w' → Q w' (.error ()))
    (h : ∀ w' r w'', Rely i w w' → Inv w' → ¬ Lost i w' → Quiet i w' w'' →
      w'.execute i d = some (r,w'') → Q w'' (.ok r) ∧ Q w'' (.error ())) :
    Spec selects job source config i E Q w
      (ask (.runner (.db d)) : Resetter P Ev Er Cb ε _) := by
  intro w' hrely hinv c a w'' hperform
  cases c with
  | reset _ _ => cases hperform
  | runner c =>
    rcases performDb_cases hperform with ⟨rfl,rfl⟩ | ⟨r,hlost,hexecute,ha⟩
    · exact ⟨hinv,(Quiet.refl hinv i).guar,hfail w'' hrely⟩
    · have hquiet := execute_quiet hinv hlost hd hexecute
      obtain ⟨hok,herror⟩ := h w' r w'' hrely hinv hlost hquiet hexecute
      refine ⟨hquiet.inv hinv,hquiet.guar,?_⟩
      rcases ha with rfl | rfl
      · exact hok
      · exact herror

end Spec

section Reset

/-- A call that leads, has committed nothing yet and has this transaction open. -/
structure Stage (i : RunId) (transaction : Option Transaction) (reset : Reset M)
    (w : World P M) : Prop where
  own : own i w = []
  held : Lost i w ∨ w.runner.holder = some i ∧
    (w.runner.session i).transaction = transaction ∧ w.pending i = reset

theorem Stage.rely {transaction : Option Transaction} {reset : Reset M}
    (h : Stage i transaction reset w) (hrely : Rely i w w') : Stage i transaction reset w' := by
  refine ⟨hrely.own.trans h.own,?_⟩
  rcases h.held with hlost | ⟨hholder,htransaction,hpending⟩
  · exact .inl (hrely.lost hlost)
  · rcases hrely.holder hholder with hlost | ⟨hholder',_⟩
    · exact .inl hlost
    · rcases hrely.session with ⟨hsession,hsame⟩ | hlost
      · exact .inr ⟨hholder',by rw [hsession,htransaction],hsame.trans hpending⟩
      · exact .inl hlost

theorem Spec.askSilent {E : World P M → ε → Prop} {d : DbRequest} (hd : d ≠ .commit)
    {C : List (RunId × Reset M × Transaction)} (h : own i w = C) :
    Spec selects job source config i E (fun w' _ => own i w' = C) w
      (ask (.runner (.db d)) : Resetter P Ev Er Cb ε _) := by
  refine Spec.askDb hd (fun w' hrely => hrely.own.trans h) ?_
  intro w' _ w'' hrely _ _ hquiet _
  have hown : own i w'' = C := hquiet.own_eq.trans (hrely.own.trans h)
  exact ⟨hown,hown⟩

theorem spec_rollbackPreservingResetError {Q : World P M → α → Prop} (h : own i w = [])
    (e : ProjectionResetError Cb) :
    Spec selects job source config i (Failed i) Q w
      (rollbackPreservingResetError e : Resetter P Ev Er Cb _ α) := by
  refine Spec.bind ((Spec.askSilent (by simp) h).mono fun w' r hown => ?_)
  cases r with
  | ok _ => exact Failed.of_own hown e
  | error _ => exact Failed.of_own hown (.leadershipLost : ProjectionResetError Cb)

structure Renewed (i : RunId) (m : M) (w : World P M) : Prop where
  own : own i w = [(i,⟨some m,true⟩,{})]
  holder : w.runner.holder = some i
  session : w.runner.session i = {}
  pending : w.pending i = {}
  undisturbed : Undisturbed i w
  content : w.content = m
  readModel : w.runner.readModel = []
  progress : w.runner.progress = none
  called : (i,true,m) ∈ w.callbacks

theorem Renewed.leading {content : M} (h : Renewed i content w) : Leading i w :=
  .inr ⟨h.holder,h.pending,h.undisturbed⟩

theorem commit_renewed {content : M} (hjob : job i ≠ .run) (hinv : Inv w)
    (hstage : Stage i (some {}) ⟨some content,true⟩ w) (hlost : ¬ Lost i w)
    (hcalled : (i,true,content) ∈ w.callbacks) :
    Inv (w.commit i {}) ∧ Guar job source config i w (w.commit i {}) ∧
      Renewed i content (w.commit i {}) := by
  obtain ⟨hholder,_,hpending⟩ := hstage.held.resolve_left hlost
  have hundisturbed := undisturbed_of_own hstage.own
  have hreset : IsReset i w (w.pending i) {} := ⟨hstage.own,rfl,content,hpending,hcalled⟩
  have hallowed : Allowed i w (w.pending i) {} (job i) := by
    cases hj : job i with
    | run => exact absurd hj hjob
    | reset => exact hreset
    | resetAndReplay => exact .inl hreset
  obtain ⟨hinv',hguar⟩ : Inv (w.commit i {}) ∧ Guar job source config i w (w.commit i {}) :=
    commit_sound hinv hholder hundisturbed hallowed
  refine ⟨hinv',hguar,?_,hholder,?_,Function.update_self _ _ _,hundisturbed.append rfl,?_,?_,?_,
    hcalled⟩
  · have hwrites : (w.commit i {}).writes = w.writes ++ [(i,w.pending i,({} : Transaction))] := rfl
    rw [own,hwrites,List.filter_append,show w.writes.filter _ = [] from hstage.own,hpending]
    simp
  · have hsession : (w.commit i {}).runner.session i = ⟨none,(w.runner.session i).lost⟩ :=
      Function.update_self _ _ _
    rw [hsession,Bool.eq_false_iff.mpr hlost]
  · simp [World.commit,hpending]
  · simp [World.commit,hpending]
  · simp [World.commit,hpending]

theorem spec_commit {m : M} (hjob : job i ≠ .run) (h : Stage i (some {}) ⟨some m,true⟩ w)
    (hcalled : (i,true,m) ∈ w.callbacks) {E : World P M → ε → Prop} :
    Spec selects job source config i E
      (fun w' r => match r with
        | .ok _ => Renewed i m w'
        | .error _ => own i w' = [] ∨ Cleared i w') w
      (ask (.runner (.db .commit)) : Resetter P Ev Er Cb ε _) := by
  intro w' hrely hinv c a w'' hperform
  have hstage := h.rely hrely
  cases c with
  | reset _ _ => cases hperform
  | runner c =>
    rcases performDb_cases hperform with ⟨rfl,rfl⟩ | ⟨r,hlost,hexecute,ha⟩
    · exact ⟨hinv,(Quiet.refl hinv i).guar,.inl hstage.own⟩
    · obtain ⟨_,htransaction,_⟩ := hstage.held.resolve_left hlost
      simp only [ProjectionReset.World.execute,htransaction,Option.map_some] at hexecute
      obtain ⟨_,rfl⟩ := Prod.mk.inj (Option.some.inj hexecute)
      obtain ⟨hinv',hguar,hrenewed⟩ :=
        commit_renewed hjob hinv hstage hlost (hrely.callbacks hcalled)
      refine ⟨hinv',hguar,?_⟩
      rcases ha with rfl | rfl
      · exact hrenewed
      · exact .inr ⟨m,hrenewed.own⟩

theorem spec_deleteProgress {m : M} (h : Stage i (some {}) ⟨some m,false⟩ w)
    (hcalled : (i,true,m) ∈ w.callbacks) {E : World P M → ε → Prop} :
    Spec selects job source config i E
      (fun w' r => own i w' = [] ∧ (r = .ok () →
        Stage i (some {}) ⟨some m,true⟩ w' ∧ (i,true,m) ∈ w'.callbacks)) w
      (ask .deleteProgress : Resetter P Ev Er Cb ε _) := by
  intro w' hrely hinv c a w'' hperform
  have hstage := h.rely hrely
  have hdeleted : ∀ {v}, w'.deleteProgress i = some v → Inv v ∧ Guar job source config i w' v ∧
      Stage i (some {}) ⟨some m,true⟩ v ∧ (i,true,m) ∈ v.callbacks := by
    intro v hv
    obtain ⟨hquiet,rfl⟩ := deleteProgress_quiet hinv hv
    refine ⟨hquiet.inv hinv,hquiet.guar,⟨hstage.own,hstage.held.imp_right ?_⟩,
      hrely.callbacks hcalled⟩
    rintro ⟨hholder,htransaction,hpending⟩
    refine ⟨hholder,htransaction,?_⟩
    simp [World.setPending,hpending]
  cases c with
  | reset _ _ => cases hperform
  | runner c =>
    cases c with
    | fail =>
      obtain ⟨rfl,rfl⟩ := Prod.mk.inj (Option.some.inj hperform)
      exact ⟨hinv,(Quiet.refl hinv i).guar,hstage.own,fun h => nomatch h⟩
    | ok =>
      obtain ⟨v,hv,heq⟩ := Option.map_eq_some_iff.mp hperform
      obtain ⟨rfl,rfl⟩ := Prod.mk.inj heq
      obtain ⟨hinv',hguar,hstage',hcalled'⟩ := hdeleted hv
      exact ⟨hinv',hguar,hstage'.own,fun _ => ⟨hstage',hcalled'⟩⟩
    | unacknowledged =>
      obtain ⟨v,hv,heq⟩ := Option.map_eq_some_iff.mp hperform
      obtain ⟨rfl,rfl⟩ := Prod.mk.inj heq
      obtain ⟨hinv',hguar,hstage',_⟩ := hdeleted hv
      exact ⟨hinv',hguar,hstage'.own,fun h => nomatch h⟩
    | _ => cases hperform

/-- What reset code meets: progress of the right identity that is still what is stored. -/
structure Checked (source : RunId → DeliverySourceId) (config : RunId → PostgresProjectionConfig)
    (i : RunId) (w : World P M) : Prop where
  stage : Stage i (some {}) {} w
  loaded : Matches (source i) (config i).selection (w.loaded i)
  stored : Lost i w ∨ w.runner.progress = w.loaded i

theorem Checked.rely (h : Checked source config i w) (hrely : Rely i w w') :
    Checked source config i w' := by
  refine ⟨h.stage.rely hrely,by rw [hrely.loaded]; exact h.loaded,?_⟩
  rcases h.stored with hlost | hstored
  · exact .inl (hrely.lost hlost)
  · rcases h.stage.held with hlost | ⟨hholder,_,_⟩
    · exact .inl (hrely.lost hlost)
    · rcases hrely.holder hholder with hlost | ⟨_,hsame⟩
      · exact .inl hlost
      · exact .inr (by rw [hsame.progress,hrely.loaded,hstored])

theorem spec_reset (h : Checked source config i w) {E : World P M → ε → Prop} :
    Spec selects job source config i E
      (fun w' r => own i w' = [] ∧ (r = .ok () →
        ∃ m, Stage i (some {}) ⟨some m,false⟩ w' ∧ (i,true,m) ∈ w'.callbacks)) w
      (ask .reset : Resetter P Ev Er Cb ε _) := by
  intro w' hrely hinv c a w'' hperform
  have hchecked := h.rely hrely
  cases c with
  | runner _ => cases hperform
  | reset outcome m =>
    obtain ⟨rfl,rfl⟩ := Prod.mk.inj (Option.some.inj hperform)
    obtain ⟨hinv',hguar⟩ : Inv (w'.callback i outcome.isOk m) ∧
        Guar job source config i w' (w'.callback i outcome.isOk m) :=
      callback_sound hinv hchecked.loaded hchecked.stored outcome.isOk m
    refine ⟨hinv',hguar,?_⟩
    rw [callback_eq]
    refine ⟨hchecked.stage.own,?_⟩
    rintro rfl
    refine ⟨m,⟨hchecked.stage.own,hchecked.stage.held.imp_right ?_⟩,?_⟩
    · rintro ⟨hholder,htransaction,hpending⟩
      refine ⟨hholder,htransaction,?_⟩
      simp [htransaction,hpending]
    · exact List.mem_append_right _ (List.mem_singleton.mpr rfl)

theorem spec_clear (hjob : job i ≠ .run) (h : Checked source config i w) :
    Spec selects job source config i (Failed i) (fun w' _ => ∃ m, Renewed i m w') w
      (clear : Resetter P Ev Er Cb _ Unit) := by
  refine Spec.bind ((spec_reset h).mono fun w r hr => ?_)
  cases r with
  | error e => exact spec_rollbackPreservingResetError hr.1 _
  | ok _ =>
    obtain ⟨m,hstage,hcalled⟩ := hr.2 rfl
    refine Spec.bind ((spec_deleteProgress hstage hcalled).mono fun w r hr => ?_)
    cases r with
    | error e => exact spec_rollbackPreservingResetError hr.1 _
    | ok _ =>
      obtain ⟨hstage,hcalled⟩ := hr.2 rfl
      refine Spec.bind ((spec_commit hjob hstage hcalled).mono fun w r hr => ?_)
      cases r with
      | error e => exact hr
      | ok _ => exact ⟨m,hr⟩

theorem mapErr_db (f : TransactionalProjectionError Er → ε) (e : TransactionalProjectionError Er)
    (d : DbRequest) :
    (mapErr f (db e d) : Resetter P Ev Er Cb ε _) = ask (.runner (.db d)) >>= fun r => match r with
      | .ok a => pure a
      | .error _ => throw (f e) := by
  refine congrArg (Program.ask _) (funext fun r => ?_)
  cases r <;> rfl

theorem lift_loadProgress :
    (ExceptT.lift (ofRunner loadProgress.run) : Resetter P Ev Er Cb ε _) =
      ask (.runner (.db .loadProgress)) >>= fun r => pure (r.mapError fun _ => .progressStore) := by
  refine congrArg (Program.ask _) (funext fun r => ?_)
  cases r <;> rfl

theorem checkIdentity_eq_ok {progress : Option ProjectionProgress}
    {selection : ProjectionSelectionId} {s : DeliverySourceId}
    (h : (checkIdentity s selection progress : Except (ProjectionResetError Cb) Unit) = .ok ()) :
    Matches s selection progress := by
  rintro p rfl
  simp only [checkIdentity] at h
  split_ifs at h with hsource hselection
  exact ⟨not_not.mp hsource,not_not.mp hselection⟩

theorem spec_begin (h : Stage i none {} w) {E : World P M → ε → Prop} :
    Spec selects job source config i E
      (fun w' r => own i w' = [] ∧ (r = .ok () → Stage i (some {}) {} w')) w
      (ask (.runner (.db .begin)) : Resetter P Ev Er Cb ε _) := by
  refine Spec.askDb (by simp) (fun w' hrely => ⟨(h.rely hrely).own,fun h => nomatch h⟩) ?_
  intro w' r w'' hrely _ hlost hquiet hexecute
  have hown : own i w'' = [] := hquiet.own_eq.trans (h.rely hrely).own
  refine ⟨⟨hown,fun _ => ⟨hown,.inr ?_⟩⟩,hown,fun h => nomatch h⟩
  obtain ⟨hholder,htransaction,_⟩ := (h.rely hrely).held.resolve_left hlost
  simp only [ProjectionReset.World.execute,ProjectionDestination.World.execute,htransaction,
    Option.map_some] at hexecute
  obtain ⟨_,rfl⟩ := Prod.mk.inj (Option.some.inj hexecute)
  refine ⟨hholder,?_,Function.update_self _ _ _⟩
  simp [ProjectionDestination.World.setTransaction]

theorem spec_loadProgress (h : Stage i (some {}) {} w) {E : World P M → ε → Prop} :
    Spec selects job source config i E
      (fun w' r => own i w' = [] ∧ ∀ progress, r = .ok progress →
        Stage i (some {}) {} w' ∧ w'.loaded i = progress ∧
          (Lost i w' ∨ w'.runner.progress = progress)) w
      (ask (.runner (.db .loadProgress)) : Resetter P Ev Er Cb ε _) := by
  refine Spec.askDb (by simp) (fun w' hrely => ⟨(h.rely hrely).own,fun _ h => nomatch h⟩) ?_
  intro w' r w'' hrely _ hlost hquiet hexecute
  have hstage := h.rely hrely
  have hown : own i w'' = [] := hquiet.own_eq.trans hstage.own
  refine ⟨⟨hown,fun progress hr => ?_⟩,hown,fun _ h => nomatch h⟩
  obtain rfl := Except.ok.inj hr
  obtain ⟨hholder,htransaction,hpending⟩ := hstage.held.resolve_left hlost
  simp only [ProjectionReset.World.execute,htransaction,hpending,Option.map_some] at hexecute
  obtain ⟨rfl,rfl⟩ := Prod.mk.inj (Option.some.inj hexecute)
  exact ⟨⟨hstage.own,.inr ⟨hholder,htransaction,hpending⟩⟩,Function.update_self _ _ _,.inr rfl⟩

theorem spec_resetWithLeader (hjob : job i ≠ .run) (h : Stage i none {} w) :
    Spec selects job source config i (Failed i) (fun w' _ => ∃ m, Renewed i m w') w
      (resetWithLeader (source i) (config i).selection : Resetter P Ev Er Cb _ Unit) := by
  unfold resetWithLeader
  rw [mapErr_db,lift_loadProgress]
  refine Spec.bind (Spec.bind ((spec_begin h).mono fun w r hr => ?_))
  cases r with
  | error _ => exact Failed.of_own hr.1 (.leadershipLost : ProjectionResetError Cb)
  | ok _ =>
    refine Spec.bind (Spec.bind ((spec_loadProgress (hr.2 rfl)).mono fun w r hr => ?_))
    cases r with
    | error _ => exact spec_rollbackPreservingResetError hr.1 _
    | ok progress =>
      obtain ⟨hstage,hloaded,hstored⟩ := hr.2 progress rfl
      refine Spec.pure ?_
      simp only [Except.mapError]
      cases hcheck : (checkIdentity (source i) (config i).selection progress :
        Except (ProjectionResetError Cb) Unit) with
      | error e => exact spec_rollbackPreservingResetError hr.1 e
      | ok _ => exact spec_clear hjob ⟨hstage,hloaded ▸ checkIdentity_eq_ok hcheck,
          by rwa [hloaded]⟩

theorem mapErr_acquireLeader (f : TransactionalProjectionError Er → ε) :
    (mapErr f acquireLeader : Resetter P Ev Er Cb ε Unit) = (do
      match ← ask (.runner .acquire) with
      | .error _ => throw (f .leadershipLost)
      | .ok _ =>
        match ← ask (.runner (.db .tryAdvisoryLock)) with
        | .error _ => throw (f .leadershipLost)
        | .ok true => pure ()
        | .ok false =>
          let _ ← ask (.runner (.db .close))
          throw (f .leadershipBusy)) := by
  refine congrArg (Program.ask _) (funext fun acquired => ?_)
  cases acquired with
  | error _ => rfl
  | ok _ =>
    refine congrArg (Program.ask _) (funext fun locked => ?_)
    rcases locked with _ | (_ | _) <;> rfl

theorem spec_acquire (hfresh : Fresh i w) {E : World P M → ε → Prop} :
    Spec selects job source config i E (fun w' _ => Fresh i w') w
      (ask (.runner .acquire) : Resetter P Ev Er Cb ε _) := by
  intro w' hrely hinv c a w'' hperform
  have hsame : w'' = w' := by
    cases c with
    | reset _ _ => cases hperform
    | runner c => cases c <;> cases hperform <;> rfl
  subst hsame
  exact ⟨hinv,(Quiet.refl hinv i).guar,hfresh.rely hrely⟩

theorem spec_tryAdvisoryLock (hfresh : Fresh i w) {E : World P M → ε → Prop} :
    Spec selects job source config i E
      (fun w' r => own i w' = [] ∧ (r = .ok true → Stage i none {} w')) w
      (ask (.runner (.db .tryAdvisoryLock)) : Resetter P Ev Er Cb ε _) := by
  refine Spec.askDb (by simp) (fun v hrely => ⟨(hfresh.rely hrely).own,fun h => nomatch h⟩) ?_
  intro v r v' hrely _ hlost hquiet hexecute
  have hown : own i v' = [] := hquiet.own_eq.trans (hfresh.rely hrely).own
  refine ⟨⟨hown,fun hr => ⟨hown,.inr ?_⟩⟩,hown,fun h => nomatch h⟩
  obtain rfl := Except.ok.inj hr
  obtain ⟨hnone,hpending⟩ := (hfresh.rely hrely).session.resolve_left hlost
  rw [execute_lock hexecute]
  exact ⟨rfl,hnone,hpending⟩

theorem spec_acquireLeader (f : TransactionalProjectionError Er → ε) (hfresh : Fresh i w) :
    Spec selects job source config i (fun w' _ => own i w' = []) (fun w' _ => Stage i none {} w') w
      (mapErr f acquireLeader : Resetter P Ev Er Cb ε Unit) := by
  rw [mapErr_acquireLeader]
  refine Spec.bind ((spec_acquire hfresh).mono fun w r hfresh => ?_)
  cases r with
  | error _ => exact hfresh.own
  | ok _ =>
    refine Spec.bind ((spec_tryAdvisoryLock hfresh).mono fun w r hr => ?_)
    match r with
    | .error _ => exact hr.1
    | .ok true => exact hr.2 rfl
    | .ok false => exact Spec.bind ((Spec.askSilent (by simp) hr.1).mono fun _ _ hown => hown)

theorem spec_leadReset (hjob : job i ≠ .run) (hfresh : Fresh i w) :
    Spec selects job source config i (Failed i) (fun w' _ => ∃ m, Renewed i m w') w
      (leadReset (source i) (config i).selection : Resetter P Ev Er Cb _ Unit) := by
  refine Spec.bind (Spec.mono_error (E := fun w' _ => own i w' = []) ?_ fun _ e hown =>
    Failed.of_own hown e)
  exact (spec_acquireLeader mapLeadershipError hfresh).mono fun w _ hstage =>
    spec_resetWithLeader hjob hstage

end Reset

section Calls

def Ends (i : RunId) (w : World P M) : Option (Returned Er Cb) → Prop
  | some (.error (.reset e)) => Failed i w e
  | some (.ok none) => Cleared i w
  | _ => True

theorem Ends.rely {r : Option (Returned Er Cb)} (h : Ends i w r) (hrely : Rely i w w') :
    Ends i w' r := by
  have hcleared : Cleared i w → Cleared i w' := fun ⟨m,hm⟩ => ⟨m,hrely.own.trans hm⟩
  match r with
  | some (.error (.reset e)) =>
    cases e with
    | commitIndeterminate | leadershipLost => exact h.imp hrely.own.trans hcleared
    | _ => exact hrely.own.trans h
  | some (.ok none) => exact hcleared h
  | some (.error (.replay _)) => trivial
  | some (.ok (some _)) => trivial
  | none => trivial

theorem spec_release (h : Cleared i w) :
    Spec selects job source config i (Failed i) (fun w' _ => Cleared i w') w
      (mapErr mapLeadershipError release : Resetter P Ev Er Cb (ProjectionResetError Cb) Unit) := by
  obtain ⟨m,hown⟩ := h
  have hrelease : (mapErr mapLeadershipError release :
      Resetter P Ev Er Cb (ProjectionResetError Cb) Unit) =
      mapErr mapLeadershipError (db .leadershipLost .advisoryUnlock) >>= fun _ =>
        mapErr mapLeadershipError (db .leadershipLost .close) := mapErr_bind _ _ _
  rw [hrelease,mapErr_db]
  refine Spec.bind (Spec.bind ((Spec.askSilent (by simp) hown).mono fun w r hown => ?_))
  cases r with
  | error _ => exact .inr ⟨m,hown⟩
  | ok _ =>
    change Spec selects job source config i (Failed i) _ w
      (mapErr mapLeadershipError (db .leadershipLost .close) :
        Resetter P Ev Er Cb (ProjectionResetError Cb) Unit)
    rw [mapErr_db]
    refine Spec.bind ((Spec.askSilent (by simp) hown).mono fun w r hown => ?_)
    cases r with
    | error _ => exact .inr ⟨m,hown⟩
    | ok _ => exact ⟨m,hown⟩

theorem spec_resetTransactionalProjection (hjob : job i ≠ .run) (hfresh : Fresh i w) :
    Spec selects job source config i (Failed i) (fun w' _ => Cleared i w') w
      (resetTransactionalProjection (source i) (config i).selection :
        Resetter P Ev Er Cb _ Unit) :=
  Spec.bind ((spec_leadReset hjob hfresh).mono fun _ _ ⟨m,hrenewed⟩ =>
    spec_release ⟨m,hrenewed.own⟩)

theorem replay_meets (hjob : job i ≠ .reset) (hleading : Leading i w) (n : ℕ) :
    (rules selects job source config).Meets i (Ends i) w
      (some <$> mapErr .replay (runTransactionalProjectionWithLeader (source i) (config i) n) :
        Resetter P Ev Er Cb (ProjectionResetAndReplayError Er Cb) _).run := by
  have hleads : (runTransactionalProjectionWithLeader (source i) (config i) n :
      Runner P Ev Er _).run.Until LeaderRequests.Inside _ _ :=
    LeaderRequests.leads_runTransactionalProjectionWithLeader (source i) (config i) n
  rw [ExceptT.run_map]
  refine Rules.Meets.bind (Rules.Meets.bind ((leads_meets hjob hleads hleading).mono
    fun w r _ => ?_))
  match r with
  | none => trivial
  | some (.ok _) => trivial
  | some (.error _) => trivial

def replayAfter (source : DeliverySourceId) (config : PostgresProjectionConfig) (n : ℕ) :
    Except (ProjectionResetError Cb) Unit →
      Program (Request P Ev Er) (Answer P Ev Er Cb) (Returned Er Cb)
  | .error e => .done (.error (.reset e))
  | .ok _ => (some <$> mapErr .replay (runTransactionalProjectionWithLeader source config n) :
      Resetter P Ev Er Cb (ProjectionResetAndReplayError Er Cb) _).run

theorem resetAndReplay_eq (source : DeliverySourceId) (config : PostgresProjectionConfig) (n : ℕ) :
    Job.resetAndReplay.program source config n =
      ((leadReset source config.selection).run >>= replayAfter source config n :
        Program (Request P Ev Er) (Answer P Ev Er Cb) (Returned Er Cb)) := by
  rw [Job.program,resetAndReplayTransactionalProjection,map_bind]
  change (Except.mapError ProjectionResetAndReplayError.reset <$>
    (leadReset source config.selection : Resetter P Ev Er Cb _ Unit).run) >>=
      ExceptT.bindCont _ = _
  rw [bind_map_left]
  congr 1
  funext r
  cases r <;> rfl

theorem program_meets (hfresh : Fresh i w) (n : ℕ) :
    (rules selects job source config).Meets i (Ends i) w
      ((job i).program (source i) (config i) n :
        Program (Request P Ev Er) (Answer P Ev Er Cb) (Returned Er Cb)) := by
  cases hj : job i with
  | run =>
    rw [program_eq]
    refine Rules.Meets.bindExcept (Rules.Meets.mono (fun w r hr => ?_)
      (spec_acquireLeader (acquireError .run) hfresh))
    rcases r with _ | (_ | _) | _
    · trivial
    · exact Failed.of_own hr _
    · trivial
    · refine replay_meets (by simp [hj]) (hr.held.imp_right ?_) n
      rintro ⟨hholder,_,hpending⟩
      exact ⟨hholder,hpending,undisturbed_of_own hr.own⟩
  | reset =>
    rw [Job.program,ExceptT.run_map]
    refine Rules.Meets.bind (Rules.Meets.bind (Rules.Meets.mono (fun w r hr => ?_)
      (spec_resetTransactionalProjection (by simp [hj]) hfresh)))
    rcases r with _ | _ | _
    · trivial
    · exact hr
    · exact hr
  | resetAndReplay =>
    rw [resetAndReplay_eq]
    refine Rules.Meets.bind (Rules.Meets.mono (fun w r hr => ?_)
      (spec_leadReset (by simp [hj]) hfresh))
    rcases r with _ | _ | _
    · trivial
    · exact hr
    · obtain ⟨m,hrenewed⟩ := hr
      exact replay_meets (by simp [hj]) hrenewed.leading n

end Calls

section Runs

/-- A commit of reset code together with the deletion of the progress, the only one of its call
so far. -/
structure Clears (i : RunId) (w w' : World P M) (m : M) : Prop where
  holder : w.runner.holder = some i
  called : (i,true,m) ∈ w.callbacks
  own : own i w = []
  writes : w'.writes = w.writes ++ [(i,⟨some m,true⟩,({} : Transaction))]
  content : w'.content = m
  readModel : w'.runner.readModel = []
  progress : w'.runner.progress = none

structure Applies (i : RunId) (w w' : World P M) (transaction : Transaction) : Prop where
  holder : w.runner.holder = some i
  writes : w'.writes = w.writes ++ [(i,({} : Reset M),transaction)]
  content : w'.content = w.content
  readModel : w'.runner.readModel = w.runner.readModel ++ transaction.applications
  progress : w'.runner.progress = transaction.progress.or w.runner.progress

theorem Commits.cases {reset : Reset M} {transaction : Transaction}
    (h : Commits job i w w' reset transaction) :
    (job i ≠ .run ∧ ∃ m, Clears i w w' m) ∨ (job i ≠ .reset ∧ Applies i w w' transaction) := by
  have hclears : IsReset i w reset transaction → ∃ m, Clears i w w' m := by
    rintro ⟨hown,rfl,m,rfl,hcalled⟩
    exact ⟨m,h.holder,hcalled,hown,h.writes,h.content,h.readModel,h.progress⟩
  have happlies : reset = {} → Applies i w w' transaction := by
    rintro rfl
    exact ⟨h.holder,h.writes,h.content,h.readModel,h.progress⟩
  have hallowed := h.allowed
  cases hj : job i with
  | run =>
    rw [hj] at hallowed
    exact .inr ⟨by simp,happlies hallowed⟩
  | reset =>
    rw [hj] at hallowed
    exact .inl ⟨by simp,hclears hallowed⟩
  | resetAndReplay =>
    rw [hj] at hallowed
    exact hallowed.imp (fun h => ⟨by simp,hclears h⟩) fun h => ⟨by simp,happlies h⟩

theorem Initial.inv (h : Initial w) : Inv w := by
  refine ⟨fun i hi => ?_,fun before x between y after hall => ?_⟩
  · cases h.holder.symm.trans hi
  · simp [h.writes] at hall

theorem Initial.fresh (h : Initial w) (i : RunId) : Fresh i w :=
  ⟨by simp [own,h.writes],.inr ⟨by rw [h.session],h.pending i⟩⟩

variable {s t : State RunId (Request P Ev Er) (Answer P Ev Er Cb) (World P M) (Returned Er Cb)}

theorem reachable_calls (hs : Reachable (system selects job source config) s) :
    Inv s.world ∧ ∀ i, ClientOk (rules selects job source config) Ends s.world i (s.client i) :=
  reachable_sound (fun _ n _ _ hfresh => program_meets hfresh n)
    (fun _ hw => ⟨Initial.inv hw,Initial.fresh hw⟩) hs

theorem ready_program (n : ℕ) :
    Ready i w ((job i).program (source i) (config i) n :
      Program (Request P Ev Er) (Answer P Ev Er Cb) (Returned Er Cb)) := by
  rw [program_eq]
  exact .inl (seeks_acquireLeader _ (leads_body _ _ _ _))

theorem reachable_ready (hs : Reachable (system selects job source config) s) (i : RunId)
    (p : Program (Request P Ev Er) (Answer P Ev Er Cb) (Returned Er Cb))
    (hp : s.client i = .running p) : Ready i s.world p := by
  induction hs generalizing i p with
  | init hinit =>
    rw [hinit.2 i] at hp
    cases hp
  | @step s t l hs _ hstep ih =>
    obtain ⟨hinv,hclients⟩ := reachable_calls hs
    by_cases hown : l.client? = some i
    · cases (Machine.step_cases hstep : (ProjectionReset.World.machine selects).Steps _ s l t) with
      | @start j n =>
        obtain rfl : j = i := Option.some.inj hown
        simp only [Function.update_self,Client.running.injEq] at hp
        exact hp ▸ ready_program n
      | @ask j c q k a w hrunning hperform =>
        obtain rfl : j = i := Option.some.inj hown
        simp only [Function.update_self,Client.running.injEq] at hp
        exact hp ▸ (ih j _ hrunning).perform hinv hperform
      | @orphan j | @crash j =>
        obtain rfl : j = i := Option.some.inj hown
        cases (Function.update_self j Client.gone s.client).symm.trans hp
      | background => cases hown
    · obtain ⟨hclient,hrely⟩ := step_other
        (fun _ n _ _ hfresh => program_meets hfresh n) hinv hclients hstep hown
      exact (ih i p (hclient ▸ hp)).rely hrely

/-- The requests with which a call seeks its lock or closes its connection. -/
def Outer : Request P Ev Er → Prop
  | .runner .acquire | .runner (.db .tryAdvisoryLock) | .runner (.db .close) => True
  | _ => False

theorem Ready.holds {q : Request P Ev Er}
    {k : Answer P Ev Er Cb q → Program (Request P Ev Er) (Answer P Ev Er Cb) α}
    (h : Ready i w (.ask q k)) : Outer q ∨ Lost i w ∨ w.runner.holder = some i := by
  rcases h with hseeks | ⟨hholder,_⟩ | ⟨rfl,_⟩
  · rcases hseeks.ask_cases with ⟨rfl,_⟩ | ⟨k',heq,_⟩
    · exact .inl trivial
    · cases heq
      exact .inl trivial
  · exact .inr hholder
  · exact .inl trivial

theorem step_destination (hs : Reachable (system selects job source config) s)
    {l : Label RunId (Choice Ev Er Cb M) (Happening P)}
    (hstep : (system selects job source config).step s l = some t) :
    (SameDestination s.world t.world ∧ t.world.callbacks = s.world.callbacks) ∨
      ∃ i, l.client? = some i ∧ Guar job source config i s.world t.world := by
  obtain ⟨hinv,hclients⟩ := reachable_calls hs
  rcases step_world (fun _ n _ _ hfresh => program_meets hfresh n) hinv hclients hstep with
    hworld | hguar | ⟨_,b,hb⟩
  · rw [hworld]
    exact .inl ⟨.refl _,rfl⟩
  · exact .inr hguar
  · obtain ⟨_,hsame,hcallbacks,_⟩ := happen_sound hinv hb
    exact .inl ⟨hsame,hcallbacks⟩

theorem own_reset (hs : Reachable (system selects job source config) s) (hjob : job i = .reset) :
    own i s.world = [] ∨ Cleared i s.world := by
  induction hs with
  | init hinit => exact .inl (Initial.fresh hinit.1 i).own
  | @step s t l hs _ hstep ih =>
    rcases step_destination hs hstep with ⟨hsame,_⟩ | ⟨j,hl,hguar⟩
    · rwa [own,hsame.writes,Cleared,own,hsame.writes]
    · by_cases hji : j = i
      · subst hji
        rcases hguar.destination with hsame | ⟨_,_,hcommits⟩
        · rwa [own,hsame.writes,Cleared,own,hsame.writes]
        · rcases Commits.cases hcommits with ⟨_,m,hclears⟩ | ⟨hne,_⟩
          · refine .inr ⟨m,?_⟩
            rw [own,hclears.writes,List.filter_append,
              show s.world.writes.filter _ = [] from hclears.own]
            simp
          · exact absurd hjob hne
      · have hown : own i t.world = own i s.world := (hguar.rely hji).own
        rwa [Cleared,hown]

/-- Where a run would start that finds what a reset has left: the lock is free, and nothing of
the call has begun. -/
def restarted (i : RunId)
    (u : State RunId (Request P Ev Er) (Answer P Ev Er Cb) (World P M) (Returned Er Cb)) :
    State RunId (Request P Ev Er) (Answer P Ev Er Cb) (World P M) (Returned Er Cb) :=
  ⟨{ u.world with runner := { u.world.runner with holder := none } },
    Function.update u.client i .waiting⟩

theorem run_asks (source : DeliverySourceId) (config : PostgresProjectionConfig) (n : ℕ) :
    ∃ k k', (Job.run.program source config n :
        Program (Request P Ev Er) (Answer P Ev Er Cb) (Returned Er Cb)) =
      .ask (.runner .acquire) k ∧ k (.ok ()) = .ask (.runner (.db .tryAdvisoryLock)) k' ∧
      k' (.ok true) = replayAfter source config n (.ok ()) := by
  rw [program_eq]
  exact ⟨_,_,rfl,rfl,rfl⟩

theorem restarted_exec {n : ℕ} {m : M}
    {u : State RunId (Request P Ev Er) (Answer P Ev Er Cb) (World P M) (Returned Er Cb)}
    (hrenewed : Renewed i m u.world)
    (hclient : u.client i = .running (replayAfter (source i) (config i) n (.ok ()))) :
    exec (system selects (Function.update job i .run) source config) (restarted i u)
      [.start i n,.ask i (.runner .ok),.ask i (.runner .ok)] = some u := by
  obtain ⟨k,k',hprogram,hk,hk'⟩ : ∃ (k : Answer P Ev Er Cb (.runner .acquire) → _) (k' : _ → _),
      Job.run.program (source i) (config i) n = .ask (.runner .acquire) k ∧
      k (.ok ()) = .ask (.runner (.db .tryAdvisoryLock)) k' ∧
      k' (.ok true) = replayAfter (source i) (config i) n (.ok ()) :=
    run_asks (source i) (config i) n
  have hlost : (u.world.runner.session i).lost = false := by rw [hrenewed.session]
  have hworld : ({ u.world with runner := { u.world.runner with holder := some i } } :
      World P M) = u.world := by rw [← hrenewed.holder]
  have hlock : (restarted i u).world.perform selects i
      (.runner (.db .tryAdvisoryLock) : Request P Ev Er) (.runner .ok : Choice Ev Er Cb M) =
        some (.ok true,u.world) := by
    rw [← hworld]
    change (if (u.world.runner.session i).lost = true then none else some _) = _
    rw [hlost]
    rfl
  have hstart : (system selects (Function.update job i .run) source config).step (restarted i u)
      (.start i n) = some ⟨(restarted i u).world,
        Function.update u.client i (.running (.ask (.runner .acquire) k))⟩ := by
    simp only [system,Machine.system,Machine.step,restarted,Function.update_self,hprogram,
      Function.update_idem]
  have hacquire : (system selects (Function.update job i .run) source config).step
      ⟨(restarted i u).world,Function.update u.client i (.running (.ask (.runner .acquire) k))⟩
      (.ask i (.runner .ok)) = some ⟨(restarted i u).world,Function.update u.client i
        (.running (.ask (.runner (.db .tryAdvisoryLock)) k'))⟩ := by
    simp only [system,Machine.system,Machine.step,Function.update_self,Function.update_idem,← hk]
    rfl
  have htry : (system selects (Function.update job i .run) source config).step
      ⟨(restarted i u).world,Function.update u.client i
        (.running (.ask (.runner (.db .tryAdvisoryLock)) k'))⟩
      (.ask i (.runner .ok)) = some u := by
    simp only [system,Machine.system,Machine.step,Function.update_self,Function.update_idem,
      ProjectionReset.World.machine,hlock,Option.map_some,hk',← hclient,Function.update_eq_self]
  rw [exec_cons,hstart,Option.bind_some,exec_cons,hacquire,Option.bind_some,exec_cons,htry]
  rfl

def ResetEnds (i : RunId) (w : World P M) : Option (Except (ProjectionResetError Cb) Unit) → Prop
  | none => True
  | some (.error e) => Failed i w e
  | some (.ok _) => ∃ m, Renewed i m w

theorem reset_phase (hs : Reachable (system selects job source config) s)
    (hjob : job i = .resetAndReplay) :
    Phase (rules selects job source config)
      (fun i n => (job i).program (source i) (config i) n) Initial i
      (replayAfter (source i) (config i)) (ResetEnds i) s := by
  have hsplit : ∀ n, (job i).program (source i) (config i) n =
      ((leadReset (source i) (config i).selection).run >>= replayAfter (source i) (config i) n :
        Program (Request P Ev Er) (Answer P Ev Er Cb) (Returned Er Cb)) := by
    intro n
    rw [hjob,resetAndReplay_eq]
  refine reachable_phase (fun _ n _ _ hfresh => program_meets hfresh n)
    (fun _ hw => ⟨Initial.inv hw,Initial.fresh hw⟩) hsplit (fun _ w _ hfresh => ?_) hs
  refine Rules.Meets.mono (fun w r hr => ?_) (spec_leadReset (by simp [hjob]) hfresh)
  match r with
  | none => trivial
  | some (.error _) => exact hr
  | some (.ok _) => exact hr

/-- A call that has replayed has come, right after its reset, through a state from which a run
would have gone on in the same way. -/
theorem replay_as_fresh (hs : Reachable (system selects job source config) s)
    (hjob : job i = .resetAndReplay) {outcome : Option ProjectionRunOutcome}
    (hresult : (s.client i).result? = some (.ok outcome)) :
    ∃ u labels m n, Reachable (system selects job source config) u ∧ Renewed i m u.world ∧
      exec (system selects job source config) u labels = some s ∧
      exec (system selects (Function.update job i .run) source config) (restarted i u)
        ([.start i n,.ask i (.runner .ok),.ask i (.runner .ok)] ++ labels) = some s := by
  have hdone := Client.eq_of_result? hresult
  cases reset_phase hs hjob with
  | waiting h => cases hdone.symm.trans h
  | gone h => cases hdone.symm.trans h
  | cut h => cases hdone.symm.trans h
  | first n q k h hmeets => cases hdone.symm.trans h
  | rest n a u labels hu h hmid hexec =>
    cases a with
    | error e =>
      rcases exec_done (.inl h) hexec with hend | hend
      · cases hdone.symm.trans hend
      · cases hdone.symm.trans hend
    | ok _ =>
      obtain ⟨m,hrenewed⟩ := hmid
      have hcongr : exec (system selects (Function.update job i .run) source config) u labels =
          exec (system selects job source config) u labels :=
        exec_congr (i := i) (fun j hj => by simp [Function.update_of_ne hj]) (by simp [h])
      refine ⟨u,labels,m,n,hu,hrenewed,hexec,?_⟩
      rw [exec_append,restarted_exec hrenewed h,Option.bind_some,hcongr]
      exact hexec

/-- Whatever fails, a reset is all or nothing and its code is called only on progress of the right
identity, and a replay after it keeps the lock and ends as a run that starts on what it left. -/
theorem reset_atomic_replay_faithful (hs : Reachable (system selects job source config) s) :
    (∀ l t, (system selects job source config).step s l = some t →
      (SameDestination s.world t.world ∨ ∃ i, l.client? = some i ∧
        ((job i ≠ .run ∧ ∃ m, Clears i s.world t.world m) ∨
          (job i ≠ .reset ∧ ∃ transaction, Applies i s.world t.world transaction))) ∧
      (t.world.callbacks = s.world.callbacks ∨ ∃ i succeeded m, l.client? = some i ∧
        Calls source config i s.world t.world succeeded m)) ∧
    (∀ i, job i = .reset → own i s.world = [] ∨ Cleared i s.world) ∧
    (∀ i r, (s.client i).result? = some r → Ends i s.world (some r)) ∧
    Grouped s.world.writes ∧
    (∀ i q k, s.client i = .running (.ask q k) →
      Outer q ∨ Lost i s.world ∨ s.world.runner.holder = some i) ∧
    ∀ i outcome, job i = .resetAndReplay → (s.client i).result? = some (.ok outcome) →
      ∃ u labels m n, Reachable (system selects job source config) u ∧ Renewed i m u.world ∧
        exec (system selects job source config) u labels = some s ∧
        exec (system selects (Function.update job i .run) source config) (restarted i u)
          ([.start i n,.ask i (.runner .ok),.ask i (.runner .ok)] ++ labels) = some s := by
  refine ⟨fun l t hstep => ?_,fun i hjob => own_reset hs hjob,fun i r hr => ?_,
    (reachable_calls hs).1.grouped,
    fun i q k hrunning => Ready.holds (reachable_ready hs i _ hrunning),
    fun i outcome hjob hresult => replay_as_fresh hs hjob hresult⟩
  · rcases step_destination hs hstep with ⟨hsame,hcallbacks⟩ | ⟨i,hl,hguar⟩
    · exact ⟨.inl hsame,.inl hcallbacks⟩
    · refine ⟨hguar.destination.imp_right ?_,hguar.callbacks.imp_right ?_⟩
      · rintro ⟨_,transaction,hcommits⟩
        exact ⟨i,hl,(Commits.cases hcommits).imp_right fun h => ⟨h.1,transaction,h.2⟩⟩
      · rintro ⟨succeeded,m,hcalls⟩
        exact ⟨i,succeeded,m,hl,hcalls⟩
  · have hprograms : ∀ i n (w : World P M), ResetRules.Inv w → Fresh i w →
        (rules selects job source config).Meets i (Ends i) w
          ((job i).program (source i) (config i) n :
            Program (Request P Ev Er) (Answer P Ev Er Cb) (Returned Er Cb)) :=
      fun _ n _ _ hfresh => program_meets hfresh n
    exact reachable_ended (R := rules selects job source config) hprograms
      (fun _ hw => ⟨Initial.inv hw,Initial.fresh hw⟩)
      (fun _ _ _ _ hends hrely => hends.rely hrely) hs i _ (some r) (Client.eq_of_result? hr) rfl

end Runs

/-- A projection that has come to position 4 with one application is reset and replayed. -/
def Replayed.settings : PostgresProjectionConfig := .stepwise "selection"

def Replayed.world : World Unit ℕ where
  runner :=
    { readModel := [⟨9,0,4,true⟩]
      progress := some ⟨"source","selection",4⟩
      log := fun _ => ⟨[⟨4,()⟩],4⟩
      applications := 1 }
  content := 0

theorem Replayed.world_initial : Initial Replayed.world :=
  ⟨rfl,fun _ => rfl,fun _ => rfl,rfl,rfl⟩

abbrev Replayed.runs : System (State RunId (Request Unit Unit Unit) (Answer Unit Unit Unit Unit)
    (World Unit ℕ) (Returned Unit Unit)) (Label RunId (Choice Unit Unit Unit ℕ) (Happening Unit)) :=
  system (fun _ _ => true) (fun _ => .resetAndReplay) (fun _ => "source") fun _ => Replayed.settings

def Replayed.labels : List (Label RunId (Choice Unit Unit Unit ℕ) (Happening Unit)) :=
  .start 0 2 :: ([.runner .ok,.runner .ok,.runner .ok,.runner .ok,.reset (.ok ()) 7,.runner .ok,
    .runner .ok,.runner .ok,.runner .ok,.runner .ok,.runner .ok,.runner (.page 1),.runner .ok,
    .runner .ok,.runner (.decoded (.ok ())),.runner (.applied (.ok ())),.runner .ok,.runner .ok,
    .runner .ok,.runner (.page 0),.runner .ok,.runner .ok].map (.ask 0))

def Replayed.state : State RunId (Request Unit Unit Unit) (Answer Unit Unit Unit Unit)
    (World Unit ℕ) (Returned Unit Unit) :=
  (exec Replayed.runs ⟨Replayed.world,fun _ => .waiting⟩ Replayed.labels).get (by decide +kernel)

/-- The call ends with what its reset code left, and the event applied to it again. -/
theorem reset_atomic_replay_faithful_replayed :
    (∃ u labels m n, Reachable Replayed.runs u ∧ Renewed 0 m u.world ∧
      exec Replayed.runs u labels = some Replayed.state ∧
      exec (system (fun _ _ => true) (Function.update (fun _ => .resetAndReplay) 0 .run)
        (fun _ => "source") fun _ => Replayed.settings) (restarted 0 u)
        ([.start 0 n,.ask 0 (.runner .ok),.ask 0 (.runner .ok)] ++ labels) = some Replayed.state) ∧
    Replayed.state.world.content = 7 ∧
    Replayed.state.world.runner.readModel = [⟨0,1,4,true⟩] ∧
    Replayed.state.world.runner.progress = some ⟨"source","selection",4⟩ :=
  ⟨(reset_atomic_replay_faithful (.exec (.init ⟨Replayed.world_initial,fun _ => rfl⟩)
    (Option.some_get _).symm)).2.2.2.2.2 0 (some (.caughtUp 1 0 (some 4))) rfl (by decide +kernel),
    by decide +kernel,by decide +kernel,by decide +kernel⟩

end ProjectionReplay
end EventCore
