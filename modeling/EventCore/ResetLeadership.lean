import EventCore.LeaderRequests
import EventCore.ResetRules

/-! A call leads from the lock that it gets up to its release, whatever it asks in between. -/
namespace EventCore
namespace ResetLeadership
open Interaction Runs ProjectionSource ProjectionReset ResetRules
open TransactionalRunner hiding Request Answer ask
open ProjectionDestination hiding World Choice

variable {P Ev Er Cb M α β ε δ : Type}

section Parts

theorem ofRunner_bind
    (p : Program (TransactionalRunner.Request P Ev Er) (TransactionalRunner.Answer P Ev Er) α)
    (f : α → Program (TransactionalRunner.Request P Ev Er) (TransactionalRunner.Answer P Ev Er) β) :
    (ofRunner (p >>= f) : Program (Request P Ev Er) (Answer P Ev Er Cb) β) =
      ofRunner p >>= fun a => ofRunner (f a) := by
  induction p with
  | done a => rfl
  | cut => rfl
  | ask q k ih => exact congrArg (Program.ask _) (funext ih)

theorem adapt_bind (f : ε → δ) (p : Resetter P Ev Er Cb ε α) (g : α → Resetter P Ev Er Cb ε β) :
    ExceptT.adapt f (p >>= g) = ExceptT.adapt f p >>= fun a => ExceptT.adapt f (g a) := by
  change Except.mapError f <$> (p.run >>= ExceptT.bindCont g) =
    (Except.mapError f <$> p.run) >>= ExceptT.bindCont fun a => ExceptT.adapt f (g a)
  rw [map_bind,bind_map_left]
  congr 1
  funext r
  cases r <;> rfl

theorem mapErr_bind (f : TransactionalProjectionError Er → ε) (p : Runner P Ev Er α)
    (g : α → Runner P Ev Er β) :
    (mapErr f (p >>= g) : Resetter P Ev Er Cb ε β) = mapErr f p >>= fun a => mapErr f (g a) := by
  rw [mapErr,mapErr]
  have hbind : (ExceptT.mk (ofRunner (p >>= g).run) :
      Resetter P Ev Er Cb (TransactionalProjectionError Er) β) =
      ExceptT.mk (ofRunner p.run) >>= fun a => ExceptT.mk (ofRunner (g a).run) := by
    refine (ofRunner_bind p.run (ExceptT.bindCont g)).trans ?_
    change _ = ofRunner p.run >>= ExceptT.bindCont fun a => ExceptT.mk (ofRunner (g a).run)
    congr 1
    funext r
    cases r <;> rfl
  rw [hbind,adapt_bind]
  rfl

theorem adapt_mapErr (f : ε → δ) (g : TransactionalProjectionError Er → ε) (p : Runner P Ev Er α) :
    ExceptT.adapt f (mapErr g p : Resetter P Ev Er Cb ε α) = mapErr (fun e => f (g e)) p := by
  change Except.mapError f <$> (Except.mapError g <$> ofRunner p.run) =
    Except.mapError (fun e => f (g e)) <$> ofRunner p.run
  rw [Functor.map_map]
  congr 1
  funext r
  cases r <;> rfl

end Parts

section Leading

/-- Requests of a call that leave the lock and the connection alone. -/
def Inside : Request P Ev Er → Prop
  | .runner q => LeaderRequests.Inside q
  | .reset => True
  | .deleteProgress => True

def Stays (p : Resetter P Ev Er Cb ε α) : Prop := p.run.Only Inside

def Closes (p : Program (Request P Ev Er) (Answer P Ev Er Cb) α) : Prop :=
  p.Only (· = .runner (.db .close))

def Leads (p : Program (Request P Ev Er) (Answer P Ev Er Cb) α) : Prop :=
  p.Until Inside (· = .runner (.db .advisoryUnlock)) (· = .runner (.db .close))

theorem ofRunner_only {kind : TransactionalRunner.Request P Ev Er → Prop}
    {kind' : Request P Ev Er → Prop} (hkind : ∀ q, kind q → kind' (.runner q))
    {p : Program (TransactionalRunner.Request P Ev Er) (TransactionalRunner.Answer P Ev Er) α}
    (hp : p.Only kind) :
    (ofRunner p : Program (Request P Ev Er) (Answer P Ev Er Cb) α).Only kind' := by
  induction p with
  | done a => trivial
  | cut => trivial
  | ask q k ih => exact ⟨hkind q hp.1,fun a => ih a (hp.2 a)⟩

theorem ofRunner_leads {p : Runner P Ev Er α} (hp : LeaderRequests.Leads p) :
    Leads (ofRunner p.run : Program (Request P Ev Er) (Answer P Ev Er Cb) _) := by
  have hall : ∀ {γ : Type} {p : Program (TransactionalRunner.Request P Ev Er)
      (TransactionalRunner.Answer P Ev Er) γ},
      p.Until LeaderRequests.Inside (· = .db .advisoryUnlock) (· = .db .close) →
      Leads (ofRunner p : Program (Request P Ev Er) (Answer P Ev Er Cb) γ) := by
    intro γ p hp
    induction p with
    | done a => trivial
    | cut => trivial
    | ask q k ih =>
      rcases hp with ⟨hq,hk⟩ | ⟨rfl,hk⟩
      · exact .inl ⟨hq,fun a => ih a (hk a)⟩
      · exact .inr ⟨rfl,fun a => ofRunner_only (by rintro _ rfl; rfl) (hk a)⟩
  exact hall hp

theorem ofRunner_stays {p : Runner P Ev Er α} (hp : LeaderRequests.Stays p) :
    (ofRunner p.run : Program (Request P Ev Er) (Answer P Ev Er Cb) _).Only Inside := by
  have hkind : ∀ q : TransactionalRunner.Request P Ev Er, LeaderRequests.Inside q →
      Inside (.runner q) := fun _ hq => hq
  exact ofRunner_only hkind hp

theorem leads_mapErr (f : TransactionalProjectionError Er → ε) {p : Runner P Ev Er α}
    (hp : LeaderRequests.Leads p) : Leads (mapErr f p : Resetter P Ev Er Cb ε α).run :=
  (ofRunner_leads hp).map (Except.mapError f)

theorem stays_mapErr (f : TransactionalProjectionError Er → ε) {p : Runner P Ev Er α}
    (hp : LeaderRequests.Stays p) : Stays (mapErr f p : Resetter P Ev Er Cb ε α) :=
  (ofRunner_stays hp).map (Except.mapError f)

theorem Stays.bind {p : Resetter P Ev Er Cb ε α} {f : α → Resetter P Ev Er Cb ε β}
    (hp : Stays p) (hf : ∀ a, Stays (f a)) : Stays (p >>= f) := Program.Only.bindExcept hp hf

theorem Stays.bindLeads {p : Resetter P Ev Er Cb ε α} {f : α → Resetter P Ev Er Cb ε β}
    (hp : Stays p) (hf : ∀ a, Leads (f a).run) : Leads (p >>= f).run :=
  Program.Only.bindExceptUntil hp hf

theorem leads_map (f : α → β) {p : Resetter P Ev Er Cb ε α} (hp : Leads p.run) :
    Leads (f <$> p).run := by
  rw [ExceptT.run_map]
  exact hp.map (Except.map f)

theorem leads_adapt (f : ε → δ) {p : Resetter P Ev Er Cb ε α} (hp : Leads p.run) :
    Leads (ExceptT.adapt f p).run := hp.map (Except.mapError f)

theorem stays_adapt (f : ε → δ) {p : Resetter P Ev Er Cb ε α} (hp : Stays p) :
    Stays (ExceptT.adapt f p) := hp.map (Except.mapError f)

theorem stays_ask {q : Request P Ev Er} (hq : Inside q) :
    Stays (ask q : Resetter P Ev Er Cb ε _) := ⟨hq,fun _ => trivial⟩

theorem stays_throw (e : ε) : Stays (throw e : Resetter P Ev Er Cb ε α) := trivial

theorem stays_rollbackPreservingResetError (e : ProjectionResetError Cb) :
    Stays (rollbackPreservingResetError e : Resetter P Ev Er Cb _ α) := by
  refine (stays_ask (by trivial)).bind fun r => ?_
  cases r with
  | ok _ => exact stays_throw e
  | error _ => exact stays_throw (ProjectionResetError.leadershipLost : ProjectionResetError Cb)

theorem stays_clear : Stays (clear : Resetter P Ev Er Cb _ Unit) := by
  refine (stays_ask (by trivial)).bind fun r => ?_
  cases r with
  | error e => exact stays_rollbackPreservingResetError _
  | ok _ =>
    refine (stays_ask (by trivial)).bind fun r => ?_
    cases r with
    | error e => exact stays_rollbackPreservingResetError _
    | ok _ =>
      refine (stays_ask (by trivial)).bind fun r => ?_
      cases r with
      | error e => exact stays_throw _
      | ok _ => trivial

theorem stays_resetWithLeader (source : DeliverySourceId) (selection : ProjectionSelectionId) :
    Stays (resetWithLeader source selection : Resetter P Ev Er Cb _ Unit) := by
  have hload : Stays (ExceptT.lift (ofRunner loadProgress.run) :
      Resetter P Ev Er Cb (ProjectionResetError Cb) _) :=
    (ofRunner_stays LeaderRequests.stays_loadProgress).map Except.ok
  refine (stays_mapErr _ (LeaderRequests.stays_db _ (by trivial))).bind fun _ =>
    hload.bind fun r => ?_
  cases r with
  | error e => exact stays_rollbackPreservingResetError _
  | ok progress =>
    dsimp only
    split
    · exact stays_rollbackPreservingResetError _
    · exact stays_clear

/-- What a call does before it leads: it leads as soon as it gets the lock, and closes the
connection at most if it does not. -/
def Seeks : Program (Request P Ev Er) (Answer P Ev Er Cb) α → Prop
  | .done _ => True
  | .cut => True
  | .ask (.runner .acquire) k => ∀ a, Seeks (k a)
  | .ask (.runner (.db .tryAdvisoryLock)) k =>
    Leads (k (.ok true)) ∧ Closes (k (.ok false)) ∧ Closes (k (.error ()))
  | .ask _ _ => False

theorem Seeks.ask_cases {q : Request P Ev Er}
    {k : Answer P Ev Er Cb q → Program (Request P Ev Er) (Answer P Ev Er Cb) α}
    (h : Seeks (.ask q k)) : (q = .runner .acquire ∧ ∀ a, Seeks (k a)) ∨
      ∃ k' : Answer P Ev Er Cb (.runner (.db .tryAdvisoryLock)) → _,
        Program.ask q k = .ask (.runner (.db .tryAdvisoryLock)) k' ∧ Leads (k' (.ok true)) ∧
          Closes (k' (.ok false)) ∧ Closes (k' (.error ())) := by
  unfold Seeks at h
  split at h
  · next heq => cases heq
  · next heq => cases heq
  · next heq =>
    cases heq
    exact .inl ⟨rfl,h⟩
  · next heq =>
    cases heq
    exact .inr ⟨_,rfl,h⟩
  · exact h.elim

theorem seeks_acquireLeader (f : TransactionalProjectionError Er → ε)
    {body : Resetter P Ev Er Cb ε α} (hbody : Leads body.run) :
    Seeks (mapErr f acquireLeader >>= fun _ => body : Resetter P Ev Er Cb ε α).run := by
  intro acquired
  cases acquired with
  | error _ => trivial
  | ok _ => exact ⟨hbody,⟨rfl,fun _ => trivial⟩,trivial⟩

def body (source : DeliverySourceId) (config : PostgresProjectionConfig) (unrolling : ℕ) :
    Job → Resetter P Ev Er Cb (ProjectionResetAndReplayError Er Cb) (Option ProjectionRunOutcome)
  | .run => some <$> mapErr .replay (runTransactionalProjectionWithLeader source config unrolling)
  | .reset => (fun _ => none) <$> ExceptT.adapt .reset (do
      resetWithLeader source config.selection
      mapErr mapLeadershipError release)
  | .resetAndReplay => some <$> (do
      ExceptT.adapt .reset (resetWithLeader source config.selection)
      mapErr .replay (runTransactionalProjectionWithLeader source config unrolling))

/-- Which error a call makes of a lock that it does not get. -/
def acquireError : Job → TransactionalProjectionError Er → ProjectionResetAndReplayError Er Cb
  | .run => .replay
  | _ => fun e => .reset (mapLeadershipError e)

theorem program_eq (source : DeliverySourceId) (config : PostgresProjectionConfig)
    (unrolling : ℕ) (job : Job) :
    (job.program source config unrolling :
      Program (Request P Ev Er) (Answer P Ev Er Cb) (Returned Er Cb)) =
      (mapErr (acquireError job) acquireLeader >>= fun _ =>
        body source config unrolling job).run := by
  cases job with
  | run =>
    simp only [Job.program,runTransactionalProjection,mapErr_bind,map_bind,body]
    rfl
  | reset =>
    simp only [Job.program,resetTransactionalProjection,leadReset,adapt_bind,adapt_mapErr,map_bind,
      bind_assoc,body]
    rfl
  | resetAndReplay =>
    simp only [Job.program,resetAndReplayTransactionalProjection,leadReset,adapt_bind,adapt_mapErr,
      map_bind,bind_assoc,body]
    rfl

theorem leads_body (source : DeliverySourceId) (config : PostgresProjectionConfig)
    (unrolling : ℕ) (job : Job) : Leads (body source config unrolling job :
      Resetter P Ev Er Cb _ _).run := by
  have hreplay : Leads (mapErr .replay (runTransactionalProjectionWithLeader source config
      unrolling) : Resetter P Ev Er Cb (ProjectionResetAndReplayError Er Cb) _).run :=
    leads_mapErr _ (LeaderRequests.leads_runTransactionalProjectionWithLeader source config _)
  have hreset : Stays (resetWithLeader source config.selection : Resetter P Ev Er Cb _ Unit) :=
    stays_resetWithLeader source config.selection
  cases job with
  | run => exact leads_map some hreplay
  | reset =>
    exact leads_map _ (leads_adapt ProjectionResetAndReplayError.reset (hreset.bindLeads fun _ =>
      leads_mapErr mapLeadershipError LeaderRequests.leads_release))
  | resetAndReplay =>
    exact leads_map some
      ((stays_adapt ProjectionResetAndReplayError.reset hreset).bindLeads fun _ => hreplay)

end Leading

section Holding

variable {selects : ProjectionSelectionId → PersistedEventEnvelope P → Bool} {i : RunId}
  {w w' : World P M}

/-- A request over the connection has either failed without effect or been executed. -/
theorem performDb_cases {q : DbRequest} {c : ProjectionDestination.Choice Ev Er}
    {a : Except Unit q.Reply} (h : w.performDb i q c = some (a,w')) :
    (a = .error () ∧ w' = w) ∨
      ∃ r, ¬ Lost i w ∧ w.execute i q = some (r,w') ∧ (a = .ok r ∨ a = .error ()) := by
  unfold ProjectionReset.World.performDb at h
  cases c with
  | ok =>
    simp only at h
    split_ifs at h with hlost
    obtain ⟨⟨r,_⟩,hexecute,heq⟩ := Option.map_eq_some_iff.mp h
    obtain ⟨rfl,rfl⟩ := Prod.mk.inj heq
    exact .inr ⟨r,hlost,hexecute,.inl rfl⟩
  | unacknowledged =>
    simp only at h
    split_ifs at h with hlost
    obtain ⟨⟨r,_⟩,hexecute,heq⟩ := Option.map_eq_some_iff.mp h
    obtain ⟨rfl,rfl⟩ := Prod.mk.inj heq
    exact .inr ⟨r,hlost,hexecute,.inr rfl⟩
  | fail =>
    obtain ⟨rfl,rfl⟩ := Prod.mk.inj (Option.some.inj h)
    exact .inl ⟨rfl,rfl⟩
  | _ => cases h

theorem runner_cases {q : TransactionalRunner.Request P Ev Er} {c : Choice Ev Er Cb M}
    {a : TransactionalRunner.Answer P Ev Er q} (hinv : Inv w)
    (h : w.perform selects i (.runner q) c = some (a,w')) :
    Works i w w' ∨ ∃ d r, q = .db d ∧ ¬ Lost i w ∧ w.execute i d = some (r,w') := by
  cases c with
  | reset outcome content => cases q <;> cases h
  | runner c =>
    by_cases hdb : ∃ d, q = .db d
    · obtain ⟨d,rfl⟩ := hdb
      rcases performDb_cases h with ⟨_,rfl⟩ | ⟨r,hlost,hexecute,_⟩
      · exact .inl (.refl hinv i)
      · exact .inr ⟨d,r,rfl,hlost,hexecute⟩
    · have hperform : (w.runner.perform selects i q c).map
          (fun r => (r.1,({ w with runner := r.2 } : World P M))) = some (a,w') := by
        cases q with
        | db d => exact absurd ⟨d,rfl⟩ hdb
        | _ => exact h
      obtain ⟨⟨_,runner⟩,hrunner,heq⟩ := Option.map_eq_some_iff.mp hperform
      obtain ⟨rfl,rfl⟩ := Prod.mk.inj heq
      exact .inl (perform_works hinv (fun d hd => hdb ⟨d,hd⟩) hrunner)

theorem commit_holder {transaction : Transaction} :
    (w.commit i transaction).runner.holder = w.runner.holder ∧
      (Lost i (w.commit i transaction) ↔ Lost i w) :=
  ⟨rfl,(congrArg (· = true) (setTransaction_lost w.runner i none)).to_iff⟩

theorem inside_holder {q : Request P Ev Er} {c : Choice Ev Er Cb M} {a : Answer P Ev Er Cb q}
    (hinv : Inv w) (hq : Inside q) (h : w.perform selects i q c = some (a,w')) :
    w'.runner.holder = w.runner.holder ∧ (Lost i w' ↔ Lost i w) := by
  cases q with
  | runner q =>
    rcases runner_cases hinv h with hworks | ⟨d,r,rfl,hlost,hexecute⟩
    · exact ⟨hworks.holder,hworks.lost⟩
    · by_cases hcommit : d = .commit
      · subst hcommit
        obtain ⟨_,_,heq⟩ := Option.map_eq_some_iff.mp hexecute
        obtain ⟨_,rfl⟩ := Prod.mk.inj heq
        exact commit_holder
      · have hinner : Inner d := by
          cases d <;> trivial
        have hworks := execute_works hinv hlost hinner hexecute
        exact ⟨hworks.holder,hworks.lost⟩
  | reset =>
    cases c with
    | runner _ => cases h
    | reset outcome content =>
      obtain ⟨rfl,rfl⟩ := Prod.mk.inj (Option.some.inj h)
      rw [callback_eq]
      exact ⟨rfl,Iff.rfl⟩
  | deleteProgress =>
    have hdelete : w' = w ∨ ∃ v, w.deleteProgress i = some v ∧ w' = v := by
      cases c with
      | reset _ _ => cases h
      | runner c =>
        cases c with
        | fail => exact .inl (Prod.mk.inj (Option.some.inj h)).2.symm
        | ok | unacknowledged =>
          obtain ⟨v,hv,heq⟩ := Option.map_eq_some_iff.mp h
          exact .inr ⟨v,hv,(Prod.mk.inj heq).2.symm⟩
        | _ => cases h
    rcases hdelete with rfl | ⟨_,hv,rfl⟩
    · exact ⟨rfl,Iff.rfl⟩
    · rw [(deleteProgress_quiet hinv hv).2]
      exact ⟨rfl,Iff.rfl⟩

theorem execute_lock (h : w.execute i .tryAdvisoryLock = some (true,w')) :
    w' = { w with runner := { w.runner with holder := some i } } := by
  obtain ⟨⟨_,runner⟩,hexecute,heq⟩ := Option.map_eq_some_iff.mp h
  obtain ⟨rfl,rfl⟩ := Prod.mk.inj heq
  simp only [ProjectionDestination.World.execute] at hexecute
  split at hexecute
  · obtain ⟨_,rfl⟩ := Prod.mk.inj (Option.some.inj hexecute)
    rfl
  · rename_i j hholder
    obtain ⟨hj,rfl⟩ := Prod.mk.inj (Option.some.inj hexecute)
    rw [of_decide_eq_true hj] at hholder
    rw [← hholder]

def Ready (i : RunId) (w : World P M) (p : Program (Request P Ev Er) (Answer P Ev Er Cb) α) :
    Prop :=
  Seeks p ∨ ((Lost i w ∨ w.runner.holder = some i) ∧ Leads p) ∨ Closes p

theorem Ready.rely {p : Program (Request P Ev Er) (Answer P Ev Er Cb) α} (h : Ready i w p)
    (hrely : Rely i w w') : Ready i w' p := by
  refine h.imp_right (Or.imp_left (And.imp_left ?_))
  rintro (hlost | hholder)
  · exact .inl (hrely.lost hlost)
  · exact (hrely.holder hholder).imp_right And.left

theorem Ready.perform {q : Request P Ev Er} {c : Choice Ev Er Cb M} {a : Answer P Ev Er Cb q}
    {k : Answer P Ev Er Cb q → Program (Request P Ev Er) (Answer P Ev Er Cb) α}
    (h : Ready i w (.ask q k)) (hinv : Inv w) (hperform : w.perform selects i q c = some (a,w')) :
    Ready i w' (k a) := by
  rcases h with hseeks | ⟨hholder,⟨hq,hk⟩ | ⟨rfl,hk⟩⟩ | ⟨rfl,hk⟩
  · rcases hseeks.ask_cases with ⟨rfl,hk⟩ | ⟨k',heq,htrue,hfalse,herror⟩
    · exact .inl (hk a)
    · cases heq
      cases c with
      | reset _ _ => cases hperform
      | runner c =>
        rcases performDb_cases hperform with ⟨rfl,rfl⟩ | ⟨r,_,hexecute,rfl | rfl⟩
        · exact .inr (.inr herror)
        · cases r with
          | false => exact .inr (.inr hfalse)
          | true =>
            exact .inr (.inl ⟨.inr (congrArg (·.runner.holder) (execute_lock hexecute)),htrue⟩)
        · exact .inr (.inr herror)
  · obtain ⟨hsame,hlost⟩ := inside_holder hinv hq hperform
    exact .inr (.inl ⟨by rwa [hlost,hsame],hk a⟩)
  · exact .inr (.inr (hk a))
  · exact .inr (.inr (hk a))

end Holding

section Leadership

variable {selects : ProjectionSelectionId → PersistedEventEnvelope P → Bool} {job : RunId → Job}
  {source : RunId → DeliverySourceId} {config : RunId → PostgresProjectionConfig} {i : RunId}
  {w w' : World P M}

/-- The call holds the lock outside of a reset, or its session is lost. -/
def Leading (i : RunId) (w : World P M) : Prop :=
  Lost i w ∨ w.runner.holder = some i ∧ w.pending i = {} ∧ Undisturbed i w

theorem Leading.rely (h : Leading i w) (hrely : Rely i w w') : Leading i w' := by
  rcases h with hlost | ⟨hholder,hpending,hundisturbed⟩
  · exact .inl (hrely.lost hlost)
  · rcases hrely.holder hholder with hlost | ⟨hholder',hsame⟩
    · exact .inl hlost
    · rcases hrely.session with ⟨_,hpending'⟩ | hlost
      · exact .inr ⟨hholder',hpending'.trans hpending,by rwa [Undisturbed,hsame.writes]⟩
      · exact .inl hlost

theorem Leading.works (hleading : Leading i w) (h : Works i w w') : Leading i w' := by
  rcases hleading with hlost | ⟨hholder,hpending,hundisturbed⟩
  · exact .inl (h.lost.mpr hlost)
  · refine .inr ⟨h.holder.trans hholder,?_,by rwa [Undisturbed,h.quiet.destination.writes]⟩
    rcases h.pending with hsame | hempty
    · exact hsame.trans hpending
    · exact hempty

theorem inside_sound {q : TransactionalRunner.Request P Ev Er} {c : Choice Ev Er Cb M}
    {a : TransactionalRunner.Answer P Ev Er q} (hjob : job i ≠ .reset) (hleading : Leading i w)
    (hinv : Inv w) (hq : LeaderRequests.Inside q)
    (h : w.perform selects i (.runner q) c = some (a,w')) :
    Inv w' ∧ Guar job source config i w w' ∧ Leading i w' := by
  have hsound : Works i w w' → Inv w' ∧ Guar job source config i w w' ∧ Leading i w' :=
    fun hworks => ⟨hworks.quiet.inv hinv,hworks.quiet.guar,hleading.works hworks⟩
  rcases runner_cases hinv h with hworks | ⟨d,r,rfl,hlost,hexecute⟩
  · exact hsound hworks
  · by_cases hcommit : d = .commit
    · subst hcommit
      obtain ⟨hholder,hpending,hundisturbed⟩ := hleading.resolve_left hlost
      obtain ⟨transaction,_,heq⟩ := Option.map_eq_some_iff.mp hexecute
      obtain ⟨_,rfl⟩ := Prod.mk.inj heq
      have hallowed : Allowed i w (w.pending i) transaction (job i) := by
        cases hj : job i with
        | run => exact hpending
        | reset => exact absurd hj hjob
        | resetAndReplay => exact .inr hpending
      obtain ⟨hinv',hguar⟩ := commit_sound hinv hholder hundisturbed hallowed
      exact ⟨hinv',hguar,.inr ⟨hholder,Function.update_self _ _ _,hundisturbed.append rfl⟩⟩
    · exact hsound (execute_works hinv hlost (by cases d <;> trivial) hexecute)

theorem outside_sound {d : DbRequest} {c : Choice Ev Er Cb M} {a : Except Unit d.Reply}
    (hinv : Inv w) (hd : d ≠ .commit)
    (h : w.perform selects i (.runner (.db d) : Request P Ev Er) c = some (a,w')) :
    Inv w' ∧ Guar job source config i w w' ∧ w'.writes = w.writes := by
  have hquiet : Quiet i w w' := by
    rcases runner_cases hinv h with hworks | ⟨_,r,heq,hlost,hexecute⟩
    · exact hworks.quiet
    · cases heq
      exact execute_quiet hinv hlost hd hexecute
  exact ⟨hquiet.inv hinv,hquiet.guar,hquiet.destination.writes⟩

theorem leads_meets (hjob : job i ≠ .reset)
    {p : Program (TransactionalRunner.Request P Ev Er) (TransactionalRunner.Answer P Ev Er) α}
    (hp : p.Until LeaderRequests.Inside (· = .db .advisoryUnlock) (· = .db .close))
    (hleading : Leading i w) :
    (rules selects job source config).Meets i (fun _ _ => True) w
      (ofRunner p : Program (Request P Ev Er) (Answer P Ev Er Cb) α) := by
  have hcloses : ∀ {p : Program (TransactionalRunner.Request P Ev Er)
      (TransactionalRunner.Answer P Ev Er) α} {w : World P M}, p.Only (· = .db .close) →
      (rules selects job source config).Meets i (fun _ _ => True) w
        (ofRunner p : Program (Request P Ev Er) (Answer P Ev Er Cb) α) := by
    intro p w hp
    induction p generalizing w with
    | done a => trivial
    | cut => trivial
    | ask q k ih =>
      obtain ⟨rfl,hk⟩ := hp
      intro w' _ hinv c a w'' hperform
      obtain ⟨hinv',hguar,_⟩ := outside_sound hinv (by simp) hperform
      exact ⟨hinv',hguar,ih a (hk a)⟩
  induction p generalizing w with
  | done a => trivial
  | cut => trivial
  | ask q k ih =>
    intro w' hrely hinv c a w'' hperform
    rcases hp with ⟨hq,hk⟩ | ⟨rfl,hk⟩
    · obtain ⟨hinv',hguar,hleading'⟩ :=
        inside_sound hjob (hleading.rely hrely) hinv hq hperform
      exact ⟨hinv',hguar,ih a (hk a) hleading'⟩
    · obtain ⟨hinv',hguar,_⟩ := outside_sound hinv (by simp) hperform
      exact ⟨hinv',hguar,hcloses (hk a)⟩

end Leadership

end ResetLeadership
end EventCore
