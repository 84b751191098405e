import EventCore.TransactionalRunner

/-! What a runner asks while it leads: it keeps its lock until it releases it, and then it closes
the connection. -/
namespace EventCore
namespace LeaderRequests
open Interaction ProjectionSource TransactionalRunner

variable {P Ev Er α β : Type}

def Inside : Request P Ev Er → Prop
  | .db .tryAdvisoryLock | .db .advisoryUnlock | .db .close => False
  | _ => True

def Stays (p : Runner P Ev Er α) : Prop := p.run.Only Inside

def Leads (p : Runner P Ev Er α) : Prop :=
  p.run.Until Inside (· = .db .advisoryUnlock) (· = .db .close)

theorem Stays.bind {p : Runner P Ev Er α} {f : α → Runner P Ev Er β} (hp : Stays p)
    (hf : ∀ a, Stays (f a)) : Stays (p >>= f) := Program.Only.bindExcept hp hf

theorem Stays.bindLeads {p : Runner P Ev Er α} {f : α → Runner P Ev Er β} (hp : Stays p)
    (hf : ∀ a, Leads (f a)) : Leads (p >>= f) := Program.Only.bindExceptUntil hp hf

theorem stays_pure (a : α) : Stays (pure a : Runner P Ev Er α) := trivial

theorem stays_throw (e : TransactionalProjectionError Er) :
    Stays (throw e : Runner P Ev Er α) := trivial

theorem stays_cut : Stays (ExceptT.lift .cut : Runner P Ev Er α) := trivial

theorem stays_ask {q : Request P Ev Er} (hq : Inside q) : Stays (ask q) :=
  ⟨hq,fun _ => trivial⟩

theorem stays_orThrow (e : TransactionalProjectionError Er) (r : Except Unit α) :
    Stays (orThrow e r : Runner P Ev Er α) := by
  cases r with
  | ok a => exact stays_pure a
  | error _ => exact stays_throw e

theorem stays_db (e : TransactionalProjectionError Er) {q : DbRequest}
    (hq : Inside (.db q : Request P Ev Er)) : Stays (db e q : Runner P Ev Er _) :=
  (stays_ask hq).bind fun r => stays_orThrow e r

theorem Stays.result {p : Runner P Ev Er α} (hp : Stays p) : Stays (result p) :=
  Program.Only.bind (p := p.run) (f := fun r => pure (Except.ok r)) hp fun _ => trivial

theorem stays_rollbackPreservingError (e : TransactionalProjectionError Er) :
    Stays (rollbackPreservingError e : Runner P Ev Er α) := by
  refine (stays_ask (by trivial)).bind fun r => ?_
  cases r with
  | ok _ => exact stays_throw e
  | error _ => exact stays_throw .leadershipLost

theorem stays_loadProgress : Stays (loadProgress : Runner P Ev Er _) := stays_db _ (by trivial)

theorem stays_advanceProgress (progress : ProjectionProgress) :
    Stays (advanceProgress progress : Runner P Ev Er Unit) := by
  unfold advanceProgress
  split
  · exact stays_db _ (by trivial)
  · exact stays_throw _

variable (source : DeliverySourceId) (config : PostgresProjectionConfig)

theorem stays_loadValidatedProgress :
    Stays (loadValidatedProgress source config : Runner P Ev Er (Option ℕ)) := by
  have hrollback : ∀ after : Option ℕ, Stays (do
      db .leadershipLost .rollback
      pure after : Runner P Ev Er (Option ℕ)) :=
    fun after => (stays_db _ (by trivial)).bind fun _ => stays_pure after
  refine (stays_db _ (by trivial)).bind fun _ => stays_loadProgress.result.bind fun r => ?_
  match r with
  | .error e => exact stays_rollbackPreservingError e
  | .ok none => exact hrollback none
  | .ok (some progress) =>
    dsimp only
    split
    · exact stays_rollbackPreservingError _
    · exact hrollback _

theorem stays_positionIsPending (position : ℕ) :
    Stays (positionIsPending source config position : Runner P Ev Er Bool) := by
  refine stays_loadProgress.result.bind fun r => ?_
  match r with
  | .error e => exact stays_throw _
  | .ok none => exact stays_pure true
  | .ok (some progress) =>
    dsimp only
    split
    · exact stays_throw _
    · exact stays_pure _

theorem stays_whenPending {position : ℕ} {pending : Runner P Ev Er EnvelopeResult}
    (hpending : Stays pending) : Stays (whenPending source config position pending) := by
  refine (stays_db _ (by trivial)).bind fun _ =>
    (stays_positionIsPending source config position).result.bind fun r => ?_
  match r with
  | .error e => exact stays_rollbackPreservingError e
  | .ok false => exact (stays_db _ (by trivial)).bind fun _ => stays_pure _
  | .ok true => exact hpending

theorem stays_commitAt (position : ℕ) :
    Stays (commitAt source config position : Runner P Ev Er Unit) := by
  refine (stays_advanceProgress _).result.bind fun r => ?_
  cases r with
  | error e => exact stays_rollbackPreservingError _
  | ok _ => exact stays_db _ (by trivial)

theorem stays_skipPosition (position : ℕ) :
    Stays (skipPosition source config position : Runner P Ev Er EnvelopeResult) :=
  stays_whenPending source config
    ((stays_commitAt source config position).bind fun _ => stays_pure _)

theorem stays_applyLoop (event : Ev) (position retriesLeft attempt : ℕ) :
    Stays (applyLoop source config event position retriesLeft attempt :
      Runner P Ev Er EnvelopeResult) := by
  induction retriesLeft using Nat.strong_induction_on generalizing attempt with
  | _ retriesLeft ih =>
    unfold applyLoop
    refine (stays_ask (by trivial)).bind fun r => ?_
    match r with
    | .ok afterCommit =>
      exact (stays_commitAt source config position).bind fun _ =>
        ((stays_ask (by trivial)).bind fun _ => stays_orThrow _ _).bind fun _ => stays_pure _
    | .error error =>
      refine (stays_ask (by trivial)).bind fun decision =>
        (stays_db _ (by trivial)).bind fun _ => ?_
      cases decision with
      | retry =>
        cases retriesLeft with
        | zero => exact stays_throw _
        | succ retriesLeft =>
          exact (stays_ask (by trivial)).bind fun _ =>
            stays_whenPending source config (ih retriesLeft (Nat.lt_succ_self _) (attempt+1))
      | skip => exact stays_skipPosition source config position
      | stop => exact stays_pure _
      | fatal => exact stays_throw _

theorem stays_processEnvelope (envelope : PersistedEventEnvelope P) :
    Stays (processEnvelope source config envelope : Runner P Ev Er EnvelopeResult) := by
  refine stays_whenPending source config ((stays_ask (by trivial)).bind fun r => ?_)
  cases r with
  | error _ => exact stays_rollbackPreservingError _
  | ok event => exact stays_applyLoop source config event _ _ _

theorem stays_drainPage (envelopes : List (PersistedEventEnvelope P)) (drained : Drained) :
    Stays (drainPage source config envelopes drained : Runner P Ev Er _) := by
  induction envelopes generalizing drained with
  | nil => exact stays_pure _
  | cons envelope envelopes ih =>
    refine (stays_processEnvelope source config envelope).bind fun result => ?_
    dsimp only
    split
    · exact stays_pure _
    · exact ih _

theorem stays_drainPages (through pages : ℕ) (drained : Drained) :
    Stays (drainPages source config through pages drained : Runner P Ev Er _) := by
  induction pages generalizing drained with
  | zero => exact stays_cut
  | succ pages ih =>
    refine ((stays_ask (by trivial)).bind fun _ => stays_orThrow _ _).bind fun envelopes => ?_
    split
    · exact stays_pure _
    · refine (stays_drainPage source config envelopes drained).bind fun r => ?_
      match r with
      | (some outcome,drained) => exact stays_pure _
      | (none,drained) => exact ih drained

theorem stays_drainCycle (pages : ℕ) (drained : Drained) :
    Stays (drainCycle source config pages drained : Runner P Ev Er _) := by
  refine ((stays_ask (by trivial)).bind fun _ => stays_orThrow _ _).bind fun through => ?_
  cases through with
  | none => exact stays_pure _
  | some through => exact stays_drainPages source config through pages drained

theorem leads_release : Leads (release : Runner P Ev Er Unit) := by
  refine .inr ⟨rfl,fun r => ?_⟩
  cases r with
  | error _ => trivial
  | ok _ =>
    refine ⟨rfl,fun r => ?_⟩
    cases r <;> trivial

theorem leads_releaseWith (a : α) : Leads (do
    release
    pure a : Runner P Ev Er α) := by
  have hmap : (do
      release
      pure a : Runner P Ev Er α) = (fun _ => a) <$> release := (map_eq_pure_bind _ _).symm
  rw [hmap,Leads,ExceptT.run_map]
  exact Program.Until.map (Except.map fun _ => a) leads_release

theorem leads_runCycles (pages cycles : ℕ) (drained : Drained) :
    Leads (runCycles source config pages cycles drained : Runner P Ev Er _) := by
  induction cycles generalizing drained with
  | zero => exact trivial
  | succ cycles ih =>
    refine (stays_drainCycle source config pages drained).bindLeads fun r => ?_
    match r with
    | (.stopped position,drained) => exact leads_releaseWith _
    | (.caughtUp through,drained) =>
      dsimp only
      split
      · refine (stays_ask (by trivial)).bindLeads fun cancelled => ?_
        split
        · exact leads_releaseWith _
        · exact ih drained
      · exact leads_releaseWith _

theorem leads_runTransactionalProjectionWithLeader (unrolling : ℕ) :
    Leads (runTransactionalProjectionWithLeader source config unrolling : Runner P Ev Er _) :=
  (stays_loadValidatedProgress source config).bindLeads fun after =>
    leads_runCycles source config unrolling unrolling { after }

end LeaderRequests
end EventCore
