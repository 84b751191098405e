import EventCore.ProjectionDestination

/-! The reset of a transactional projection, alone or with a replay after it, as programs on the
runner's leader connection, and the destination that resets and runs of one projector share. -/
namespace EventCore
namespace ProjectionReset
open Interaction Runs ProjectionSource TransactionalRunner ProjectionDestination

inductive ProjectionResetError (Cb : Type)
  | busy
  | leadershipLost
  | sourceIdentityMismatch (persisted configured : DeliverySourceId)
  | selectionIdentityMismatch (persisted configured : ProjectionSelectionId)
  | callback (source : Cb)
  | progress
  | commitIndeterminate
deriving DecidableEq

inductive ProjectionResetAndReplayError (Er Cb : Type)
  | reset (error : ProjectionResetError Cb)
  | replay (error : TransactionalProjectionError Er)
deriving DecidableEq

/-- What the runner asks, the reset code of the application, and the deletion of the progress. -/
inductive Request (P Ev Er : Type)
  | runner (q : TransactionalRunner.Request P Ev Er)
  | reset
  | deleteProgress

@[reducible] def Answer (P Ev Er Cb : Type) : Request P Ev Er → Type
  | .runner q => TransactionalRunner.Answer P Ev Er q
  | .reset => Except Cb Unit
  | .deleteProgress => Except Unit Unit

section Program

variable {P Ev Er Cb α ε : Type}

abbrev Resetter (P Ev Er Cb ε α : Type) : Type :=
  ExceptT ε (Program (Request P Ev Er) (Answer P Ev Er Cb)) α

def ask (q : Request P Ev Er) : Resetter P Ev Er Cb ε (Answer P Ev Er Cb q) :=
  ExceptT.lift (Program.request q)

def ofRunner : Program (TransactionalRunner.Request P Ev Er) (TransactionalRunner.Answer P Ev Er) α →
    Program (Request P Ev Er) (Answer P Ev Er Cb) α
  | .done a => .done a
  | .cut => .cut
  | .ask q k => .ask (.runner q) fun a => ofRunner (k a)

/-- `map_err` on a part of the runner. -/
def mapErr (f : TransactionalProjectionError Er → ε) (part : Runner P Ev Er α) :
    Resetter P Ev Er Cb ε α :=
  ExceptT.adapt f (ExceptT.mk (ofRunner part.run))

def mapProgressError : TransactionalProjectionError Er → ProjectionResetError Cb
  | .progressStore => .progress
  | .progress _ => .progress
  | .leadershipLost => .leadershipLost
  | _ => .progress

def mapLeadershipError : TransactionalProjectionError Er → ProjectionResetError Cb
  | .leadershipBusy => .busy
  | .leadershipLost => .leadershipLost
  | _ => .leadershipLost

def rollbackPreservingResetError (error : ProjectionResetError Cb) :
    Resetter P Ev Er Cb (ProjectionResetError Cb) α := do
  match ← ask (.runner (.db .rollback)) with
  | .ok _ => throw error
  | .error _ => throw .leadershipLost

variable (source : DeliverySourceId) (selection : ProjectionSelectionId)

def checkIdentity : Option ProjectionProgress → Except (ProjectionResetError Cb) Unit
  | none => .ok ()
  | some progress =>
    if progress.sourceId ≠ source then .error (.sourceIdentityMismatch progress.sourceId source)
    else if progress.selectionId ≠ selection then
      .error (.selectionIdentityMismatch progress.selectionId selection)
    else .ok ()

/-- The callback and the deletion, in the transaction that `reset_with_leader` has begun. -/
def clear : Resetter P Ev Er Cb (ProjectionResetError Cb) Unit := do
  match ← ask .reset with
  | .error error => rollbackPreservingResetError (.callback error)
  | .ok _ =>
    match ← ask .deleteProgress with
    | .error _ =>
      rollbackPreservingResetError (mapProgressError (.progressStore : TransactionalProjectionError Er))
    | .ok _ =>
      match ← ask (.runner (.db .commit)) with
      | .error _ => throw .commitIndeterminate
      | .ok _ => pure ()

def resetWithLeader : Resetter P Ev Er Cb (ProjectionResetError Cb) Unit := do
  mapErr mapLeadershipError (db .leadershipLost .begin)
  match ← ExceptT.lift (ofRunner loadProgress.run) with
  | .error error => rollbackPreservingResetError (mapProgressError error)
  | .ok progress =>
    match checkIdentity source selection progress with
    | .error error => rollbackPreservingResetError error
    | .ok _ => clear

/-- A leader that is dropped after an error loses its connection at some time. -/
def leadReset : Resetter P Ev Er Cb (ProjectionResetError Cb) Unit := do
  mapErr mapLeadershipError acquireLeader
  resetWithLeader source selection

def resetTransactionalProjection : Resetter P Ev Er Cb (ProjectionResetError Cb) Unit := do
  leadReset source selection
  mapErr mapLeadershipError release

def resetAndReplayTransactionalProjection (config : PostgresProjectionConfig) (unrolling : ℕ) :
    Resetter P Ev Er Cb (ProjectionResetAndReplayError Er Cb) ProjectionRunOutcome := do
  ExceptT.adapt .reset (leadReset source config.selection)
  mapErr .replay (runTransactionalProjectionWithLeader source config unrolling)

end Program

/-- What a call is for; those of one projector compete for its leadership. -/
inductive Job
  | run
  | reset
  | resetAndReplay
deriving DecidableEq

section Jobs

variable {P Ev Er Cb : Type}

/-- How a call returns; a reset by itself has no outcome of a run. -/
abbrev Returned (Er Cb : Type) : Type :=
  Except (ProjectionResetAndReplayError Er Cb) (Option ProjectionRunOutcome)

def Job.program (source : DeliverySourceId) (config : PostgresProjectionConfig) (unrolling : ℕ) :
    Job → Program (Request P Ev Er) (Answer P Ev Er Cb) (Returned Er Cb)
  | .run => (some <$> (mapErr .replay (runTransactionalProjection source config unrolling) :
      Resetter P Ev Er Cb _ _)).run
  | .reset => ((fun _ => none) <$> ExceptT.adapt .reset
      (resetTransactionalProjection source config.selection : Resetter P Ev Er Cb _ _)).run
  | .resetAndReplay => (some <$> (resetAndReplayTransactionalProjection source config unrolling :
      Resetter P Ev Er Cb _ _)).run

end Jobs

/-- What an open transaction has reset: the content that the callback left of the read model, and
whether the progress is deleted. -/
structure Reset (M : Type) where
  content : Option M := none
  deleted : Bool := false

/-- The read model is what the last reset left, `content`, and what has been applied since. The
history of commits, of calls of reset code and of what each run has loaded last is kept along. -/
structure World (P M : Type) where
  runner : ProjectionDestination.World P
  content : M
  pending : RunId → Reset M := fun _ => {}
  writes : List (RunId × Reset M × Transaction) := []
  callbacks : List (RunId × Bool × M) := []
  loaded : RunId → Option ProjectionProgress := fun _ => none

/-- Reset code succeeds or fails, and leaves the read model with any content. -/
inductive Choice (Ev Er Cb M : Type)
  | runner (c : ProjectionDestination.Choice Ev Er)
  | reset (outcome : Except Cb Unit) (content : M)

variable {P Ev Er Cb M : Type}

namespace World

def setPending (w : World P M) (i : RunId) (reset : Reset M) : World P M :=
  { w with pending := Function.update w.pending i reset }

def disconnect (w : World P M) (i : RunId) : World P M :=
  { w.setPending i {} with runner := w.runner.disconnect i }

def commit (w : World P M) (i : RunId) (transaction : Transaction) : World P M :=
  let reset := w.pending i
  { w.setPending i {} with
    runner :=
      { w.runner.setTransaction i none with
        readModel := (if reset.content.isSome then [] else w.runner.readModel) ++
          transaction.applications
        progress := transaction.progress.or (if reset.deleted then none else w.runner.progress) }
    content := reset.content.getD w.content
    writes := w.writes ++ [(i,reset,transaction)] }

/-- A transaction sees what it has deleted and written itself. -/
def execute (w : World P M) (i : RunId) : (q : DbRequest) → Option (q.Reply × World P M)
  | .begin => (w.runner.execute i .begin).map fun r =>
      (r.1,{ w.setPending i {} with runner := r.2 })
  | .rollback => (w.runner.execute i .rollback).map fun r =>
      (r.1,{ w.setPending i {} with runner := r.2 })
  | .close => some ((),w.disconnect i)
  | .commit => (w.runner.session i).transaction.map fun transaction => ((),w.commit i transaction)
  | .loadProgress => (w.runner.session i).transaction.map fun transaction =>
      let progress :=
        transaction.progress.or (if (w.pending i).deleted then none else w.runner.progress)
      (progress,{ w with loaded := Function.update w.loaded i progress })
  | q => (w.runner.execute i q).map fun r => (r.1,{ w with runner := r.2 })

def performDb (w : World P M) (i : RunId) (q : DbRequest) :
    ProjectionDestination.Choice Ev Er → Option (Except Unit q.Reply × World P M)
  | .ok => if (w.runner.session i).lost then none else (w.execute i q).map fun r => (.ok r.1,r.2)
  | .unacknowledged =>
    if (w.runner.session i).lost then none else (w.execute i q).map fun r => (.error (),r.2)
  | .fail => some (.error (),w)
  | _ => none

/-- What reset code writes goes into the open transaction, if there is one. -/
def callback (w : World P M) (i : RunId) (succeeded : Bool) (content : M) : World P M :=
  let w := { w with callbacks := w.callbacks ++ [(i,succeeded,content)] }
  match (w.runner.session i).transaction with
  | none => w
  | some _ => w.setPending i { w.pending i with content := some content }

def deleteProgress (w : World P M) (i : RunId) : Option (World P M) :=
  if (w.runner.session i).lost then none
  else (w.runner.session i).transaction.map fun _ =>
    w.setPending i { w.pending i with deleted := true }

variable (selects : ProjectionSelectionId → PersistedEventEnvelope P → Bool)

def perform (w : World P M) (i : RunId) :
    (q : Request P Ev Er) → Choice Ev Er Cb M → Option (Answer P Ev Er Cb q × World P M)
  | .runner (.db q),.runner c => w.performDb i q c
  | .runner q,.runner c => (w.runner.perform selects i q c).map fun r =>
      (r.1,{ w with runner := r.2 })
  | .reset,.reset outcome content => some (outcome,w.callback i outcome.isOk content)
  | .deleteProgress,.runner .ok => (w.deleteProgress i).map fun w => (.ok (),w)
  | .deleteProgress,.runner .unacknowledged => (w.deleteProgress i).map fun w => (.error (),w)
  | .deleteProgress,.runner .fail => some (.error (),w)
  | _,_ => none

def happen (w : World P M) : Happening P → Option (World P M)
  | .deliver source envelope => (w.runner.happen (.deliver source envelope)).map fun runner =>
      { w with runner }
  | .disconnect i => some (w.disconnect i)

def machine : Machine RunId (Request P Ev Er) (Answer P Ev Er Cb) (World P M) (Choice Ev Er Cb M)
    (Happening P) where
  perform := perform selects
  background := happen

end World

structure Initial (w : World P M) : Prop where
  holder : w.runner.holder = none
  session : ∀ i, w.runner.session i = {}
  pending : ∀ i, w.pending i = {}
  writes : w.writes = []
  callbacks : w.callbacks = []

/-- Runs, resets and resets with replay of one projector in any interleaving. -/
def system (selects : ProjectionSelectionId → PersistedEventEnvelope P → Bool)
    (job : RunId → Job) (source : RunId → DeliverySourceId)
    (config : RunId → PostgresProjectionConfig) :
    System (State RunId (Request P Ev Er) (Answer P Ev Er Cb) (World P M) (Returned Er Cb))
      (Label RunId (Choice Ev Er Cb M) (Happening P)) :=
  (World.machine selects).system
    (fun i unrolling => (job i).program (source i) (config i) unrolling) Initial

end ProjectionReset
end EventCore
