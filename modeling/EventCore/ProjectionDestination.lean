import EventCore.TransactionalRunner

/-! The world that competing runners of one projector share: the destination database with its
sessions, the advisory lock, the sources, and what the projector answered. -/
namespace EventCore
namespace ProjectionDestination
open Interaction ProjectionSource TransactionalRunner

structure Transaction where
  applications : List Application := []
  progress : Option ProjectionProgress := none
deriving DecidableEq

/-- A connection and its open transaction. A lost one answers nothing any more. -/
structure Session where
  transaction : Option Transaction := none
  lost : Bool := false
deriving DecidableEq

/-- `readModel` and `progress` are what is committed; `skips` holds the positions for which a
projector decided to skip, `executed` the after-commit work that was begun. -/
structure World (P : Type) where
  readModel : List Application := []
  progress : Option ProjectionProgress := none
  holder : Option RunId := none
  session : RunId → Session := fun _ => {}
  log : DeliverySourceId → Log P := fun _ => {}
  reported : RunId → Option ℕ := fun _ => none
  applications : ℕ := 0
  skips : List ℕ := []
  executed : List Application := []

/-- How a request goes. An unacknowledged one took effect, but its reply was lost. -/
inductive Choice (Ev Er : Type)
  | ok
  | fail
  | unacknowledged
  | decoded (event : Except Unit Ev)
  | applied (outcome : Except Er Unit)
  | decided (decision : ProjectionFailureDecision)
  | page (size : ℕ)
  | cancelled (cancelled : Bool)

inductive Happening (P : Type)
  | deliver (source : DeliverySourceId) (envelope : PersistedEventEnvelope P)
  | disconnect (run : RunId)

variable {P Ev Er : Type}

namespace World

def setTransaction (w : World P) (i : RunId) (transaction : Option Transaction) : World P :=
  { w with session := Function.update w.session i { w.session i with transaction } }

/-- The end of a session rolls its transaction back and frees its lock. -/
def disconnect (w : World P) (i : RunId) : World P :=
  { w with
    session := Function.update w.session i ⟨none,true⟩
    holder := if w.holder = some i then none else w.holder }

/-- What the server does for a request, unless the session is lost. A transaction sees its own
writes over the committed state. Row locks are left out, so that more runs are allowed. -/
def execute (w : World P) (i : RunId) : (q : DbRequest) → Option (q.Reply × World P)
  | .tryAdvisoryLock =>
    match w.holder with
    | none => some (true,{ w with holder := some i })
    | some j => some (decide (j = i),w)
  | .advisoryUnlock => some ((),{ w with holder := if w.holder = some i then none else w.holder })
  | .close => some ((),w.disconnect i)
  | .begin =>
    match (w.session i).transaction with
    | none => some ((),w.setTransaction i (some {}))
    | some _ => none
  | .commit => (w.session i).transaction.map fun transaction =>
      ((),{ w.setTransaction i none with
        readModel := w.readModel ++ transaction.applications
        progress := transaction.progress.or w.progress })
  | .rollback => (w.session i).transaction.map fun _ => ((),w.setTransaction i none)
  | .loadProgress => (w.session i).transaction.map fun transaction =>
      (transaction.progress.or w.progress,w)
  | .advanceProgress progress => (w.session i).transaction.map fun transaction =>
      ((),w.setTransaction i (some { transaction with progress := some progress }))

/-- What `apply` writes goes into the open transaction of its runner. -/
def write (w : World P) (i : RunId) (application : Application) : World P :=
  match (w.session i).transaction with
  | none => w
  | some transaction => w.setTransaction i
      (some { transaction with applications := transaction.applications ++ [application] })

def performDb (w : World P) (i : RunId) (q : DbRequest) :
    Choice Ev Er → Option (Except Unit q.Reply × World P)
  | .ok => if (w.session i).lost then none else (w.execute i q).map fun r => (.ok r.1,r.2)
  | .unacknowledged =>
    if (w.session i).lost then none else (w.execute i q).map fun r => (.error (),r.2)
  | .fail => some (.error (),w)
  | _ => none

def reporting (w : World P) (i : RunId) (source : DeliverySourceId) : World P :=
  { w with
    log := Function.update w.log source (w.log source).reporting
    reported := Function.update w.reported i (w.log source).highWatermark }

variable (selects : ProjectionSelectionId → PersistedEventEnvelope P → Bool)

def perform (w : World P) (i : RunId) :
    (q : Request P Ev Er) → Choice Ev Er → Option (Answer P Ev Er q × World P)
  | .acquire,.ok => some (.ok (),w)
  | .acquire,.fail => some (.error (),w)
  | .db q,c => w.performDb i q c
  | .highWatermark source,.ok =>
    some (.ok (w.log source).highWatermark,w.reporting i source)
  | .highWatermark _,.fail => some (.error (),w)
  | .readEnvelopes source selection after through limit,.page size =>
    ((w.log source).readEnvelopes (selects selection) after through limit size).map fun page =>
      (.ok page,w)
  | .readEnvelopes _ _ _ _ _,.fail => some (.error (),w)
  | .decode _,.decoded event => some (event,w)
  | .apply _ position,.applied outcome =>
    let application : Application := ⟨i,w.applications,position,outcome.isOk⟩
    some (outcome.map fun _ => application,
      { w.write i application with applications := w.applications+1 })
  | .onError position _ _,.decided decision =>
    some (decision,if decision = .skip then { w with skips := position :: w.skips } else w)
  | .retrySleep _,.ok => some ((),w)
  | .execute afterCommit,.ok => some (.ok (),{ w with executed := w.executed ++ [afterCommit] })
  | .execute afterCommit,.fail =>
    some (.error (),{ w with executed := w.executed ++ [afterCommit] })
  | .pollSleep,.cancelled cancelled => some (cancelled,w)
  | _,_ => none

def happen (w : World P) : Happening P → Option (World P)
  | .deliver source envelope => ((w.log source).deliver envelope).map fun log =>
      { w with log := Function.update w.log source log }
  | .disconnect i => some (w.disconnect i)

/-- Runners against their world: requests go as chosen, deliveries arrive and connections break
at any time. -/
def machine : Machine RunId (Request P Ev Er) (Answer P Ev Er) (World P) (Choice Ev Er)
    (Happening P) where
  perform := perform selects
  background := happen

end World

end ProjectionDestination
end EventCore
