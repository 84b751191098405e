import EventCore.Interaction
import EventCore.StreamVersions

/-! Concurrent appends to the Postgres store, one SQL statement at a time: advisory locks on the
registered streams, their versions checked, the rows inserted in chunks, the commit. -/
namespace EventCore
namespace PostgresAppends
open Interaction Runs SerdeJson SqliteStore PostgresStore StreamVersions

abbrev AppendId := ℕ

variable {Any : Type}

inductive Request (Any : Type)
  | begin
  | advisoryXactLock (streamId : String)
  | selectMaxVersion (streamId : String)
  | setConfig (expectedVersions : HashMap String ℕ)
  | insertEvents (chunk : List (StreamWriteEntry Any Text))
  | commit

@[reducible] def Request.Reply : Request Any → Type
  | .selectMaxVersion _ => ℕ
  | _ => Unit

@[reducible] def Answer (q : Request Any) : Type := Except EventStoreError q.Reply

/-- What an error that is not a conflict is reported as. -/
def Request.operation : Request Any → Operation
  | .begin => .beginTransaction
  | .setConfig _ => .setExpectedVersions
  | .commit => .commitTransaction
  | _ => .appendEvents

section Program

abbrev Append (Any α : Type) : Type :=
  ExceptT EventStoreError (Program (Request Any) Answer) α

def ask (q : Request Any) : Append Any q.Reply := ExceptT.mk (Program.request q)

def lockStreams : List (Sigma fun _ : StreamId => StreamVersion) → Append Any Unit
  | [] => pure ()
  | ⟨streamId,_⟩ :: expectedStreams => do
    ask (.advisoryXactLock streamId.value)
    lockStreams expectedStreams

def checkStreams : List (Sigma fun _ : StreamId => StreamVersion) → Append Any Unit
  | [] => pure ()
  | ⟨streamId,expectedVersion⟩ :: expectedStreams => do
    let actual : ℕ ← ask (.selectMaxVersion streamId.value)
    if actual ≠ expectedVersion then
      throw (.versionConflict streamId expectedVersion actual)
    else checkStreams expectedStreams

def validateExpectedVersions (expectedVersions : HashMap StreamId StreamVersion) :
    Append Any Unit := do
  let expectedStreams :=
    expectedVersions.entries.insertionSort fun p q => p.1.value ≤ q.1.value
  lockStreams expectedStreams
  checkStreams expectedStreams

def chunksWithin {α : Type} (size : ℕ) : ℕ → List α → List (List α)
  | 0,_ => []
  | _,[] => []
  | steps + 1,items => items.take size :: chunksWithin size steps (items.drop size)

def chunks {α : Type} (size : ℕ) (items : List α) : List (List α) :=
  chunksWithin size items.length items

def maxEventsPerInsert : ℕ := 1000

def insertChunks : List (List (StreamWriteEntry Any Text)) → Append Any Unit
  | [] => pure ()
  | chunk :: rest => do
    ask (.insertEvents chunk)
    insertChunks rest

def appendEvents (writes : StreamWrites Any Text) : Append Any Unit :=
  match writes.entries with
  | [] => pure ()
  | _ :: _ => do
    ask .begin
    validateExpectedVersions writes.expectedVersions
    ask (.setConfig (expectedVersionsJson writes.expectedVersions))
    insertChunks (chunks maxEventsPerInsert writes.entries)
    ask .commit

end Program

/-- An open transaction: the rows it has inserted and its session setting. -/
structure Transaction where
  rows : Table Text := []
  expectedVersions : HashMap String ℕ := ∅

/-- The table is what was there before and what each committed append has added to it. -/
structure World (κ : Type) where
  before : Table Text := []
  commits : List (AppendId × Table Text) := []
  transactions : HashMap AppendId Transaction := ∅
  locks : κ → Option AppendId := fun _ => none
  drawn : ℕ := 0

inductive Choice
  | ok
  | fail

namespace World

variable {κ : Type} [DecidableEq κ]

def events (w : World κ) : Table Text := w.before ++ w.commits.flatMap Prod.snd

def update (w : World κ) (i : AppendId) (t : Transaction) : World κ :=
  { w with transactions := AList.insert i t w.transactions }

def finish (w : World κ) (i : AppendId) : World κ :=
  { w with
    transactions := AList.erase i w.transactions
    locks := fun key => if w.locks key = some i then none else w.locks key }

/-- A row that another open transaction has inserted makes an equal one wait. -/
def contended (w : World κ) (i : AppendId) (rows : Table Text) : Bool :=
  w.transactions.entries.any fun p => p.1 ≠ i && rows.any (violatesUnique p.2.rows)

variable (hashtextextended : String → κ) (accepts : Text → Bool) (nowV7 : ℕ → Uuid)

/-- A statement sees what is committed when it starts, and the rows of its own transaction. -/
def execute (w : World κ) (i : AppendId) (t : Transaction) :
    (q : Request Any) → Option (Answer q × World κ)
  | .begin => none
  | .advisoryXactLock streamId =>
    let key := hashtextextended streamId
    if w.locks key = none ∨ w.locks key = some i then
      some (.ok (),{ w with locks := Function.update w.locks key (some i) })
    else none
  | .selectMaxVersion streamId => some (.ok (currentVersion (w.events ++ t.rows) streamId),w)
  | .setConfig expectedVersions => some (.ok (),w.update i { t with expectedVersions })
  | .insertEvents chunk =>
    let drawn := w.drawn + chunk.length
    match chunk.foldlM (insertRow accepts nowV7)
        ⟨w.events ++ t.rows,t.expectedVersions,w.drawn⟩ with
    | .error e => some (.error e,{ w with drawn })
    | .ok insertion =>
      let rows := insertion.table.drop w.events.length
      if w.contended i rows then none
      else some (.ok (),{ w.update i ⟨rows,insertion.expectedVersions⟩ with drawn })
  | .commit => some (.ok (),{ w.finish i with commits := w.commits ++ [(i,t.rows)] })

/-- A commit that fails has rolled back; after any other failure the transaction stays open until
it is rolled back. -/
def perform (w : World κ) (i : AppendId) :
    (q : Request Any) → Choice → Option (Answer q × World κ)
  | .commit,.fail => some (.error (.storeFailure .commitTransaction),w.finish i)
  | q,.fail => some (.error (.storeFailure q.operation),w)
  | .begin,.ok =>
    match w.transactions.get? i with
    | none => some (.ok (),w.update i {})
    | some _ => none
  | q,.ok => (w.transactions.get? i).bind fun t =>
    w.execute hashtextextended accepts nowV7 i t q

/-- A transaction that is dropped, or loses its connection, is rolled back at some time. -/
def rollback (w : World κ) (i : AppendId) : Option (World κ) :=
  (w.transactions.get? i).map fun _ => w.finish i

def machine : Machine AppendId (Request Any) Answer (World κ) Choice AppendId where
  perform := perform hashtextextended accepts nowV7
  background := rollback

end World

end PostgresAppends
end EventCore
