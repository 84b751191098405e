import EventCore.AppendSerialization
import EventCore.DeliveryFrontier
import EventCore.Grouping
import EventCore.LockOrder

/-! The locks of concurrent appends to the Postgres store: each statement of an append step by step
as the server carries it out, with the rows that the version trigger locks one by one and the
frontier row that the delivery trigger locks at the end of every insert. -/
namespace EventCore
namespace AppendLocks
open Interaction Runs SerdeJson SqliteStore PostgresStore ConflictMessage
open DeliveryFrontier (Delivery Tables assigned bigintMax)
open PostgresAppends (AppendId Choice)
open AppendSerialization (chunks_flatten)
open Grouping (pairwise_lt_sortBy)
open LockOrder (Discipline LockTable Moves Tidy Acyclic)

variable {Any : Type}

/-- An advisory lock by its key, a row of `eventcore_events` by its unique columns, and the one row
of `eventcore_projection_delivery_frontier`. -/
inductive Lock (κ : Type)
  | advisory (key : κ)
  | row (streamId : String) (streamVersion : ℕ)
  | frontier
  deriving DecidableEq

/-- The steps of the statements. Those of the two triggers are `selectLastVersion`, `lockRow` and
`insertRow`, for every row before it is inserted, and `selectFrontier`, `insertDelivery` and
`updateFrontier` after the last one. -/
inductive Request (Any : Type)
  | begin
  | advisoryXactLock (streamId : String)
  | selectMaxVersion (streamId : String)
  | setConfig (expectedVersions : HashMap String ℕ)
  | nowV7 (count : ℕ)
  | selectLastVersion (streamId : String)
  | lockRow (streamId : String) (streamVersion : ℕ)
  | insertRow (eventId : Uuid) (entry : StreamWriteEntry Any Text) (currentMaxVersion : ℕ)
  | selectFrontier
  | insertDelivery (insertedEvents : List (Row Text)) (currentFrontier : ℕ)
  | updateFrontier (lastPosition : ℕ)
  | commit

@[reducible] def Request.Reply : Request Any → Type
  | .selectMaxVersion _ => ℕ
  | .nowV7 _ => List Uuid
  | .selectLastVersion _ => Option ℕ
  | .insertRow _ _ _ => Row Text
  | .selectFrontier => ℕ
  | .insertDelivery _ _ => ℕ
  | _ => Unit

@[reducible] def Answer (q : Request Any) : Type := Except EventStoreError q.Reply

def Request.operation : Request Any → Operation
  | .begin => .beginTransaction
  | .setConfig _ => .setExpectedVersions
  | .commit => .commitTransaction
  | _ => .appendEvents

section Program

abbrev Append (Any α : Type) : Type :=
  ExceptT EventStoreError (Program (Request Any) Answer) α

def ask (q : Request Any) : Append Any q.Reply := ExceptT.mk (Program.request q)

/-- The `SELECT … LIMIT 1 FOR UPDATE` of the version trigger: the row it finds is locked. -/
def selectForUpdate (streamId : StreamId) : Append Any ℕ := do
  let streamVersion : Option ℕ ← ask (.selectLastVersion streamId.value)
  match streamVersion with
  | none => pure 0
  | some streamVersion => do
    ask (.lockRow streamId.value streamVersion)
    pure streamVersion

/-- The rows of one `INSERT`, each through the version trigger. -/
def insertRows : List (Uuid × StreamWriteEntry Any Text) → Append Any (List (Row Text))
  | [] => pure []
  | ⟨eventId,entry⟩ :: values => do
    let currentMaxVersion ← selectForUpdate entry.streamId
    let row : Row Text ← ask (.insertRow eventId entry currentMaxVersion)
    let rows ← insertRows values
    pure (row :: rows)

/-- `eventcore_projection_assign_delivery_positions`. -/
def assignDeliveryPositions (insertedEvents : List (Row Text)) : Append Any Unit := do
  let currentFrontier : ℕ ← ask .selectFrontier
  let insertedCount : ℕ ← ask (.insertDelivery insertedEvents currentFrontier)
  ask (.updateFrontier (currentFrontier + insertedCount))

def statement : (q : PostgresAppends.Request Any) → Append Any q.Reply
  | .begin => ask .begin
  | .advisoryXactLock streamId => ask (.advisoryXactLock streamId)
  | .selectMaxVersion streamId => ask (.selectMaxVersion streamId)
  | .setConfig expectedVersions => ask (.setConfig expectedVersions)
  | .insertEvents chunk => do
    let eventIds : List Uuid ← ask (.nowV7 chunk.length)
    let insertedEvents ← insertRows (eventIds.zip chunk)
    assignDeliveryPositions insertedEvents
  | .commit => ask .commit

def appendEvents (writes : StreamWrites Any Text) :
    Program (Request Any) Answer (Except EventStoreError Unit) :=
  (PostgresAppends.appendEvents writes).run.expand fun q => (statement q).run

end Program

section Trigger

/-- What the version trigger does with the version it has read. -/
def numberRow (accepts : Text → Bool) (expectedVersions : HashMap String ℕ)
    (currentMaxVersion : ℕ) (eventId : Uuid) (entry : StreamWriteEntry Any Text) :
    Except EventStoreError (Row Text × HashMap String ℕ) :=
  match jsonb accepts entry.eventData with
  | none => .error (.storeFailure .appendEvents)
  | some eventData =>
    let streamVersion := currentMaxVersion+1
    let numbered : Row Text × HashMap String ℕ :=
      (⟨eventId,entry.streamId.value,streamVersion,entry.eventType,eventData⟩,
        expectedVersions.insert entry.streamId.value streamVersion)
    match expectedVersions.get? entry.streamId.value with
    | none => .ok numbered
    | some expectedVersion =>
      if expectedVersion ≠ currentMaxVersion then
        .error (parseVersionConflictFromDbError
          (versionConflictMessage entry.streamId expectedVersion currentMaxVersion))
      else .ok numbered

/-- `ORDER BY stream_version DESC LIMIT 1`. -/
def lastVersion (table : Table Text) (streamId : String) : Option ℕ :=
  ((rowsOf table streamId).map Row.streamVersion).max?

end Trigger

/-- An open transaction: its rows, its session setting, its deliveries and the frontier it has
written. -/
structure Transaction where
  rows : Table Text := []
  expectedVersions : HashMap String ℕ := ∅
  delivery : List Delivery := []
  lastPosition : Option ℕ := none

structure World (κ : Type) where
  committed : Tables Text := {}
  transactions : HashMap AppendId Transaction := ∅
  holder : Lock κ → Option AppendId := fun _ => none
  drawn : ℕ := 0

namespace World

variable {κ σ : Type}

def update (w : World κ) (i : AppendId) (t : Transaction) : World κ :=
  { w with transactions := AList.insert i t w.transactions }

def finish (w : World κ) (i : AppendId) : World κ :=
  { w with
    transactions := AList.erase i w.transactions
    holder := fun l => if w.holder l = some i then none else w.holder l }

/-- A row that another open transaction has inserted makes an equal one wait. -/
def contended (w : World κ) (i : AppendId) (row : Row Text) : Bool :=
  w.transactions.entries.any fun p => p.1 ≠ i && violatesUnique p.2.rows row

def live (w : World κ) (i : AppendId) : Bool := (w.transactions.get? i).isSome

section Live

variable {w : World κ} {i j : AppendId}

theorem live_update {t : Transaction} (ht : w.live i) : (w.update i t).live j = w.live j := by
  by_cases hji : j = i
  · subst hji
    rw [ht,live,update,HashMap.get?_insert_self]
    rfl
  · rw [live,live,update,HashMap.get?_insert_ne _ _ hji]

theorem live_finish_self : (w.finish i).live i = false := by
  rw [live,finish,HashMap.get?,AList.lookup_erase]
  rfl

theorem live_finish_ne (hji : j ≠ i) : (w.finish i).live j = w.live j := by
  rw [live,live,finish,HashMap.get?,HashMap.get?,AList.lookup_erase_ne hji]

theorem held_finish_self : {l | (w.finish i).holder l = some i} = ∅ := by
  ext l
  simp [finish]

theorem held_finish_ne (hji : j ≠ i) :
    {l | (w.finish i).holder l = some j} = {l | w.holder l = some j} := by
  ext l
  by_cases hl : w.holder l = some i
  · simp [finish,hl,Ne.symm hji]
  · simp [finish,hl]

end Live

variable [DecidableEq κ] [LinearOrder σ] (hashtextextended : String → κ)

def lock? : Request Any → Option (Lock κ)
  | .advisoryXactLock streamId => some (.advisory (hashtextextended streamId))
  | .lockRow streamId streamVersion => some (.row streamId streamVersion)
  | .selectFrontier => some .frontier
  | .updateFrontier _ => some .frontier
  | _ => none

/-- The world with the lock granted, unless another transaction holds it. -/
def grant (w : World κ) (i : AppendId) (q : Request Any) : Option (World κ) :=
  match lock? hashtextextended q with
  | none => some w
  | some l =>
    if w.holder l = none ∨ w.holder l = some i then
      some { w with holder := Function.update w.holder l (some i) }
    else none

variable (accepts : Text → Bool) (collation : String → σ) (nowV7 : ℕ → Uuid)

/-- A step that has its lock sees what is committed by then, and what its own transaction has
written. -/
def execute (w : World κ) (i : AppendId) (t : Transaction) :
    (q : Request Any) → Option (Answer q × World κ)
  | .begin => none
  | .advisoryXactLock _ => some (.ok (),w)
  | .selectMaxVersion streamId =>
    some (.ok (currentVersion (w.committed.events ++ t.rows) streamId),w)
  | .setConfig expectedVersions => some (.ok (),w.update i { t with expectedVersions })
  | .nowV7 count =>
    some (.ok ((List.range count).map fun n => nowV7 (w.drawn + n)),
      { w with drawn := w.drawn + count })
  | .selectLastVersion streamId =>
    some (.ok (lastVersion (w.committed.events ++ t.rows) streamId),w)
  | .lockRow _ _ => some (.ok (),w)
  | .insertRow eventId entry currentMaxVersion =>
    match numberRow accepts t.expectedVersions currentMaxVersion eventId entry with
    | .error e => some (.error e,w)
    | .ok (row,expectedVersions) =>
      if violatesUnique (w.committed.events ++ t.rows) row then
        some (.error (.versionConflict unknownConflictStream 0 0),w)
      else if w.contended i row then none
      else some (.ok row,w.update i { t with rows := t.rows ++ [row], expectedVersions })
  | .selectFrontier => some (.ok (t.lastPosition.getD w.committed.lastPosition),w)
  | .insertDelivery insertedEvents currentFrontier =>
    let rows := assigned collation currentFrontier insertedEvents
    if currentFrontier + rows.length ≤ bigintMax then
      some (.ok rows.length,w.update i { t with delivery := t.delivery ++ rows })
    else some (.error (.storeFailure .appendEvents),w)
  | .updateFrontier lastPosition =>
    some (.ok (),w.update i { t with lastPosition := some lastPosition })
  | .commit =>
    let transaction : DeliveryFrontier.Transaction Text :=
      { events := t.rows, delivery := t.delivery, lastPosition := t.lastPosition }
    some (.ok (),{ w.finish i with committed := w.committed.commit transaction })

/-- A commit that fails has rolled back; after any other failure the transaction stays open, with
its locks, until it is rolled back. -/
def perform (w : World κ) (i : AppendId) :
    (q : Request Any) → Choice → Option (Answer q × World κ)
  | .commit,.fail => some (.error (.storeFailure .commitTransaction),w.finish i)
  | q,.fail => some (.error (.storeFailure q.operation),w)
  | .begin,.ok =>
    match w.transactions.get? i with
    | none => some (.ok (),w.update i {})
    | some _ => none
  | q,.ok => (w.transactions.get? i).bind fun t =>
    (w.grant hashtextextended i q).bind fun w => w.execute accepts collation nowV7 i t q

/-- A transaction that is dropped, or loses its connection, is rolled back at some time. -/
def rollback (w : World κ) (i : AppendId) : Option (World κ) :=
  (w.transactions.get? i).map fun _ => w.finish i

def machine : Machine AppendId (Request Any) Answer (World κ) Choice AppendId where
  perform := perform hashtextextended accepts collation nowV7
  background := rollback

/-- What a step does to the locks and to the open transactions. -/
inductive Effect (w : World κ) (i : AppendId) (q : Request Any) (ok : Bool) (w' : World κ) : Prop
  | opens (hq : q = .begin) (hok : ok = true) (hclosed : ¬ w.live i)
      (hholder : w'.holder = w.holder) (hlive : ∀ j, j ≠ i → w'.live j = w.live j)
  | fails (hok : ok = false) (hholder : w'.holder = w.holder) (hlive : ∀ j, w'.live j = w.live j)
  | goes (hq : q ≠ .begin) (hopen : w.live i) (u : World κ)
      (hgrant : w.grant hashtextextended i q = some u)
      (hok : ok = true ∨ lock? hashtextextended q = none) (hholder : w'.holder = u.holder)
      (hlive : ∀ j, w'.live j = w.live j)
  | ends (hq : q ≠ .begin) (hholder : w'.holder = (w.finish i).holder)
      (hlive : ∀ j, w'.live j = (w.finish i).live j)

section Steps

variable {hashtextextended accepts collation nowV7} {w w' : World κ} {i j : AppendId}
  {t : Transaction} {q : Request Any}

omit [DecidableEq κ] in
theorem execute_keeps {a : Answer q} (hq : q ≠ .commit) (ht : w.live i)
    (h : w.execute accepts collation nowV7 i t q = some (a,w')) :
    w'.holder = w.holder ∧ (∀ j, w'.live j = w.live j) ∧
      (a.isOk = true ∨ lock? hashtextextended q = none) := by
  cases q with
  | «begin» => cases h
  | commit => exact absurd rfl hq
  | insertRow eventId entry currentMaxVersion =>
    simp only [execute] at h
    split at h
    · cases h
      exact ⟨rfl,fun _ => rfl,.inr rfl⟩
    · split_ifs at h
      · cases h
        exact ⟨rfl,fun _ => rfl,.inr rfl⟩
      · cases h
        exact ⟨rfl,fun _ => live_update ht,.inr rfl⟩
  | insertDelivery insertedEvents currentFrontier =>
    simp only [execute] at h
    split_ifs at h
    · cases h
      exact ⟨rfl,fun _ => live_update ht,.inr rfl⟩
    · cases h
      exact ⟨rfl,fun _ => rfl,.inr rfl⟩
  | setConfig expectedVersions | updateFrontier lastPosition =>
    cases h
    exact ⟨rfl,fun _ => live_update ht,.inl rfl⟩
  | advisoryXactLock streamId | selectMaxVersion streamId | nowV7 count
    | selectLastVersion streamId | lockRow streamId streamVersion | selectFrontier =>
    cases h
    exact ⟨rfl,fun _ => rfl,.inl rfl⟩

theorem grant_live {u : World κ} (h : w.grant hashtextextended i q = some u) :
    u.transactions = w.transactions := by
  unfold grant at h
  split at h
  · rw [← Option.some.inj h]
  · split_ifs at h
    rw [← Option.some.inj h]

theorem perform_effect {c : Choice} {a : Answer q}
    (h : w.perform hashtextextended accepts collation nowV7 i q c = some (a,w')) :
    Effect hashtextextended w i q a.isOk w' := by
  by_cases hcommit : q = .commit
  · subst hcommit
    cases c with
    | fail =>
      cases h
      exact .ends (by simp) rfl fun _ => rfl
    | ok =>
      simp only [perform,grant,lock?,Option.bind_some] at h
      obtain ⟨t,_,hexecute⟩ := Option.bind_eq_some_iff.mp h
      cases hexecute
      exact .ends (by simp) rfl fun _ => rfl
  · cases c with
    | fail =>
      have hfail : w.perform hashtextextended accepts collation nowV7 i q .fail =
          some (.error (.storeFailure q.operation),w) := by
        cases q with
        | commit => exact absurd rfl hcommit
        | _ => rfl
      rw [h] at hfail
      cases hfail
      exact .fails rfl rfl fun _ => rfl
    | ok =>
      by_cases hbegin : q = .begin
      · subst hbegin
        simp only [perform] at h
        split at h
        · rename_i hnone
          cases h
          have hclosed : w.live i = false := by
            rw [live,hnone]
            rfl
          refine .opens rfl rfl (by simp [hclosed]) rfl fun j hji => ?_
          rw [live,live,update,HashMap.get?_insert_ne _ _ hji]
        · cases h
      · have hok : w.perform hashtextextended accepts collation nowV7 i q .ok =
            (w.transactions.get? i).bind fun t => (w.grant hashtextextended i q).bind fun w =>
              w.execute accepts collation nowV7 i t q := by
          cases q with
          | «begin» => exact absurd rfl hbegin
          | _ => rfl
        rw [h] at hok
        obtain ⟨t,ht,hrest⟩ := Option.bind_eq_some_iff.mp hok.symm
        obtain ⟨u,hgrant,hexecute⟩ := Option.bind_eq_some_iff.mp hrest
        have hsame : ∀ j, u.live j = w.live j := fun j => by rw [live,live,grant_live hgrant]
        have hopen : w.live i = true := by
          rw [live,ht]
          rfl
        have hlive : u.live i = true := (hsame i).trans hopen
        obtain ⟨hholder,hlive',hanswer⟩ := execute_keeps hcommit hlive hexecute
        exact .goes hbegin hopen u hgrant hanswer hholder fun j => (hlive' j).trans (hsame j)

theorem held_grant {u : World κ} (h : w.grant hashtextextended i q = some u) :
    {l | u.holder l = some i} =
      {l | w.holder l = some i} ∪ {l | lock? hashtextextended q = some l} ∧
    ∀ j, j ≠ i → {l | u.holder l = some j} = {l | w.holder l = some j} := by
  unfold grant at h
  split at h
  · rename_i hnone
    obtain rfl := Option.some.inj h
    exact ⟨by simp [hnone],fun _ _ => rfl⟩
  · rename_i k hk
    split_ifs at h with hfree
    obtain rfl := Option.some.inj h
    constructor
    · ext l
      by_cases hl : l = k
      · simp [hl,hk]
      · simpa [hk,Function.update_of_ne hl] using fun he : l = k => absurd he hl
    · intro j hji
      ext l
      by_cases hl : l = k
      · subst hl
        have hne : ¬ w.holder l = some j := by
          rintro hj
          rcases hfree with hnone | hown
          · rw [hj] at hnone
            cases hnone
          · exact hji (Option.some.inj (hj.symm.trans hown))
        simp [hne,Ne.symm hji]
      · simp [Function.update_of_ne hl]

end Steps

end World

section Table

variable {κ σ : Type} [DecidableEq κ] [LinearOrder σ] {hashtextextended : String → κ}
  {accepts : Text → Bool} {collation : String → σ} {nowV7 : ℕ → Uuid} {w w' : World κ}
  {i j : AppendId} {q : Request Any} {ok : Bool}

def Request.starts : Request Any → Bool
  | .begin => true
  | _ => false

omit [DecidableEq κ] in
theorem finish_moves (hholder : w'.holder = (w.finish i).holder)
    (hlive : ∀ j, w'.live j = (w.finish i).live j) (htidy : Tidy w.holder w.live)
    {gained : Set (Lock κ)} (hgained : j ≠ i → gained = ∅) :
    Moves (w.live j) (w'.live j) {l | w.holder l = some j} {l | w'.holder l = some j} gained := by
  by_cases hji : j = i
  · subst hji
    refine ⟨fun h => ?_,fun _ => by rw [hholder,World.held_finish_self]⟩
    rw [hlive,World.live_finish_self] at h
    cases h
  · rw [hgained hji]
    refine htidy.moves ((hlive j).trans (World.live_finish_ne hji)) ?_ fun _ => rfl
    rw [hholder,World.held_finish_ne hji,Set.union_empty]

theorem effect_other (htidy : Tidy w.holder w.live)
    (h : World.Effect hashtextextended w i q ok w') (hji : j ≠ i) :
    Moves (w.live j) (w'.live j) {l | w.holder l = some j} {l | w'.holder l = some j} ∅ := by
  cases h with
  | opens _ _ _ hholder hlive =>
    refine htidy.moves (hlive j hji) ?_ fun _ => rfl
    rw [hholder,Set.union_empty]
  | fails _ hholder hlive =>
    refine htidy.moves (hlive j) ?_ fun _ => rfl
    rw [hholder,Set.union_empty]
  | goes _ _ u hgrant _ hholder hlive =>
    refine htidy.moves (hlive j) ?_ fun _ => rfl
    rw [hholder,(World.held_grant hgrant).2 j hji,Set.union_empty]
  | ends _ hholder hlive => exact finish_moves hholder hlive htidy fun _ => rfl

theorem effect_own (htidy : Tidy w.holder w.live)
    (h : World.Effect hashtextextended w i q ok w') (hq : q.starts = false) :
    Moves (w.live i) (w'.live i) {l | w.holder l = some i} {l | w'.holder l = some i}
      {l | World.lock? hashtextextended q = some l ∧ ok} := by
  cases h with
  | opens hbegin =>
    rw [hbegin] at hq
    cases hq
  | fails hok hholder hlive =>
    refine htidy.moves (hlive i) ?_ fun _ => by simp [hok]
    simp [hok,hholder]
  | goes _ hopen u hgrant hok hholder hlive =>
    refine htidy.moves (hlive i) ?_ fun hclosed => absurd hopen hclosed
    rw [hholder,(World.held_grant hgrant).1]
    rcases hok with hok | hnone
    · simp [hok]
    · simp [hnone]
  | ends _ hholder hlive => exact finish_moves hholder hlive htidy fun hii => absurd rfl hii

variable (hashtextextended accepts collation nowV7)

def table : LockTable (World.machine hashtextextended accepts collation nowV7 :
    Machine AppendId (Request Any) Answer (World κ) Choice AppendId) (Lock κ) where
  holder := World.holder
  live := World.live
  starts := Request.starts
  asks := World.lock? hashtextextended
  granted _ a := a.isOk
  other htidy hperform hji := effect_other htidy (World.perform_effect hperform) hji
  own htidy hperform hq := effect_own htidy (World.perform_effect hperform) hq
  start := by
    intro w w' i q c a htidy hperform hq
    obtain rfl : q = .begin := by
      cases q with
      | «begin» => rfl
      | _ => cases hq
    cases World.perform_effect hperform with
    | opens _ hok hclosed hholder _ =>
      refine .inl ⟨hok,?_⟩
      rw [hholder,Set.eq_empty_iff_forall_notMem]
      exact fun l hl => hclosed (htidy l i hl)
    | fails hok hholder hlive =>
      refine .inr ⟨by simp [hok],htidy.moves (hlive i) ?_ fun _ => rfl⟩
      rw [hholder,Set.union_empty]
    | goes hne | ends hne => exact absurd rfl hne
  background := by
    intro w w' k htidy hback i
    obtain ⟨_,_,rfl⟩ := Option.map_eq_some_iff.mp hback
    exact finish_moves rfl (fun _ => rfl) htidy fun _ => rfl

end Table

section Discipline

variable {κ : Type} (hashtextextended : String → κ)

/-- The advisory locks come in the order of their streams, and the frontier row after them all. -/
def Before : Lock κ → Lock κ → Prop
  | .advisory key,.advisory key' => ∃ streamId streamId', hashtextextended streamId = key ∧
      hashtextextended streamId' = key' ∧ streamId < streamId'
  | .advisory _,.frontier => True
  | _,_ => False

/-- A row of a stream is locked under the advisory lock of the stream. -/
def rowGuard : Lock κ → Option (Lock κ)
  | .row streamId _ => some (.advisory (hashtextextended streamId))
  | _ => none

def streamLocks (streams : List String) : Set (Lock κ) :=
  {l | ∃ streamId ∈ streams, l = .advisory (hashtextextended streamId)}

variable {hashtextextended} (hinjective : Function.Injective hashtextextended)

def discipline : Discipline (Lock κ) where
  guard := rowGuard hashtextextended
  before := Before hashtextextended
  irrefl := by
    intro l h
    match l with
    | .advisory key =>
      obtain ⟨streamId,streamId',rfl,hkey,hlt⟩ := h
      exact hlt.ne (hinjective hkey).symm
  trans := by
    intro l l' l'' h h'
    match l,l',l'' with
    | .advisory _,.advisory _,.advisory _ =>
      obtain ⟨streamId,streamId',rfl,hkey,hlt⟩ := h
      obtain ⟨streamId₂,streamId₃,hkey',rfl,hlt'⟩ := h'
      rw [hinjective (hkey'.trans hkey.symm)] at hlt'
      exact ⟨streamId,streamId₃,rfl,rfl,hlt.trans hlt'⟩
    | .advisory _,.advisory _,.frontier => trivial

/-- What an append may ask for once it has locked its streams. -/
def Allowed (streams : List String) : Request Any → Prop
  | .begin => False
  | .advisoryXactLock _ => False
  | .lockRow streamId _ => streamId ∈ streams
  | _ => True

variable {streams : List String}

theorem allowed_admits {q : Request Any} (hq : Allowed streams q) :
    q.starts = false ∧ ∀ (held : Set (Lock κ)) l, streamLocks hashtextextended streams ⊆ held →
      World.lock? hashtextextended q = some l → (discipline hinjective).Admits held l := by
  cases q with
  | «begin» | advisoryXactLock streamId => exact hq.elim
  | lockRow streamId streamVersion =>
    refine ⟨rfl,fun held l hheld hl => .inr (.inl ?_)⟩
    obtain rfl := Option.some.inj hl
    exact ⟨_,rfl,hheld ⟨streamId,hq,rfl⟩⟩
  | selectFrontier | updateFrontier lastPosition =>
    refine ⟨rfl,fun held l _ hl => ?_⟩
    obtain rfl := Option.some.inj hl
    by_cases hfrontier : Lock.frontier ∈ held
    · exact .inl hfrontier
    · refine .inr (.inr ⟨rfl,fun l' hl' hguard => ?_⟩)
      match l' with
      | .advisory _ => trivial
      | .frontier => exact hfrontier hl'
  | _ => exact ⟨rfl,fun _ _ _ hl => nomatch hl⟩

def Covered (streams : List String) : PostgresAppends.Request Any → Prop
  | .begin => False
  | .advisoryXactLock _ => False
  | .insertEvents chunk => ∀ entry ∈ chunk, entry.streamId.value ∈ streams
  | _ => True

theorem insertRows_only {values : List (Uuid × StreamWriteEntry Any Text)}
    (h : ∀ value ∈ values, value.2.streamId.value ∈ streams) :
    (insertRows values).run.Only (Allowed streams) := by
  induction values with
  | nil => trivial
  | cons value values ih =>
    obtain ⟨hvalue,hvalues⟩ := List.forall_mem_cons.mp h
    refine Program.Only.bindExcept ?_ fun currentMaxVersion => ?_
    · refine Program.Only.bindExcept (p := ask _) ⟨trivial,fun _ => trivial⟩ fun streamVersion => ?_
      cases streamVersion with
      | none => trivial
      | some streamVersion =>
        exact Program.Only.bindExcept (p := ask _) ⟨hvalue,fun _ => trivial⟩ fun _ => trivial
    · refine Program.Only.bindExcept (p := ask _) ⟨trivial,fun _ => trivial⟩ fun row => ?_
      exact Program.Only.bindExcept (ih hvalues) fun _ => trivial

theorem statement_only {q : PostgresAppends.Request Any} (hq : Covered streams q) :
    (statement q).run.Only (Allowed streams) := by
  cases q with
  | «begin» | advisoryXactLock streamId => exact hq.elim
  | insertEvents chunk =>
    refine Program.Only.bindExcept (p := ask _) ⟨trivial,fun _ => trivial⟩ fun eventIds => ?_
    refine Program.Only.bindExcept (insertRows_only fun value hvalue => ?_) fun rows => ?_
    · exact hq _ (List.of_mem_zip hvalue).2
    · refine Program.Only.bindExcept (p := ask _) ⟨trivial,fun _ => trivial⟩ fun _ => ?_
      refine Program.Only.bindExcept (p := ask _) ⟨trivial,fun _ => trivial⟩ fun _ => ?_
      exact ⟨trivial,fun _ => trivial⟩
  | _ => exact ⟨trivial,fun _ => trivial⟩

theorem checkStreams_only (expectedStreams : List (Sigma fun _ : StreamId => StreamVersion)) :
    (PostgresAppends.checkStreams expectedStreams : PostgresAppends.Append Any Unit).run.Only
      (Covered streams) := by
  induction expectedStreams with
  | nil => trivial
  | cons p expectedStreams ih =>
    refine Program.Only.bindExcept (p := PostgresAppends.ask _) ⟨trivial,fun _ => trivial⟩
      fun actual => ?_
    split
    · trivial
    · exact ih

theorem insertChunks_only {chunks : List (List (StreamWriteEntry Any Text))}
    (h : ∀ chunk ∈ chunks, ∀ entry ∈ chunk, entry.streamId.value ∈ streams) :
    (PostgresAppends.insertChunks chunks).run.Only (Covered streams) := by
  induction chunks with
  | nil => trivial
  | cons chunk chunks ih =>
    obtain ⟨hchunk,hchunks⟩ := List.forall_mem_cons.mp h
    exact Program.Only.bindExcept (p := PostgresAppends.ask _) ⟨hchunk,fun _ => trivial⟩
      fun _ => ih hchunks

variable {σ : Type} [DecidableEq κ] [LinearOrder σ] {accepts : Text → Bool}
  {collation : String → σ} {nowV7 : ℕ → Uuid} {α β : Type} {held : Set (Lock κ)}

abbrev served (p : PostgresAppends.Append Any α) :
    Program (Request Any) Answer (Except EventStoreError α) :=
  p.run.expand fun q => (statement q).run

theorem orderly_bind {p : PostgresAppends.Append Any α} {f : α → PostgresAppends.Append Any β}
    {post : Set (Lock κ) → Except EventStoreError β → Prop}
    (hp : (table hashtextextended accepts collation nowV7).Orderly (discipline hinjective)
      (fun held r => ∀ a, r = .ok a → (table hashtextextended accepts collation nowV7).Orderly
        (discipline hinjective) post held (served (f a))) held (served p))
    (herror : ∀ held e, post held (.error e)) :
    (table hashtextextended accepts collation nowV7).Orderly (discipline hinjective) post held
      (served (p >>= f)) := by
  have hserved : served (p >>= f) = served p >>= fun r =>
      (ExceptT.bindCont f r : Program _ _ _).expand fun q => (statement q).run :=
    Program.expand_bind _ _ _
  rw [hserved]
  refine .bind (.mono (fun held r hr => ?_) hp)
  match r with
  | .ok a => exact hr a rfl
  | .error e => exact herror held e

theorem lockStreams_orderly {expectedStreams : List (Sigma fun _ : StreamId => StreamVersion)}
    (hsorted : expectedStreams.Pairwise fun p q => p.1.value < q.1.value)
    (hheld : ∀ l ∈ held, ∃ streamId, l = .advisory (hashtextextended streamId) ∧
      ∀ p ∈ expectedStreams, streamId < p.1.value) :
    (table hashtextextended accepts collation nowV7).Orderly (discipline hinjective)
      (fun held' r => ∀ a, r = .ok a → held ⊆ held' ∧
        streamLocks hashtextextended (expectedStreams.map fun p => p.1.value) ⊆ held') held
      (served (PostgresAppends.lockStreams expectedStreams : PostgresAppends.Append Any Unit)) := by
  induction expectedStreams generalizing held with
  | nil =>
    intro _ _
    refine ⟨subset_rfl,?_⟩
    rintro l ⟨streamId,hmem,_⟩
    cases hmem
  | cons p expectedStreams ih =>
    obtain ⟨hp,hsorted⟩ := List.pairwise_cons.mp hsorted
    refine orderly_bind hinjective (p := PostgresAppends.ask _) ?_ fun held e a he => nomatch he
    refine ⟨rfl,fun l hl => ?_,fun a r hr => ?_⟩
    · obtain rfl := Option.some.inj hl
      refine .inr (.inr ⟨rfl,fun l' hl' _ => ?_⟩)
      obtain ⟨streamId,rfl,hlt⟩ := hheld l' hl'
      exact ⟨streamId,p.1.value,rfl,rfl,hlt p List.mem_cons_self⟩
    · obtain rfl := hr
      have hgained : Lock.advisory (hashtextextended p.1.value) ∈
          (table hashtextextended accepts collation nowV7).gained
            (.advisoryXactLock p.1.value : Request Any) (.ok r) := ⟨rfl,rfl⟩
      refine .mono (fun held' r' hr' a ha => ?_) (ih hsorted fun l hl => ?_)
      · obtain ⟨hsubset,hlocks⟩ := hr' a ha
        refine ⟨Set.subset_union_left.trans hsubset,?_⟩
        rintro l ⟨streamId,hmem,rfl⟩
        rcases List.mem_cons.mp hmem with rfl | hmem
        · exact hsubset (.inr hgained)
        · exact hlocks ⟨streamId,hmem,rfl⟩
      · rcases hl with hl | ⟨hl,_⟩
        · obtain ⟨streamId,rfl,hlt⟩ := hheld l hl
          exact ⟨streamId,rfl,fun q hq => hlt q (List.mem_cons_of_mem p hq)⟩
        · obtain rfl := Option.some.inj hl
          exact ⟨p.1.value,rfl,hp⟩

theorem expectedStreams_sorted (expectedVersions : HashMap StreamId StreamVersion) :
    (expectedVersions.entries.insertionSort fun p q => p.1.value ≤ q.1.value).Pairwise
      fun p q => p.1.value < q.1.value := by
  have hkeys : (expectedVersions.entries.map Sigma.fst).Nodup := expectedVersions.nodupKeys
  have hvalues : (expectedVersions.entries.map fun p => p.1.value).Nodup := by
    have hmap := hkeys.map StreamId.value_injective
    rwa [List.map_map] at hmap
  exact pairwise_lt_sortBy hvalues

theorem covered_orderly {p : PostgresAppends.Append Any α} (hp : p.run.Only (Covered streams))
    (hheld : streamLocks hashtextextended streams ⊆ held) :
    (table hashtextextended accepts collation nowV7).Orderly (discipline hinjective)
      (fun _ _ => True) held (served p) :=
  .of_only (fun _ => allowed_admits hinjective)
    (Program.Only.expand (fun _ => statement_only) hp) hheld

/-- The streams of an append in the order in which it locks them. -/
def expectedStreams (writes : StreamWrites Any Text) :
    List (Sigma fun _ : StreamId => StreamVersion) :=
  writes.expectedVersions.entries.insertionSort fun p q => p.1.value ≤ q.1.value

/-- What an append does behind its locks. -/
def behindLocks (writes : StreamWrites Any Text) : PostgresAppends.Append Any Unit := do
  PostgresAppends.checkStreams (expectedStreams writes)
  PostgresAppends.ask (.setConfig (expectedVersionsJson writes.expectedVersions))
  PostgresAppends.insertChunks
    (PostgresAppends.chunks PostgresAppends.maxEventsPerInsert writes.entries)
  PostgresAppends.ask .commit

theorem behindLocks_only (writes : StreamWrites Any Text) :
    (behindLocks writes).run.Only (Covered ((expectedStreams writes).map fun p => p.1.value)) := by
  refine Program.Only.bindExcept (checkStreams_only _) fun _ => ?_
  refine Program.Only.bindExcept (p := PostgresAppends.ask _) ⟨trivial,fun _ => trivial⟩
    fun _ => ?_
  refine Program.Only.bindExcept (insertChunks_only fun chunk hchunk entry hentry => ?_)
    fun _ => ⟨trivial,fun _ => trivial⟩
  have hmem : entry ∈ writes.entries := by
    rw [← chunks_flatten PostgresAppends.maxEventsPerInsert (by decide) writes.entries]
    exact List.mem_flatten_of_mem hchunk hentry
  have hdeclared := HashMap.get?_isSome_iff.mpr (writes.declared entry hmem)
  obtain ⟨version,hversion⟩ := Option.isSome_iff_exists.mp hdeclared
  exact List.mem_map.mpr ⟨⟨entry.streamId,version⟩,
    (List.perm_insertionSort _ _).mem_iff.mpr (HashMap.mem_entries_iff.mpr hversion),rfl⟩

theorem appendEvents_eq (writes : StreamWrites Any Text) :
    PostgresAppends.appendEvents writes = pure () ∨ PostgresAppends.appendEvents writes = (do
      PostgresAppends.ask .begin
      PostgresAppends.lockStreams (expectedStreams writes)
      behindLocks writes) := by
  unfold PostgresAppends.appendEvents
  split
  · exact .inl rfl
  · refine .inr ?_
    simp only [PostgresAppends.validateExpectedVersions,behindLocks,expectedStreams,bind_assoc]

/-- An append is orderly from its `BEGIN` on. -/
theorem appendEvents_starting (writes : StreamWrites Any Text) :
    (table hashtextextended accepts collation nowV7).Starting (discipline hinjective)
        (appendEvents writes) ∨
      (table hashtextextended accepts collation nowV7).Quiet (appendEvents writes) := by
  have horderly : (table hashtextextended accepts collation nowV7).Orderly (discipline hinjective)
      (fun _ _ => True) ∅
      (served (PostgresAppends.lockStreams (expectedStreams writes) >>= fun _ =>
        behindLocks writes)) := by
    refine orderly_bind hinjective (.mono (fun held r hr a ha => ?_)
      (lockStreams_orderly hinjective (expectedStreams_sorted _) fun l hl => hl.elim))
      fun _ _ => trivial
    exact covered_orderly hinjective (behindLocks_only writes) (hr a ha).2
  unfold appendEvents
  rcases appendEvents_eq writes with hprogram | hprogram
  · rw [hprogram]
    exact .inr trivial
  · rw [hprogram]
    refine .inl ⟨rfl,fun a => ?_⟩
    match a with
    | .error e => trivial
    | .ok () => exact horderly

end Discipline

section System

variable {κ σ : Type} [DecidableEq κ] [LinearOrder σ] (hashtextextended : String → κ)
  (accepts : Text → Bool) (collation : String → σ) (nowV7 : ℕ → Uuid)
  (appends : AppendId → StreamWrites Any Text)

/-- Any number of appends, each in its own transaction, step by step in any order, on any tables. -/
def system : System (State AppendId (Request Any) Answer (World κ) (Except EventStoreError Unit))
    (Label AppendId Choice AppendId) :=
  (World.machine hashtextextended accepts collation nowV7).system
    (fun i _ => appendEvents (appends i)) fun w => ∃ committed drawn, w = { committed, drawn }

variable {hashtextextended accepts collation nowV7 appends} {s : State AppendId (Request Any) Answer
  (World κ) (Except EventStoreError Unit)}

theorem reachable_sound (hinjective : Function.Injective hashtextextended)
    (h : Reachable (system hashtextextended accepts collation nowV7 appends) s) :
    (table hashtextextended accepts collation nowV7).Sound (discipline hinjective) s := by
  refine LockTable.reachable_sound (fun i _ => appendEvents_starting hinjective (appends i))
    (fun w hw i => ?_) h
  obtain ⟨committed,drawn,rfl⟩ := hw
  refine ⟨by simp [table,World.live,HashMap.get?],?_⟩
  ext l
  simp [LockTable.held,table]

theorem reachable_ordered (hinjective : Function.Injective hashtextextended)
    (h : Reachable (system hashtextextended accepts collation nowV7 appends) s) :
    ((table hashtextextended accepts collation nowV7).locks s).Ordered (discipline hinjective) :=
  (reachable_sound hinjective h).ordered

theorem row_not_contended (hinjective : Function.Injective hashtextextended)
    (h : Reachable (system hashtextextended accepts collation nowV7 appends) s) {i j : AppendId}
    {streamId : String} {streamVersion : ℕ} (hij : i ≠ j)
    (hrequested : ((table hashtextextended accepts collation nowV7).locks s).requested i =
      some (.row streamId streamVersion)) :
    s.world.holder (.row streamId streamVersion) ≠ some j := by
  intro hholder
  have hguard := ((reachable_ordered hinjective h).guard_eq_none hij hrequested hholder).1
  cases hguard

theorem append_waits_end (hinjective : Function.Injective hashtextextended)
    (h : Reachable (system hashtextextended accepts collation nowV7 appends) s) (i : AppendId) :
    ∃ j, Relation.ReflTransGen ((table hashtextextended accepts collation nowV7).locks s).WaitsFor
      i j ∧ ∀ k, ¬ ((table hashtextextended accepts collation nowV7).locks s).WaitsFor j k := by
  refine (reachable_ordered hinjective h).acyclic.exists_last ?_ i
  refine s.world.transactions.keys.finite_toSet.subset ?_
  rintro j ⟨k,_,l,hrequested,_⟩
  exact HashMap.get?_isSome_iff.mp (LockTable.live_of_requested hrequested)

/-- The graph of waiting of concurrent appends has no cycles. -/
theorem append_waits_acyclic (hinjective : Function.Injective hashtextextended)
    (h : Reachable (system hashtextextended accepts collation nowV7 appends) s) :
    Acyclic ((table hashtextextended accepts collation nowV7).locks s).WaitsFor :=
  (reachable_ordered hinjective h).acyclic

end System

namespace WaitingChain

def source : StreamId := AppendSerialization.TwoAccounts.source

def target : StreamId := AppendSerialization.TwoAccounts.target

/-- The first append writes the source, the others the target. -/
def appends (i : AppendId) : StreamWrites Unit Text where
  entries := [⟨if i = 0 then source else target,(),"Opened",.null⟩]
  expectedVersions := AList.insert (if i = 0 then source else target) 0 ∅
  declared := by
    intro e he
    rw [List.mem_singleton.mp he]
    exact (AList.mem_insert _).mpr (.inl rfl)

abbrev blocked : System (State AppendId (Request Unit) Answer (World String)
    (Except EventStoreError Unit)) (Label AppendId Choice AppendId) :=
  system id (fun _ => true) id (fun drawn => drawn) appends

/-- The first append holds the frontier row, the second one waits for it, and the third one waits
for the target. -/
def labels : List (Label AppendId Choice AppendId) :=
  [.start 0 0,.start 1 0,.start 2 0] ++ List.replicate 8 (.ask 0 .ok) ++
    List.replicate 7 (.ask 1 .ok) ++ [.ask 2 .ok]

def waiting : State AppendId (Request Unit) Answer (World String) (Except EventStoreError Unit) :=
  (exec blocked ⟨{},fun _ => .waiting⟩ labels).get (by decide +kernel)

end WaitingChain

theorem append_waits_acyclic_chain :
    let locks := (table id (fun _ => true) id fun drawn => drawn).locks WaitingChain.waiting
    locks.WaitsFor 2 1 ∧ locks.WaitsFor 1 0 ∧ Acyclic locks.WaitsFor := by
  have hreachable : Reachable WaitingChain.blocked WaitingChain.waiting :=
    Reachable.exec (.init ⟨⟨{},0,rfl⟩,fun _ => rfl⟩) (Option.some_get _).symm
  refine ⟨⟨by decide,.advisory "target",?_,?_⟩,⟨by decide,.frontier,?_,?_⟩,
    append_waits_acyclic Function.injective_id hreachable⟩
  all_goals decide +kernel

end AppendLocks
end EventCore
