import EventCore.ProjectionSource
import EventCore.Runs
import EventCore.SqliteStore
import Mathlib.Data.Prod.Lex
import Mathlib.Data.String.Basic

/-! The delivery sequence of the Postgres source: a statement trigger numbers inserted events from
one frontier row, and the lock on that row lasts to the end of the transaction. -/
namespace EventCore
namespace DeliveryFrontier
open Runs ProjectionSource SqliteStore PagedScan

abbrev TransactionId := ℕ
abbrev ReaderId := ℕ

def bigintMax : ℕ := 2^63 - 1

inductive PostgresProjectionSourceError
  | readFailed
  | invalidPersistedValue (field detail : String)
  deriving DecidableEq

/-- `i64::try_from`, with the text of its error. -/
def i64From (field : String) (value : ℕ) : Except PostgresProjectionSourceError Unit :=
  if value ≤ bigintMax then .ok ()
  else .error (.invalidPersistedValue field "out of range integral type conversion attempted")

def i64FromPosition (value : ℕ) : Except PostgresProjectionSourceError Unit :=
  i64From "delivery_position" value

def bindQuery (after : Option ℕ) (through : DeliveryUpperBound) (limit : ℕ) :
    Except PostgresProjectionSourceError Unit := do
  match after with
  | some after => i64FromPosition after
  | none => pure ()
  match through with
  | .inclusive through => i64FromPosition through
  | .unbounded => pure ()
  i64From "batch limit" limit

structure Delivery where
  deliveryPosition : ℕ
  eventId : Uuid
  deriving DecidableEq

/-- `eventcore_events`, `eventcore_projection_delivery` and the one row of
`eventcore_projection_delivery_frontier`. -/
structure Tables (Raw : Type) where
  events : List (Row Raw) := []
  delivery : List Delivery := []
  lastPosition : ℕ := 0

/-- The statement of the trigger that comes next, with the variables it uses. -/
inductive Trigger (Raw : Type)
  | idle
  | selectFrontier (insertedEvents : List (Row Raw))
  | insertDelivery (insertedEvents : List (Row Raw)) (currentFrontier : ℕ)
  | updateFrontier (currentFrontier insertedCount : ℕ)

structure Transaction (Raw : Type) where
  events : List (Row Raw) := []
  delivery : List Delivery := []
  lastPosition : Option ℕ := none
  trigger : Trigger Raw := .idle

/-- A reader between its pages: `through` is the high-water mark it was given. -/
structure Reader (Raw : Type) where
  selects : Row Raw → Bool
  through : Option ℕ
  after : Option ℕ := none
  envelopes : List (PersistedEventEnvelope (Row Raw)) := []
  finished : Bool := false

/-- The committed tables, the open transactions and which of them holds the frontier row. -/
structure World (Raw : Type) where
  committed : Tables Raw := {}
  transactions : HashMap TransactionId (Transaction Raw) := ∅
  locker : Option TransactionId := none
  readers : ReaderId → Option (Reader Raw) := fun _ => none

inductive Label (Raw : Type)
  | begin (i : TransactionId)
  | insertEvents (i : TransactionId) (rows : List (Row Raw))
  | trigger (i : TransactionId)
  | commit (i : TransactionId)
  | rollback (i : TransactionId)
  | highWatermark (r : ReaderId) (selects : Row Raw → Bool)
  | readEnvelopes (r : ReaderId) (limit : ℕ+)

variable {Raw κ : Type} [LinearOrder κ] (collation : String → κ)

section Assign

/-- `ORDER BY stream_id, stream_version, event_id`. -/
def deliveryOrder (row : Row Raw) : κ ×ₗ ℕ ×ₗ Uuid :=
  toLex (collation row.streamId,toLex (row.streamVersion,row.eventId))

/-- The inserted events in order, `ordinal` counting from one. -/
def orderedEvents (insertedEvents : List (Row Raw)) : List (Row Raw × ℕ) :=
  (insertedEvents.insertionSort fun a b =>
    deliveryOrder collation a ≤ deliveryOrder collation b).zipIdx 1

def assigned (currentFrontier : ℕ) (insertedEvents : List (Row Raw)) : List Delivery :=
  (orderedEvents collation insertedEvents).map fun ordered =>
    ⟨currentFrontier + ordered.2,ordered.1.eventId⟩

/-- The backfill of the migration, which numbers what is there already. -/
def migrated (events : List (Row Raw)) : Tables Raw where
  events := events
  delivery := assigned collation 0 events
  lastPosition := events.length

end Assign

namespace Tables

def envelopes (tables : Tables Raw) : List (PersistedEventEnvelope (Row Raw)) :=
  tables.delivery.flatMap fun delivery =>
    (tables.events.filter fun event => event.eventId = delivery.eventId).map
      (⟨delivery.deliveryPosition,·⟩)

/-- `NULLIF(last_position, 0)`. -/
def highWatermark (tables : Tables Raw) : Option ℕ :=
  if tables.lastPosition = 0 then none else some tables.lastPosition

def selectEnvelopes (tables : Tables Raw) (selects : Row Raw → Bool) (after : Option ℕ)
    (through : DeliveryUpperBound) (limit : ℕ) : List (PersistedEventEnvelope (Row Raw)) :=
  ((tables.envelopes.filter fun envelope => decide (After after envelope.position) &&
    through.allows envelope.position && selects envelope.payload).insertionSort
      fun a b => a.position ≤ b.position).take limit

/-- A bound or a limit that no `BIGINT` holds is an error before anything is read. -/
def readEnvelopes (tables : Tables Raw) (selects : Row Raw → Bool) (after : Option ℕ)
    (through : DeliveryUpperBound) (limit : ℕ) :
    Except PostgresProjectionSourceError (List (PersistedEventEnvelope (Row Raw))) := do
  bindQuery after through limit
  return tables.selectEnvelopes selects after through limit

def commit (tables : Tables Raw) (transaction : Transaction Raw) : Tables Raw where
  events := tables.events ++ transaction.events
  delivery := tables.delivery ++ transaction.delivery
  lastPosition := transaction.lastPosition.getD tables.lastPosition

end Tables

/-- An empty page ends the reading; an error leaves it where it was. -/
def Reader.turn (reader : Reader Raw) :
    Except PostgresProjectionSourceError (List (PersistedEventEnvelope (Row Raw))) → Reader Raw
  | .error _ => reader
  | .ok page =>
    match page.getLast? with
    | none => { reader with finished := true }
    | some last =>
      { reader with after := some last.position, envelopes := reader.envelopes ++ page }

namespace World

/-- The primary key, against which rows of open transactions count as well. -/
def Unused (w : World Raw) (rows : List (Row Raw)) : Prop :=
  (rows.map Row.eventId).Nodup ∧ ∀ row ∈ rows, row.eventId ∉ w.committed.events.map Row.eventId ∧
    ∀ p ∈ w.transactions.entries, row.eventId ∉ p.2.events.map Row.eventId

instance (w : World Raw) (rows : List (Row Raw)) : Decidable (w.Unused rows) :=
  inferInstanceAs (Decidable (_ ∧ _))

def update (w : World Raw) (i : TransactionId) (transaction : Transaction Raw) : World Raw :=
  { w with transactions := AList.insert i transaction w.transactions }

def finish (w : World Raw) (i : TransactionId) : World Raw :=
  { w with
    transactions := AList.erase i w.transactions
    locker := if w.locker = some i then none else w.locker }

/-- The next statement of the trigger; the first one waits for the frontier row. -/
def runTrigger (w : World Raw) (i : TransactionId) (transaction : Transaction Raw) :
    Option (World Raw) :=
  match transaction.trigger with
  | .idle => none
  | .selectFrontier insertedEvents =>
    if w.locker = none ∨ w.locker = some i then
      let currentFrontier := transaction.lastPosition.getD w.committed.lastPosition
      let transaction :=
        { transaction with trigger := .insertDelivery insertedEvents currentFrontier }
      some { w.update i transaction with locker := some i }
    else none
  | .insertDelivery insertedEvents currentFrontier =>
    let rows := assigned collation currentFrontier insertedEvents
    if currentFrontier + rows.length ≤ bigintMax then
      some (w.update i { transaction with
        delivery := transaction.delivery ++ rows
        trigger := .updateFrontier currentFrontier rows.length })
    else none
  | .updateFrontier currentFrontier insertedCount =>
    some (w.update i { transaction with
      lastPosition := some (currentFrontier + insertedCount)
      trigger := .idle })

/-- A statement that fails, or waits in vain, leaves a transaction that is rolled back. -/
def step (w : World Raw) : Label Raw → Option (World Raw)
  | .begin i =>
    match w.transactions.get? i with
    | none => some (w.update i {})
    | some _ => none
  | .insertEvents i rows =>
    match w.transactions.get? i with
    | none => none
    | some transaction =>
      match transaction.trigger with
      | .idle =>
        if w.Unused rows then
          some (w.update i { transaction with
            events := transaction.events ++ rows
            trigger := .selectFrontier rows })
        else none
      | _ => none
  | .trigger i => (w.transactions.get? i).bind (w.runTrigger collation i)
  | .commit i =>
    match w.transactions.get? i with
    | none => none
    | some transaction =>
      match transaction.trigger with
      | .idle => some { w.finish i with committed := w.committed.commit transaction }
      | _ => none
  | .rollback i => (w.transactions.get? i).map fun _ => w.finish i
  | .highWatermark r selects =>
    let through := w.committed.highWatermark
    let reader : Reader Raw := { selects, through, finished := through.isNone }
    some { w with readers := Function.update w.readers r (some reader) }
  | .readEnvelopes r limit =>
    match w.readers r with
    | none => none
    | some reader =>
      match reader.through with
      | none => none
      | some through =>
        let page := w.committed.readEnvelopes reader.selects reader.after (.inclusive through) limit
        some { w with readers := Function.update w.readers r (some (reader.turn page)) }

/-- The statements that `runTrigger` takes one after the other, with their guards. -/
inductive Triggers (w : World Raw) (i : TransactionId) (t : Transaction Raw) : World Raw → Prop
  | selectFrontier {rows : List (Row Raw)} (htrigger : t.trigger = .selectFrontier rows)
      (hlock : w.locker = none ∨ w.locker = some i) :
      Triggers w i t
        { w.update i { t with
            trigger := .insertDelivery rows (t.lastPosition.getD w.committed.lastPosition) } with
          locker := some i }
  | insertDelivery {rows : List (Row Raw)} {currentFrontier : ℕ}
      (htrigger : t.trigger = .insertDelivery rows currentFrontier)
      (hbound : currentFrontier + (assigned collation currentFrontier rows).length ≤ bigintMax) :
      Triggers w i t
        (w.update i { t with
          delivery := t.delivery ++ assigned collation currentFrontier rows
          trigger := .updateFrontier currentFrontier
            (assigned collation currentFrontier rows).length })
  | updateFrontier {currentFrontier insertedCount : ℕ}
      (htrigger : t.trigger = .updateFrontier currentFrontier insertedCount) :
      Triggers w i t
        (w.update i { t with
          lastPosition := some (currentFrontier + insertedCount)
          trigger := .idle })

theorem runTrigger_cases {w w' : World Raw} {i : TransactionId} {t : Transaction Raw}
    (hrun : w.runTrigger collation i t = some w') : w.Triggers collation i t w' := by
  cases htrigger : t.trigger with
  | idle => simp [runTrigger,htrigger] at hrun
  | selectFrontier rows =>
    simp only [runTrigger,htrigger] at hrun
    split_ifs at hrun with hlock
    exact Option.some.inj hrun ▸ .selectFrontier htrigger hlock
  | insertDelivery rows currentFrontier =>
    simp only [runTrigger,htrigger] at hrun
    split_ifs at hrun with hbound
    exact Option.some.inj hrun ▸ .insertDelivery htrigger hbound
  | updateFrontier currentFrontier insertedCount =>
    simp only [runTrigger,htrigger] at hrun
    exact Option.some.inj hrun ▸ .updateFrontier htrigger

inductive Steps (w : World Raw) : Label Raw → World Raw → Prop
  | «begin» {i : TransactionId} (hget : w.transactions.get? i = none) :
      Steps w (.begin i) (w.update i {})
  | insertEvents {i : TransactionId} {rows : List (Row Raw)} {t : Transaction Raw}
      (hget : w.transactions.get? i = some t) (hidle : t.trigger = .idle)
      (hunused : w.Unused rows) :
      Steps w (.insertEvents i rows)
        (w.update i { t with events := t.events ++ rows, trigger := .selectFrontier rows })
  | trigger {i : TransactionId} {t : Transaction Raw} {w' : World Raw}
      (hget : w.transactions.get? i = some t) (htriggers : w.Triggers collation i t w') :
      Steps w (.trigger i) w'
  | commit {i : TransactionId} {t : Transaction Raw} (hget : w.transactions.get? i = some t)
      (hidle : t.trigger = .idle) :
      Steps w (.commit i) { w.finish i with committed := w.committed.commit t }
  | rollback {i : TransactionId} {t : Transaction Raw} (hget : w.transactions.get? i = some t) :
      Steps w (.rollback i) (w.finish i)
  | highWatermark {r : ReaderId} {selects : Row Raw → Bool} :
      Steps w (.highWatermark r selects)
        { w with
          readers := Function.update w.readers r (some
            { selects
              through := w.committed.highWatermark
              finished := w.committed.highWatermark.isNone }) }
  | readEnvelopes {r : ReaderId} {limit : ℕ+} {through : ℕ} {reader : Reader Raw}
      (hget : w.readers r = some reader) (hthrough : reader.through = some through) :
      Steps w (.readEnvelopes r limit)
        { w with
          readers := Function.update w.readers r (some (reader.turn
            (w.committed.readEnvelopes reader.selects reader.after (.inclusive through) limit))) }

theorem step_cases {w w' : World Raw} {l : Label Raw} (hstep : w.step collation l = some w') :
    w.Steps collation l w' := by
  cases l with
  | «begin» i =>
    simp only [step] at hstep
    split at hstep
    · rename_i hget
      exact Option.some.inj hstep ▸ .begin hget
    · cases hstep
  | insertEvents i rows =>
    simp only [step] at hstep
    split at hstep
    · cases hstep
    · rename_i t hget
      split at hstep
      · rename_i hidle
        split_ifs at hstep with hunused
        exact Option.some.inj hstep ▸ .insertEvents hget hidle hunused
      · cases hstep
  | trigger i =>
    obtain ⟨t,hget,hrun⟩ := Option.bind_eq_some_iff.mp hstep
    exact .trigger hget (runTrigger_cases collation hrun)
  | commit i =>
    simp only [step] at hstep
    split at hstep
    · cases hstep
    · rename_i t hget
      split at hstep
      · rename_i hidle
        exact Option.some.inj hstep ▸ .commit hget hidle
      · cases hstep
  | rollback i =>
    obtain ⟨t,hget,rfl⟩ := Option.map_eq_some_iff.mp hstep
    exact .rollback hget
  | highWatermark r selects => exact Option.some.inj hstep ▸ .highWatermark
  | readEnvelopes r limit =>
    simp only [step] at hstep
    split at hstep
    · cases hstep
    · rename_i reader hget
      split at hstep
      · cases hstep
      · rename_i through hthrough
        exact Option.some.inj hstep ▸ .readEnvelopes hget hthrough

end World

/-- Transactions and readers in any interleaving, from the migration on, which fails if a `BIGINT`
does not hold the number of events. -/
def system : System (World Raw) (Label Raw) where
  init w := ∃ events, (events.map Row.eventId).Nodup ∧ events.length ≤ bigintMax ∧
    w = { committed := migrated collation events }
  step := World.step collation

section Assign

variable (currentFrontier : ℕ) (insertedEvents : List (Row Raw))

@[simp] theorem assigned_length :
    (assigned collation currentFrontier insertedEvents).length = insertedEvents.length := by
  simp [assigned,orderedEvents,List.length_insertionSort]

/-- A statement numbers its events without gaps from the frontier on. -/
theorem assigned_positions :
    (assigned collation currentFrontier insertedEvents).map Delivery.deliveryPosition =
      List.range' (currentFrontier+1) insertedEvents.length := by
  have hordinals : (orderedEvents collation insertedEvents).map Prod.snd =
      List.range' 1 insertedEvents.length := by
    simp [orderedEvents,List.zipIdx_map_snd,List.length_insertionSort]
  have hshift : (assigned collation currentFrontier insertedEvents).map
      Delivery.deliveryPosition =
        ((orderedEvents collation insertedEvents).map Prod.snd).map (currentFrontier + ·) := by
    simp [assigned]
  rw [hshift,hordinals,List.map_add_range']

theorem assigned_ids : ((assigned collation currentFrontier insertedEvents).map
    Delivery.eventId).Perm (insertedEvents.map Row.eventId) := by
  have hrows : (orderedEvents collation insertedEvents).map Prod.fst =
      insertedEvents.insertionSort fun a b =>
        deliveryOrder collation a ≤ deliveryOrder collation b := by
    simp [orderedEvents,List.zipIdx_map_fst]
  have hids : (assigned collation currentFrontier insertedEvents).map Delivery.eventId =
      ((orderedEvents collation insertedEvents).map Prod.fst).map Row.eventId := by
    simp [assigned]
  rw [hids,hrows]
  exact (List.perm_insertionSort _ _).map _

end Assign

/-- Every event has one delivery, and the positions are exactly those up to the frontier. -/
structure Tables.Sound (tables : Tables Raw) : Prop where
  positions : tables.delivery.map Delivery.deliveryPosition = List.range' 1 tables.lastPosition
  ids : (tables.delivery.map Delivery.eventId).Perm (tables.events.map Row.eventId)
  nodup : (tables.events.map Row.eventId).Nodup

theorem migrated_sound {events : List (Row Raw)} (h : (events.map Row.eventId).Nodup) :
    (migrated collation events).Sound :=
  ⟨assigned_positions collation 0 events,assigned_ids collation 0 events,h⟩

section Transaction

def Trigger.owed : Trigger Raw → List (Row Raw)
  | .selectFrontier insertedEvents => insertedEvents
  | .insertDelivery insertedEvents _ => insertedEvents
  | _ => []

/-- Where the numbering stands, given what the frontier row holds. -/
def Trigger.reached (lastPosition : ℕ) : Trigger Raw → ℕ
  | .insertDelivery _ currentFrontier => currentFrontier
  | .updateFrontier currentFrontier insertedCount => currentFrontier + insertedCount
  | _ => lastPosition

def Trigger.Early : Trigger Raw → Prop
  | .idle => True
  | .selectFrontier _ => True
  | _ => False

/-- What an open transaction has numbered goes on from the committed frontier. -/
structure Transaction.Sound (frontier : ℕ) (transaction : Transaction Raw) : Prop where
  positions : transaction.delivery.map Delivery.deliveryPosition =
    List.range' (frontier+1) transaction.delivery.length
  reached : transaction.trigger.reached (transaction.lastPosition.getD frontier) =
    frontier + transaction.delivery.length
  ids : (transaction.delivery.map Delivery.eventId ++
    transaction.trigger.owed.map Row.eventId).Perm (transaction.events.map Row.eventId)

structure Transaction.Unnumbered (transaction : Transaction Raw) : Prop where
  delivery : transaction.delivery = []
  lastPosition : transaction.lastPosition = none
  early : transaction.trigger.Early

theorem Transaction.empty_sound (frontier : ℕ) : ({} : Transaction Raw).Sound frontier :=
  ⟨rfl,rfl,.refl _⟩

/-- A transaction that has numbered nothing is sound whatever the frontier. -/
theorem Transaction.Unnumbered.sound {transaction : Transaction Raw} {frontier frontier' : ℕ}
    (h : transaction.Unnumbered) (hsound : transaction.Sound frontier) :
    transaction.Sound frontier' := by
  refine ⟨by simp [h.delivery],?_,hsound.ids⟩
  have hearly := h.early
  rw [h.lastPosition,h.delivery]
  cases htrigger : transaction.trigger with
  | idle => rfl
  | selectFrontier insertedEvents => rfl
  | insertDelivery insertedEvents currentFrontier => simp [htrigger,Trigger.Early] at hearly
  | updateFrontier currentFrontier insertedCount => simp [htrigger,Trigger.Early] at hearly

theorem commit_sound {tables : Tables Raw} {transaction : Transaction Raw} (h : tables.Sound)
    (ht : transaction.Sound tables.lastPosition) (hidle : transaction.trigger = .idle)
    (hnodup : (transaction.events.map Row.eventId).Nodup)
    (happart : (tables.events.map Row.eventId).Disjoint (transaction.events.map Row.eventId)) :
    (tables.commit transaction).Sound := by
  have hreached := ht.reached
  have hids := ht.ids
  simp only [hidle,Trigger.reached,Trigger.owed,List.map_nil,List.append_nil] at hreached hids
  constructor
  · have hlast : (tables.commit transaction).lastPosition =
        tables.lastPosition + transaction.delivery.length := hreached
    rw [hlast,← List.range'_append_1,← h.positions,Nat.add_comm 1,← ht.positions,
      ← List.map_append]
    rfl
  · simp only [Tables.commit,List.map_append]
    exact h.ids.append hids
  · simp only [Tables.commit,List.map_append]
    exact List.nodup_append'.mpr ⟨h.nodup,hnodup,happart⟩

end Transaction

structure Inv (w : World Raw) : Prop where
  committed : w.committed.Sound
  sound : ∀ i t, w.transactions.get? i = some t → t.Sound w.committed.lastPosition
  unnumbered : ∀ i t, w.transactions.get? i = some t → w.locker ≠ some i → t.Unnumbered
  nodup : ∀ i t, w.transactions.get? i = some t → (t.events.map Row.eventId).Nodup
  fresh : ∀ i t, w.transactions.get? i = some t →
    (w.committed.events.map Row.eventId).Disjoint (t.events.map Row.eventId)
  apart : ∀ i j t u, i ≠ j → w.transactions.get? i = some t → w.transactions.get? j = some u →
    (t.events.map Row.eventId).Disjoint (u.events.map Row.eventId)

/-- Committed rows stay, and new ones come behind them. -/
structure Tables.Extends (tables tables' : Tables Raw) : Prop where
  events : tables.events <+: tables'.events
  delivery : tables.delivery <+: tables'.delivery

theorem Tables.Extends.refl (tables : Tables Raw) : tables.Extends tables :=
  ⟨List.prefix_rfl,List.prefix_rfl⟩

theorem Tables.Extends.trans {a b c : Tables Raw} (hab : a.Extends b) (hbc : b.Extends c) :
    a.Extends c :=
  ⟨hab.events.trans hbc.events,hab.delivery.trans hbc.delivery⟩

theorem commit_extends (tables : Tables Raw) (transaction : Transaction Raw) :
    tables.Extends (tables.commit transaction) :=
  ⟨List.prefix_append _ _,List.prefix_append _ _⟩

section Steps

variable {w w' : World Raw} {i : TransactionId} {t : Transaction Raw}

theorem Inv.update (h : Inv w) (hcommitted : w'.committed = w.committed)
    (htransactions : w'.transactions = AList.insert i t w.transactions)
    (hlocker : ∀ j, j ≠ i → w.locker = some j → w'.locker = some j)
    (hsound : t.Sound w.committed.lastPosition) (hunnumbered : w'.locker ≠ some i → t.Unnumbered)
    (hnodup : (t.events.map Row.eventId).Nodup)
    (hfresh : (w.committed.events.map Row.eventId).Disjoint (t.events.map Row.eventId))
    (hothers : ∀ j u, j ≠ i → w.transactions.get? j = some u →
      (t.events.map Row.eventId).Disjoint (u.events.map Row.eventId)) : Inv w' := by
  have hget : ∀ j u, w'.transactions.get? j = some u →
      (j = i ∧ u = t) ∨ (j ≠ i ∧ w.transactions.get? j = some u) := by
    intro j u hj
    rw [htransactions,HashMap.get?_insert] at hj
    by_cases hji : j = i
    · rw [if_pos hji] at hj
      exact .inl ⟨hji,(Option.some.inj hj).symm⟩
    · rw [if_neg hji] at hj
      exact .inr ⟨hji,hj⟩
  constructor
  · rw [hcommitted]
    exact h.committed
  · intro j u hj
    rw [hcommitted]
    rcases hget j u hj with ⟨rfl,rfl⟩ | ⟨_,hu⟩
    · exact hsound
    · exact h.sound j u hu
  · intro j u hj hlock
    rcases hget j u hj with ⟨rfl,rfl⟩ | ⟨hji,hu⟩
    · exact hunnumbered hlock
    · exact h.unnumbered j u hu fun hheld => hlock (hlocker j hji hheld)
  · intro j u hj
    rcases hget j u hj with ⟨rfl,rfl⟩ | ⟨_,hu⟩
    · exact hnodup
    · exact h.nodup j u hu
  · intro j u hj
    rw [hcommitted]
    rcases hget j u hj with ⟨rfl,rfl⟩ | ⟨_,hu⟩
    · exact hfresh
    · exact h.fresh j u hu
  · intro j k u v hjk hj hk
    rcases hget j u hj with ⟨rfl,rfl⟩ | ⟨hji,hu⟩ <;> rcases hget k v hk with ⟨rfl,rfl⟩ | ⟨hki,hv⟩
    · exact absurd rfl hjk
    · exact hothers k v hki hv
    · exact (hothers j u hji hu).symm
    · exact h.apart j k u v hjk hu hv

theorem Inv.updateTrigger (t' : Transaction Raw) (h : Inv w)
    (hget : w.transactions.get? i = some t) (hevents : t'.events = t.events)
    (hcommitted : w'.committed = w.committed)
    (htransactions : w'.transactions = AList.insert i t' w.transactions)
    (hlocker : ∀ j, j ≠ i → w.locker = some j → w'.locker = some j)
    (hsound : t'.Sound w.committed.lastPosition)
    (hunnumbered : w'.locker ≠ some i → t'.Unnumbered) : Inv w' := by
  refine h.update hcommitted htransactions hlocker hsound hunnumbered ?_ ?_ ?_
  · rw [hevents]
    exact h.nodup i t hget
  · rw [hevents]
    exact h.fresh i t hget
  · intro j u hji hu
    rw [hevents]
    exact h.apart i j t u (Ne.symm hji) hget hu

theorem begin_inv (h : Inv w) : Inv (w.update i {}) := by
  refine h.update rfl rfl (fun _ _ hj => hj) (Transaction.empty_sound _)
    (fun _ => ⟨rfl,rfl,trivial⟩) List.nodup_nil ?_ ?_
  · exact List.disjoint_nil_right _
  · exact fun _ _ _ _ => List.disjoint_nil_left _

theorem insertEvents_inv {rows : List (Row Raw)} (h : Inv w)
    (hget : w.transactions.get? i = some t) (hidle : t.trigger = .idle) (hunused : w.Unused rows) :
    Inv (w.update i { t with events := t.events ++ rows, trigger := .selectFrontier rows }) := by
  have hopen : ∀ j u, w.transactions.get? j = some u →
      (u.events.map Row.eventId).Disjoint (rows.map Row.eventId) := by
    intro j u hu id hid hrows
    obtain ⟨row,hrow,rfl⟩ := List.mem_map.mp hrows
    exact (hunused.2 row hrow).2 ⟨j,u⟩ (HashMap.mem_entries_iff.mpr hu) hid
  have hsound := h.sound i t hget
  refine h.update rfl rfl (fun _ _ hj => hj) ⟨hsound.positions,?_,?_⟩ (fun hlock => ?_) ?_ ?_ ?_
  · have hreached := hsound.reached
    rw [hidle] at hreached
    exact hreached
  · have hids := hsound.ids
    rw [hidle] at hids
    simp only [Trigger.owed,List.map_nil,List.append_nil] at hids
    simpa only [Trigger.owed,List.map_append] using hids.append_right _
  · have hnone := h.unnumbered i t hget hlock
    exact ⟨hnone.delivery,hnone.lastPosition,trivial⟩
  · simp only [List.map_append]
    exact List.nodup_append'.mpr ⟨h.nodup i t hget,hunused.1,hopen i t hget⟩
  · simp only [List.map_append]
    refine List.disjoint_append_right.mpr ⟨h.fresh i t hget,fun id hid hrows => ?_⟩
    obtain ⟨row,hrow,rfl⟩ := List.mem_map.mp hrows
    exact (hunused.2 row hrow).1 hid
  · intro j u hji hu
    simp only [List.map_append]
    exact List.disjoint_append_left.mpr ⟨h.apart i j t u (Ne.symm hji) hget hu,(hopen j u hu).symm⟩

theorem selectFrontier_inv {rows : List (Row Raw)} (h : Inv w)
    (hget : w.transactions.get? i = some t) (htrigger : t.trigger = .selectFrontier rows)
    (hlock : w.locker = none ∨ w.locker = some i) :
    let currentFrontier := t.lastPosition.getD w.committed.lastPosition
    let t' := { t with trigger := .insertDelivery rows currentFrontier }
    Inv { w.update i t' with locker := some i } := by
  have hsound := h.sound i t hget
  have hreached := hsound.reached
  have hids := hsound.ids
  rw [htrigger] at hreached hids
  intro currentFrontier t'
  refine Inv.updateTrigger t' h hget rfl rfl rfl ?_ ⟨hsound.positions,hreached,hids⟩
    (fun hlost => absurd rfl hlost)
  intro j hji hheld
  rcases hlock with hfree | hown
  · rw [hfree] at hheld
    cases hheld
  · rw [hown] at hheld
    exact absurd (Option.some.inj hheld).symm hji

theorem insertDelivery_inv {rows : List (Row Raw)} {currentFrontier : ℕ} (h : Inv w)
    (hget : w.transactions.get? i = some t)
    (htrigger : t.trigger = .insertDelivery rows currentFrontier) :
    Inv (w.update i { t with
      delivery := t.delivery ++ assigned collation currentFrontier rows
      trigger := .updateFrontier currentFrontier (assigned collation currentFrontier rows).length }) := by
  have hsound := h.sound i t hget
  have hreached := hsound.reached
  have hids := hsound.ids
  rw [htrigger] at hreached hids
  simp only [Trigger.reached,Trigger.owed] at hreached hids
  refine Inv.updateTrigger { t with
    delivery := t.delivery ++ assigned collation currentFrontier rows
    trigger := .updateFrontier currentFrontier (assigned collation currentFrontier rows).length }
    h hget rfl rfl rfl (fun _ _ hj => hj) ⟨?_,?_,?_⟩ (fun hlost => ?_)
  · have hrange : w.committed.lastPosition + 1 + t.delivery.length =
        w.committed.lastPosition + t.delivery.length + 1 := by omega
    simp only [List.map_append,List.length_append,assigned_positions,assigned_length]
    rw [hsound.positions,hreached,← List.range'_append_1,hrange]
  · simp only [Trigger.reached,List.length_append]
    omega
  · simp only [Trigger.owed,List.map_append,List.map_nil,List.append_nil]
    exact (List.Perm.append_left _ (assigned_ids collation currentFrontier rows)).trans hids
  · have hearly := (h.unnumbered i t hget hlost).early
    rw [htrigger] at hearly
    exact hearly.elim

theorem updateFrontier_inv {currentFrontier insertedCount : ℕ} (h : Inv w)
    (hget : w.transactions.get? i = some t)
    (htrigger : t.trigger = .updateFrontier currentFrontier insertedCount) :
    Inv (w.update i { t with
      lastPosition := some (currentFrontier + insertedCount), trigger := .idle }) := by
  have hsound := h.sound i t hget
  have hreached := hsound.reached
  have hids := hsound.ids
  rw [htrigger] at hreached hids
  refine Inv.updateTrigger { t with
    lastPosition := some (currentFrontier + insertedCount), trigger := .idle }
    h hget rfl rfl rfl (fun _ _ hj => hj) ⟨hsound.positions,hreached,hids⟩ (fun hlost => ?_)
  have hearly := (h.unnumbered i t hget hlost).early
  rw [htrigger] at hearly
  exact hearly.elim

theorem get?_finish {j : TransactionId} {u : Transaction Raw}
    (h : (w.finish i).transactions.get? j = some u) :
    j ≠ i ∧ w.transactions.get? j = some u := by
  have hji : j ≠ i := by
    rintro rfl
    have hnone : (w.finish j).transactions.get? j = none := AList.lookup_erase _ _
    rw [hnone] at h
    cases h
  have hget : (w.finish i).transactions.get? j = w.transactions.get? j := AList.lookup_erase_ne hji
  exact ⟨hji,hget ▸ h⟩

theorem locker_finish {j : TransactionId} (hji : j ≠ i) (h : (w.finish i).locker ≠ some j) :
    w.locker ≠ some j := by
  intro hheld
  exact h (by simp [World.finish,hheld,hji])

theorem rollback_inv (h : Inv w) : Inv (w.finish i) where
  committed := h.committed
  sound := fun j u hj => h.sound j u (get?_finish hj).2
  unnumbered := fun j u hj hlock =>
    h.unnumbered j u (get?_finish hj).2 (locker_finish (get?_finish hj).1 hlock)
  nodup := fun j u hj => h.nodup j u (get?_finish hj).2
  fresh := fun j u hj => h.fresh j u (get?_finish hj).2
  apart := fun j k u v hjk hj hk => h.apart j k u v hjk (get?_finish hj).2 (get?_finish hk).2

/-- Only the holder of the lock moves the frontier, so no other open transaction has numbered
anything from the old one. -/
theorem commit_inv (h : Inv w) (hget : w.transactions.get? i = some t) (hidle : t.trigger = .idle) :
    Inv { w.finish i with committed := w.committed.commit t } where
  committed := commit_sound h.committed (h.sound i t hget) hidle (h.nodup i t hget)
    (h.fresh i t hget)
  sound := by
    intro j u hj
    obtain ⟨hji,hu⟩ := get?_finish hj
    by_cases hheld : w.locker = some i
    · have hnone := h.unnumbered j u hu (by rw [hheld]; exact fun heq => hji (Option.some.inj heq).symm)
      exact hnone.sound (h.sound j u hu)
    · have hnone := (h.unnumbered i t hget hheld).lastPosition
      have hlast : (w.committed.commit t).lastPosition = w.committed.lastPosition := by
        simp [Tables.commit,hnone]
      rw [hlast]
      exact h.sound j u hu
  unnumbered := fun j u hj hlock =>
    h.unnumbered j u (get?_finish hj).2 (locker_finish (get?_finish hj).1 hlock)
  nodup := fun j u hj => h.nodup j u (get?_finish hj).2
  fresh := by
    intro j u hj
    obtain ⟨hji,hu⟩ := get?_finish hj
    simp only [Tables.commit,List.map_append]
    exact List.disjoint_append_left.mpr
      ⟨h.fresh j u hu,h.apart i j t u (Ne.symm hji) hget hu⟩
  apart := fun j k u v hjk hj hk => h.apart j k u v hjk (get?_finish hj).2 (get?_finish hk).2

theorem triggers_inv (h : Inv w) (hget : w.transactions.get? i = some t)
    (htriggers : w.Triggers collation i t w') : Inv w' ∧ w'.committed = w.committed := by
  cases htriggers with
  | selectFrontier htrigger hlock => exact ⟨selectFrontier_inv h hget htrigger hlock,rfl⟩
  | insertDelivery htrigger => exact ⟨insertDelivery_inv collation h hget htrigger,rfl⟩
  | updateFrontier htrigger => exact ⟨updateFrontier_inv h hget htrigger,rfl⟩

theorem Inv.withReaders (h : Inv w) (readers : ReaderId → Option (Reader Raw)) :
    Inv { w with readers } :=
  ⟨h.committed,h.sound,h.unnumbered,h.nodup,h.fresh,h.apart⟩

theorem step_inv {l : Label Raw} (h : Inv w) (hstep : w.step collation l = some w') :
    Inv w' ∧ w.committed.Extends w'.committed := by
  cases World.step_cases collation hstep with
  | «begin» => exact ⟨begin_inv h,.refl _⟩
  | insertEvents hget hidle hunused => exact ⟨insertEvents_inv h hget hidle hunused,.refl _⟩
  | trigger hget htriggers =>
    obtain ⟨hinv,hcommitted⟩ := triggers_inv collation h hget htriggers
    exact ⟨hinv,hcommitted ▸ .refl _⟩
  | commit hget hidle => exact ⟨commit_inv h hget hidle,commit_extends _ _⟩
  | rollback => exact ⟨rollback_inv h,.refl _⟩
  | highWatermark => exact ⟨h.withReaders _,.refl _⟩
  | readEnvelopes => exact ⟨h.withReaders _,.refl _⟩

theorem exec_inv {labels : List (Label Raw)} (h : Inv w)
    (hexec : exec (system collation) w labels = some w') :
    Inv w' ∧ w.committed.Extends w'.committed := by
  induction labels generalizing w with
  | nil =>
    cases hexec
    exact ⟨h,.refl _⟩
  | cons l labels ih =>
    simp only [exec_cons,Option.bind_eq_some_iff] at hexec
    obtain ⟨mid,hmid,hrest⟩ := hexec
    obtain ⟨hinv,hextends⟩ := step_inv collation h hmid
    obtain ⟨hinv',hextends'⟩ := ih hinv hrest
    exact ⟨hinv',hextends.trans hextends'⟩

end Steps

theorem migrated_inv {events : List (Row Raw)} (hnodup : (events.map Row.eventId).Nodup) :
    Inv ({ committed := migrated collation events } : World Raw) := by
  have hnone : ∀ i t, (∅ : HashMap TransactionId (Transaction Raw)).get? i = some t → False := by
    intro i t hi
    simp at hi
  exact ⟨migrated_sound collation hnodup,fun i t hi => (hnone i t hi).elim,
    fun i t hi => (hnone i t hi).elim,fun i t hi => (hnone i t hi).elim,
    fun i t hi => (hnone i t hi).elim,fun i _ t _ _ hi => (hnone i t hi).elim⟩

theorem init_inv {w : World Raw} (h : (system collation).init w) : Inv w := by
  obtain ⟨events,hnodup,-,rfl⟩ := h
  exact migrated_inv collation hnodup

theorem reachable_inv {w : World Raw} (h : Reachable (system collation) w) : Inv w :=
  ReachableBy.invariant (fun _ => init_inv collation)
    (fun _ _ _ hinv _ hstep => (step_inv collation hinv hstep).1) h

section Bounded

/-- What a transaction has numbered fits into a `BIGINT`. -/
structure Transaction.Bounded (transaction : Transaction Raw) : Prop where
  lastPosition : ∀ p, transaction.lastPosition = some p → p ≤ bigintMax
  trigger : ∀ p ≤ bigintMax, transaction.trigger.reached p ≤ bigintMax

structure World.Bounded (w : World Raw) : Prop where
  committed : w.committed.lastPosition ≤ bigintMax
  transactions : ∀ i t, w.transactions.get? i = some t → t.Bounded

variable {w w' : World Raw} {i : TransactionId} {t : Transaction Raw}

theorem Transaction.Bounded.getD (h : t.Bounded) {p : ℕ} (hp : p ≤ bigintMax) :
    t.lastPosition.getD p ≤ bigintMax := by
  cases hlast : t.lastPosition with
  | none => exact hp
  | some q => exact h.lastPosition q hlast

theorem World.Bounded.update (h : w.Bounded) (ht : t.Bounded) : (w.update i t).Bounded := by
  refine ⟨h.committed,fun j u hj => ?_⟩
  have hget : (w.update i t).transactions.get? j =
      if j = i then some t else w.transactions.get? j := HashMap.get?_insert _ _ _ _
  rw [hget] at hj
  split_ifs at hj with hji
  · exact Option.some.inj hj ▸ ht
  · exact h.transactions j u hj

theorem World.Bounded.finish (h : w.Bounded) : (w.finish i).Bounded :=
  ⟨h.committed,fun j u hj => h.transactions j u (get?_finish hj).2⟩

theorem triggers_bounded (h : w.Bounded) (hget : w.transactions.get? i = some t)
    (htriggers : w.Triggers collation i t w') : w'.Bounded := by
  have ht := h.transactions i t hget
  cases htriggers with
  | @selectFrontier rows =>
    let frontier := t.lastPosition.getD w.committed.lastPosition
    have ht' : { t with trigger := .insertDelivery rows frontier : Transaction Raw }.Bounded :=
      ⟨ht.lastPosition,fun _ _ => ht.getD h.committed⟩
    have hnext := h.update (i := i) ht'
    exact ⟨hnext.committed,hnext.transactions⟩
  | insertDelivery _ hbound => exact h.update ⟨ht.lastPosition,fun _ _ => hbound⟩
  | updateFrontier htrigger =>
    have hreached := ht.trigger 0 (Nat.zero_le _)
    rw [htrigger] at hreached
    exact h.update ⟨fun p hp => Option.some.inj hp ▸ hreached,fun _ hp => hp⟩

theorem step_bounded {l : Label Raw} (h : w.Bounded) (hstep : w.step collation l = some w') :
    w'.Bounded := by
  cases World.step_cases collation hstep with
  | «begin» => exact h.update ⟨fun _ hp => (Option.some_ne_none _ hp.symm).elim,fun _ hp => hp⟩
  | insertEvents hget =>
    exact h.update ⟨(h.transactions _ _ hget).lastPosition,fun _ hp => hp⟩
  | trigger hget htriggers => exact triggers_bounded collation h hget htriggers
  | commit hget => exact ⟨(h.transactions _ _ hget).getD h.committed,h.finish.transactions⟩
  | rollback => exact h.finish
  | highWatermark | readEnvelopes => exact ⟨h.committed,h.transactions⟩

theorem init_bounded (h : (system collation).init w) : w.Bounded := by
  obtain ⟨events,-,hlength,rfl⟩ := h
  exact ⟨hlength,fun i t hi => by simp at hi⟩

theorem reachable_bounded (h : Reachable (system collation) w) : w.Bounded :=
  ReachableBy.invariant (fun _ => init_bounded collation)
    (fun _ _ _ hbounded _ hstep => step_bounded collation hbounded hstep) h

end Bounded

namespace Tables

section Reading

variable {tables tables' : Tables Raw}

/-- The committed deliveries as a log that is sealed up to its frontier. -/
def log (tables : Tables Raw) : Log (Row Raw) := ⟨tables.envelopes,tables.lastPosition⟩

theorem filter_eventId {events : List (Row Raw)} (hnodup : (events.map Row.eventId).Nodup)
    {event : Row Raw} (h : event ∈ events) :
    (events.filter fun e => e.eventId = event.eventId) = [event] := by
  induction events with
  | nil => cases h
  | cons e events ih =>
    obtain ⟨he,hrest⟩ := List.nodup_cons.mp hnodup
    rcases List.mem_cons.mp h with rfl | h
    · have hnone : (events.filter fun e => e.eventId = event.eventId) = [] := by
        rw [List.filter_eq_nil_iff]
        intro e' he' heq
        exact he (List.mem_map.mpr ⟨e',he',of_decide_eq_true heq⟩)
      simp [hnone]
    · have hne : e.eventId ≠ event.eventId := fun heq => he (heq ▸ List.mem_map_of_mem h)
      rw [List.filter_cons_of_neg (by simpa using hne),ih hrest h]

theorem Sound.event_of_delivery (h : tables.Sound) {delivery : Delivery}
    (hmem : delivery ∈ tables.delivery) :
    ∃ event ∈ tables.events, event.eventId = delivery.eventId :=
  List.mem_map.mp (h.ids.mem_iff.mp (List.mem_map_of_mem hmem))

theorem Sound.envelopes_positions (h : tables.Sound) :
    tables.envelopes.map (·.position) = List.range' 1 tables.lastPosition := by
  rw [← h.positions,envelopes,List.map_flatMap,← List.flatMap_pure_eq_map]
  refine List.flatMap_congr fun delivery hmem => ?_
  obtain ⟨event,hevent,hid⟩ := h.event_of_delivery hmem
  rw [← hid,filter_eventId h.nodup hevent]
  rfl

theorem Sound.log_valid (h : tables.Sound) : tables.log.Valid := by
  constructor
  · have hpositions : (tables.envelopes.map (·.position)).Pairwise (· < ·) := by
      rw [h.envelopes_positions]
      exact List.pairwise_lt_range'
    exact List.pairwise_map.mp hpositions
  · intro e he
    have hmem : e.position ∈ List.range' 1 tables.lastPosition :=
      h.envelopes_positions ▸ List.mem_map_of_mem he
    have := (List.mem_range'_1.mp hmem).1
    omega

theorem Sound.highWatermark_eq (h : tables.Sound) :
    tables.highWatermark = tables.log.highWatermark := by
  unfold Log.highWatermark
  rw [← List.getLast?_map]
  show _ = (tables.envelopes.map (·.position)).getLast?
  rw [h.envelopes_positions,List.getLast?_range']
  unfold highWatermark
  by_cases hzero : tables.lastPosition = 0
  · rw [if_pos hzero,if_pos hzero]
  · rw [if_neg hzero,if_neg hzero]
    congr 1
    omega

theorem bindQuery_eq_ok {after : Option ℕ} {through : DeliveryUpperBound} {limit : ℕ} :
    bindQuery after through limit = .ok () ↔ (∀ p, after = some p → p ≤ bigintMax) ∧
      (∀ p, through = .inclusive p → p ≤ bigintMax) ∧ limit ≤ bigintMax := by
  have hfrom : ∀ field value, i64From field value = .ok () ↔ value ≤ bigintMax := by
    intro field value
    unfold i64From
    split_ifs with hle <;> simp [hle]
  have hbind : ∀ x y : Except PostgresProjectionSourceError Unit,
      (x >>= fun _ => y) = .ok () ↔ x = .ok () ∧ y = .ok () := by
    intro x y
    cases x <;> simp [bind,Except.bind]
  unfold bindQuery
  cases after <;> cases through <;> simp [i64FromPosition,hfrom,hbind]

theorem readEnvelopes_eq_ok {selects : Row Raw → Bool} {after : Option ℕ}
    {through : DeliveryUpperBound} {limit : ℕ} {page : List (PersistedEventEnvelope (Row Raw))} :
    tables.readEnvelopes selects after through limit = .ok page ↔
      ((∀ p, after = some p → p ≤ bigintMax) ∧
        (∀ p, through = .inclusive p → p ≤ bigintMax) ∧ limit ≤ bigintMax) ∧
      page = tables.selectEnvelopes selects after through limit := by
  rw [← bindQuery_eq_ok,readEnvelopes]
  cases bindQuery after through limit with
  | error e => simp [bind,Except.bind]
  | ok u => simp [bind,Except.bind,pure,Except.pure,eq_comm]

theorem bindQuery_eq_error {after : Option ℕ} {through : DeliveryUpperBound} {limit : ℕ}
    {e : PostgresProjectionSourceError} (h : bindQuery after through limit = .error e) :
    ∃ field detail, e = .invalidPersistedValue field detail := by
  have hfrom : ∀ field value e, i64From field value = .error e →
      ∃ field detail, e = .invalidPersistedValue field detail := by
    intro field value e hfails
    unfold i64From at hfails
    split_ifs at hfails
    cases hfails
    exact ⟨_,_,rfl⟩
  have hbind : ∀ {x y : Except PostgresProjectionSourceError Unit} {e},
      (x >>= fun _ => y) = .error e → x = .error e ∨ y = .error e := by
    intro x y e hfails
    cases x with
    | error e' => exact .inl hfails
    | ok u => exact .inr hfails
  unfold bindQuery at h
  cases after with
  | none =>
    cases through with
    | unbounded => exact hfrom _ _ _ h
    | inclusive through => exact (hbind h).elim (hfrom _ _ _) (hfrom _ _ _)
  | some after =>
    rcases hbind h with hafter | h
    · exact hfrom _ _ _ hafter
    · cases through with
      | unbounded => exact hfrom _ _ _ h
      | inclusive through => exact (hbind h).elim (hfrom _ _ _) (hfrom _ _ _)

theorem readEnvelopes_refused {limit : ℕ} (h : bigintMax < limit) (selects : Row Raw → Bool)
    (after : Option ℕ) (through : DeliveryUpperBound) :
    ∃ field detail, tables.readEnvelopes selects after through limit =
      .error (.invalidPersistedValue field detail) := by
  rw [readEnvelopes]
  cases hbind : bindQuery after through limit with
  | ok u => exact absurd (bindQuery_eq_ok.mp hbind).2.2 (Nat.not_le.mpr h)
  | error e =>
    obtain ⟨field,detail,rfl⟩ := bindQuery_eq_error hbind
    exact ⟨field,detail,rfl⟩

theorem Sound.selectEnvelopes_eq (h : tables.Sound) (selects : Row Raw → Bool) (after : Option ℕ)
    (through : DeliveryUpperBound) (limit : ℕ) :
    tables.selectEnvelopes selects after through limit =
      (tables.log.within (fun e => selects e.payload) after through).take limit := by
  have hfilter : (tables.envelopes.filter fun e => decide (After after e.position) &&
      through.allows e.position && selects e.payload) =
        tables.log.within (fun e => selects e.payload) after through := by
    unfold Log.within
    rw [List.filter_filter]
    refine List.filter_congr fun e _ => ?_
    rw [Bool.and_assoc,Bool.and_comm (through.allows e.position)]
  unfold selectEnvelopes
  rw [hfilter,List.Pairwise.insertionSort_eq]
  exact (Log.within_ascending h.log_valid).imp fun hlt => hlt.le

theorem Extends.envelopes (hextends : tables.Extends tables') (h : tables.Sound)
    (h' : tables'.Sound) : tables.envelopes <+: tables'.envelopes := by
  obtain ⟨more,hmore⟩ := hextends.delivery
  have hsame : (tables.delivery.flatMap fun delivery =>
      (tables'.events.filter fun event => event.eventId = delivery.eventId).map
        (PersistedEventEnvelope.mk delivery.deliveryPosition)) = tables.envelopes := by
    refine List.flatMap_congr fun delivery hmem => ?_
    obtain ⟨event,hevent,hid⟩ := h.event_of_delivery hmem
    rw [← hid,filter_eventId h.nodup hevent,
      filter_eventId h'.nodup (hextends.events.subset hevent)]
  rw [← hsame]
  conv_rhs => rw [Tables.envelopes,← hmore,List.flatMap_append]
  exact List.prefix_append _ _

theorem Sound.position_le (h : tables.Sound) {e : PersistedEventEnvelope (Row Raw)}
    (he : e ∈ tables.envelopes) : e.position ≤ tables.lastPosition := by
  have hmem : e.position ∈ List.range' 1 tables.lastPosition :=
    h.envelopes_positions ▸ List.mem_map_of_mem he
  have := (List.mem_range'_1.mp hmem).2
  omega

theorem Extends.grows (hextends : tables.Extends tables') (h : tables.Sound) (h' : tables'.Sound) :
    tables.log.Grows tables'.log := by
  obtain ⟨rest,hrest⟩ := hextends.envelopes h h'
  have hpositions : List.range' 1 tables.lastPosition ++ rest.map (·.position) =
      List.range' 1 tables'.lastPosition := by
    rw [← h.envelopes_positions,← h'.envelopes_positions,← List.map_append,hrest]
  have hle : tables.lastPosition ≤ tables'.lastPosition := by
    have hlength := congrArg List.length hpositions
    simp only [List.length_append,List.length_range',List.length_map] at hlength
    omega
  have habove : rest.map (·.position) =
      List.range' (1 + tables.lastPosition) (tables'.lastPosition - tables.lastPosition) := by
    refine List.append_cancel_left (hpositions.trans ?_)
    rw [List.range'_append_1,Nat.add_sub_cancel' hle]
  have hnone : (rest.filter fun e => e.position ≤ tables.lastPosition) = [] := by
    rw [List.filter_eq_nil_iff]
    intro e he
    have hmem : e.position ∈ rest.map (·.position) := List.mem_map_of_mem he
    rw [habove] at hmem
    have := (List.mem_range'_1.mp hmem).1
    simp
    omega
  refine ⟨hle,?_⟩
  show (tables'.envelopes.filter fun e => e.position ≤ tables.lastPosition) =
    tables.envelopes.filter fun e => e.position ≤ tables.lastPosition
  rw [← hrest,List.filter_append,hnone,List.append_nil]

end Reading

end Tables

section Reader

variable {start : Tables Raw} {selects : Row Raw → Bool} {r : ReaderId}

def Tables.selected (tables : Tables Raw) (selects : Row Raw → Bool) :
    List (PersistedEventEnvelope (Row Raw)) :=
  tables.envelopes.filter fun e => selects e.payload

def Tables.unread (tables : Tables Raw) (selects : Row Raw → Bool) (after : Option ℕ) :
    List (PersistedEventEnvelope (Row Raw)) :=
  tables.log.within (fun e => selects e.payload) after (.inclusive tables.lastPosition)

/-- Where a reader stands that was given its mark in `start`: what it has read and what it has not
make up what was selected then. -/
structure Reader.Following (start : Tables Raw) (selects : Row Raw → Bool) (pages : ℕ)
    (reader : Reader Raw) : Prop where
  selection : reader.selects = selects
  mark : reader.through = start.highWatermark
  cursor : ∀ p, reader.after = some p → p ≤ start.lastPosition
  covered : reader.envelopes ++ start.unread selects reader.after = start.selected selects
  finished : reader.finished = true → start.unread selects reader.after = []
  paging : reader.finished = true ∨ pages ≤ reader.envelopes.length

theorem unread_none (h : start.Sound) : start.unread selects none = start.selected selects := by
  unfold Tables.unread Tables.selected Log.within
  have hall : (start.log.visible.filter fun e => selects e.payload &&
      (DeliveryUpperBound.inclusive start.lastPosition).allows e.position) =
        start.envelopes.filter fun e => selects e.payload := by
    refine List.filter_congr fun e he => ?_
    simp [DeliveryUpperBound.allows,h.position_le he]
  rw [hall]
  simp

theorem Reader.following_start (h : start.Sound) : Reader.Following start selects 0
    { selects, through := start.highWatermark, finished := start.highWatermark.isNone } := by
  refine ⟨rfl,rfl,fun _ hp => (Option.some_ne_none _ hp.symm).elim,unread_none h,
    fun hnone => ?_,.inr (Nat.zero_le _)⟩
  have hzero : start.lastPosition = 0 := by
    by_contra hpos
    simp [Tables.highWatermark,hpos] at hnone
  rw [unread_none h]
  have hnil : start.envelopes = [] := by
    have hpositions := h.envelopes_positions
    rw [hzero] at hpositions
    exact List.map_eq_nil_iff.mp hpositions
  rw [Tables.selected,hnil,List.filter_nil]

theorem Reader.Following.through_eq {reader : Reader Raw} {pages through : ℕ}
    (hreader : reader.Following start selects pages) (hthrough : reader.through = some through) :
    through = start.lastPosition := by
  have hmark := hreader.mark
  rw [hthrough,Tables.highWatermark] at hmark
  split_ifs at hmark
  exact Option.some.inj hmark

/-- A page, whenever it is read, is the next part of what was selected in `start`; a limit that no
`BIGINT` holds gives none. -/
theorem Reader.Following.turn {tables : Tables Raw} {reader : Reader Raw} {pages through : ℕ}
    (hreader : reader.Following start selects pages) (hthrough : reader.through = some through)
    (h : start.Sound) (hbounded : start.lastPosition ≤ bigintMax) (h' : tables.Sound)
    (hextends : start.Extends tables) (limit : ℕ+) :
    Reader.Following start selects (if (limit : ℕ) ≤ bigintMax then pages+1 else pages)
      (reader.turn
        (tables.readEnvelopes reader.selects reader.after (.inclusive through) limit)) := by
  obtain rfl := hreader.through_eq hthrough
  cases hread : tables.readEnvelopes reader.selects reader.after
      (.inclusive start.lastPosition) limit with
  | error e =>
    have hlimit : ¬ (limit : ℕ) ≤ bigintMax := by
      intro hle
      have hok : tables.readEnvelopes reader.selects reader.after
          (.inclusive start.lastPosition) limit = .ok _ :=
        Tables.readEnvelopes_eq_ok.mpr ⟨⟨fun p hp => (hreader.cursor p hp).trans hbounded,
          fun p hp => DeliveryUpperBound.inclusive.inj hp ▸ hbounded,hle⟩,rfl⟩
      rw [hok] at hread
      cases hread
    rw [if_neg hlimit]
    exact hreader
  | ok page =>
    obtain ⟨⟨-,-,hlimit⟩,rfl⟩ := Tables.readEnvelopes_eq_ok.mp hread
    have hpage : tables.selectEnvelopes reader.selects reader.after
        (.inclusive start.lastPosition) limit = (start.unread selects reader.after).take limit := by
      rw [h'.selectEnvelopes_eq,hreader.selection]
      exact congrArg (List.take limit) ((hextends.grows h h').within_eq (le_refl _))
    rw [hpage,if_pos hlimit]
    have hsplit := List.take_append_drop (limit : ℕ) (start.unread selects reader.after)
    cases hlast : ((start.unread selects reader.after).take limit).getLast? with
    | none =>
      have hnil : start.unread selects reader.after = [] := by
        rcases List.take_eq_nil_iff.mp (List.getLast?_eq_none_iff.mp hlast) with hzero | hnil
        · exact absurd hzero limit.pos.ne'
        · exact hnil
      simp only [Reader.turn,hlast]
      exact ⟨hreader.selection,hreader.mark,hreader.cursor,hreader.covered,fun _ => hnil,.inl rfl⟩
    | some last =>
      obtain ⟨front,hfront⟩ := List.getLast?_eq_some_iff.mp hlast
      have hmem : last ∈ start.unread selects reader.after :=
        List.mem_of_mem_take (hfront ▸ List.mem_append_right _ List.mem_cons_self)
      rw [hfront,List.append_assoc,List.singleton_append] at hsplit
      have hrest : start.unread selects (some last.position) = _ :=
        remaining_after (h.log_valid.ascending.filter _) hsplit.symm
      simp only [Reader.turn,hlast]
      refine ⟨hreader.selection,hreader.mark,fun p hp => ?_,?_,fun hfinished => ?_,?_⟩
      · obtain rfl := Option.some.inj hp
        exact h.position_le (List.mem_of_mem_filter (List.mem_of_mem_filter hmem))
      · rw [hrest,List.append_assoc,List.take_append_drop]
        exact hreader.covered
      · have hnil := hreader.finished hfinished
        rw [hnil] at hsplit
        simp at hsplit
      · rcases hreader.paging with hfinished | hpages
        · exact .inl hfinished
        · right
          rw [hfront]
          simp only [List.length_append,List.length_singleton]
          omega

/-- A call of `high_watermark` starts a reader anew. -/
def Label.restarts (r : ReaderId) : Label Raw → Bool
  | .highWatermark r' _ => r' = r
  | _ => false

/-- A page that is asked for with a limit that a `BIGINT` holds. -/
def Label.reads (r : ReaderId) : Label Raw → Bool
  | .readEnvelopes r' limit => r' = r && decide ((limit : ℕ) ≤ bigintMax)
  | _ => false

theorem following_step {w w' : World Raw} {l : Label Raw} {pages : ℕ} (h : start.Sound)
    (hbounded : start.lastPosition ≤ bigintMax) (hinv : Inv w) (hextends : start.Extends w.committed)
    (hreader : ∃ reader, w.readers r = some reader ∧ reader.Following start selects pages)
    (hstep : w.step collation l = some w') (hrestarts : l.restarts r = false) :
    ∃ reader, w'.readers r = some reader ∧
      reader.Following start selects (if l.reads r then pages+1 else pages) := by
  cases World.step_cases collation hstep with
  | «begin» | insertEvents | commit | rollback => exact hreader
  | trigger _ htriggers =>
    have hsame : w'.readers = w.readers := by
      cases htriggers <;> rfl
    rw [hsame]
    exact hreader
  | @highWatermark r' =>
    have hne : r ≠ r' := fun heq => by simp [Label.restarts,heq] at hrestarts
    obtain ⟨reader,hget,hfollowing⟩ := hreader
    exact ⟨reader,by simpa [Function.update_of_ne hne] using hget,hfollowing⟩
  | @readEnvelopes r' limit through reader' hget' hthrough =>
    obtain ⟨reader,hget,hfollowing⟩ := hreader
    by_cases hr : r' = r
    · subst hr
      obtain rfl := Option.some.inj (hget.symm.trans hget')
      refine ⟨_,Function.update_self _ _ _,?_⟩
      simpa [Label.reads] using
        hfollowing.turn hthrough h hbounded hinv.committed hextends limit
    · refine ⟨reader,?_,by simpa [Label.reads,hr] using hfollowing⟩
      simpa [Function.update_of_ne (Ne.symm hr)] using hget

theorem following_exec {w w' : World Raw} {labels : List (Label Raw)} {pages : ℕ}
    (h : start.Sound) (hbounded : start.lastPosition ≤ bigintMax) (hinv : Inv w)
    (hextends : start.Extends w.committed)
    (hreader : ∃ reader, w.readers r = some reader ∧ reader.Following start selects pages)
    (hexec : exec (system collation) w labels = some w')
    (hrestarts : ∀ l ∈ labels, l.restarts r = false) :
    ∃ reader, w'.readers r = some reader ∧
      reader.Following start selects (pages + labels.countP (Label.reads r)) := by
  induction labels generalizing w pages with
  | nil =>
    cases hexec
    exact hreader
  | cons l labels ih =>
    simp only [exec_cons,Option.bind_eq_some_iff] at hexec
    obtain ⟨mid,hmid,hrest⟩ := hexec
    obtain ⟨hl,hrestarts⟩ := List.forall_mem_cons.mp hrestarts
    obtain ⟨hinv',hextends'⟩ := step_inv collation hinv hmid
    have hnext := following_step collation h hbounded hinv hextends hreader hmid hl
    obtain ⟨reader,hget,hfollowing⟩ :=
      ih hinv' (hextends.trans hextends') hnext hrest hrestarts
    refine ⟨reader,hget,?_⟩
    have hcount : pages + (l :: labels).countP (Label.reads r) =
        (if l.reads r then pages+1 else pages) + labels.countP (Label.reads r) := by
      rw [List.countP_cons]
      split_ifs <;> omega
    rw [hcount]
    exact hfollowing

end Reader

/-- In every run the committed deliveries are numbered from one to the frontier without gaps, one
for each event, and later ones only come behind them; a reader is given exactly what was selected
when it asked for the mark, however its pages and the transactions interleave, and pages whose limit
a `BIGINT` holds come to the end of it. Any larger limit is refused. -/
theorem frontier_lossless {w : World Raw} (h : Reachable (system collation) w) :
    w.committed.delivery.map Delivery.deliveryPosition =
        List.range' 1 w.committed.lastPosition ∧
      (w.committed.delivery.map Delivery.eventId).Perm (w.committed.events.map Row.eventId) ∧
      (w.committed.delivery.map Delivery.eventId).Nodup ∧
      (∀ labels w', exec (system collation) w labels = some w' →
        w.committed.delivery <+: w'.committed.delivery ∧
          ∀ delivery ∈ w'.committed.delivery, ∀ p, w.committed.highWatermark = some p →
            delivery.deliveryPosition ≤ p → delivery ∈ w.committed.delivery) ∧
      (∀ selects after through limit, bigintMax < limit →
        ∃ field detail, w.committed.readEnvelopes selects after through limit =
          .error (.invalidPersistedValue field detail)) ∧
      ∀ r selects w₀ labels w', (system collation).step w (.highWatermark r selects) = some w₀ →
        exec (system collation) w₀ labels = some w' → (∀ l ∈ labels, l.restarts r = false) →
          ∃ reader, w'.readers r = some reader ∧
            reader.envelopes <+: w.committed.selected selects ∧
            (reader.finished = true → reader.envelopes = w.committed.selected selects) ∧
            (w.committed.delivery.length < labels.countP (Label.reads r) →
              reader.finished = true) := by
  have hinv := reachable_inv collation h
  have hsound := hinv.committed
  have hbounded := (reachable_bounded collation h).committed
  refine ⟨hsound.positions,hsound.ids,hsound.ids.nodup_iff.mpr hsound.nodup,?_,?_,?_⟩
  · intro labels w' hexec
    obtain ⟨hinv',hextends⟩ := exec_inv collation hinv hexec
    refine ⟨hextends.delivery,fun delivery hmem p hp hle => ?_⟩
    obtain ⟨more,hmore⟩ := hextends.delivery
    have hlast : p = w.committed.lastPosition := by
      unfold Tables.highWatermark at hp
      split_ifs at hp
      exact (Option.some.inj hp).symm
    rw [← hmore,List.mem_append] at hmem
    rcases hmem with hmem | hmem
    · exact hmem
    · have hpositive : delivery.deliveryPosition ∈
          List.range' 1 w'.committed.lastPosition := by
        rw [← hinv'.committed.positions,← hmore,List.map_append]
        exact List.mem_append_right _ (List.mem_map_of_mem hmem)
      have hbefore : delivery.deliveryPosition ∈
          w.committed.delivery.map Delivery.deliveryPosition := by
        rw [hsound.positions,List.mem_range'_1]
        have := (List.mem_range'_1.mp hpositive).1
        omega
      have hnodup : (w'.committed.delivery.map Delivery.deliveryPosition).Nodup := by
        rw [hinv'.committed.positions]
        exact List.nodup_range'
      rw [← hmore,List.map_append] at hnodup
      exact absurd (List.mem_map_of_mem hmem) (List.disjoint_of_nodup_append hnodup hbefore)
  · exact fun selects after through limit hlimit =>
      Tables.readEnvelopes_refused hlimit selects after through
  · intro r selects w₀ labels w' hstart hexec hrestarts
    have hstep : w.step collation (.highWatermark r selects) = some w₀ := hstart
    obtain ⟨hinv₀,hextends₀⟩ := step_inv collation hinv hstep
    have hreader : ∃ reader, w₀.readers r = some reader ∧
        reader.Following w.committed selects 0 := by
      obtain rfl := Option.some.inj hstart
      exact ⟨_,Function.update_self _ _ _,Reader.following_start hsound⟩
    obtain ⟨reader,hget,hfollowing⟩ :=
      following_exec collation hsound hbounded hinv₀ hextends₀ hreader hexec hrestarts
    rw [Nat.zero_add] at hfollowing
    refine ⟨reader,hget,⟨_,hfollowing.covered⟩,fun hfinished => ?_,fun hmany => ?_⟩
    · have hcovered := hfollowing.covered
      rwa [hfollowing.finished hfinished,List.append_nil] at hcovered
    · rcases hfollowing.paging with hfinished | hpages
      · exact hfinished
      · have hcovered := congrArg List.length hfollowing.covered
        have hselected : (w.committed.selected selects).length ≤ w.committed.envelopes.length :=
          List.length_filter_le _ _
        have henvelopes := congrArg List.length hsound.envelopes_positions
        have hdelivery := congrArg List.length hsound.positions
        simp only [List.length_append,List.length_map,List.length_range'] at hcovered henvelopes hdelivery
        omega

section Overlapping

/-- Two appends overlap; the one that comes second to the frontier row commits second. A third
gives up the positions it was assigned. -/
def overlapping : List (Label Unit) :=
  [.begin 0,.begin 1,.begin 2,.insertEvents 0 [⟨10,"b",1,"t",()⟩,⟨11,"a",1,"t",()⟩],
    .insertEvents 1 [⟨12,"c",1,"t",()⟩],.insertEvents 2 [⟨13,"d",1,"t",()⟩],
    .trigger 2,.trigger 2,.trigger 2,.rollback 2,.trigger 1,.trigger 1,.trigger 1,.commit 1]

/-- Between the pages of a reader the first append is committed as well. -/
def reading : List (Label Unit) :=
  [.trigger 0,.readEnvelopes 0 1,.trigger 0,.trigger 0,.commit 0,.readEnvelopes 0 1]

theorem frontier_lossless_overlapping : ∃ w w₀ w' reader,
    exec (system fun s : String => s) {} overlapping = some w ∧
      (system fun s : String => s).step w (.highWatermark 0 fun _ => true) = some w₀ ∧
      exec (system fun s : String => s) w₀ reading = some w' ∧
      w'.committed.delivery = [⟨1,12⟩,⟨2,11⟩,⟨3,10⟩] ∧ w'.readers 0 = some reader ∧
      reader.envelopes = w.committed.selected fun _ => true := by
  obtain ⟨w,hw⟩ := Option.isSome_iff_exists.mp
    (by decide +kernel : (exec (system fun s : String => s) {} overlapping).isSome)
  have hreading : ((exec (system fun s : String => s) {} overlapping).bind fun w =>
      (exec (system fun s : String => s) w (.highWatermark 0 (fun _ => true) :: reading)).bind
        fun w' => (w'.readers 0).map fun reader => (reader.finished,w'.committed.delivery)) =
      some (true,[⟨1,12⟩,⟨2,11⟩,⟨3,10⟩]) := by decide +kernel
  simp only [hw,exec_cons,Option.bind_some,Option.bind_eq_some_iff,Option.map_eq_some_iff]
    at hreading
  obtain ⟨w',⟨w₀,hstart,hexec⟩,reader,hreader,hfinal⟩ := hreading
  have hreachable : Reachable (system fun s : String => s) w :=
    Reachable.exec (.init ⟨[],List.nodup_nil,Nat.zero_le _,rfl⟩) hw
  obtain ⟨_,_,_,_,_,hlossless⟩ := frontier_lossless (fun s : String => s) hreachable
  obtain ⟨reader',hget,_,hcomplete,_⟩ :=
    hlossless 0 (fun _ => true) w₀ reading w' hstart hexec (by decide)
  obtain rfl := Option.some.inj (hget.symm.trans hreader)
  exact ⟨w,w₀,w',reader',hw,hstart,hexec,(Prod.mk.inj hfinal).2,hget,
    hcomplete (Prod.mk.inj hfinal).1⟩

end Overlapping

section Oversized

theorem step_refused {w : World Raw} {r : ReaderId} {reader : Reader Raw} {limit : ℕ+}
    (hreader : w.readers r = some reader) (hthrough : reader.through.isSome)
    (hlimit : bigintMax < limit) : (system collation).step w (.readEnvelopes r limit) = some w := by
  obtain ⟨through,hthrough⟩ := Option.isSome_iff_exists.mp hthrough
  have hturn : reader.turn (w.committed.readEnvelopes reader.selects reader.after
      (.inclusive through) limit) = reader := by
    obtain ⟨field,detail,hread⟩ := Tables.readEnvelopes_refused hlimit
      reader.selects reader.after (.inclusive through)
    rw [hread]
    rfl
  simp only [system,World.step,hreader,hthrough,hturn]
  rw [← hreader,Function.update_eq_self]

/-- One event is delivered before the reader asks for its mark. -/
def delivered : List (Label Unit) :=
  [.begin 0,.insertEvents 0 [⟨10,"a",1,"t",()⟩],.trigger 0,.trigger 0,.trigger 0,.commit 0,
    .highWatermark 0 fun _ => true]

def oversized : ℕ+ := ⟨2^63,by decide⟩

/-- However many pages of `2^63` events are asked for, the one event is not handed out. -/
theorem oversized_batch_refused : ∃ w, exec (system fun s : String => s) {} delivered = some w ∧
    w.committed.selected (fun _ => true) ≠ [] ∧
    ∀ pages, ∃ w' reader, exec (system fun s : String => s) w
        (List.replicate pages (.readEnvelopes 0 oversized)) = some w' ∧
      w'.readers 0 = some reader ∧ reader.through = some 1 ∧ reader.finished = false ∧
      reader.envelopes = [] := by
  have hdelivered : ((exec (system fun s : String => s) {} delivered).bind fun w =>
      (w.readers 0).map fun reader => (reader.through,reader.finished,reader.envelopes.length,
        (w.committed.selected fun _ => true).length)) = some (some 1,false,0,1) := by
    decide +kernel
  obtain ⟨w,hw,hreader⟩ := Option.bind_eq_some_iff.mp hdelivered
  obtain ⟨reader,hreader,hstate⟩ := Option.map_eq_some_iff.mp hreader
  simp only [Prod.mk.injEq,List.length_eq_zero_iff] at hstate
  obtain ⟨hthrough,hfinished,henvelopes,hselected⟩ := hstate
  refine ⟨w,hw,fun hnil => by simp [hnil] at hselected,fun pages => ⟨w,reader,?_,hreader,hthrough,
    hfinished,henvelopes⟩⟩
  induction pages with
  | zero => rfl
  | succ pages ih =>
    have hrefused : (system fun s : String => s).step w (.readEnvelopes 0 oversized) = some w :=
      step_refused _ hreader (Option.isSome_iff_exists.mpr ⟨1,hthrough⟩) (by decide)
    rw [List.replicate_succ,exec_cons,hrefused]
    exact ih

end Oversized

end DeliveryFrontier
end EventCore
