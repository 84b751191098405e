import EventCore.Types
import Mathlib.Data.List.Sort
import Mathlib.Data.Prod.Lex
import Mathlib.Data.String.Basic

/-! Transaction files of the file store and the linearized read model that is rebuilt from
them on open. A file that passes its integrity check is its header with its events. -/
namespace EventCore
namespace FileStore

structure TransactionHeader where
  transactionId : Uuid
  replicaId : Uuid
  parentTransactionIds : List Uuid
  createdAt : String
  streamBases : HashMap String ℕ
  deriving DecidableEq

/-- `streamVersion` is the writer's own count; readers count along the linearization. -/
structure EventEnvelope (Value : Type) where
  eventId : Uuid
  streamId : String
  streamVersion : ℕ
  eventType : String
  eventData : Value
  deriving DecidableEq

structure Transaction (Value : Type) where
  header : TransactionHeader
  events : List (EventEnvelope Value)
  deriving DecidableEq

structure IndexedEvent (Value : Type) where
  eventId : Uuid
  streamId : String
  eventType : String
  eventData : Value
  deriving DecidableEq

/-- Local sequence number of every event this replica has seen. -/
structure IngestionLog where
  seqByEvent : HashMap Uuid ℕ
  nextSeq : ℕ
  deriving DecidableEq

abbrev Headers := HashMap Uuid TransactionHeader

structure Index (Value : Type) where
  headers : Headers
  byIngestion : List (Uuid × IndexedEvent Value)
  streams : HashMap String (List (IndexedEvent Value))
  tips : List Uuid
  log : IngestionLog
  deriving DecidableEq

variable {Value : Type}

def EventEnvelope.indexed (e : EventEnvelope Value) : IndexedEvent Value :=
  ⟨e.eventId,e.streamId,e.eventType,e.eventData⟩

abbrev Transaction.id (t : Transaction Value) : Uuid := t.header.transactionId

/-- The sequence number fills the high eight of the sixteen bytes. -/
def positionFromSeq (seq : ℕ) : Uuid := seq * 2^64

theorem positionFromSeq_strictMono : StrictMono positionFromSeq := by
  intro a b h
  exact Nat.mul_lt_mul_of_pos_right h (Nat.two_pow_pos 64)

namespace IngestionLog

/-- Read the persisted lines back, the last line of an event counting. -/
def load (lines : List (Uuid × ℕ)) : IngestionLog :=
  ⟨lines.foldl (fun seqByEvent line => seqByEvent.insert line.1 line.2) ∅,
    lines.foldl (fun maxSeq line => max maxSeq line.2) 0 + 1⟩

def seqOf (log : IngestionLog) (eventId : Uuid) : Option ℕ := log.seqByEvent.get? eventId

def allocate (log : IngestionLog) (eventId : Uuid) : IngestionLog × ℕ :=
  (⟨log.seqByEvent.insert eventId log.nextSeq,log.nextSeq+1⟩,log.nextSeq)

end IngestionLog

/-- Parents recorded by a transaction; none when its file is absent. -/
def parentsOf (headers : Headers) (id : Uuid) : List Uuid :=
  match headers.get? id with
  | none => []
  | some header => header.parentTransactionIds

/-- Longest chain of present parents. The source memoizes, which changes no result. -/
def transactionDepth (headers : Headers) : ℕ → Uuid → ℕ
  | 0, _ => 0
  | fuel + 1, id =>
    (parentsOf headers id).foldl (fun best parent =>
      if parent ∈ headers then max best (transactionDepth headers fuel parent + 1) else best) 0

def linearKey (headers : Headers) (id : Uuid) : ℕ ×ₗ String ×ₗ Uuid ×ₗ Uuid :=
  match headers.get? id with
  | none => toLex (0,toLex ("",toLex (0,id)))
  | some header => toLex (transactionDepth headers headers.keys.length id,
      toLex (header.createdAt,toLex (header.replicaId,id)))

/-- Canonical order: by depth, concurrent transactions by creation time, replica and id. -/
def linearize (headers : Headers) : List Uuid :=
  headers.keys.insertionSort fun a b => linearKey headers a ≤ linearKey headers b

def referenced (headers : Headers) : List Uuid :=
  headers.entries.flatMap fun p => p.2.parentTransactionIds

def computeTips (headers : Headers) : List Uuid :=
  (headers.keys.filter fun id => id ∉ referenced headers).insertionSort (· ≤ ·)

namespace Index

def streamEvents (index : Index Value) (streamId : String) : List (IndexedEvent Value) :=
  (index.streams.get? streamId).getD []

def streamHead (index : Index Value) (streamId : String) : ℕ := (index.streamEvents streamId).length

end Index

def pushStream (streams : HashMap String (List (IndexedEvent Value))) (indexed : IndexedEvent Value) :
    HashMap String (List (IndexedEvent Value)) :=
  streams.insert indexed.streamId ((streams.get? indexed.streamId).getD [] ++ [indexed])

/-- Add one event: to its stream, and to the ingestion view under the next sequence number. -/
def Index.ingestAppended (index : Index Value) (indexed : IndexedEvent Value) :
    Index Value × (Uuid × ℕ) :=
  let (log,seq) := index.log.allocate indexed.eventId
  ({ index with
      byIngestion := index.byIngestion ++ [(positionFromSeq seq,indexed)]
      streams := pushStream index.streams indexed
      log := log },
    (indexed.eventId,seq))

/-- Add the events of one transaction, with the lines the persisted log gains. -/
def Index.ingestAll (index : Index Value) : List (IndexedEvent Value) → Index Value × List (Uuid × ℕ)
  | [] => (index,[])
  | indexed :: rest =>
    let (index,entry) := index.ingestAppended indexed
    let (index,entries) := index.ingestAll rest
    (index,entry :: entries)

def headersOf (transactions : List (Transaction Value)) : Headers :=
  transactions.foldl (fun headers t => headers.insert t.id t.header) ∅

def eventsByTxn (transactions : List (Transaction Value)) :
    HashMap Uuid (List (EventEnvelope Value)) :=
  transactions.foldl (fun events t => events.insert t.id t.events) ∅

def canonicalEvents (transactions : List (Transaction Value)) : List (IndexedEvent Value) :=
  (linearize (headersOf transactions)).flatMap fun id =>
    (((eventsByTxn transactions).get? id).getD []).map EventEnvelope.indexed

structure Walk (Value : Type) where
  streams : HashMap String (List (IndexedEvent Value))
  positioned : List (Uuid × IndexedEvent Value)
  log : IngestionLog
  newEntries : List (Uuid × ℕ)

/-- An event keeps its persisted sequence number; an unknown one gets the next. -/
def Walk.visit (walk : Walk Value) (indexed : IndexedEvent Value) : Walk Value :=
  let streams := pushStream walk.streams indexed
  match walk.log.seqOf indexed.eventId with
  | some seq =>
    { walk with
      streams := streams
      positioned := walk.positioned ++ [(positionFromSeq seq,indexed)] }
  | none =>
    let (log,seq) := walk.log.allocate indexed.eventId
    ⟨streams,walk.positioned ++ [(positionFromSeq seq,indexed)],log,
      walk.newEntries ++ [(indexed.eventId,seq)]⟩

def buildIndex (transactions : List (Transaction Value)) (log : IngestionLog) :
    Index Value × List (Uuid × ℕ) :=
  let headers := headersOf transactions
  let walk := (canonicalEvents transactions).foldl Walk.visit ⟨∅,[],log,[]⟩
  (⟨headers,walk.positioned.insertionSort (fun p q => p.1 ≤ q.1),walk.streams,
      computeTips headers,walk.log⟩,
    walk.newEntries)

/-- The read model of a directory, and the ingestion log extended by what was new in it. -/
def scanIndex (transactions : List (Transaction Value)) (lines : List (Uuid × ℕ)) :
    Index Value × List (Uuid × ℕ) :=
  let (index,newEntries) := buildIndex transactions (IngestionLog.load lines)
  (index,lines ++ newEntries)

/-- Envelopes of one transaction: each event is one above the events its stream has so far. -/
def buildEnvelopes (index : Index Value) (eventId : ℕ → Uuid) (items : List (String × String × Value)) :
    List (EventEnvelope Value) :=
  (go ∅ 0 items)
where
  go (added : HashMap String ℕ) (drawn : ℕ) : List (String × String × Value) →
      List (EventEnvelope Value)
    | [] => []
    | (key,eventType,eventData) :: rest =>
      let offset := (added.get? key).getD 0 + 1
      ⟨eventId drawn,key,index.streamHead key + offset,eventType,eventData⟩ ::
        go (added.insert key offset) (drawn+1) rest

section Lemmas

@[simp] theorem parentsOf_empty (id : Uuid) : parentsOf ∅ id = [] := by simp [parentsOf]

theorem parentsOf_insert (headers : Headers) (header : TransactionHeader) (id : Uuid) :
    parentsOf (headers.insert header.transactionId header) id =
      if id = header.transactionId then header.parentTransactionIds else parentsOf headers id := by
  unfold parentsOf
  rw [HashMap.get?_insert]
  split_ifs <;> rfl

theorem mem_referenced {headers : Headers} {p : Uuid} :
    p ∈ referenced headers ↔ ∃ id, p ∈ parentsOf headers id := by
  simp only [referenced,List.mem_flatMap,parentsOf]
  constructor
  · rintro ⟨⟨id,header⟩,hmem,hp⟩
    exact ⟨id,by rw [HashMap.mem_entries_iff.mp hmem]; exact hp⟩
  · rintro ⟨id,hp⟩
    cases hget : headers.get? id with
    | none => simp [hget] at hp
    | some header => exact ⟨⟨id,header⟩,HashMap.mem_entries_iff.mpr hget,by simpa [hget] using hp⟩

theorem mem_of_parentsOf {headers : Headers} {id parent : Uuid}
    (h : parent ∈ parentsOf headers id) : id ∈ headers := by
  by_contra hnot
  simp [parentsOf,HashMap.get?_eq_none_iff.mpr hnot] at h

theorem mem_computeTips {headers : Headers} {id : Uuid} :
    id ∈ computeTips headers ↔ id ∈ headers ∧ ∀ x, id ∉ parentsOf headers x := by
  simp [computeTips,mem_referenced,AList.mem_keys]

theorem streamEvents_pushStream (streams : HashMap String (List (IndexedEvent Value)))
    (indexed : IndexedEvent Value) (s : String) :
    ((pushStream streams indexed).get? s).getD [] =
      (streams.get? s).getD [] ++ [indexed].filter (fun e => e.streamId = s) := by
  unfold pushStream
  rw [HashMap.get?_insert]
  by_cases hs : s = indexed.streamId
  · simp [hs]
  · simp [hs,Ne.symm hs]

theorem ingestAll_spec (index : Index Value) (events : List (IndexedEvent Value)) :
    (index.ingestAll events).1.headers = index.headers ∧
    (index.ingestAll events).1.tips = index.tips ∧
    ∀ s, (index.ingestAll events).1.streamEvents s =
      index.streamEvents s ++ events.filter fun e => e.streamId = s := by
  induction events generalizing index with
  | nil => simp [Index.ingestAll]
  | cons e rest ih =>
    obtain ⟨hheaders,htips,hstreams⟩ := ih (index.ingestAppended e).1
    refine ⟨hheaders,htips,fun s => ?_⟩
    have hone : (index.ingestAppended e).1.streamEvents s =
        index.streamEvents s ++ [e].filter fun e => e.streamId = s :=
      streamEvents_pushStream index.streams e s
    rw [show (index.ingestAll (e :: rest)).1.streamEvents s =
      ((index.ingestAppended e).1.ingestAll rest).1.streamEvents s from rfl,hstreams,hone,
      List.append_assoc,← List.filter_append,List.singleton_append]

@[simp] theorem ingestAll_headers (index : Index Value) (events : List (IndexedEvent Value)) :
    (index.ingestAll events).1.headers = index.headers := (ingestAll_spec index events).1

@[simp] theorem ingestAll_tips (index : Index Value) (events : List (IndexedEvent Value)) :
    (index.ingestAll events).1.tips = index.tips := (ingestAll_spec index events).2.1

@[simp] theorem ingestAll_streamEvents (index : Index Value) (events : List (IndexedEvent Value))
    (s : String) : (index.ingestAll events).1.streamEvents s =
      index.streamEvents s ++ events.filter fun e => e.streamId = s :=
  (ingestAll_spec index events).2.2 s

theorem foldl_insert_get? {A V : Type} (key : A → Uuid) (val : A → V) (ts : List A)
    (m : HashMap Uuid V) (hnodup : (ts.map key).Nodup) (id : Uuid) (v : V) :
    (ts.foldl (fun m t => m.insert (key t) (val t)) m).get? id = some v ↔
      (∃ t ∈ ts, key t = id ∧ val t = v) ∨ ((∀ t ∈ ts, key t ≠ id) ∧ m.get? id = some v) := by
  induction ts generalizing m with
  | nil => simp
  | cons t ts ih =>
    rw [List.map_cons,List.nodup_cons] at hnodup
    have hfresh : ∀ u ∈ ts, key u ≠ key t := fun u hu he =>
      hnodup.1 (List.mem_map.mpr ⟨u,hu,he⟩)
    rw [List.foldl_cons,ih _ hnodup.2,HashMap.get?_insert]
    by_cases hid : id = key t
    · subst hid
      simp only [if_true,Option.some.injEq,List.mem_cons,exists_eq_or_imp,true_and,forall_eq_or_imp,
        ne_eq,not_true_eq_false,false_and,or_false]
      constructor
      · rintro (⟨u,hu,hk,_⟩ | ⟨_,hv⟩)
        · exact absurd hk (hfresh u hu)
        · exact .inl hv
      · rintro (hv | ⟨u,hu,hk,_⟩)
        · exact .inr ⟨hfresh,hv⟩
        · exact absurd hk (hfresh u hu)
    · simp [hid,Ne.symm hid]

theorem headersOf_get? {ts : List (Transaction Value)} (hnodup : (ts.map Transaction.id).Nodup)
    {id : Uuid} {header : TransactionHeader} :
    (headersOf ts).get? id = some header ↔ ∃ t ∈ ts, t.id = id ∧ t.header = header := by
  rw [headersOf,foldl_insert_get? Transaction.id Transaction.header ts ∅ hnodup]
  simp

theorem eventsByTxn_get? {ts : List (Transaction Value)} (hnodup : (ts.map Transaction.id).Nodup)
    {t : Transaction Value} (ht : t ∈ ts) : (eventsByTxn ts).get? t.id = some t.events := by
  refine (foldl_insert_get? Transaction.id Transaction.events ts ∅ hnodup _ _).mpr ?_
  exact .inl ⟨t,ht,rfl,rfl⟩

theorem mem_headersOf {ts : List (Transaction Value)} (hnodup : (ts.map Transaction.id).Nodup)
    {id : Uuid} : id ∈ headersOf ts ↔ ∃ t ∈ ts, t.id = id := by
  rw [← HashMap.get?_isSome_iff,Option.isSome_iff_exists]
  constructor
  · rintro ⟨header,h⟩
    obtain ⟨t,ht,hid,_⟩ := (headersOf_get? hnodup).mp h
    exact ⟨t,ht,hid⟩
  · rintro ⟨t,ht,hid⟩
    exact ⟨t.header,(headersOf_get? hnodup).mpr ⟨t,ht,hid,rfl⟩⟩

theorem keys_perm {ts : List (Transaction Value)} (hnodup : (ts.map Transaction.id).Nodup) :
    (headersOf ts).keys.Perm (ts.map Transaction.id) := by
  refine (List.perm_ext_iff_of_nodup (headersOf ts).nodupKeys hnodup).mpr fun id => ?_
  refine Iff.trans AList.mem_keys.symm ?_
  rw [mem_headersOf hnodup,List.mem_map]

theorem visit_streams (walk : Walk Value) (e : IndexedEvent Value) :
    (walk.visit e).streams = pushStream walk.streams e := by
  unfold Walk.visit
  cases walk.log.seqOf e.eventId <;> rfl

theorem foldl_visit_streams (events : List (IndexedEvent Value)) (walk : Walk Value) (s : String) :
    ((events.foldl Walk.visit walk).streams.get? s).getD [] =
      (walk.streams.get? s).getD [] ++ events.filter fun e => e.streamId = s := by
  induction events generalizing walk with
  | nil => simp
  | cons e rest ih =>
    rw [List.foldl_cons,ih,visit_streams,streamEvents_pushStream,List.append_assoc,
      ← List.filter_append,List.singleton_append]

theorem scanIndex_streamEvents (ts : List (Transaction Value)) (lines : List (Uuid × ℕ)) (s : String) :
    (scanIndex ts lines).1.streamEvents s =
      (canonicalEvents ts).filter fun e => e.streamId = s := by
  have h := foldl_visit_streams (canonicalEvents ts) ⟨∅,[],IngestionLog.load lines,[]⟩ s
  rw [HashMap.get?_empty,Option.getD_none,List.nil_append] at h
  exact h

@[simp] theorem scanIndex_headers (ts : List (Transaction Value)) (lines : List (Uuid × ℕ)) :
    (scanIndex ts lines).1.headers = headersOf ts := rfl

@[simp] theorem scanIndex_tips (ts : List (Transaction Value)) (lines : List (Uuid × ℕ)) :
    (scanIndex ts lines).1.tips = computeTips (headersOf ts) := rfl

end Lemmas

end FileStore
end EventCore
