import EventCore.FileStore
import EventCore.MemoryStore
import EventCore.PagedScan
import EventCore.Projection
import EventCore.SqliteStore

/-! The event readers of three stores. Each cuts its page before it drops the events that do
not decode, so a page can come back empty in front of events that do. -/
namespace EventCore
namespace EventReader
open PagedScan

variable {Any Raw Value E : Type}

/-- Read page after page, each from the last event of the one before, up to an empty page. -/
def readAll (readEvents : EventPage → List (E × Uuid)) : ℕ → EventPage → Option (List (E × Uuid))
  | 0, _ => none
  | fuel + 1, page =>
    match page.nextFromResults (readEvents page) with
    | none => some []
    | some next => (readAll readEvents fuel next).map (readEvents page ++ ·)

def matchesPrefix (filter : EventFilter) (streamId : String) : Bool :=
  match filter.streamPrefix with
  | none => true
  | some p => p.value.toList.isPrefixOf streamId.toList

/-- `globMatches` is the glob library's verdict on a compiled pattern. -/
def matchesPattern (globMatches : StreamPattern → String → Bool) (filter : EventFilter)
    (streamId : String) : Bool :=
  match filter.streamPattern with
  | none => true
  | some pattern => globMatches pattern streamId

def matchesType (typeName : String) (filter : EventFilter) (eventType : String) : Bool :=
  eventType = filter.eventType.getD typeName

section Readers

variable (globMatches : StreamPattern → String → Bool) (like glob : String → String → Bool)
  (ev : Event Any Raw E) (form : FileStore.ValueForm Value E) (filter : EventFilter)

/-- `InMemoryEventStore::read_events`. -/
def readMemory (data : MemoryStore.StoreData Any Raw Value) (page : EventPage) : List (E × Uuid) :=
  (((((data.globalLog.filter
    fun entry => IsAfter page.afterPosition entry.eventId).filter
    fun entry => matchesPrefix filter entry.streamId).filter
    fun entry => matchesPattern globMatches filter entry.streamId).filter
    fun entry => matchesType ev.eventTypeName filter entry.eventType).take page.limit).filterMap
    fun entry => (ev.fromStr entry.eventData).toOption.map (·,entry.eventId)

/-- `FileEventStore::read_events`, along the local ingestion order. -/
def readFile (store : FileStore.FileEventStore Value) (page : EventPage) : List (E × Uuid) :=
  (((((store.index.byIngestion.filter
    fun entry => IsAfter page.afterPosition entry.1).filter
    fun entry => matchesPrefix filter entry.2.streamId).filter
    fun entry => matchesPattern globMatches filter entry.2.streamId).filter
    fun entry => matchesType form.eventTypeName filter entry.2.eventType).take
      page.limit).filterMap
    fun entry => (form.fromValue entry.2.eventData).toOption.map (·,entry.1)

/-- `limit as i64` in a `LIMIT` clause, where a negative number is no limit. -/
def sqlLimit (limit : ℕ) : Option ℕ :=
  if Int.bmod limit (2^64) < 0 then none else some (Int.bmod limit (2^64)).toNat

def takeLimit {α : Type} : Option ℕ → List α → List α
  | none, l => l
  | some n, l => l.take n

/-- The predicate on stream and type: a prefix goes first, a pattern counts only without one. -/
def sqlWhere (row : SqliteStore.Row Raw) : Bool :=
  (match filter.streamPrefix with
    | some p => like (p.value ++ "%") row.streamId
    | none =>
      match filter.streamPattern with
      | some pattern => glob pattern.value row.streamId
      | none => true) && matchesType ev.eventTypeName filter row.eventType

/-- `SqliteEventStore::read_events`, `ORDER BY event_id`. -/
def readSqlite (table : SqliteStore.Table Raw) (page : EventPage) : List (E × Uuid) :=
  (takeLimit (sqlLimit page.limit)
    ((table.filter fun row =>
      IsAfter page.afterPosition row.eventId && sqlWhere like glob ev filter row).insertionSort
        fun p q => p.eventId ≤ q.eventId)).filterMap
    fun row => (ev.fromStr row.eventData).toOption.map (·,row.eventId)

def selectMemory (data : MemoryStore.StoreData Any Raw Value) :
    List (MemoryStore.GlobalLogEntry Raw) :=
  data.globalLog.filter fun entry => matchesPrefix filter entry.streamId &&
    matchesPattern globMatches filter entry.streamId &&
    matchesType ev.eventTypeName filter entry.eventType

def selectFile (store : FileStore.FileEventStore Value) :
    List (Uuid × FileStore.IndexedEvent Value) :=
  store.index.byIngestion.filter fun entry => matchesPrefix filter entry.2.streamId &&
    matchesPattern globMatches filter entry.2.streamId &&
    matchesType form.eventTypeName filter entry.2.eventType

def selectSqlite (table : SqliteStore.Table Raw) : List (SqliteStore.Row Raw) :=
  (table.filter (sqlWhere like glob ev filter)).insertionSort fun p q => p.eventId ≤ q.eventId

def decodeMemory (entry : MemoryStore.GlobalLogEntry Raw) : Option E :=
  (ev.fromStr entry.eventData).toOption

def decodeFile (entry : Uuid × FileStore.IndexedEvent Value) : Option E :=
  (form.fromValue entry.2.eventData).toOption

def decodeSqlite (row : SqliteStore.Row Raw) : Option E := (ev.fromStr row.eventData).toOption

end Readers

section Pages

theorem isAfter_iff {cursor : Option Uuid} {position : Uuid} :
    IsAfter cursor position ↔ After cursor position := by
  cases cursor <;> simp

/-- Following `next_from_results` is following the cursor of a paged scan. -/
theorem readAll_eq_follow (readEvents : EventPage → List (E × Uuid)) (limit fuel : ℕ)
    (cursor : Option Uuid) : readAll readEvents fuel ⟨cursor,limit⟩ =
      follow (fun cursor => readEvents ⟨cursor,limit⟩) fuel cursor := by
  induction fuel generalizing cursor with
  | zero => rfl
  | succ fuel ih =>
    simp only [readAll,follow,EventPage.nextFromResults]
    cases hlast : (readEvents ⟨cursor,limit⟩).getLast? with
    | none => rfl
    | some last => simp only [Option.map_some,ih]

variable {globMatches : StreamPattern → String → Bool} {like glob : String → String → Bool}
  {ev : Event Any Raw E} {form : FileStore.ValueForm Value E} {filter : EventFilter}

theorem readMemory_eq_page (data : MemoryStore.StoreData Any Raw Value) (cursor : Option Uuid)
    (limit : ℕ) : readMemory globMatches ev filter data ⟨cursor,limit⟩ =
      page MemoryStore.GlobalLogEntry.eventId (decodeMemory ev) limit
        (selectMemory globMatches ev filter data) cursor := by
  simp only [readMemory,page,selectMemory,List.filter_filter]
  congr 2
  refine List.filter_congr fun entry _ => ?_
  simp [isAfter_iff,Bool.and_comm,Bool.and_left_comm,Bool.and_assoc]

theorem readFile_eq_page (store : FileStore.FileEventStore Value) (cursor : Option Uuid)
    (limit : ℕ) : readFile globMatches form filter store ⟨cursor,limit⟩ =
      page Prod.fst (decodeFile form) limit (selectFile globMatches form filter store) cursor := by
  simp only [readFile,page,selectFile,List.filter_filter]
  congr 2
  refine List.filter_congr fun entry _ => ?_
  simp [isAfter_iff,Bool.and_comm,Bool.and_left_comm,Bool.and_assoc]

theorem takeLimit_none_eq {α : Type} {l l' : List α} (h : l.length ≤ l'.length) :
    takeLimit none l = l.take (l'.length+1) := by
  rw [takeLimit,List.take_of_length_le (by omega)]

theorem readSqlite_eq_page {table : SqliteStore.Table Raw}
    (hids : (table.map SqliteStore.Row.eventId).Nodup) (cursor : Option Uuid) (limit : ℕ) :
    readSqlite like glob ev filter table ⟨cursor,limit⟩ =
      page SqliteStore.Row.eventId (decodeSqlite ev)
        ((sqlLimit limit).getD ((selectSqlite like glob ev filter table).length+1))
        (selectSqlite like glob ev filter table) cursor := by
  have hrows : ((table.filter fun row => IsAfter cursor row.eventId &&
      sqlWhere like glob ev filter row).insertionSort fun p q => p.eventId ≤ q.eventId) =
      (selectSqlite like glob ev filter table).filter fun row => After cursor row.eventId := by
    rw [selectSqlite,← Grouping.filter_sortBy (hids.sublist (List.filter_sublist.map _)),
      List.filter_filter]
    simp only [isAfter_iff]
  simp only [readSqlite,page,hrows]
  cases sqlLimit limit with
  | none =>
    rw [takeLimit_none_eq (List.length_filter_le _ _)]
    rfl
  | some n => rfl

end Pages

/-- Following the pages of a reader from the first to an empty one delivers every matching
event that decodes, once and in log order, exactly when no full page of matching events that do
not decode lies directly before one that does; an unlimited SQLite page has no such gap. -/
theorem readAll_complete_iff (globMatches : StreamPattern → String → Bool)
    (like glob : String → String → Bool) (ev : Event Any Raw E)
    (form : FileStore.ValueForm Value E) (filter : EventFilter) (limit : ℕ)
    {data : MemoryStore.StoreData Any Raw Value} {store : FileStore.FileEventStore Value}
    {table : SqliteStore.Table Raw} {fuel : ℕ}
    (hmemory : data.globalLog.Pairwise fun x y => x.eventId < y.eventId)
    (hfile : store.index.byIngestion.Pairwise fun x y => x.1 < y.1)
    (hsqlite : (table.map SqliteStore.Row.eventId).Nodup)
    (hfuel : data.globalLog.length < fuel ∧ store.index.byIngestion.length < fuel ∧
      table.length < fuel) :
    (readAll (readMemory globMatches ev filter data) fuel (.first limit) =
        some ((selectMemory globMatches ev filter data).filterMap
          (decodeAt MemoryStore.GlobalLogEntry.eventId (decodeMemory ev))) ↔
      NoLongGap (decodeMemory ev) limit (selectMemory globMatches ev filter data)) ∧
    (readAll (readFile globMatches form filter store) fuel (.first limit) =
        some ((selectFile globMatches form filter store).filterMap
          (decodeAt Prod.fst (decodeFile form))) ↔
      NoLongGap (decodeFile form) limit (selectFile globMatches form filter store)) ∧
    (readAll (readSqlite like glob ev filter table) fuel (.first limit) =
        some ((selectSqlite like glob ev filter table).filterMap
          (decodeAt SqliteStore.Row.eventId (decodeSqlite ev))) ↔
      ∀ n ∈ sqlLimit limit,
        NoLongGap (decodeSqlite ev) n (selectSqlite like glob ev filter table)) := by
  refine ⟨?_,?_,?_⟩
  · rw [EventPage.first,readAll_eq_follow]
    simp only [readMemory_eq_page]
    exact follow_eq_iff (hmemory.sublist List.filter_sublist)
      ((List.length_filter_le _ _).trans_lt hfuel.1)
  · rw [EventPage.first,readAll_eq_follow]
    simp only [readFile_eq_page]
    exact follow_eq_iff (hfile.sublist List.filter_sublist)
      ((List.length_filter_le _ _).trans_lt hfuel.2.1)
  · rw [EventPage.first,readAll_eq_follow]
    simp only [readSqlite_eq_page hsqlite]
    have hsorted : (selectSqlite like glob ev filter table).Pairwise
        fun p q => p.eventId < q.eventId :=
      Grouping.pairwise_lt_sortBy (hsqlite.sublist (List.filter_sublist.map _))
    have hlen : (selectSqlite like glob ev filter table).length < fuel := by
      rw [selectSqlite,List.length_insertionSort]
      exact (List.length_filter_le _ _).trans_lt hfuel.2.2
    rw [follow_eq_iff hsorted hlen]
    cases sqlLimit limit with
    | some n => simp
    | none =>
      refine iff_of_true ?_ (by simp)
      intro before gap a after heq _ _
      have hle : gap.length ≤ (selectSqlite like glob ev filter table).length := by
        rw [heq]
        simp only [List.length_append,List.length_cons]
        omega
      exact Nat.lt_succ_of_le hle

namespace Ledger

def account1 : StreamId := Sample.account

/-- Whole numbers of which `0` is a text that an older version of the type wrote. -/
def deposited : Event ℕ ℕ ℕ :=
  { Sample.deposited with
    fromStr := fun raw => if raw = 0 then .error "missing field" else .ok raw }

def depositForm : FileStore.ValueForm ℕ ℕ where
  streamId _ := account1
  eventTypeName := "Deposited"
  toValue := .ok
  fromValue raw := if raw = 0 then .error "missing field" else .ok raw

/-- An undecodable event followed by one that decodes, in each of the stores. -/
def memoryLog : MemoryStore.StoreData ℕ ℕ ℕ :=
  ⟨∅,[⟨1,"account-1","Deposited",0⟩,⟨2,"account-1","Deposited",7⟩],∅⟩

def fileLog : FileStore.FileEventStore ℕ where
  replicaId := 1
  files := []
  ingestionLog := []
  index := ⟨∅,[(2^64,⟨1,"account-1","Deposited",0⟩),(2*2^64,⟨2,"account-1","Deposited",7⟩)],
    ∅,[],⟨∅,3⟩⟩

def sqliteLog : SqliteStore.Table ℕ :=
  [⟨1,"account-1",1,"Deposited",0⟩,⟨2,"account-1",2,"Deposited",7⟩]

end Ledger

section Scenarios
open Ledger

/-- With a limit of one the first page of every reader is empty, and the event behind it is
never delivered. -/
theorem readAll_stops_early :
    readAll (readMemory (fun _ _ => true) deposited .all memoryLog) 3 (.first 1) = some [] ∧
    readAll (readFile (fun _ _ => true) depositForm .all fileLog) 3 (.first 1) = some [] ∧
    readAll (readSqlite (fun _ _ => true) (fun _ _ => true) deposited .all sqliteLog) 3 (.first 1) =
      some [] ∧
    readMemory (fun _ _ => true) deposited .all memoryLog (.after 1 1) = [(7,2)] ∧
    readFile (fun _ _ => true) depositForm .all fileLog (.after (2^64) 1) = [(7,2*2^64)] ∧
    readSqlite (fun _ _ => true) (fun _ _ => true) deposited .all sqliteLog (.after 1 1) =
      [(7,2)] := by
  decide +kernel

/-- A limit of two is enough for the same log. -/
theorem readAll_complete_iff_two :
    NoLongGap (decodeMemory deposited) 2
      (selectMemory (fun _ _ => true) deposited .all memoryLog) :=
  (readAll_complete_iff (fun _ _ => true) (fun _ _ => true) (fun _ _ => true) deposited depositForm
    .all 2 (by decide : memoryLog.globalLog.Pairwise fun x y => x.eventId < y.eventId)
    (by decide : fileLog.index.byIngestion.Pairwise fun x y => x.1 < y.1)
    (by decide : (sqliteLog.map SqliteStore.Row.eventId).Nodup)
    (by decide : memoryLog.globalLog.length < 3 ∧ fileLog.index.byIngestion.length < 3 ∧
      sqliteLog.length < 3)).1.mp (by decide +kernel)

end Scenarios

end EventReader
end EventCore
