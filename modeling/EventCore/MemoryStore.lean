import EventCore.Command

/-! The in-memory store: type-erased events behind a per-stream version, a global log,
and the latest command-state projections. -/
namespace EventCore
namespace MemoryStore

variable {Any Raw Value E : Type}

structure StreamData (Any : Type) where
  events : List Any
  version : StreamVersion
  version_eq : version = events.length

structure GlobalLogEntry (Raw : Type) where
  eventId : Uuid
  streamId : String
  eventType : String
  eventData : Raw

structure StoreData (Any Raw Value : Type) where
  streams : HashMap StreamId (StreamData Any)
  globalLog : List (GlobalLogEntry Raw)
  commandStateSnapshots : HashMap CommandStateSnapshotId (CommandStateSnapshot Value)

namespace StoreData

def new : StoreData Any Raw Value := ⟨∅,[],∅⟩

/-- Type-erased events of a stream; none when it was never written. -/
def streamEvents (data : StoreData Any Raw Value) (streamId : StreamId) : List Any :=
  match data.streams.get? streamId with
  | none => []
  | some stream => stream.events

def currentVersion (data : StoreData Any Raw Value) (streamId : StreamId) : StreamVersion :=
  match data.streams.get? streamId with
  | none => 0
  | some stream => stream.version

theorem currentVersion_eq (data : StoreData Any Raw Value) (streamId : StreamId) :
    data.currentVersion streamId = (data.streamEvents streamId).length := by
  unfold currentVersion streamEvents
  cases data.streams.get? streamId with
  | none => rfl
  | some stream => exact stream.version_eq

end StoreData

def downcast (ev : Event Any Raw E) (streamId : StreamId) (boxed : Any) :
    Except EventStoreError E :=
  match ev.downcastRef boxed with
  | some event => .ok event
  | none => .error (.deserializationFailed streamId
      ("event could not be downcast to " ++ ev.typeName))

/-- Items of a stream as `E`, one result per stored event. -/
def readStream (ev : Event Any Raw E) (data : StoreData Any Raw Value) (streamId : StreamId) :
    List (Except EventStoreError E) :=
  (data.streamEvents streamId).map (downcast ev streamId)

def readStreamAfter (ev : Event Any Raw E) (data : StoreData Any Raw Value) (streamId : StreamId)
    (exclusiveVersion : StreamVersion) : List (Except EventStoreError E) :=
  ((data.streamEvents streamId).drop exclusiveVersion).map (downcast ev streamId)

@[simp] theorem readStream_length (ev : Event Any Raw E) (data : StoreData Any Raw Value)
    (streamId : StreamId) : (readStream ev data streamId).length = data.currentVersion streamId := by
  simp [readStream,data.currentVersion_eq]

def StreamData.push (stream : StreamData Any) (event : Any) : StreamData Any :=
  ⟨stream.events ++ [event],stream.version+1,by simp [stream.version_eq]⟩

/-- Write one entry; `nowV7` gives the identifier drawn for the entry at a log position. -/
def writeEntry (nowV7 : ℕ → Uuid) (data : StoreData Any Raw Value)
    (entry : StreamWriteEntry Any Raw) : StoreData Any Raw Value :=
  let stream := (data.streams.get? entry.streamId).getD ⟨[],0,rfl⟩
  { data with
    globalLog := data.globalLog ++
      [⟨nowV7 data.globalLog.length,entry.streamId.value,entry.eventType,entry.eventData⟩]
    streams := data.streams.insert entry.streamId (stream.push entry.event) }

/-- Check every registered version, then write all entries in order. -/
def appendEvents (nowV7 : ℕ → Uuid) (data : StoreData Any Raw Value)
    (writes : StreamWrites Any Raw) : Except EventStoreError Unit × StoreData Any Raw Value :=
  match checkExpectedVersions data.currentVersion writes.expectedVersions.entries with
  | .error e => (.error e,data)
  | .ok _ => (.ok (),writes.entries.foldl (writeEntry nowV7) data)

def loadCommandStateSnapshot (data : StoreData Any Raw Value)
    (snapshotId : CommandStateSnapshotId) : Option (CommandStateSnapshot Value) :=
  data.commandStateSnapshots.get? snapshotId

def saveCommandStateSnapshot (data : StoreData Any Raw Value)
    (snapshotId : CommandStateSnapshotId) (snapshot : CommandStateSnapshot Value) :
    StoreData Any Raw Value :=
  let replaced := { data with
    commandStateSnapshots := data.commandStateSnapshots.insert snapshotId snapshot }
  match data.commandStateSnapshots.get? snapshotId with
  | some current => if !snapshot.covers current then data else replaced
  | none => replaced

def eventsOf (entries : List (StreamWriteEntry Any Raw)) (streamId : StreamId) : List Any :=
  (entries.filter fun entry => entry.streamId = streamId).map fun entry => entry.event

theorem streamEvents_writeEntry (nowV7 : ℕ → Uuid) (data : StoreData Any Raw Value)
    (entry : StreamWriteEntry Any Raw) (streamId : StreamId) :
    (writeEntry nowV7 data entry).streamEvents streamId =
      data.streamEvents streamId ++ eventsOf [entry] streamId := by
  unfold writeEntry StoreData.streamEvents
  simp only [HashMap.get?_insert]
  by_cases h : streamId = entry.streamId
  · subst h
    cases data.streams.get? entry.streamId <;> simp [StreamData.push,eventsOf]
  · have hne : ¬ entry.streamId = streamId := fun he => h he.symm
    simp [h,hne,eventsOf]

theorem streamEvents_foldl_writeEntry (nowV7 : ℕ → Uuid) (entries : List (StreamWriteEntry Any Raw))
    (data : StoreData Any Raw Value) (streamId : StreamId) :
    (entries.foldl (writeEntry nowV7) data).streamEvents streamId =
      data.streamEvents streamId ++ eventsOf entries streamId := by
  induction entries generalizing data with
  | nil => simp [eventsOf]
  | cons entry entries ih =>
    rw [List.foldl_cons,ih,streamEvents_writeEntry,List.append_assoc]
    congr 1
    simp only [eventsOf,← List.map_append,← List.filter_append,List.singleton_append]

/-- The two outcomes of an append: every registered version is current and each stream
grows by exactly its events, or a conflict leaves the store as it was. -/
theorem appendEvents_cases (nowV7 : ℕ → Uuid) (data : StoreData Any Raw Value)
    (writes : StreamWrites Any Raw) :
    (∃ data', appendEvents nowV7 data writes = (.ok (),data') ∧
      (∀ s v, writes.expectedVersions.get? s = some v → data.currentVersion s = v) ∧
      ∀ s, data'.streamEvents s = data.streamEvents s ++ eventsOf writes.entries s) ∨
    ∃ s expected, writes.expectedVersions.get? s = some expected ∧
      data.currentVersion s ≠ expected ∧
      appendEvents nowV7 data writes =
        (.error (.versionConflict s expected (data.currentVersion s)),data) := by
  unfold appendEvents
  cases hcheck : checkExpectedVersions data.currentVersion writes.expectedVersions.entries with
  | ok u =>
    refine .inl ⟨_,rfl,?_,streamEvents_foldl_writeEntry nowV7 writes.entries data⟩
    intro s v hv
    exact checkExpectedVersions_eq_ok.mp hcheck ⟨s,v⟩ (HashMap.mem_entries_iff.mpr hv)
  | error e =>
    obtain ⟨⟨s,v⟩,hp,hne,rfl⟩ := checkExpectedVersions_eq_error hcheck
    exact .inr ⟨s,v,HashMap.mem_entries_iff.mp hp,hne,rfl⟩

end MemoryStore
end EventCore
