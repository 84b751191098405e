import EventCore.Grouping
import EventCore.Types

/-! The SQLite store: one table of events, appended in a transaction that checks every
registered version first. -/
namespace EventCore
namespace SqliteStore
open StreamWrites

variable {Any Raw E : Type}

/-- A row of `eventcore_events`. Identifiers are stored in their fixed-width text form, which
sorts like the number. -/
structure Row (Raw : Type) where
  eventId : Uuid
  streamId : String
  streamVersion : ℕ
  eventType : String
  eventData : Raw
  deriving DecidableEq

abbrev Table (Raw : Type) := List (Row Raw)

def rowsOf (table : Table Raw) (streamId : String) : List (Row Raw) :=
  table.filter fun row => row.streamId = streamId

/-- `COALESCE(MAX(stream_version), 0)` over the rows of a stream. -/
def currentVersion (table : Table Raw) (streamId : String) : ℕ :=
  (rowsOf table streamId).foldl (fun version row => max version row.streamVersion) 0

/-- Give every entry the next version of its stream and a fresh identifier. -/
def assignRows (nowV7 : ℕ → Uuid) : ℕ → HashMap StreamId StreamVersion →
    List (StreamWriteEntry Any Raw) → Except EventStoreError (List (Row Raw))
  | _, _, [] => .ok []
  | drawn, currentVersions, entry :: entries =>
    match currentVersions.get? entry.streamId with
    | none => .error (.undeclaredStream entry.streamId)
    | some version =>
      (assignRows nowV7 (drawn+1) (currentVersions.insert entry.streamId (version+1)) entries).map
        (⟨nowV7 drawn,entry.streamId.value,version+1,entry.eventType,entry.eventData⟩ :: ·)

/-- The primary key and the unique index on stream and version. -/
def violatesUnique (table : Table Raw) (row : Row Raw) : Bool :=
  table.any fun old => old.eventId = row.eventId ||
    (old.streamId = row.streamId && old.streamVersion = row.streamVersion)

def insertRows : Table Raw → List (Row Raw) → Except EventStoreError (Table Raw)
  | table, [] => .ok table
  | table, row :: rows =>
    if violatesUnique table row then .error (.storeFailure .appendEvents)
    else insertRows (table ++ [row]) rows

def appendEvents (nowV7 : ℕ → Uuid) (table : Table Raw) (writes : StreamWrites Any Raw) :
    Except EventStoreError (Table Raw) :=
  match writes.entries with
  | [] => .ok table
  | _ :: _ =>
    match checkExpectedVersions (fun s => currentVersion table s.value)
        writes.expectedVersions.entries with
    | .error e => .error e
    | .ok _ =>
      match assignRows nowV7 0 writes.expectedVersions writes.entries with
      | .error e => .error e
      | .ok rows => insertRows table rows

/-- Decode texts in order; the first that does not decode ends the stream with its error. -/
def decodeUntilError {Source : Type} (decode : Source → Except EventStoreError E) :
    List Source → List (Except EventStoreError E)
  | [] => []
  | source :: rest =>
    match decode source with
    | .error e => [.error e]
    | .ok event => .ok event :: decodeUntilError decode rest

def decodeRow (ev : Event Any Raw E) (streamId : StreamId) (row : Row Raw) :
    Except EventStoreError E :=
  (ev.fromStr row.eventData).mapError (.deserializationFailed streamId)

/-- `ORDER BY stream_version ASC`. -/
def orderedRows (table : Table Raw) (streamId : String) : List (Row Raw) :=
  (rowsOf table streamId).insertionSort fun p q => p.streamVersion ≤ q.streamVersion

def readStream (ev : Event Any Raw E) (table : Table Raw) (streamId : StreamId) :
    List (Except EventStoreError E) :=
  decodeUntilError (decodeRow ev streamId) (orderedRows table streamId.value)

/-- A count that is no signed 64-bit integer cannot be bound, so that the query fails. -/
def readStreamAfter (ev : Event Any Raw E) (table : Table Raw) (streamId : StreamId)
    (exclusiveVersion : StreamVersion) : List (Except EventStoreError E) :=
  if exclusiveVersion < 2^63 then
    decodeUntilError (decodeRow ev streamId)
      ((orderedRows table streamId.value).filter fun row => exclusiveVersion < row.streamVersion)
  else [.error (.storeFailure .readStream)]

section Decode

variable {Source : Type} {decode : Source → Except EventStoreError E}

theorem decodeUntilError_map {Source' : Type} (f : Source' → Source) (sources : List Source') :
    decodeUntilError decode (sources.map f) =
      decodeUntilError (fun source => decode (f source)) sources := by
  induction sources with
  | nil => rfl
  | cons source rest ih =>
    simp only [List.map_cons,decodeUntilError,ih]

theorem decodeUntilError_getElem? {before after : List Source} {source : Source} {event : E} :
    (decodeUntilError decode (before ++ source :: after))[before.length]? = some (.ok event) ↔
      (∀ earlier ∈ before, ∃ e, decode earlier = .ok e) ∧ decode source = .ok event := by
  induction before with
  | nil =>
    simp only [List.nil_append,decodeUntilError,List.length_nil]
    cases decode source <;> simp
  | cons earlier before ih =>
    simp only [List.cons_append,decodeUntilError,List.length_cons,List.forall_mem_cons]
    cases decode earlier with
    | error e => simp
    | ok e => simpa using ih

end Decode

section Append

def storedTexts (table : Table Raw) (streamId : StreamId) : List Raw :=
  (orderedRows table streamId.value).map Row.eventData

theorem readStream_eq (ev : Event Any Raw E) (table : Table Raw) (streamId : StreamId) :
    readStream ev table streamId = decodeUntilError
      (fun text => (ev.fromStr text).mapError (.deserializationFailed streamId))
      (storedTexts table streamId) := by
  rw [storedTexts,decodeUntilError_map]
  rfl

theorem foldl_max (rows : List (Row Raw)) (version : ℕ) :
    rows.foldl (fun version row => max version row.streamVersion) version =
      max version (rows.foldl (fun version row => max version row.streamVersion) 0) := by
  induction rows generalizing version with
  | nil => simp
  | cons row rows ih =>
    rw [List.foldl_cons,ih,List.foldl_cons,ih (max 0 row.streamVersion)]
    omega

theorem le_currentVersion {table : Table Raw} {streamId : String} {row : Row Raw}
    (h : row ∈ rowsOf table streamId) : row.streamVersion ≤ currentVersion table streamId := by
  unfold currentVersion
  generalize rowsOf table streamId = rows at h
  induction rows with
  | nil => simp at h
  | cons first rows ih =>
    rw [List.foldl_cons,foldl_max]
    rcases List.mem_cons.mp h with rfl | h
    · omega
    · have := ih h
      omega

/-- Versions that ascend from above `version`. -/
structure Above (version : ℕ) (rows : List (Row Raw)) : Prop where
  above : ∀ row ∈ rows, version < row.streamVersion
  ascending : rows.Pairwise fun p q => p.streamVersion < q.streamVersion

theorem rowsOf_append (table rows : Table Raw) (streamId : String) :
    rowsOf (table ++ rows) streamId = rowsOf table streamId ++ rowsOf rows streamId :=
  List.filter_append _ _

theorem currentVersion_concat (table : Table Raw) (row : Row Raw) (streamId : String) :
    currentVersion (table ++ [row]) streamId =
      if row.streamId = streamId then max (currentVersion table streamId) row.streamVersion
      else currentVersion table streamId := by
  unfold currentVersion
  rw [rowsOf_append]
  split_ifs with h
  · rw [show rowsOf [row] streamId = [row] by simp [rowsOf,h],List.foldl_append]
    rfl
  · rw [show rowsOf [row] streamId = [] by simp [rowsOf,h],List.append_nil]

theorem orderedRows_append {table rows : Table Raw} {streamId : String}
    (h : Above (currentVersion table streamId) (rowsOf rows streamId)) :
    orderedRows (table ++ rows) streamId = orderedRows table streamId ++ rowsOf rows streamId := by
  rw [orderedRows,rowsOf_append,orderedRows]
  refine Grouping.insertionSort_append _ ?_ (h.ascending.imp fun hlt => hlt.le)
  intro old hold row hrow
  exact (le_currentVersion hold).trans (h.above row hrow).le

theorem assignRows_texts {nowV7 : ℕ → Uuid} {entries : List (StreamWriteEntry Any Raw)} {drawn : ℕ}
    {versions : HashMap StreamId StreamVersion} {rows : List (Row Raw)}
    (h : assignRows nowV7 drawn versions entries = .ok rows) (streamId : StreamId) :
    (rowsOf rows streamId.value).map Row.eventData = textsOf entries streamId ∧
    ∀ version, versions.get? streamId = some version → Above version (rowsOf rows streamId.value) := by
  induction entries generalizing drawn versions rows with
  | nil =>
    obtain rfl := Except.ok.inj h
    exact ⟨rfl,fun _ _ => ⟨by simp [rowsOf],by simp [rowsOf]⟩⟩
  | cons entry entries ih =>
    unfold assignRows at h
    cases hget : versions.get? entry.streamId with
    | none => simp [hget] at h
    | some current =>
      simp only [hget] at h
      cases hrest : assignRows nowV7 (drawn+1) (versions.insert entry.streamId (current+1))
          entries with
      | error e => simp [hrest,Except.map] at h
      | ok rest =>
        simp only [hrest,Except.map,Except.ok.injEq] at h
        obtain ⟨htexts,habove⟩ := ih hrest
        rw [← h]
        by_cases hs : entry.streamId = streamId
        · subst hs
          refine ⟨by simpa [rowsOf,textsOf] using htexts,fun version hversion => ?_⟩
          obtain rfl : current = version := Option.some.inj (hget.symm.trans hversion)
          have hnext := habove (current+1) (HashMap.get?_insert_self _ _ _)
          have hrows : rowsOf (⟨nowV7 drawn,entry.streamId.value,current+1,entry.eventType,
              entry.eventData⟩ :: rest) entry.streamId.value = ⟨nowV7 drawn,entry.streamId.value,
              current+1,entry.eventType,entry.eventData⟩ :: rowsOf rest entry.streamId.value := by
            simp [rowsOf]
          rw [hrows]
          refine ⟨fun row hrow => ?_,List.pairwise_cons.mpr ⟨fun row hrow => ?_,hnext.ascending⟩⟩
          · rcases List.mem_cons.mp hrow with rfl | hrow
            · exact Nat.lt_succ_self _
            · exact (Nat.lt_succ_self _).trans (hnext.above row hrow)
          · exact hnext.above row hrow
        · have hvalue : ¬ entry.streamId.value = streamId.value :=
            fun he => hs (StreamId.value_injective he)
          have hrows : rowsOf (⟨nowV7 drawn,entry.streamId.value,current+1,entry.eventType,
              entry.eventData⟩ :: rest) streamId.value = rowsOf rest streamId.value := by
            simp [rowsOf,hvalue]
          rw [hrows]
          refine ⟨by simpa [textsOf,hs] using htexts,fun version hversion => habove version ?_⟩
          rw [HashMap.get?_insert_ne _ _ (Ne.symm hs)]
          exact hversion

theorem insertRows_eq_ok {table table' rows : Table Raw} (h : insertRows table rows = .ok table') :
    table' = table ++ rows := by
  induction rows generalizing table with
  | nil =>
    obtain rfl := Except.ok.inj h
    simp
  | cons row rows ih =>
    unfold insertRows at h
    split_ifs at h
    simpa using ih h

/-- A successful append wrote nothing, or inserted one row for each entry of a batch whose
registered versions were current. -/
theorem appendEvents_eq_ok {nowV7 : ℕ → Uuid} {table table' : Table Raw}
    {writes : StreamWrites Any Raw} (h : appendEvents nowV7 table writes = .ok table') :
    (writes.entries = [] ∧ table' = table) ∨
    ((∀ s v, writes.expectedVersions.get? s = some v → currentVersion table s.value = v) ∧
      ∃ rows, assignRows nowV7 0 writes.expectedVersions writes.entries = .ok rows ∧
        insertRows table rows = .ok table') := by
  unfold appendEvents at h
  cases hents : writes.entries with
  | nil =>
    simp only [hents,Except.ok.injEq] at h
    exact .inl ⟨rfl,h.symm⟩
  | cons entry entries =>
    simp only [hents] at h
    cases hcheck : checkExpectedVersions (fun s => currentVersion table s.value)
        writes.expectedVersions.entries with
    | error e => simp [hcheck] at h
    | ok u =>
      cases hrows : assignRows nowV7 0 writes.expectedVersions (entry :: entries) with
      | error e => simp [hcheck,hrows] at h
      | ok rows =>
        simp only [hcheck,hrows] at h
        exact .inr ⟨fun s v hv => checkExpectedVersions_eq_ok.mp hcheck ⟨s,v⟩
          (HashMap.mem_entries_iff.mpr hv),rows,rfl,h⟩

theorem appendEvents_texts {nowV7 : ℕ → Uuid} {table table' : Table Raw}
    {writes : StreamWrites Any Raw} (h : appendEvents nowV7 table writes = .ok table')
    (streamId : StreamId) :
    storedTexts table' streamId = storedTexts table streamId ++ textsOf writes.entries streamId := by
  rcases appendEvents_eq_ok h with ⟨hnil,rfl⟩ | ⟨hcurrent,rows,hrows,hrun⟩
  · simp [hnil,textsOf]
  · obtain ⟨htexts,habove⟩ := assignRows_texts hrows streamId
    have hstream : Above (currentVersion table streamId.value) (rowsOf rows streamId.value) := by
      cases hget : writes.expectedVersions.get? streamId with
      | some version =>
        rw [hcurrent streamId version hget]
        exact habove version hget
      | none =>
        have hnone : textsOf writes.entries streamId = [] := by
          refine List.map_eq_nil_iff.mpr (List.filter_eq_nil_iff.mpr fun e he hs => ?_)
          have hmem := writes.declared e he
          rw [of_decide_eq_true hs] at hmem
          exact HashMap.get?_eq_none_iff.mp hget hmem
        rw [hnone] at htexts
        rw [List.map_eq_nil_iff.mp htexts]
        exact ⟨by simp,List.Pairwise.nil⟩
    rw [insertRows_eq_ok hrun,storedTexts,orderedRows_append hstream,List.map_append,htexts]
    rfl

end Append

end SqliteStore
end EventCore
