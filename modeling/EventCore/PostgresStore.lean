import EventCore.ConflictMessage
import EventCore.SerdeJson
import EventCore.SqliteStore

/-! The Postgres store: a trigger gives every inserted row the next version of its stream, and
payloads live in a `JSONB` column. -/
namespace EventCore
namespace PostgresStore
open ConflictMessage SerdeJson SqliteStore StreamWrites

variable {Any F E : Type}

/-- A `JSONB` column keeps numbers exactly, but of an object neither the order of its members nor
repeated keys. `accepts` is what the column takes at all. -/
def jsonb (accepts : Text → Bool) (text : Text) : Option Text :=
  if accepts text then some text.keyOrdered else none

/-- `validate_expected_versions`, stream by stream in the order of their names. -/
def validateExpectedVersions (table : Table Text)
    (expectedVersions : HashMap StreamId StreamVersion) : Except EventStoreError Unit :=
  checkExpectedVersions (fun s => currentVersion table s.value)
    (expectedVersions.entries.insertionSort fun p q => p.1.value ≤ q.1.value)

def expectedVersionsJson (expectedVersions : HashMap StreamId StreamVersion) : HashMap String ℕ :=
  expectedVersions.entries.foldl (fun json p => json.insert p.1.value p.2) ∅

/-- `eventcore_assign_stream_version`: one above the highest version of the stream, which has to
be the expected one. A conflict reaches the caller through the text of its message. -/
def assignStreamVersion (table : Table Text) (expectedVersions : HashMap String ℕ)
    (streamId : StreamId) : Except EventStoreError (ℕ × HashMap String ℕ) :=
  let currentMaxVersion := currentVersion table streamId.value
  let assigned :=
    (currentMaxVersion+1,expectedVersions.insert streamId.value (currentMaxVersion+1))
  match expectedVersions.get? streamId.value with
  | none => .ok assigned
  | some expectedVersion =>
    if expectedVersion ≠ currentMaxVersion then
      .error (parseVersionConflictFromDbError
        (versionConflictMessage streamId expectedVersion currentMaxVersion))
    else .ok assigned

structure Insertion where
  table : Table Text
  expectedVersions : HashMap String ℕ
  drawn : ℕ

def insertRow (accepts : Text → Bool) (nowV7 : ℕ → Uuid) (insertion : Insertion)
    (entry : StreamWriteEntry Any Text) : Except EventStoreError Insertion :=
  match jsonb accepts entry.eventData with
  | none => .error (.storeFailure .appendEvents)
  | some eventData =>
    match assignStreamVersion insertion.table insertion.expectedVersions entry.streamId with
    | .error e => .error e
    | .ok (version,expectedVersions) =>
      let row : Row Text :=
        ⟨nowV7 insertion.drawn,entry.streamId.value,version,entry.eventType,eventData⟩
      if violatesUnique insertion.table row then
        .error (.versionConflict unknownConflictStream 0 0)
      else .ok ⟨insertion.table ++ [row],expectedVersions,insertion.drawn+1⟩

/-- The rows go in one after the other, in the order of the batch. -/
def appendEvents (accepts : Text → Bool) (nowV7 : ℕ → Uuid) (table : Table Text)
    (writes : StreamWrites Any Text) : Except EventStoreError (Table Text) :=
  match writes.entries with
  | [] => .ok table
  | _ :: _ =>
    match validateExpectedVersions table writes.expectedVersions with
    | .error e => .error e
    | .ok _ =>
      (writes.entries.foldlM (insertRow accepts nowV7)
        ⟨table,expectedVersionsJson writes.expectedVersions,0⟩).map Insertion.table

/-- The column comes back as a `Value`, which is then decoded. -/
def decodePayload (ev : JsonEvent Any F E) (rounding : Rounding F) (streamId : StreamId)
    (eventData : Text) : Except EventStoreError E :=
  match valueFromStr rounding eventData with
  | none => .error (.storeFailure .readStream)
  | some payload => (ev.fromValue payload).mapError (.deserializationFailed streamId)

def readStream (ev : JsonEvent Any F E) (rounding : Rounding F) (table : Table Text)
    (streamId : StreamId) : List (Except EventStoreError E) :=
  decodeUntilError (fun row => decodePayload ev rounding streamId row.eventData)
    (orderedRows table streamId.value)

section Append

variable {accepts : Text → Bool} {nowV7 : ℕ → Uuid}

theorem insertRow_eq_ok {insertion insertion' : Insertion} {entry : StreamWriteEntry Any Text}
    (h : insertRow accepts nowV7 insertion entry = .ok insertion') :
    ∃ row, insertion'.table = insertion.table ++ [row] ∧ row.streamId = entry.streamId.value ∧
      row.streamVersion = currentVersion insertion.table entry.streamId.value + 1 ∧
      row.eventType = entry.eventType ∧ row.eventData = entry.eventData.keyOrdered := by
  unfold insertRow jsonb at h
  by_cases haccepts : accepts entry.eventData = true
  · simp only [haccepts,if_true] at h
    cases hassign : assignStreamVersion insertion.table insertion.expectedVersions
        entry.streamId with
    | error e => simp [hassign] at h
    | ok assigned =>
      have hversion : assigned.1 = currentVersion insertion.table entry.streamId.value + 1 := by
        unfold assignStreamVersion at hassign
        cases hget : insertion.expectedVersions.get? entry.streamId.value with
        | none =>
          simp only [hget,Except.ok.injEq] at hassign
          rw [← hassign]
        | some expected =>
          simp only [hget] at hassign
          split_ifs at hassign
          rw [← Except.ok.inj hassign]
      simp only [hassign] at h
      split_ifs at h
      rw [← Except.ok.inj h]
      exact ⟨_,rfl,rfl,hversion,rfl,rfl⟩
  · simp [haccepts] at h

theorem insertRows_texts {entries : List (StreamWriteEntry Any Text)}
    {insertion insertion' : Insertion}
    (h : entries.foldlM (insertRow accepts nowV7) insertion = .ok insertion') :
    ∃ rows, insertion'.table = insertion.table ++ rows ∧ ∀ streamId : StreamId,
      (rowsOf rows streamId.value).map Row.eventData =
        (textsOf entries streamId).map JsonTree.Document.keyOrdered ∧
      Above (currentVersion insertion.table streamId.value) (rowsOf rows streamId.value) := by
  induction entries generalizing insertion with
  | nil =>
    obtain rfl := Except.ok.inj h
    exact ⟨[],by simp,fun _ => ⟨rfl,⟨by simp [rowsOf],by simp [rowsOf]⟩⟩⟩
  | cons entry entries ih =>
    rw [List.foldlM_cons] at h
    cases hstep : insertRow accepts nowV7 insertion entry with
    | error e => simp [hstep,bind,Except.bind] at h
    | ok mid =>
      rw [hstep] at h
      obtain ⟨row,hmid,hstream,hversion,_,hdata⟩ := insertRow_eq_ok hstep
      obtain ⟨rows,htable,hrows⟩ := ih h
      refine ⟨row :: rows,by rw [htable,hmid,List.append_assoc,List.singleton_append],
        fun streamId => ?_⟩
      obtain ⟨htexts,habove⟩ := hrows streamId
      rw [hmid,currentVersion_concat,hstream] at habove
      by_cases hs : entry.streamId = streamId
      · subst hs
        have hhead : rowsOf (row :: rows) entry.streamId.value =
            row :: rowsOf rows entry.streamId.value := by simp [rowsOf,hstream]
        rw [if_pos rfl,hversion] at habove
        rw [hhead]
        refine ⟨by simpa [textsOf,hdata] using htexts,?_,?_⟩
        · intro other hother
          rcases List.mem_cons.mp hother with rfl | hother
          · omega
          · have := habove.above other hother
            omega
        · refine List.pairwise_cons.mpr ⟨fun other hother => ?_,habove.ascending⟩
          have := habove.above other hother
          omega
      · have hvalue : ¬ entry.streamId.value = streamId.value :=
          fun he => hs (StreamId.value_injective he)
        have hhead : rowsOf (row :: rows) streamId.value = rowsOf rows streamId.value := by
          simp [rowsOf,hstream,hvalue]
        rw [if_neg hvalue] at habove
        rw [hhead]
        exact ⟨by simpa [textsOf,hs] using htexts,habove⟩

theorem appendEvents_texts {table table' : Table Text} {writes : StreamWrites Any Text}
    (h : appendEvents accepts nowV7 table writes = .ok table') (streamId : StreamId) :
    storedTexts table' streamId = storedTexts table streamId ++
      (textsOf writes.entries streamId).map JsonTree.Document.keyOrdered := by
  unfold appendEvents at h
  cases hents : writes.entries with
  | nil =>
    simp only [hents,Except.ok.injEq] at h
    simp [h,textsOf]
  | cons entry entries =>
    simp only [hents] at h
    cases hcheck : validateExpectedVersions table writes.expectedVersions with
    | error e => simp [hcheck] at h
    | ok u =>
      simp only [hcheck] at h
      cases hrun : (entry :: entries).foldlM (insertRow accepts nowV7)
          ⟨table,expectedVersionsJson writes.expectedVersions,0⟩ with
      | error e => simp [hrun,Except.map] at h
      | ok insertion =>
        simp only [hrun,Except.map,Except.ok.injEq] at h
        obtain ⟨rows,htable,hrows⟩ := insertRows_texts hrun
        obtain ⟨htexts,habove⟩ := hrows streamId
        rw [← h,htable,storedTexts,orderedRows_append habove,List.map_append,htexts]
        rfl

theorem readStream_eq (ev : JsonEvent Any F E) (rounding : Rounding F) (table : Table Text)
    (streamId : StreamId) : readStream ev rounding table streamId =
      decodeUntilError (decodePayload ev rounding streamId) (storedTexts table streamId) := by
  rw [storedTexts,decodeUntilError_map]
  rfl

end Append

end PostgresStore
end EventCore
