import EventCore.MemoryStore
import EventCore.PostgresStore
import EventCore.Replicas

/-! What an appended event comes back as. The memory store keeps the event itself and SQLite its
text; the file store parses the text into a `Value` before it writes, and Postgres reads its
column back as one. -/
namespace EventCore
namespace PayloadFidelity
open SerdeJson SqliteStore StreamWrites

variable {Any F E Erased : Type}

def ReturnedAt (items : List (Except EventStoreError E)) (place : ℕ) (e : E) : Prop :=
  items[place]? = some (.ok e)

instance [DecidableEq E] (items : List (Except EventStoreError E)) (place : ℕ) (e : E) :
    Decidable (ReturnedAt items place e) :=
  inferInstanceAs (Decidable (items[place]? = some (.ok e)))

theorem mapError_eq_ok {ε ε' α : Type} {f : ε → ε'} {result : Except ε α} {a : α} :
    result.mapError f = .ok a ↔ result = .ok a := by
  cases result <;> simp [Except.mapError]

/-- The texts that SQLite reads before an event of the batch, up to it, all decode. -/
def SqliteReaches (ev : JsonEvent Any F E) (rounding : Rounding F) (table : Table Text)
    (before : List (StreamWriteEntry Any Text)) (streamId : StreamId) : Prop :=
  ∀ text ∈ storedTexts table streamId ++ textsOf before streamId,
    ∃ earlier, ev.fromStr rounding text = .ok earlier

/-- The same for Postgres, whose column has the texts in key order. -/
def PostgresReaches (ev : JsonEvent Any F E) (rounding : Rounding F) (table : Table Text)
    (before : List (StreamWriteEntry Any Text)) (streamId : StreamId) : Prop :=
  ∀ text ∈ storedTexts table streamId ++
      (textsOf before streamId).map JsonTree.Document.keyOrdered,
    ∃ earlier, PostgresStore.decodePayload ev rounding streamId text = .ok earlier

section Places

variable {entries before after : List (StreamWriteEntry Any Text)}
  {entry : StreamWriteEntry Any Text} (hsplit : entries = before ++ entry :: after)
include hsplit

theorem textsOf_split : textsOf entries entry.streamId =
    textsOf before entry.streamId ++ entry.eventData :: textsOf after entry.streamId := by
  simp [hsplit,textsOf]

theorem eventsOf_getElem? : (MemoryStore.eventsOf entries entry.streamId)[
    (textsOf before entry.streamId).length]? = some entry.event := by
  have hlength : (textsOf before entry.streamId).length =
      (MemoryStore.eventsOf before entry.streamId).length := by
    simp [textsOf,MemoryStore.eventsOf]
  have hevents : MemoryStore.eventsOf entries entry.streamId =
      MemoryStore.eventsOf before entry.streamId ++
        entry.event :: MemoryStore.eventsOf after entry.streamId := by
    simp [hsplit,MemoryStore.eventsOf]
  rw [hlength,hevents,List.getElem?_append_right le_rfl]
  simp

end Places

section Stores

variable {ev : JsonEvent Any F E} {rounding : Rounding F} {writes : StreamWrites Any Text}
  {before after : List (StreamWriteEntry Any Text)} {entry : StreamWriteEntry Any Text} {e : E}
  (hsplit : writes.entries = before ++ entry :: after)
  (hentry : IsEntry (ev.event rounding) e entry)
include hsplit hentry

theorem memory_returns {nowV7 : ℕ → Uuid} {data data' : MemoryStore.StoreData Any Text Erased}
    (h : MemoryStore.appendEvents nowV7 data writes = (.ok (),data')) :
    ReturnedAt (MemoryStore.readStream (ev.event rounding) data' entry.streamId)
      (data.currentVersion entry.streamId+(textsOf before entry.streamId).length) e := by
  rcases MemoryStore.appendEvents_cases nowV7 data writes with
    ⟨data'',hrun,_,hevents⟩ | ⟨_,_,_,_,hrun⟩
  · obtain rfl := congrArg Prod.snd (hrun.symm.trans h)
    rw [ReturnedAt,MemoryStore.readStream,List.getElem?_map,hevents,data.currentVersion_eq,
      List.getElem?_append_right (Nat.le_add_right _ _),Nat.add_sub_cancel_left,
      eventsOf_getElem? hsplit,hentry.2.1]
    simp [MemoryStore.downcast]
  · have herr := congrArg Prod.fst (hrun.symm.trans h)
    cases herr

omit hentry

/-- The file store returns the event exactly if its text decodes to it through a `Value`. -/
theorem file_returns_iff {store store' : FileStore.FileEventStore (Value F)}
    {stamp : FileStore.Stamp}
    (h : FileStore.appendEvents (valueFromStr rounding) store stamp writes = (.ok (),store')) :
    ReturnedAt (FileStore.readStream (ev.form rounding) store' entry.streamId)
        (store.index.streamHead entry.streamId.value+(textsOf before entry.streamId).length) e ↔
      ev.fromValue (entry.eventData.keyOrdered.map (Number.ofLiteral rounding)) = .ok e := by
  obtain ⟨values,hvalues,hdata⟩ := FileStore.appendEvents_values h entry.streamId
  let place := (textsOf before entry.streamId).length
  obtain ⟨value,hvalue,hparse⟩ : ∃ value, values[place]? = some value ∧
      valueFromStr rounding entry.eventData = some value := by
    have hplace := congrArg (fun l => l[place]?) hvalues
    simp only [textsOf_split hsplit,List.map_append,List.map_cons,List.getElem?_map] at hplace
    rw [List.getElem?_append_right (by simp [place])] at hplace
    simp only [List.length_map,place,Nat.sub_self,List.getElem?_cons_zero] at hplace
    obtain ⟨value,hvalue,hsome⟩ := Option.map_eq_some_iff.mp hplace.symm
    exact ⟨value,hvalue,hsome.symm⟩
  have hlength : ((store.index.streamEvents entry.streamId.value).map
      FileStore.IndexedEvent.eventData).length =
        store.index.streamHead entry.streamId.value := by
    rw [List.length_map,FileStore.Index.streamHead]
  have hread : (FileStore.readStream (ev.form rounding) store' entry.streamId)[
      store.index.streamHead entry.streamId.value+place]? =
        some ((ev.fromValue value).mapError (.deserializationFailed entry.streamId)) := by
    rw [FileStore.readStream_eq,hdata,List.getElem?_map,← hlength,
      List.getElem?_append_right (Nat.le_add_right _ _),Nat.add_sub_cancel_left,hvalue]
    rfl
  rw [ReturnedAt,hread,Option.some.injEq,mapError_eq_ok,valueFromStr_eq_some hparse]

theorem postgres_returns_iff {accepts : Text → Bool} {nowV7 : ℕ → Uuid} {table table' : Table Text}
    (h : PostgresStore.appendEvents accepts nowV7 table writes = .ok table') :
    ReturnedAt (PostgresStore.readStream ev rounding table' entry.streamId)
        ((storedTexts table entry.streamId).length+(textsOf before entry.streamId).length) e ↔
      PostgresReaches ev rounding table before entry.streamId ∧
      PostgresStore.decodePayload ev rounding entry.streamId entry.eventData.keyOrdered =
        .ok e := by
  have hplace : (storedTexts table entry.streamId).length+(textsOf before entry.streamId).length =
      (storedTexts table entry.streamId ++
        (textsOf before entry.streamId).map JsonTree.Document.keyOrdered).length := by simp
  rw [ReturnedAt,PostgresStore.readStream_eq,PostgresStore.appendEvents_texts h,
    textsOf_split hsplit,List.map_append,List.map_cons,← List.append_assoc,hplace,
    decodeUntilError_getElem?]
  rfl

theorem sqlite_returns_iff (htext : ev.fromStr rounding entry.eventData = .ok e)
    {nowV7 : ℕ → Uuid} {table table' : Table Text}
    (h : SqliteStore.appendEvents nowV7 table writes = .ok table') :
    ReturnedAt (SqliteStore.readStream (ev.event rounding) table' entry.streamId)
        ((storedTexts table entry.streamId).length+(textsOf before entry.streamId).length) e ↔
      SqliteReaches ev rounding table before entry.streamId := by
  rw [ReturnedAt,SqliteStore.readStream_eq,SqliteStore.appendEvents_texts h,textsOf_split hsplit,
    ← List.append_assoc,← List.length_append,decodeUntilError_getElem?]
  simp only [mapError_eq_ok,JsonEvent.event,htext,and_true]
  rfl

end Stores

theorem decodePayload_of_survives {ev : JsonEvent Any F E} {rounding : Rounding F} {text : Text}
    {e : E} (hfloat : JsonEvent.FloatFree text) (h : ev.SurvivesValue rounding text e)
    (streamId : StreamId) :
    PostgresStore.decodePayload ev rounding streamId text.keyOrdered = .ok e := by
  unfold PostgresStore.decodePayload
  simp only [h.valueFromStr_keyOrdered hfloat,mapError_eq_ok]
  exact fromValue_of_survives hfloat h

theorem survives_of_decodePayload {ev : JsonEvent Any F E} {rounding : Rounding F} {text : Text}
    {e : E} (hstrict : ev.RejectsFloats) (hfloat : JsonEvent.FloatFree text)
    (htext : ev.serialize e = .ok text) {streamId : StreamId}
    (h : PostgresStore.decodePayload ev rounding streamId text.keyOrdered = .ok e) :
    ev.SurvivesValue rounding text e := by
  unfold PostgresStore.decodePayload at h
  cases hvalue : valueFromStr rounding text.keyOrdered with
  | none => simp [hvalue] at h
  | some value =>
    have hsame := valueFromStr_eq_some hvalue
    rw [JsonTree.Document.keyOrdered_keyOrdered] at hsame
    simp only [hvalue,mapError_eq_ok,hsame] at h
    exact survives_of_fromValue hstrict hfloat htext h

/-- A float-free event whose text decodes back to it is returned by the memory store; by SQLite
exactly if the texts before it in its stream decode; by the file store if it survives a `Value`;
and by Postgres if in addition the texts before it come back. A type that rejects floats gets
no other event back from the last two. -/
theorem read_returns_appended_iff (ev : JsonEvent Any F E) (rounding : Rounding F)
    {writes : StreamWrites Any Text} {before after : List (StreamWriteEntry Any Text)}
    {entry : StreamWriteEntry Any Text} {e : E} (hsplit : writes.entries = before ++ entry :: after)
    (hentry : IsEntry (ev.event rounding) e entry)
    (htext : ev.fromStr rounding entry.eventData = .ok e)
    (hfloat : JsonEvent.FloatFree entry.eventData) :
    (∀ nowV7 (data data' : MemoryStore.StoreData Any Text Erased),
      MemoryStore.appendEvents nowV7 data writes = (.ok (),data') →
      ReturnedAt (MemoryStore.readStream (ev.event rounding) data' entry.streamId)
        (data.currentVersion entry.streamId+(textsOf before entry.streamId).length) e) ∧
    (∀ nowV7 table table', SqliteStore.appendEvents nowV7 table writes = .ok table' →
      (ReturnedAt (SqliteStore.readStream (ev.event rounding) table' entry.streamId)
          ((storedTexts table entry.streamId).length+(textsOf before entry.streamId).length) e ↔
        SqliteReaches ev rounding table before entry.streamId)) ∧
    (∀ store stamp store',
      FileStore.appendEvents (valueFromStr rounding) store stamp writes = (.ok (),store') →
      let returned := ReturnedAt (FileStore.readStream (ev.form rounding) store' entry.streamId)
        (store.index.streamHead entry.streamId.value+(textsOf before entry.streamId).length) e
      (ev.SurvivesValue rounding entry.eventData e → returned) ∧
      (ev.RejectsFloats → returned → ev.SurvivesValue rounding entry.eventData e)) ∧
    ∀ accepts nowV7 table table',
      PostgresStore.appendEvents accepts nowV7 table writes = .ok table' →
      let returned := ReturnedAt (PostgresStore.readStream ev rounding table' entry.streamId)
        ((storedTexts table entry.streamId).length+(textsOf before entry.streamId).length) e
      let survives := PostgresReaches ev rounding table before entry.streamId ∧
        ev.SurvivesValue rounding entry.eventData e
      (survives → returned) ∧ (ev.RejectsFloats → returned → survives) := by
  have hserialize : ev.serialize e = .ok entry.eventData := hentry.2.2.2
  refine ⟨?_,?_,?_,?_⟩
  · intro nowV7 data data' h
    exact memory_returns hsplit hentry h
  · intro nowV7 table table' h
    exact sqlite_returns_iff hsplit htext h
  · intro store stamp store' h
    simp only [file_returns_iff hsplit h]
    exact ⟨fromValue_of_survives hfloat,
      fun hstrict => survives_of_fromValue hstrict hfloat hserialize⟩
  · intro accepts nowV7 table table' h
    simp only [postgres_returns_iff hsplit h]
    constructor
    · rintro ⟨hearlier,hsurvives⟩
      exact ⟨hearlier,decodePayload_of_survives hfloat hsurvives _⟩
    · rintro hstrict ⟨hearlier,hdecode⟩
      exact ⟨hearlier,survives_of_decodePayload hstrict hfloat hserialize hdecode⟩

section Scenarios
open FileStore.TwoCopies

/-- An amount of money in a `u128` field. -/
def transferred : JsonEvent (Fin (2^128)) ℤ (Fin (2^128)) where
  streamId _ := account1
  eventTypeName := "Transferred"
  typeName := "bank::Transferred"
  box := id
  downcastRef := some
  downcastRef_box _ := rfl
  serialize amount := .ok (.object [("amount",.number (.int amount.val))])
  deserialize
    | .object [(key,.number (.int n))] =>
      if h : key = "amount" ∧ 0 ≤ n ∧ n.toNat < 2^128 then .ok ⟨n.toNat,h.2.2⟩
      else .error "invalid value"
    | _ => .error "invalid type: floating point number, expected u128"

/-- Rounding of powers of two, which are exact in an `f64`. -/
def unrounded : Rounding ℤ where
  nearest
    | .int n => n
    | .float _ => 0
  overflows _ := false
  overflows_int _ _ := rfl

def transfer (amount : Fin (2^128)) : StreamWrites (Fin (2^128)) Text where
  entries :=
    [⟨account1,amount,"Transferred",.object [("amount",.number (.int amount.val))]⟩]
  expectedVersions := AList.insert account1 0 ∅
  declared e he := by
    rw [List.mem_singleton.mp he]
    exact (AList.mem_insert _).mpr (.inl rfl)

theorem transferred_roundTrips (amount : Fin (2^128)) {text : Text}
    (h : transferred.serialize amount = .ok text) :
    transferred.fromStr unrounded text = .ok amount ∧ JsonEvent.FloatFree text := by
  obtain rfl := Except.ok.inj h
  constructor
  · have hfits : "amount" = "amount" ∧ (0 : ℤ) ≤ amount.val ∧ (amount.val : ℤ).toNat < 2^128 :=
      ⟨rfl,Int.natCast_nonneg _,by rw [Int.toNat_natCast]; exact amount.isLt⟩
    have hsame : (⟨(amount.val : ℤ).toNat,hfits.2.2⟩ : Fin (2^128)) = amount :=
      Fin.ext (Int.toNat_natCast _)
    rw [← hsame]
    exact dif_pos hfits
  · intro literal hmem
    exact ⟨amount.val,by simpa [JsonTree.Document.numbers,JsonTree.memberNumbers] using hmem⟩

theorem transferred_survives :
    transferred.SurvivesValue unrounded (.object [("amount",.number (.int 5))]) 5 where
  inRange n hmem := by
    have hn : n = 5 := by
      simpa [JsonTree.Document.keyOrdered,JsonTree.keyOrderedMembers,JsonTree.insertMembers,
        JsonTree.insertMember,JsonTree.Document.numbers,JsonTree.memberNumbers] using hmem
    omega
  orderFree := (transferred_roundTrips 5 rfl).1

theorem transferred_rejectsFloats : transferred.RejectsFloats := by
  intro document e text hdecode _ _ f hmem
  simp only [transferred] at hdecode
  split at hdecode
  · simp [JsonTree.Document.numbers,JsonTree.memberNumbers] at hmem
  · cases hdecode

/-- The smallest amount that is no `u64` is appended, and is lost on the way back from the file
store and from Postgres. -/
theorem large_amount_lost :
    (∀ amount text, transferred.serialize amount = .ok text →
      transferred.fromStr unrounded text = .ok amount ∧ JsonEvent.FloatFree text) ∧
    (∃ store', FileStore.appendEvents (valueFromStr unrounded) (.create 1) (stamp 1)
        (transfer ⟨2^64,by decide⟩) = (.ok (),store') ∧
      ¬ ReturnedAt (FileStore.readStream (transferred.form unrounded) store' account1) 0
        ⟨2^64,by decide⟩) ∧
    ∃ table', PostgresStore.appendEvents (fun _ => true) id [] (transfer ⟨2^64,by decide⟩) =
        .ok table' ∧
      ¬ ReturnedAt (PostgresStore.readStream transferred unrounded table' account1) 0
        ⟨2^64,by decide⟩ := by
  refine ⟨fun amount text h => transferred_roundTrips amount h,⟨_,rfl,?_⟩,⟨_,rfl,?_⟩⟩
  · decide +kernel
  · decide +kernel

/-- A small amount comes back from the file store, whose decoder rejects floats. -/
theorem read_returns_appended_iff_small : ∃ store', FileStore.appendEvents (valueFromStr unrounded)
      (.create 1) (stamp 1) (transfer 5) = (.ok (),store') ∧
    ReturnedAt (FileStore.readStream (transferred.form unrounded) store' account1) 0 5 ∧
    transferred.SurvivesValue unrounded (.object [("amount",.number (.int 5))]) 5 := by
  have htext := transferred_roundTrips 5 rfl
  obtain ⟨_,_,hfile,_⟩ := @read_returns_appended_iff (Fin (2^128)) ℤ (Fin (2^128)) ℕ transferred
    unrounded (transfer 5) [] [] _ 5 rfl ⟨rfl,rfl,rfl,rfl⟩ htext.1 htext.2
  obtain ⟨hreturned,hsurvives⟩ := hfile (.create 1) (stamp 1) _ rfl
  have h := hreturned transferred_survives
  exact ⟨_,rfl,h,hsurvives transferred_rejectsFloats h⟩

end Scenarios

end PayloadFidelity
end EventCore
