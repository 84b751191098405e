import EventCore.MemoryStore
import EventCore.SingleReplica
import EventCore.SqliteAppends
import EventCore.StreamStore

/-! The in-memory store, one SQLite handle and a single-replica file store, each given the same
batches, hold one abstract store of streams. -/
namespace EventCore
namespace BackendRefinement
open FileStore Runs SqliteStore StreamStore StreamVersions

variable {Any Raw Value E : Type}

structure Backends (Any Raw Value E : Type) where
  contents : Contents StreamId E
  memory : MemoryStore.StoreData Any Raw Value
  sqlite : Table Raw
  file : FileEventStore Value

inductive Label (Any Raw : Type)
  | append (writes : StreamWrites Any Raw) (nowV7 : ℕ → Uuid) (stamp : Stamp)
  | reopen

section System

variable [DecidableEq E] (ev : Event Any Raw E) (parse : Raw → Option Value)
  (form : ValueForm Value E)

/-- The payload of an entry, which is what its text and its JSON value decode to. -/
def payload (entry : StreamWriteEntry Any Raw) : Option (StreamId × E) :=
  (ev.downcastRef entry.event).bind fun e =>
    if ev.fromStr entry.eventData = .ok e ∧
        (parse entry.eventData).map form.fromValue = some (.ok e) then
      some (entry.streamId,e)
    else none

def batchOf (writes : StreamWrites Any Raw) : Option (Batch StreamId E) :=
  (writes.entries.mapM (payload ev parse form)).map fun entries =>
    ⟨writes.expectedVersions.entries.map fun p => (p.1,p.2),entries⟩

/-- Batches have an event at least and drawn identifiers are new; the file store may be opened
again at any time. -/
def Backends.step (s : Backends Any Raw Value E) : Label Any Raw → Option (Backends Any Raw Value E)
  | .append writes nowV7 stamp =>
    if writes.entries.isEmpty = false ∧ FreshIds nowV7 s.sqlite 0 writes.entries.length ∧
        stamp.transactionId ∉ s.file.files.map Transaction.id then
      (batchOf ev parse form writes).map fun batch =>
        { contents := append s.contents batch
          memory := (MemoryStore.appendEvents nowV7 s.memory writes).2
          sqlite := ((appendChunked nowV7 s.sqlite writes).toOption).getD s.sqlite
          file := (FileStore.appendEvents parse s.file stamp writes).2 }
    else none
  | .reopen => some { s with file := s.file.reopen }

def system : System (Backends Any Raw Value E) (Label Any Raw) where
  init s := ∃ replicaId, s = ⟨fun _ => [],.new,[],.create replicaId⟩
  step := Backends.step ev parse form

end System

/-- The default of the trait, which skips over a full read. -/
def readStreamAfterDefault (items : List (Except EventStoreError E)) (exclusiveVersion : StreamVersion) :
    List (Except EventStoreError E) := items.drop exclusiveVersion

section Batches

variable [DecidableEq E] {ev : Event Any Raw E} {parse : Raw → Option Value}
  {form : ValueForm Value E}

theorem payload_eq_some {entry : StreamWriteEntry Any Raw} {p : StreamId × E}
    (h : payload ev parse form entry = some p) : entry.streamId = p.1 ∧
      ev.downcastRef entry.event = some p.2 ∧ ev.fromStr entry.eventData = .ok p.2 ∧
      (parse entry.eventData).map form.fromValue = some (.ok p.2) := by
  obtain ⟨e,he,hrest⟩ := Option.bind_eq_some_iff.mp h
  split_ifs at hrest with hdecodes
  obtain rfl := Option.some.inj hrest
  exact ⟨rfl,he,hdecodes⟩

theorem mapM_payload {entries : List (StreamWriteEntry Any Raw)} {ps : List (StreamId × E)}
    (h : entries.mapM (payload ev parse form) = some ps) :
    List.Forall₂ (fun entry p => payload ev parse form entry = some p) entries ps := by
  induction entries generalizing ps with
  | nil =>
    obtain rfl := Option.some.inj h
    exact .nil
  | cons entry entries ih =>
    rw [List.mapM_cons] at h
    obtain ⟨p,hp,hrest⟩ := Option.bind_eq_some_iff.mp h
    obtain ⟨ps',hps',hcons⟩ := Option.bind_eq_some_iff.mp hrest
    obtain rfl := Option.some.inj hcons
    exact .cons hp (ih hps')

theorem map_stream_eq {X : Type} {f : StreamWriteEntry Any Raw → X} {g : E → X}
    (hfg : ∀ entry p, payload ev parse form entry = some p → f entry = g p.2)
    {writes : StreamWrites Any Raw} {batch : Batch StreamId E}
    (h : batchOf ev parse form writes = some batch) (k : StreamId) :
    (writes.entries.filter fun entry => entry.streamId = k).map f = (batch.payloads k).map g := by
  obtain ⟨ps,hps,rfl⟩ := Option.map_eq_some_iff.mp h
  have hall := mapM_payload hps
  unfold Batch.payloads
  clear hps h
  simp only
  generalize writes.entries = entries at hall
  induction hall with
  | nil => rfl
  | @cons entry p entries ps hp _ ih =>
    obtain ⟨hstream,_⟩ := payload_eq_some hp
    by_cases hk : entry.streamId = k
    · have hkp : p.1 = k := hstream ▸ hk
      simp only [List.filter_cons,hk,hkp,decide_true,if_true,List.map_cons,ih,hfg entry p hp]
    · have hkp : ¬ p.1 = k := fun he => hk (hstream.trans he)
      simp only [List.filter_cons,hk,hkp,decide_false,Bool.false_eq_true,if_false,ih]

theorem batchOf_current_iff {writes : StreamWrites Any Raw} {batch : Batch StreamId E}
    (h : batchOf ev parse form writes = some batch) (contents : Contents StreamId E) :
    checkExpectedVersions (fun k => (contents k).length) writes.expectedVersions.entries = .ok () ↔
      batch.Current contents := by
  obtain ⟨ps,_,rfl⟩ := Option.map_eq_some_iff.mp h
  rw [checkExpectedVersions_eq_ok,Batch.Current,List.forall_mem_map]

theorem batchOf_parses {writes : StreamWrites Any Raw} {batch : Batch StreamId E}
    (h : batchOf ev parse form writes = some batch) :
    ∀ entry ∈ writes.entries, parse entry.eventData ≠ none := by
  obtain ⟨ps,hps,rfl⟩ := Option.map_eq_some_iff.mp h
  have hall := mapM_payload hps
  clear hps h
  generalize writes.entries = entries at hall
  induction hall with
  | nil => simp
  | @cons entry p entries ps hp _ ih =>
    refine List.forall_mem_cons.mpr ⟨fun hnone => ?_,ih⟩
    have hvalue := (payload_eq_some hp).2.2.2
    rw [hnone] at hvalue
    cases hvalue

end Batches

section Agreement

variable (ev : Event Any Raw E) (form : ValueForm Value E)

/-- The three stores hold the abstract one, each in its own representation. -/
structure Agrees (s : Backends Any Raw Value E) : Prop where
  memory : ∀ k, (s.memory.streamEvents k).map ev.downcastRef = (s.contents k).map some
  rows : Contiguous s.sqlite
  sqlite : ∀ k, (storedTexts s.sqlite k).map ev.fromStr = (s.contents k).map .ok
  writer : SingleWriter s.file
  file : ∀ k : StreamId, (s.file.index.streamEvents k.value).map
    (fun e => form.fromValue e.eventData) = (s.contents k).map .ok

variable {ev form} {parse : Raw → Option Value} {s : Backends Any Raw Value E}

theorem agrees_init (replicaId : Uuid) :
    Agrees ev form (⟨fun _ => [],.new,[],.create replicaId⟩ : Backends Any Raw Value E) :=
  ⟨fun _ => rfl,contiguous_nil,fun _ => rfl,singleWriter_create replicaId,fun _ => rfl⟩

theorem Agrees.memory_length (h : Agrees ev form s) (k : StreamId) :
    s.memory.currentVersion k = (s.contents k).length := by
  have hlength := congrArg List.length (h.memory k)
  rw [List.length_map,List.length_map] at hlength
  rw [s.memory.currentVersion_eq,hlength]

theorem Agrees.sqlite_length (h : Agrees ev form s) (k : StreamId) :
    (rowsOf s.sqlite k.value).length = (s.contents k).length := by
  have hlength := congrArg List.length (h.sqlite k)
  rwa [List.length_map,List.length_map,storedTexts,orderedRows_eq h.rows,List.length_map] at hlength

theorem Agrees.sqlite_version (h : Agrees ev form s) (k : StreamId) :
    currentVersion s.sqlite k.value = (s.contents k).length := by
  rw [h.rows.currentVersion_eq,h.sqlite_length]

theorem Agrees.file_length (h : Agrees ev form s) (k : StreamId) :
    s.file.index.streamHead k.value = (s.contents k).length := by
  have hlength := congrArg List.length (h.file k)
  rwa [List.length_map,List.length_map] at hlength

def answer (s : Backends Any Raw Value E) (writes : StreamWrites Any Raw) :
    Except EventStoreError Unit :=
  checkExpectedVersions (fun k => (s.contents k).length) writes.expectedVersions.entries

theorem memory_append (h : Agrees ev form s) (nowV7 : ℕ → Uuid) (writes : StreamWrites Any Raw) :
    MemoryStore.appendEvents nowV7 s.memory writes =
      match answer s writes with
      | .error e => (.error e,s.memory)
      | .ok _ => (.ok (),writes.entries.foldl (MemoryStore.writeEntry nowV7) s.memory) := by
  rw [answer,← funext h.memory_length]
  rfl

theorem sqlite_append (h : Agrees ev form s) {nowV7 : ℕ → Uuid} {writes : StreamWrites Any Raw}
    (hne : writes.entries ≠ []) (hfresh : FreshIds nowV7 s.sqlite 0 writes.entries.length) :
    match answer s writes with
    | .error e => appendChunked nowV7 s.sqlite writes = .error e
    | .ok _ => ∃ table, appendChunked nowV7 s.sqlite writes = .ok table ∧ Contiguous table ∧
        ∀ k, storedTexts table k = storedTexts s.sqlite k ++ StreamWrites.textsOf writes.entries k := by
  have hspec := appendChunked_spec h.rows hne hfresh
  rw [funext h.sqlite_version] at hspec
  exact hspec

theorem file_append (h : Agrees ev form s) {stamp : Stamp} {writes : StreamWrites Any Raw}
    (hne : writes.entries ≠ []) (hparses : ∀ entry ∈ writes.entries, parse entry.eventData ≠ none) :
    match answer s writes with
    | .error e => FileStore.appendEvents parse s.file stamp writes = (.error e,s.file)
    | .ok _ => (FileStore.appendEvents parse s.file stamp writes).1 = .ok () := by
  have hcheck : checkExpectedVersions (fun k => s.file.index.streamHead k.value)
      writes.expectedVersions.entries = answer s writes := by rw [answer,funext h.file_length]
  rcases appendEvents_cases parse s.file stamp writes with
    ⟨hnil,_⟩ | ⟨_,e,hprep,hrun⟩ | ⟨_,t,hprep,hrun⟩
  · exact absurd hnil hne
  · rw [prepareAppend,hcheck] at hprep
    cases hanswer : answer s writes with
    | error e' =>
      rw [hanswer] at hprep
      rw [hrun,Except.error.inj hprep]
    | ok u =>
      rw [hanswer] at hprep
      rcases parseEntries_cases parse writes.entries with
        ⟨⟨entry,hmem,hnone⟩,_⟩ | ⟨_,items,hitems,_⟩
      · exact absurd hnone (hparses entry hmem)
      · rw [hitems] at hprep
        cases hprep
  · rw [prepareAppend,hcheck] at hprep
    cases hanswer : answer s writes with
    | error e' =>
      rw [hanswer] at hprep
      cases hprep
    | ok u =>
      simp only [hrun]

theorem file_append_events [DecidableEq E] (h : Agrees ev form s) {stamp : Stamp}
    {writes : StreamWrites Any Raw} {batch : Batch StreamId E}
    (hbatch : batchOf ev parse form writes = some batch)
    (hok : (FileStore.appendEvents parse s.file stamp writes).1 = .ok ()) (k : StreamId) :
    ((FileStore.appendEvents parse s.file stamp writes).2.index.streamEvents k.value).map
      (fun e => form.fromValue e.eventData) = (s.contents k ++ batch.payloads k).map .ok := by
  have hrun : FileStore.appendEvents parse s.file stamp writes =
      (.ok (),(FileStore.appendEvents parse s.file stamp writes).2) := Prod.ext hok rfl
  obtain ⟨values,hvalues,hadded⟩ := appendEvents_values hrun k
  have hdecoded : (StreamWrites.textsOf writes.entries k).map
      (fun text => (parse text).map form.fromValue) = (batch.payloads k).map fun e => some (.ok e) := by
    rw [StreamWrites.textsOf,List.map_map]
    exact map_stream_eq (fun entry p hp => (payload_eq_some hp).2.2.2) hbatch k
  have hnew : values.map form.fromValue = (batch.payloads k).map .ok := by
    apply List.map_injective_iff.mpr (Option.some_injective _)
    have hparsed := congrArg (List.map (Option.map form.fromValue)) hvalues
    rw [List.map_map,List.map_map] at hparsed ⊢
    exact hparsed.symm.trans hdecoded
  have hsplit := congrArg (List.map form.fromValue) hadded
  rw [List.map_append,List.map_map,List.map_map,hnew] at hsplit
  rw [List.map_append,← h.file k]
  exact hsplit

theorem Agrees.reopen (h : Agrees ev form s) :
    Agrees ev form { s with file := s.file.reopen } := by
  refine ⟨h.memory,h.rows,h.sqlite,h.writer.reopen,fun k => ?_⟩
  rw [h.writer.reopen.streams,reopen_files,← h.writer.streams]
  exact h.file k

end Agreement

section Simulation

variable [DecidableEq E] {ev : Event Any Raw E} {parse : Raw → Option Value}
  {form : ValueForm Value E} {s t : Backends Any Raw Value E}

/-- Three equal answers to one batch, which is taken as a whole or not at all. -/
structure Appended (ev : Event Any Raw E) (parse : Raw → Option Value) (form : ValueForm Value E)
    (s t : Backends Any Raw Value E) (writes : StreamWrites Any Raw) (nowV7 : ℕ → Uuid)
    (stamp : Stamp) (batch : Batch StreamId E) : Prop where
  payloads : batchOf ev parse form writes = some batch
  accepted : answer s writes = .ok () ↔ batch.Current s.contents
  memory : (MemoryStore.appendEvents nowV7 s.memory writes).1 = answer s writes
  sqlite : (appendChunked nowV7 s.sqlite writes).map (fun _ => ()) = answer s writes
  file : (FileStore.appendEvents parse s.file stamp writes).1 = answer s writes
  contents : t.contents = append s.contents batch
  unchanged : ¬ batch.Current s.contents → t = s

theorem append_step (h : Agrees ev form s) {writes : StreamWrites Any Raw} {nowV7 : ℕ → Uuid}
    {stamp : Stamp} (hstep : s.step ev parse form (.append writes nowV7 stamp) = some t) :
    Agrees ev form t ∧ ∃ batch, Appended ev parse form s t writes nowV7 stamp batch := by
  rw [Backends.step] at hstep
  split_ifs at hstep with hguard
  obtain ⟨hempty,hfresh,hid⟩ := hguard
  obtain ⟨batch,hbatch,ht⟩ := Option.map_eq_some_iff.mp hstep
  have hne : writes.entries ≠ [] := by
    intro hnil
    rw [hnil] at hempty
    cases hempty
  have hcurrent := batchOf_current_iff hbatch s.contents
  have hmemory := memory_append h nowV7 writes
  have hsqlite := sqlite_append h hne hfresh
  have hfile := @file_append _ _ _ _ _ _ _ _ h stamp writes hne (batchOf_parses hbatch)
  cases hanswer : answer s writes with
  | error e =>
    rw [hanswer] at hmemory hsqlite hfile
    simp only at hmemory hsqlite hfile
    have hnot : ¬ batch.Current s.contents := by
      intro hc
      have hok := hanswer.symm.trans (hcurrent.mpr hc)
      cases hok
    have hsame : t = s := by
      rw [← ht,hmemory,hsqlite,hfile,append_of_not_current hnot]
      rfl
    rw [hsame]
    refine ⟨h,batch,hbatch,hcurrent,?_,?_,?_,(append_of_not_current hnot).symm,fun _ => rfl⟩
    · rw [hmemory,hanswer]
    · rw [hsqlite,hanswer]
      rfl
    · rw [hfile,hanswer]
  | ok u =>
    have hc := hcurrent.mp hanswer
    rw [hanswer] at hmemory hsqlite hfile
    obtain ⟨table,hrun,hrows,htexts⟩ := hsqlite
    simp only at hmemory hfile
    have hcontents := append_of_current hc
    rw [hmemory,hrun,hcontents] at ht
    rw [← ht]
    refine ⟨⟨fun k => ?_,hrows,fun k => ?_,h.writer.appendEvents parse hid,
      file_append_events h hbatch hfile⟩,batch,hbatch,hcurrent,?_,?_,?_,hcontents.symm,
      fun hnot => absurd hc hnot⟩
    · change ((writes.entries.foldl (MemoryStore.writeEntry nowV7) s.memory).streamEvents k).map _ = _
      rw [MemoryStore.streamEvents_foldl_writeEntry,List.map_append,h.memory k,List.map_append,
        MemoryStore.eventsOf,List.map_map]
      congr 1
      exact map_stream_eq (fun entry p hp => (payload_eq_some hp).2.1) hbatch k
    · change (storedTexts table k).map _ = _
      rw [htexts,List.map_append,h.sqlite k,List.map_append,StreamWrites.textsOf,List.map_map]
      congr 1
      exact map_stream_eq (fun entry p hp => (payload_eq_some hp).2.2.1) hbatch k
    · rw [hmemory,hanswer]
    · rw [hrun,hanswer]
      rfl
    · rw [hfile,hanswer]

theorem agrees_of_reachable (h : Reachable (system ev parse form) s) : Agrees ev form s := by
  refine h.invariant ?_ ?_
  · rintro s ⟨replicaId,rfl⟩
    exact agrees_init replicaId
  · intro s l t hs _ hstep
    cases l with
    | append writes nowV7 stamp => exact (append_step hs hstep).1
    | reopen =>
      obtain rfl := Option.some.inj hstep
      exact hs.reopen

end Simulation

section Reads

variable {ev : Event Any Raw E} {form : ValueForm Value E} {s : Backends Any Raw Value E}

def maxVersion : ℕ := 2^63 - 1

/-- Reads of a stream return its list, and after a version the list without that many events; the
versions are 1 to n. -/
structure ReadsBack (ev : Event Any Raw E) (form : ValueForm Value E)
    (s : Backends Any Raw Value E) (k : StreamId) : Prop where
  memory : MemoryStore.readStream ev s.memory k = (s.contents k).map .ok
  sqlite : SqliteStore.readStream ev s.sqlite k = (s.contents k).map .ok
  file : FileStore.readStream form s.file k = (s.contents k).map .ok
  memory_after n : MemoryStore.readStreamAfter ev s.memory k n = ((s.contents k).drop n).map .ok
  sqlite_after n : n ≤ maxVersion →
    SqliteStore.readStreamAfter ev s.sqlite k n = ((s.contents k).drop n).map .ok
  sqlite_beyond n : maxVersion < n →
    SqliteStore.readStreamAfter ev s.sqlite k n = [.error (.storeFailure .readStream)]
  file_after n : FileStore.readStreamAfter form s.file k n = ((s.contents k).drop n).map .ok
  memory_default n : readStreamAfterDefault (MemoryStore.readStream ev s.memory k) n =
    ((s.contents k).drop n).map .ok
  sqlite_default n : readStreamAfterDefault (SqliteStore.readStream ev s.sqlite k) n =
    ((s.contents k).drop n).map .ok
  file_default n : readStreamAfterDefault (FileStore.readStream form s.file k) n =
    ((s.contents k).drop n).map .ok
  memory_versions : s.memory.currentVersion k = (s.contents k).length
  sqlite_versions : (orderedRows s.sqlite k.value).map Row.streamVersion =
    List.range' 1 (s.contents k).length
  file_versions : (envelopesOf s.file.files k.value).map EventEnvelope.streamVersion =
    List.range' 1 (s.contents k).length

theorem readStreamAfterDefault_ok {items : List (Except EventStoreError E)} {events : List E}
    (h : items = events.map .ok) (n : ℕ) :
    readStreamAfterDefault items n = (events.drop n).map .ok := by
  rw [readStreamAfterDefault,h,List.map_drop]

theorem downcast_ok {boxes : List Any} {events : List E}
    (h : boxes.map ev.downcastRef = events.map some) (k : StreamId) :
    boxes.map (MemoryStore.downcast ev k) = events.map .ok := by
  have hok := congrArg (List.map fun found : Option E =>
    found.elim (Except.error (EventStoreError.deserializationFailed k
      ("event could not be downcast to " ++ ev.typeName))) Except.ok) h
  rw [List.map_map,List.map_map] at hok
  refine (List.map_congr_left fun box _ => ?_).trans hok
  cases hfound : ev.downcastRef box <;> simp [MemoryStore.downcast,hfound]

theorem mapError_ok {X ε ε' : Type} {f : ε → ε'} {xs : List X} {decode : X → Except ε E}
    {events : List E} (h : xs.map decode = events.map .ok) :
    xs.map (fun x => (decode x).mapError f) = events.map .ok := by
  have hok := congrArg (List.map (Except.mapError f)) h
  rw [List.map_map,List.map_map] at hok
  exact hok

theorem Agrees.sqlite_decodes (h : Agrees ev form s) (k : StreamId) :
    (orderedRows s.sqlite k.value).map (decodeRow ev k) = (s.contents k).map .ok := by
  have htexts := h.sqlite k
  rw [storedTexts,List.map_map] at htexts
  exact mapError_ok htexts

theorem Agrees.file_decodes (h : Agrees ev form s) (k : StreamId) :
    (s.file.index.streamEvents k.value).map (decodeIndexed form k) = (s.contents k).map .ok :=
  mapError_ok (h.file k)

theorem Agrees.readsBack (h : Agrees ev form s) (k : StreamId) : ReadsBack ev form s k := by
  have hmemory : MemoryStore.readStream ev s.memory k = (s.contents k).map .ok :=
    downcast_ok (h.memory k) k
  have hsqlite : SqliteStore.readStream ev s.sqlite k = (s.contents k).map .ok :=
    decodeUntilError_eq_map (h.sqlite_decodes k)
  have hfile : FileStore.readStream form s.file k = (s.contents k).map .ok := h.file_decodes k
  have henvelopes : (envelopesOf s.file.files k.value).length = (s.contents k).length := by
    rw [← h.file_length k,Index.streamHead,h.writer.streams,List.length_map]
  constructor
  case memory => exact hmemory
  case sqlite => exact hsqlite
  case file => exact hfile
  case memory_after =>
    intro n
    rw [MemoryStore.readStreamAfter,List.map_drop,List.map_drop,← hmemory,MemoryStore.readStream]
  case sqlite_after =>
    intro n hn
    have hbound : n < 2^63 := by
      unfold maxVersion at hn
      omega
    rw [SqliteStore.readStreamAfter,if_pos hbound,filter_orderedRows h.rows]
    refine decodeUntilError_eq_map ?_
    rw [List.map_drop,List.map_drop,h.sqlite_decodes k]
  case sqlite_beyond =>
    intro n hn
    have hbound : ¬ n < 2^63 := by
      unfold maxVersion at hn
      omega
    rw [SqliteStore.readStreamAfter,if_neg hbound]
  case file_after =>
    intro n
    rw [FileStore.readStreamAfter,List.map_drop,List.map_drop,h.file_decodes k]
  case memory_default => exact readStreamAfterDefault_ok hmemory
  case sqlite_default => exact readStreamAfterDefault_ok hsqlite
  case file_default => exact readStreamAfterDefault_ok hfile
  case memory_versions => exact h.memory_length k
  case sqlite_versions => rw [orderedRows_eq h.rows,h.rows k.value,h.sqlite_length k]
  case file_versions => rw [h.writer.versions,henvelopes]

end Reads

section Refinement

variable [DecidableEq E] {ev : Event Any Raw E} {parse : Raw → Option Value}
  {form : ValueForm Value E} {s : Backends Any Raw Value E}

/-- Over every run, the three stores read as one map from streams to lists and answer as it does;
a version that SQLite cannot bind fails its read. -/
theorem backends_refine (h : Reachable (system ev parse form) s) :
    (∀ k, ReadsBack ev form s k) ∧
    (∀ writes nowV7 stamp t, s.step ev parse form (.append writes nowV7 stamp) = some t →
      ∃ batch, Appended ev parse form s t writes nowV7 stamp batch) ∧
    ∀ t, s.step ev parse form .reopen = some t → t.contents = s.contents := by
  have hagrees := agrees_of_reachable h
  refine ⟨hagrees.readsBack,?_,?_⟩
  · intro writes nowV7 stamp t hstep
    exact (append_step hagrees hstep).2
  · intro t hstep
    obtain rfl := Option.some.inj hstep
    rfl

end Refinement

section Scenarios
open FileStore.TwoCopies Sample

def empty : Backends ℕ ℕ ℕ ℕ := ⟨fun _ => [],.new,[],.create 1⟩

theorem empty_reachable : Reachable (system deposited some deposits) empty := .init ⟨1,rfl⟩

/-- After a version that is no signed 64-bit integer, the memory store has no more events and
SQLite fails. -/
theorem sqlite_read_after_fails : ¬ ∀ s : Backends ℕ ℕ ℕ ℕ,
    Reachable (system deposited some deposits) s → ∀ k n,
      SqliteStore.readStreamAfter deposited s.sqlite k n = ((s.contents k).drop n).map .ok := by
  intro h
  have hread := h empty empty_reachable account1 (2^63)
  rw [SqliteStore.readStreamAfter,if_neg (lt_irrefl _)] at hread
  simp [empty] at hread

/-- Two streams are opened, and opened once more by a late command; the file store is restarted
in between. -/
theorem backends_refine_late : ∃ s : Backends ℕ ℕ ℕ ℕ,
    exec (system deposited some deposits) empty
      [.append openBoth id (stamp 1),.reopen,.append openOne (100 + ·) (stamp 2)] = some s ∧
    s.contents account1 = [5] ∧ ReadsBack deposited deposits s account1 := by
  have hrun : (exec (system deposited some deposits) empty
      [.append openBoth id (stamp 1),.reopen,.append openOne (100 + ·) (stamp 2)]).map
        (fun s => s.contents account1) = some [5] := by decide +kernel
  obtain ⟨s,hs,hcontents⟩ := Option.map_eq_some_iff.mp hrun
  have hreachable := empty_reachable.exec hs
  exact ⟨s,hs,hcontents,(backends_refine hreachable).1 account1⟩

end Scenarios

end BackendRefinement
end EventCore
