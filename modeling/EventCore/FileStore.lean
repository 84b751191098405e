import EventCore.FileMerge

/-! The file store: one immutable file per transaction, the read model over all files, and
reconciliation by merge transactions. -/
namespace EventCore
namespace FileStore

variable {Any Raw Value E : Type}

/-- `serde_json::to_value` and `from_value` of an event type. -/
structure ValueForm (Value E : Type) where
  streamId : E → StreamId
  eventTypeName : String
  toValue : E → Except String Value
  fromValue : Value → Except String E

/-- What the environment supplies to one transaction: fresh identifiers and the clock. -/
structure Stamp where
  transactionId : Uuid
  createdAt : String
  eventId : ℕ → Uuid

/-- An open store: its `events/` directory, its ingestion log and its read model. -/
structure FileEventStore (Value : Type) where
  replicaId : Uuid
  files : List (Transaction Value)
  ingestionLog : List (Uuid × ℕ)
  index : Index Value
  deriving DecidableEq

/-- Add a written transaction to the read model, which then has the given tips. -/
def Index.ingestTransaction (index : Index Value) (t : Transaction Value)
    (tips : Headers → List Uuid) : Index Value × List (Uuid × ℕ) :=
  let headers := index.headers.insert t.id t.header
  let (index,entries) := { index with headers := headers }.ingestAll
    (t.events.map EventEnvelope.indexed)
  ({ index with tips := tips headers },entries)

namespace FileEventStore

/-- Rebuild the read model from the files, as every open does. -/
def reopen (store : FileEventStore Value) : FileEventStore Value :=
  let (index,ingestionLog) := scanIndex store.files store.ingestionLog
  { store with index := index, ingestionLog := ingestionLog }

def create (replicaId : Uuid) : FileEventStore Value :=
  reopen ⟨replicaId,[],[],⟨∅,[],∅,[],⟨∅,0⟩⟩⟩

/-- Rename the file into place, then bring the read model up to date. -/
def commit (store : FileEventStore Value) (t : Transaction Value) (tips : Headers → List Uuid) :
    FileEventStore Value :=
  let (index,entries) := store.index.ingestTransaction t tips
  { store with
    files := store.files ++ [t]
    ingestionLog := store.ingestionLog ++ entries
    index := index }

def detectForks (store : FileEventStore Value) : Except FsEventStoreError (List Fork) :=
  detectForksIn store.index.headers

end FileEventStore

structure StoreStatus where
  forks : List Fork
  dangling : List DanglingTransaction
  deriving DecidableEq

def FileEventStore.status (store : FileEventStore Value) : Except FsEventStoreError StoreStatus :=
  (detectForksIn store.index.headers).map (⟨·,detectDanglingIn store.index.headers⟩)

section Append

/-- The bases a transaction records: every registered stream, written to or only read. -/
def streamBasesOf (expected : HashMap StreamId StreamVersion) : HashMap String ℕ :=
  expected.entries.foldl (fun bases p => bases.insert p.1.value p.2) ∅

def parseEntries (parse : Raw → Option Value) (entries : List (StreamWriteEntry Any Raw)) :
    Except EventStoreError (List (String × String × Value)) :=
  entries.mapM fun entry =>
    match parse entry.eventData with
    | none => .error (.storeFailure .appendEvents)
    | some eventData => .ok (entry.streamId.value,entry.eventType,eventData)

/-- Validate against the read model and assemble the transaction, with every tip as parent. -/
def prepareAppend (parse : Raw → Option Value) (replicaId : Uuid) (index : Index Value)
    (stamp : Stamp) (writes : StreamWrites Any Raw) : Except EventStoreError (Transaction Value) :=
  match checkExpectedVersions (fun s => index.streamHead s.value) writes.expectedVersions.entries with
  | .error e => .error e
  | .ok _ =>
    match parseEntries parse writes.entries with
    | .error e => .error e
    | .ok items => .ok
        { header :=
            { transactionId := stamp.transactionId
              replicaId := replicaId
              parentTransactionIds := index.tips
              createdAt := stamp.createdAt
              streamBases := streamBasesOf writes.expectedVersions }
          events := buildEnvelopes index stamp.eventId items }

def appendEvents (parse : Raw → Option Value) (store : FileEventStore Value) (stamp : Stamp)
    (writes : StreamWrites Any Raw) : Except EventStoreError Unit × FileEventStore Value :=
  match writes.entries with
  | [] => (.ok (),store)
  | _ :: _ =>
    match prepareAppend parse store.replicaId store.index stamp writes with
    | .error e => (.error e,store)
    | .ok t => (.ok (),store.commit t fun _ => [t.id])

end Append

section Read

variable (form : ValueForm Value E)

def decodeIndexed (streamId : StreamId) (indexed : IndexedEvent Value) : Except EventStoreError E :=
  (form.fromValue indexed.eventData).mapError (.deserializationFailed streamId)

def readStream (store : FileEventStore Value) (streamId : StreamId) :
    List (Except EventStoreError E) :=
  (store.index.streamEvents streamId.value).map (decodeIndexed form streamId)

def readStreamAfter (store : FileEventStore Value) (streamId : StreamId)
    (exclusiveVersion : StreamVersion) : List (Except EventStoreError E) :=
  ((store.index.streamEvents streamId.value).drop exclusiveVersion).map
    (decodeIndexed form streamId)

end Read

section Reconcile

/-- The events one transaction contributed to the forked stream. -/
structure BranchView (E : Type) where
  transactionId : Uuid
  events : List E

structure ForkContext (E : Type) where
  streamId : StreamId
  baseVersion : StreamVersion
  branches : List (BranchView E)

inductive ResolutionOutcome (E : Type)
  | resolve (events : List E)
  | unresolvable (reason : String)

structure ReconcileReport where
  resolved : ℕ
  unresolved : List StreamId
  deriving DecidableEq

variable (form : ValueForm Value E)

def parseTransaction (store : FileEventStore Value) (transactionId : Uuid) :
    Except FsEventStoreError (Transaction Value) :=
  match store.files.find? fun t => t.id = transactionId with
  | none => .error (.corrupted (.eventFile transactionId) .readFailed)
  | some t => .ok t

def buildBranch (store : FileEventStore Value) (streamId : StreamId) (transactionId : Uuid) :
    Except FsEventStoreError (BranchView E) :=
  match parseTransaction store transactionId with
  | .error e => .error e
  | .ok t =>
    ((t.events.filter fun e => e.streamId = streamId.value).mapM fun e =>
      (form.fromValue e.eventData).mapError fun error =>
        FsEventStoreError.corrupted (.eventFile transactionId) (.branchEventMismatch error)).map
      fun events => ⟨transactionId,events⟩

def buildForkContext (store : FileEventStore Value) (fork : Fork) :
    Except FsEventStoreError (ForkContext E) :=
  (fork.transactions.mapM (buildBranch form store fork.streamId)).map fun branches =>
    ⟨fork.streamId,fork.baseVersion,branches⟩

def mergeItems (events : List E) : Except FsEventStoreError (List (String × String × Value)) :=
  events.mapM fun event =>
    match form.toValue event with
    | .error error => .error (.corrupted .root (.resolutionEventFailed error))
    | .ok eventData => .ok ((form.streamId event).value,form.eventTypeName,eventData)

/-- The bases a merge records: the current head of every stream it writes to. -/
def mergeBases (index : Index Value) (items : List (String × String × Value)) : HashMap String ℕ :=
  items.foldl (fun bases item =>
    if item.1 ∈ bases then bases else bases.insert item.1 (index.streamHead item.1)) ∅

/-- The merge transaction of a fork has the fork's transactions as parents. -/
def mergeTransaction (store : FileEventStore Value) (stamp : Stamp) (fork : Fork)
    (items : List (String × String × Value)) : Transaction Value where
  header :=
    { transactionId := stamp.transactionId
      replicaId := store.replicaId
      parentTransactionIds := fork.transactions
      createdAt := stamp.createdAt
      streamBases := mergeBases store.index items }
  events := buildEnvelopes store.index stamp.eventId items

def writeMergeTransaction (store : FileEventStore Value) (stamp : Stamp) (fork : Fork)
    (events : List E) : Except FsEventStoreError (FileEventStore Value) :=
  match mergeItems form events with
  | .error e => .error e
  | .ok items => .ok (store.commit (mergeTransaction store stamp fork items) computeTips)

/-- The forks were detected once; the merges of earlier forks do not change the list. -/
def reconcileForks (resolver : ForkContext E → ResolutionOutcome E) (stamp : ℕ → Stamp) :
    List Fork → FileEventStore Value → ReconcileReport →
      Except FsEventStoreError ReconcileReport × FileEventStore Value
  | [], store, report => (.ok report,store)
  | fork :: forks, store, report =>
    match buildForkContext form store fork with
    | .error e => (.error e,store)
    | .ok context =>
      match resolver context with
      | .unresolvable _ => reconcileForks resolver stamp forks store
          { report with unresolved := report.unresolved ++ [fork.streamId] }
      | .resolve events =>
        match writeMergeTransaction form store (stamp report.resolved) fork events with
        | .error e => (.error e,store)
        | .ok store => reconcileForks resolver stamp forks store
            { report with resolved := report.resolved+1 }

def reconcile (resolver : ForkContext E → ResolutionOutcome E) (stamp : ℕ → Stamp)
    (store : FileEventStore Value) :
    Except FsEventStoreError ReconcileReport × FileEventStore Value :=
  match store.detectForks with
  | .error e => (.error e,store)
  | .ok forks => reconcileForks form resolver stamp forks store ⟨0,[]⟩

end Reconcile

section Lemmas

@[simp] theorem commit_files (store : FileEventStore Value) (t : Transaction Value)
    (tips : Headers → List Uuid) : (store.commit t tips).files = store.files ++ [t] := rfl

@[simp] theorem commit_replicaId (store : FileEventStore Value) (t : Transaction Value)
    (tips : Headers → List Uuid) : (store.commit t tips).replicaId = store.replicaId := rfl

@[simp] theorem commit_headers (store : FileEventStore Value) (t : Transaction Value)
    (tips : Headers → List Uuid) :
    (store.commit t tips).index.headers = store.index.headers.insert t.id t.header :=
  ingestAll_headers _ _

@[simp] theorem commit_tips (store : FileEventStore Value) (t : Transaction Value)
    (tips : Headers → List Uuid) :
    (store.commit t tips).index.tips = tips (store.index.headers.insert t.id t.header) := rfl

@[simp] theorem commit_streamEvents (store : FileEventStore Value) (t : Transaction Value)
    (tips : Headers → List Uuid) (s : String) :
    (store.commit t tips).index.streamEvents s = store.index.streamEvents s ++
      (t.events.map EventEnvelope.indexed).filter fun e => e.streamId = s :=
  ingestAll_streamEvents _ _ s

@[simp] theorem reopen_files (store : FileEventStore Value) : store.reopen.files = store.files := rfl

@[simp] theorem reopen_replicaId (store : FileEventStore Value) :
    store.reopen.replicaId = store.replicaId := rfl

@[simp] theorem reopen_headers (store : FileEventStore Value) :
    store.reopen.index.headers = headersOf store.files := rfl

@[simp] theorem reopen_tips (store : FileEventStore Value) :
    store.reopen.index.tips = computeTips (headersOf store.files) := rfl

theorem streamBasesOf_get? (expected : HashMap StreamId StreamVersion) {stream : String} {base : ℕ} :
    (streamBasesOf expected).get? stream = some base ↔
      ∃ s : StreamId, s.value = stream ∧ expected.get? s = some base := by
  have hgen : ∀ (entries : List (Sigma fun _ : StreamId => StreamVersion)) (m : HashMap String ℕ),
      entries.NodupKeys →
      ((entries.foldl (fun bases p => bases.insert p.1.value p.2) m).get? stream = some base ↔
        (∃ p ∈ entries, p.1.value = stream ∧ p.2 = base) ∨
        ((∀ p ∈ entries, p.1.value ≠ stream) ∧ m.get? stream = some base)) := by
    intro entries
    induction entries with
    | nil => simp
    | cons p entries ih =>
      intro m hnodup
      rw [List.nodupKeys_cons] at hnodup
      rw [List.foldl_cons,ih _ hnodup.2,HashMap.get?_insert]
      have hfresh : ∀ q ∈ entries, q.1.value ≠ p.1.value := fun q hq he =>
        hnodup.1 (StreamId.value_injective he ▸ List.mem_keys_of_mem hq)
      by_cases hs : stream = p.1.value
      · subst hs
        have hnone : ¬ ∃ q ∈ entries, q.1.value = p.1.value ∧ q.2 = base := by
          rintro ⟨q,hq,he,_⟩
          exact hfresh q hq he
        simp only [hnone,false_or,if_true,Option.some.injEq,List.mem_cons,exists_eq_or_imp,true_and,
          or_false,forall_eq_or_imp,ne_eq,not_true_eq_false,false_and]
        exact ⟨fun h => h.2,fun h => ⟨hfresh,h⟩⟩
      · simp [hs,Ne.symm hs]
  rw [streamBasesOf,hgen _ _ expected.nodupKeys]
  simp only [HashMap.get?_empty,reduceCtorEq,and_false,or_false]
  constructor
  · rintro ⟨⟨s,v⟩,hp,rfl,rfl⟩
    exact ⟨s,rfl,HashMap.mem_entries_iff.mp hp⟩
  · rintro ⟨s,rfl,hs⟩
    exact ⟨⟨s,base⟩,HashMap.mem_entries_iff.mpr hs,rfl,rfl⟩

theorem mergeBases_get? (index : Index Value) (items : List (String × String × Value))
    {stream : String} {base : ℕ} :
    (mergeBases index items).get? stream = some base ↔
      stream ∈ items.map Prod.fst ∧ base = index.streamHead stream := by
  have hgen : ∀ (items : List (String × String × Value)) (m : HashMap String ℕ),
      (∀ s b, m.get? s = some b → b = index.streamHead s) →
      ((items.foldl (fun bases item =>
        if item.1 ∈ bases then bases else bases.insert item.1 (index.streamHead item.1)) m).get?
          stream = some base ↔
        (stream ∈ items.map Prod.fst ∨ stream ∈ m) ∧ base = index.streamHead stream) := by
    intro items
    induction items with
    | nil =>
      intro m hm
      rw [List.foldl_nil,← HashMap.get?_isSome_iff]
      cases hget : m.get? stream with
      | none => simp
      | some b => simpa [hm _ _ hget] using eq_comm
    | cons item items ih =>
      intro m hm
      rw [List.foldl_cons]
      split_ifs with hmem
      · rw [ih m hm,List.map_cons,List.mem_cons]
        refine and_congr_left fun _ => ?_
        constructor
        · tauto
        · rintro ((rfl | h) | h)
          · exact .inr hmem
          · exact .inl h
          · exact .inr h
      · rw [ih,List.map_cons,List.mem_cons,AList.mem_insert]
        · refine and_congr_left fun _ => ?_
          tauto
        · intro s b hs
          rw [HashMap.get?_insert] at hs
          split_ifs at hs with he
          · rw [he,← Option.some.inj hs]
          · exact hm s b hs
  rw [mergeBases,hgen items ∅ (by simp)]
  simp

theorem parseEntries_cases (parse : Raw → Option Value) (entries : List (StreamWriteEntry Any Raw)) :
    ((∃ entry ∈ entries, parse entry.eventData = none) ∧
      ∃ e, parseEntries parse entries = .error e) ∨
    ((∀ entry ∈ entries, parse entry.eventData ≠ none) ∧
      ∃ items, parseEntries parse entries = .ok items ∧
        items.map Prod.fst = entries.map fun entry => entry.streamId.value) := by
  induction entries with
  | nil => exact .inr ⟨by simp,[],rfl,rfl⟩
  | cons entry entries ih =>
    simp only [parseEntries,List.mapM_cons,List.exists_mem_cons_iff,List.forall_mem_cons]
    cases hparse : parse entry.eventData with
    | none => exact .inl ⟨.inl rfl,_,rfl⟩
    | some eventData =>
      rcases ih with ⟨hbad,e,he⟩ | ⟨hgood,items,hitems,hkeys⟩
      · refine .inl ⟨.inr hbad,e,?_⟩
        simp only [bind,Except.bind,show entries.mapM _ = _ from he]
      · refine .inr ⟨⟨by simp,hgood⟩,(entry.streamId.value,entry.eventType,eventData) :: items,?_,?_⟩
        · simp only [bind,Except.bind,show entries.mapM _ = _ from hitems,pure,Except.pure]
        · simp [hkeys]

theorem readStream_eq (form : ValueForm Value E) (store : FileEventStore Value)
    (streamId : StreamId) : readStream form store streamId =
      ((store.index.streamEvents streamId.value).map IndexedEvent.eventData).map fun value =>
        (form.fromValue value).mapError (.deserializationFailed streamId) := by
  rw [List.map_map]
  rfl

def IsParsed (parse : Raw → Option Value) (entry : StreamWriteEntry Any Raw)
    (item : String × String × Value) : Prop :=
  item.1 = entry.streamId.value ∧ item.2.1 = entry.eventType ∧
  parse entry.eventData = some item.2.2

theorem parseEntries_eq_ok {parse : Raw → Option Value} {entries : List (StreamWriteEntry Any Raw)}
    {items : List (String × String × Value)} (h : parseEntries parse entries = .ok items) :
    List.Forall₂ (IsParsed parse) entries items := by
  induction entries generalizing items with
  | nil =>
    obtain rfl := Except.ok.inj h
    exact .nil
  | cons entry entries ih =>
    simp only [parseEntries,List.mapM_cons] at h
    cases hparse : parse entry.eventData with
    | none => simp [hparse,bind,Except.bind] at h
    | some value =>
      cases hrest : parseEntries parse entries with
      | error e => simp [hparse,bind,Except.bind,show entries.mapM _ = _ from hrest] at h
      | ok rest =>
        simp only [hparse,bind,Except.bind,show entries.mapM _ = _ from hrest,pure,Except.pure,
          Except.ok.injEq] at h
        exact h ▸ .cons ⟨rfl,rfl,hparse⟩ (ih hrest)

theorem buildEnvelopes_items (index : Index Value) (eventId : ℕ → Uuid)
    (items : List (String × String × Value)) : (buildEnvelopes index eventId items).map
      (fun e => (e.streamId,e.eventType,e.eventData)) = items := by
  have hgen : ∀ (items : List (String × String × Value)) (added : HashMap String ℕ) (drawn : ℕ),
      (buildEnvelopes.go index eventId added drawn items).map
        (fun e => (e.streamId,e.eventType,e.eventData)) = items := by
    intro items
    induction items with
    | nil => exact fun _ _ => rfl
    | cons item items ih =>
      intro added drawn
      obtain ⟨key,eventType,eventData⟩ := item
      rw [buildEnvelopes.go,List.map_cons,ih]
  exact hgen items ∅ 0

theorem values_of_isParsed {parse : Raw → Option Value} {entries : List (StreamWriteEntry Any Raw)}
    {items : List (String × String × Value)} (h : List.Forall₂ (IsParsed parse) entries items)
    (streamId : StreamId) : (StreamWrites.textsOf entries streamId).map parse =
      ((items.filter fun item => item.1 = streamId.value).map fun item => item.2.2).map some := by
  induction h with
  | nil => rfl
  | @cons entry item entries items hhead _ ih =>
    obtain ⟨hstream,_,hparse⟩ := hhead
    by_cases hs : entry.streamId = streamId
    · subst hs
      simpa [StreamWrites.textsOf,hstream,hparse] using ih
    · have hvalue : ¬ item.1 = streamId.value := by
        rw [hstream]
        exact fun he => hs (StreamId.value_injective he)
      simpa [StreamWrites.textsOf,hs,hvalue] using ih

/-- A registered version is not the current one, or some text is not a JSON value. -/
def Rejected (parse : Raw → Option Value) (index : Index Value) (writes : StreamWrites Any Raw) :
    Prop :=
  (∃ s v, writes.expectedVersions.get? s = some v ∧ index.streamHead s.value ≠ v) ∨
  ∃ entry ∈ writes.entries, parse entry.eventData = none

theorem prepareAppend_cases (parse : Raw → Option Value) (replicaId : Uuid) (index : Index Value)
    (stamp : Stamp) (writes : StreamWrites Any Raw) :
    (Rejected parse index writes ∧ ∃ e, prepareAppend parse replicaId index stamp writes = .error e) ∨
    (¬ Rejected parse index writes ∧
      ∃ t, prepareAppend parse replicaId index stamp writes = .ok t) := by
  unfold prepareAppend
  cases hcheck : checkExpectedVersions (fun s => index.streamHead s.value)
      writes.expectedVersions.entries with
  | error e =>
    obtain ⟨p,hp,hne,_⟩ := checkExpectedVersions_eq_error hcheck
    exact .inl ⟨.inl ⟨p.1,p.2,HashMap.mem_entries_iff.mp hp,hne⟩,e,rfl⟩
  | ok u =>
    rcases parseEntries_cases parse writes.entries with ⟨hbad,e,he⟩ | ⟨hgood,items,hitems,_⟩
    · exact .inl ⟨.inr hbad,e,by rw [he]⟩
    · refine .inr ⟨?_,_,by rw [hitems]⟩
      rintro (⟨s,v,hv,hne⟩ | ⟨entry,hentry,hnone⟩)
      · exact hne (checkExpectedVersions_eq_ok.mp hcheck ⟨s,v⟩ (HashMap.mem_entries_iff.mpr hv))
      · exact hgood entry hentry hnone

theorem rejected_of_error {parse : Raw → Option Value} {replicaId : Uuid} {index : Index Value}
    {stamp : Stamp} {writes : StreamWrites Any Raw} {e : EventStoreError}
    (h : prepareAppend parse replicaId index stamp writes = .error e) :
    Rejected parse index writes := by
  rcases prepareAppend_cases parse replicaId index stamp writes with ⟨hrejected,_⟩ | ⟨_,t,ht⟩
  · exact hrejected
  · rw [h] at ht
    cases ht

theorem not_rejected_of_ok {parse : Raw → Option Value} {replicaId : Uuid} {index : Index Value}
    {stamp : Stamp} {writes : StreamWrites Any Raw} {t : Transaction Value}
    (h : prepareAppend parse replicaId index stamp writes = .ok t) :
    ¬ Rejected parse index writes := by
  rcases prepareAppend_cases parse replicaId index stamp writes with ⟨_,e,he⟩ | ⟨hkept,_⟩
  · rw [h] at he
    cases he
  · exact hkept

/-- What an append can do: nothing for an empty batch, an error that leaves the store as it
was, or the commit of one transaction on top of every tip. -/
theorem appendEvents_cases (parse : Raw → Option Value) (store : FileEventStore Value)
    (stamp : Stamp) (writes : StreamWrites Any Raw) :
    (writes.entries = [] ∧ appendEvents parse store stamp writes = (.ok (),store)) ∨
    (writes.entries ≠ [] ∧ ∃ e, prepareAppend parse store.replicaId store.index stamp writes =
      .error e ∧ appendEvents parse store stamp writes = (.error e,store)) ∨
    (writes.entries ≠ [] ∧ ∃ t, prepareAppend parse store.replicaId store.index stamp writes =
      .ok t ∧ appendEvents parse store stamp writes = (.ok (),store.commit t fun _ => [t.id])) := by
  unfold appendEvents
  cases hents : writes.entries with
  | nil => exact .inl ⟨rfl,rfl⟩
  | cons entry entries =>
    cases hprep : prepareAppend parse store.replicaId store.index stamp writes with
    | error e => exact .inr (.inl ⟨by simp,e,rfl,by simp⟩)
    | ok t => exact .inr (.inr ⟨by simp,t,rfl,by simp⟩)

theorem appendEvents_store (parse : Raw → Option Value) (store : FileEventStore Value)
    (stamp : Stamp) (writes : StreamWrites Any Raw) :
    (appendEvents parse store stamp writes).2 = store ∨
    ∃ t, prepareAppend parse store.replicaId store.index stamp writes = .ok t ∧
      (appendEvents parse store stamp writes).2 = store.commit t fun _ => [t.id] := by
  rcases appendEvents_cases parse store stamp writes with
    ⟨_,hrun⟩ | ⟨_,_,_,hrun⟩ | ⟨_,t,hprep,hrun⟩
  · exact .inl (congrArg Prod.snd hrun)
  · exact .inl (congrArg Prod.snd hrun)
  · exact .inr ⟨t,hprep,congrArg Prod.snd hrun⟩

theorem prepareAppend_built {parse : Raw → Option Value} {replicaId : Uuid} {index : Index Value}
    {stamp : Stamp} {writes : StreamWrites Any Raw} {t : Transaction Value}
    (h : prepareAppend parse replicaId index stamp writes = .ok t) :
    ∃ items, checkExpectedVersions (fun s => index.streamHead s.value)
        writes.expectedVersions.entries = .ok () ∧
      parseEntries parse writes.entries = .ok items ∧
      t = ⟨⟨stamp.transactionId,replicaId,index.tips,stamp.createdAt,
        streamBasesOf writes.expectedVersions⟩,buildEnvelopes index stamp.eventId items⟩ := by
  unfold prepareAppend at h
  cases hcheck : checkExpectedVersions (fun s => index.streamHead s.value)
      writes.expectedVersions.entries with
  | error e => simp [hcheck] at h
  | ok u =>
    cases hitems : parseEntries parse writes.entries with
    | error e => simp [hcheck,hitems] at h
    | ok items =>
      simp only [hcheck,hitems,Except.ok.injEq] at h
      exact ⟨items,rfl,rfl,h.symm⟩

theorem prepareAppend_eq_ok {parse : Raw → Option Value} {replicaId : Uuid} {index : Index Value}
    {stamp : Stamp} {writes : StreamWrites Any Raw} {t : Transaction Value}
    (h : prepareAppend parse replicaId index stamp writes = .ok t) :
    t.id = stamp.transactionId ∧ t.header.replicaId = replicaId ∧
    t.header.parentTransactionIds = index.tips ∧
    t.header.streamBases = streamBasesOf writes.expectedVersions ∧
    ∀ s v, writes.expectedVersions.get? s = some v → index.streamHead s.value = v := by
  obtain ⟨_,hcheck,_,rfl⟩ := prepareAppend_built h
  exact ⟨rfl,rfl,rfl,rfl,fun s v hv =>
    checkExpectedVersions_eq_ok.mp hcheck ⟨s,v⟩ (HashMap.mem_entries_iff.mpr hv)⟩

theorem prepareAppend_bases {parse : Raw → Option Value} {replicaId : Uuid} {index : Index Value}
    {stamp : Stamp} {writes : StreamWrites Any Raw} {t : Transaction Value}
    (h : prepareAppend parse replicaId index stamp writes = .ok t) {stream : String} {base : ℕ} :
    t.header.streamBases.get? stream = some base ↔
      ∃ s : StreamId, s.value = stream ∧ writes.expectedVersions.get? s = some base := by
  rw [(prepareAppend_eq_ok h).2.2.2.1,streamBasesOf_get?]

theorem prepareAppend_valid {parse : Raw → Option Value} {replicaId : Uuid} {index : Index Value}
    {stamp : Stamp} {writes : StreamWrites Any Raw} {t : Transaction Value}
    (h : prepareAppend parse replicaId index stamp writes = .ok t) {stream : String} {base : ℕ}
    (hbase : t.header.streamBases.get? stream = some base) :
    ∃ streamId : StreamId, streamId.value = stream := by
  obtain ⟨s,hs,_⟩ := (prepareAppend_bases h).mp hbase
  exact ⟨s,hs⟩

theorem prepareAppend_events {parse : Raw → Option Value} {replicaId : Uuid} {index : Index Value}
    {stamp : Stamp} {writes : StreamWrites Any Raw} {t : Transaction Value}
    (h : prepareAppend parse replicaId index stamp writes = .ok t) :
    ∃ items, parseEntries parse writes.entries = .ok items ∧
      t.events = buildEnvelopes index stamp.eventId items := by
  obtain ⟨items,_,hitems,rfl⟩ := prepareAppend_built h
  exact ⟨items,hitems,rfl⟩

theorem appendEvents_values {parse : Raw → Option Value} {store store' : FileEventStore Value}
    {stamp : Stamp} {writes : StreamWrites Any Raw}
    (h : appendEvents parse store stamp writes = (.ok (),store')) (streamId : StreamId) :
    ∃ values, (StreamWrites.textsOf writes.entries streamId).map parse = values.map some ∧
      (store'.index.streamEvents streamId.value).map IndexedEvent.eventData =
        (store.index.streamEvents streamId.value).map IndexedEvent.eventData ++ values := by
  rcases appendEvents_cases parse store stamp writes with
    ⟨hnil,hrun⟩ | ⟨_,e,_,hrun⟩ | ⟨_,t,hprep,hrun⟩
  · obtain rfl := congrArg Prod.snd (hrun.symm.trans h)
    exact ⟨[],by simp [StreamWrites.textsOf,hnil],by simp⟩
  · have he := congrArg Prod.fst (hrun.symm.trans h)
    cases he
  · obtain rfl := congrArg Prod.snd (hrun.symm.trans h)
    obtain ⟨items,hparse,hevents⟩ := prepareAppend_events hprep
    refine ⟨_,values_of_isParsed (parseEntries_eq_ok hparse) streamId,?_⟩
    have hitems := buildEnvelopes_items store.index stamp.eventId items
    rw [commit_streamEvents,List.map_append,hevents,List.filter_map,List.map_map]
    congr 1
    rw [← hitems,List.filter_map,List.map_map]
    simp only [hitems]
    rfl

theorem writeMerge_eq_ok {form : ValueForm Value E} {store store' : FileEventStore Value}
    {stamp : Stamp} {fork : Fork} {events : List E}
    (h : writeMergeTransaction form store stamp fork events = .ok store') :
    ∃ items, mergeItems form events = .ok items ∧
      store' = store.commit (mergeTransaction store stamp fork items) computeTips := by
  unfold writeMergeTransaction at h
  cases hitems : mergeItems form events with
  | error e => simp [hitems] at h
  | ok items =>
    simp only [hitems,Except.ok.injEq] at h
    exact ⟨items,rfl,h.symm⟩

/-- What the commits of merges preserve, each on top of one of the forks and under the next stamp, a
pass over the forks preserves. -/
theorem reconcileForks_induct {P : FileEventStore Value → Prop} {form : ValueForm Value E}
    {resolver : ForkContext E → ResolutionOutcome E} {stamp : ℕ → Stamp} {forks : List Fork}
    {store : FileEventStore Value} {report : ReconcileReport}
    (hcommit : ∀ store, ∀ fork ∈ forks, ∀ k ∈ List.range' report.resolved forks.length, ∀ items,
      P store → P (store.commit (mergeTransaction store (stamp k) fork items) computeTips))
    (h : P store) : P (reconcileForks form resolver stamp forks store report).2 := by
  induction forks generalizing store report with
  | nil => exact h
  | cons fork forks ih =>
    simp only [reconcileForks]
    cases buildForkContext form store fork with
    | error e => exact h
    | ok context =>
      cases hres : resolver context with
      | unresolvable reason =>
        simp only [hres]
        refine ih (fun store f hf k hk => hcommit store f (List.mem_cons_of_mem _ hf) k ?_) h
        rw [List.length_cons,List.range'_concat]
        exact List.mem_append_left _ hk
      | resolve events =>
        cases hrun : writeMergeTransaction form store (stamp report.resolved) fork events with
        | error e => simpa only [hres,hrun] using h
        | ok store' =>
          obtain ⟨items,_,rfl⟩ := writeMerge_eq_ok hrun
          simp only [hres,hrun]
          rw [List.length_cons,List.range'_succ] at hcommit
          refine ih (fun store f hf k hk =>
            hcommit store f (List.mem_cons_of_mem _ hf) k (List.mem_cons_of_mem _ hk)) ?_
          exact hcommit store fork List.mem_cons_self _ List.mem_cons_self items h

theorem reconcile_induct {P : FileEventStore Value → Prop}
    (hcommit : ∀ store t, P store → P (store.commit t computeTips)) (form : ValueForm Value E)
    (resolver : ForkContext E → ResolutionOutcome E) (stamp : ℕ → Stamp)
    {store : FileEventStore Value} (h : P store) : P (reconcile form resolver stamp store).2 := by
  unfold reconcile
  cases store.detectForks with
  | error e => exact h
  | ok forks => exact reconcileForks_induct (fun store _ _ _ _ _ => hcommit store _) h

end Lemmas

end FileStore
end EventCore
