import EventCore.LocalIngestion

/-! What a projection is given that reads a file store from the start again. Readers go along the
local ingestion order, which puts what a merge brought behind all that was there. -/
namespace EventCore
namespace RebuildOrder
open EventReader FileStore LocalIngestion PagedScan Runs

variable {Any Raw Value E R : Type}

theorem append_filter_eq_iff {α : Type} {known l : List α} (p : α → Bool) (hnodup : l.Nodup)
    (hknown : ∀ a ∈ known, p a = false) (hmem : ∀ a ∈ l, p a = false → a ∈ known) :
    known ++ l.filter p = l ↔ known <+: l := by
  constructor
  · exact fun h => ⟨_,h⟩
  · rintro ⟨rest,rfl⟩
    have hapart := (List.nodup_append.mp hnodup).2.2
    have hnone : known.filter p = [] :=
      List.filter_eq_nil_iff.mpr fun a ha => by simp [hknown a ha]
    have hall : rest.filter p = rest := by
      refine List.filter_eq_self.mpr fun a ha => ?_
      by_contra hp
      have hold := hmem a (List.mem_append_right _ ha) (Bool.eq_false_of_not_eq_true hp)
      exact hapart a hold a ha rfl
    rw [List.filter_append,hnone,hall,List.nil_append]

theorem map_snd_zipWith {lines : List (Uuid × ℕ)} {events : List (IndexedEvent Value)}
    (h : List.Forall₂ (fun line e => line.1 = e.eventId) lines events) :
    (List.zipWith (fun line e => (positionFromSeq line.2,e)) lines events).map Prod.snd =
      events := by
  induction h with
  | nil => rfl
  | cons _ _ ih => rw [List.zipWith_cons_cons,List.map_cons,ih]

section Orders

/-- The events of a stream in the order in which this copy came to know of them. -/
def streamIngested (index : Index Value) (streamId : String) : List (IndexedEvent Value) :=
  (index.byIngestion.map Prod.snd).filter fun e => e.streamId = streamId

def InOrder (streamId : String) (index : Index Value) : Prop :=
  streamIngested index streamId = index.streamEvents streamId

def logged (store : FileEventStore Value) (streamId : String) : List (IndexedEvent Value) :=
  ((ingested store.files store.ingestionLog).map Prod.snd).filter fun e => e.streamId = streamId

/-- In the canonical order the log's events of a stream stand before all others of it. -/
def ComesFirst (streamId : String) (store : FileEventStore Value) : Prop :=
  logged store streamId <+: (canonicalEvents store.files).filter fun e => e.streamId = streamId

variable {store : FileEventStore Value}

theorem streamIngested_eq_logged (h : Current store) (streamId : String) :
    streamIngested store.index streamId = logged store streamId := by
  rw [streamIngested,h.shown,logged]

theorem commit_streamIngested (store : FileEventStore Value) (t : Transaction Value)
    (tips : Headers → List Uuid) (streamId : String) :
    streamIngested (store.commit t tips).index streamId = streamIngested store.index streamId ++
      (t.events.map EventEnvelope.indexed).filter fun e => e.streamId = streamId := by
  let start : Index Value :=
    { store.index with headers := store.index.headers.insert t.id t.header }
  obtain ⟨hids,hshown⟩ := ingestAll_lines start (t.events.map EventEnvelope.indexed)
  change ((start.ingestAll _).1.byIngestion.map Prod.snd).filter _ = _
  rw [hshown,List.map_append,List.filter_append,map_snd_zipWith hids]
  rfl

theorem newEntries_foldl {lines : List (Uuid × ℕ)} (events : List (IndexedEvent Value))
    {walk : Walk Value} (h : Registered lines walk)
    (hnodup : (events.map IndexedEvent.eventId).Nodup)
    (hfresh : ∀ e ∈ events, e.eventId ∉ walk.newEntries.map Prod.fst) :
    (events.foldl Walk.visit walk).newEntries.map Prod.fst = walk.newEntries.map Prod.fst ++
      (events.filter fun e => e.eventId ∉ lines.map Prod.fst).map IndexedEvent.eventId := by
  induction events generalizing walk with
  | nil => simp
  | cons e events ih =>
    rw [List.map_cons,List.nodup_cons] at hnodup
    obtain ⟨hfirst,hfresh⟩ := List.forall_mem_cons.mp hfresh
    have hknown : e.eventId ∈ lines.map Prod.fst ↔ ∃ seq, walk.log.seqOf e.eventId = some seq := by
      simp only [h.lookup,List.mem_append,exists_or]
      constructor
      · intro hmem
        obtain ⟨line,hline,hid⟩ := List.mem_map.mp hmem
        exact .inl ⟨line.2,hid ▸ hline⟩
      · rintro (⟨seq,hline⟩ | ⟨seq,hline⟩)
        · exact List.mem_map_of_mem hline
        · exact absurd (List.mem_map_of_mem hline) hfirst
    cases hseq : walk.log.seqOf e.eventId with
    | some seq =>
      have hentries : (walk.visit e).newEntries = walk.newEntries := by
        rw [Walk.visit,hseq]
      have hrest := ih (h.visit e) hnodup.2 (by rwa [hentries])
      rw [List.foldl_cons,hrest,hentries,List.filter_cons_of_neg]
      simpa using hknown.mpr ⟨seq,hseq⟩
    | none =>
      have hentries : (walk.visit e).newEntries =
          walk.newEntries ++ [(e.eventId,walk.log.nextSeq)] := by
        rw [Walk.visit,hseq]
        rfl
      have hnew : e.eventId ∉ lines.map Prod.fst := fun hmem => by
        obtain ⟨seq,hsome⟩ := hknown.mp hmem
        rw [hseq] at hsome
        cases hsome
      have hrest := ih (h.visit e) hnodup.2 fun f hf => by
        rw [hentries,List.map_append,List.mem_append]
        rintro (hmem | hmem)
        · exact hfresh f hf hmem
        · have hid : f.eventId = e.eventId := List.mem_singleton.mp hmem
          exact hnodup.1 (hid ▸ List.mem_map_of_mem hf)
      rw [List.foldl_cons,hrest,hentries,List.map_append,List.append_assoc,
        List.filter_cons_of_pos (by simpa using hnew),List.map_cons]
      rfl

/-- An open keeps what the log holds and puts behind it, in canonical order, what is new. -/
theorem reopen_logged (h : Logged store) (streamId : String) :
    logged store.reopen streamId = logged store streamId ++
      ((canonicalEvents store.files).filter fun e => e.streamId = streamId).filter fun e =>
        e.eventId ∉ store.ingestionLog.map Prod.fst := by
  have hperm : (canonicalEvents store.files).Perm (eventsOf store.files) :=
    canonicalEvents_perm h.distinct.1
  let start : Walk Value := ⟨∅,[],IngestionLog.load store.ingestionLog,[]⟩
  have hstart : Registered store.ingestionLog start :=
    ⟨fun id seq => by rw [List.append_nil]; exact load_seqOf_iff h.nodup id seq,
      by simpa [start] using h.nodup,by simp [start]⟩
  have hentries := newEntries_foldl (canonicalEvents store.files) hstart
    ((hperm.map _).nodup_iff.mpr h.distinct.2) (by simp [start])
  have hids : List.Forall₂ (fun line e => line.1 = e.eventId)
      ((canonicalEvents store.files).foldl Walk.visit start).newEntries
      ((canonicalEvents store.files).filter fun e =>
        e.eventId ∉ store.ingestionLog.map Prod.fst) := by
    refine List.forall₂_map_left_iff.mp (List.forall₂_map_right_iff.mp ?_)
    rw [List.forall₂_eq_eq_eq]
    exact hentries
  have hlines : store.reopen.ingestionLog = store.ingestionLog ++
      ((canonicalEvents store.files).foldl Walk.visit start).newEntries := rfl
  rw [logged,hlines,reopen_files,ingested_append_lines,List.map_append,List.filter_append,
    ingested_of_forall₂ h.distinct hids fun e he => hperm.mem_iff.mp (List.mem_filter.mp he).1,
    map_snd_zipWith hids,List.filter_filter,List.filter_filter,logged]
  simp only [Bool.and_comm]

theorem reopen_same (h : Logged store) (streamId : String) :
    (streamIngested store.reopen.index streamId).Perm
      (store.reopen.index.streamEvents streamId) := by
  have hperm : (canonicalEvents store.files).Perm (eventsOf store.files) :=
    canonicalEvents_perm h.distinct.1
  have hstream : store.reopen.index.streamEvents streamId =
      (canonicalEvents store.files).filter fun e => e.streamId = streamId :=
    scanIndex_streamEvents store.files store.ingestionLog streamId
  obtain ⟨hlogged,hcurrent,_,hall⟩ := h.reopen
  have hnodup : ((ingested store.files store.reopen.ingestionLog).map Prod.snd).Nodup := by
    have honce : ((ingested store.files store.reopen.ingestionLog).map
        fun p => p.2.eventId).Nodup := hlogged.ingested_once
    refine List.Nodup.of_map IndexedEvent.eventId ?_
    rwa [List.map_map]
  have hcanonical : (canonicalEvents store.files).Nodup :=
    ((hperm.map _).nodup_iff.mpr h.distinct.2).of_map _
  rw [streamIngested_eq_logged hcurrent,logged,reopen_files,hstream]
  refine List.Perm.filter _ ((List.perm_ext_iff_of_nodup hnodup hcanonical).mpr fun e => ?_)
  rw [hperm.mem_iff,List.mem_map]
  constructor
  · rintro ⟨p,hp,rfl⟩
    obtain ⟨_,_,_,he⟩ := (mem_ingested h.distinct).mp hp
    exact he
  · intro he
    obtain ⟨position,hposition⟩ := hall e he
    exact ⟨(position,e),hposition,rfl⟩

theorem inOrder_reopen_iff (h : Logged store) (streamId : String) :
    InOrder streamId store.reopen.index ↔ ComesFirst streamId store := by
  have hperm : (canonicalEvents store.files).Perm (eventsOf store.files) :=
    canonicalEvents_perm h.distinct.1
  have hnodup : (canonicalEvents store.files).Nodup :=
    ((hperm.map _).nodup_iff.mpr h.distinct.2).of_map _
  have hstream : store.reopen.index.streamEvents streamId =
      (canonicalEvents store.files).filter fun e => e.streamId = streamId :=
    scanIndex_streamEvents store.files store.ingestionLog streamId
  rw [InOrder,streamIngested_eq_logged h.reopen.2.1,reopen_logged h,hstream]
  refine append_filter_eq_iff _ (hnodup.filter _) (fun e he => ?_) fun e he hlogged => ?_
  · obtain ⟨p,hp,rfl⟩ := List.mem_map.mp (List.mem_filter.mp he).1
    obtain ⟨seq,hline,_⟩ := (mem_ingested h.distinct).mp hp
    simpa using ⟨seq,hline⟩
  · obtain ⟨hcanonical,hid⟩ := List.mem_filter.mp he
    have hmem : e.eventId ∈ store.ingestionLog.map Prod.fst := by simpa using hlogged
    obtain ⟨⟨id,seq⟩,hline,rfl⟩ := List.mem_map.mp hmem
    refine List.mem_filter.mpr ⟨List.mem_map.mpr ⟨(positionFromSeq seq,e),?_,rfl⟩,hid⟩
    exact (mem_ingested h.distinct).mpr ⟨seq,hline,rfl,hperm.mem_iff.mp hcanonical⟩

end Orders

section Reading

variable (globMatches : StreamPattern → String → Bool) (form : ValueForm Value E)
  (filter : EventFilter)

def keep (streamId : StreamId) (results : List (E × Uuid)) : List E :=
  (results.map Prod.fst).filter fun e => form.streamId e = streamId

/-- The filter passes the stream, whose events are all of the type that is read, and every event
of this type decodes to an event of the stream that it stands in. -/
structure Uniform (streamId : StreamId) (index : Index Value) : Prop where
  passes : matchesPrefix filter streamId.value = true ∧
    matchesPattern globMatches filter streamId.value = true
  oneType : ∀ p ∈ index.byIngestion, p.2.streamId = streamId.value →
    matchesType form.eventTypeName filter p.2.eventType = true
  decodes : ∀ p ∈ index.byIngestion, matchesType form.eventTypeName filter p.2.eventType = true →
    ∃ e, form.fromValue p.2.eventData = .ok e ∧ (form.streamId e).value = p.2.streamId

variable {globMatches form filter} {store : FileEventStore Value} {streamId : StreamId}

theorem keep_selected {entries : List (Uuid × IndexedEvent Value)}
    (hpasses : matchesPrefix filter streamId.value = true ∧
      matchesPattern globMatches filter streamId.value = true)
    (honeType : ∀ p ∈ entries, p.2.streamId = streamId.value →
      matchesType form.eventTypeName filter p.2.eventType = true)
    (hdecodes : ∀ p ∈ entries, matchesType form.eventTypeName filter p.2.eventType = true →
      ∃ e, form.fromValue p.2.eventData = .ok e ∧ (form.streamId e).value = p.2.streamId) :
    (keep form streamId ((entries.filter (selects globMatches form filter)).filterMap
        (decodeAt Prod.fst (decodeFile form)))).map .ok =
      ((entries.map Prod.snd).filter fun e => e.streamId = streamId.value).map
        (decodeIndexed form streamId) := by
  induction entries with
  | nil => rfl
  | cons p entries ih =>
    obtain ⟨hone,honeType⟩ := List.forall_mem_cons.mp honeType
    obtain ⟨hdecode,hdecodes⟩ := List.forall_mem_cons.mp hdecodes
    have hrest := ih honeType hdecodes
    by_cases htype : matchesType form.eventTypeName filter p.2.eventType = true
    · obtain ⟨e,he,hstream⟩ := hdecode htype
      have hat : decodeAt Prod.fst (decodeFile form) p = some (e,p.1) := by
        rw [decodeAt,decodeFile,he]
        rfl
      by_cases hs : p.2.streamId = streamId.value
      · -- the next event of the stream
        have hselects : selects globMatches form filter p = true := by
          rw [selects,hs,hpasses.1,hpasses.2,htype]
          rfl
        have hkept : form.streamId e = streamId := StreamId.value_injective (hstream.trans hs)
        have hdecoded : decodeIndexed form streamId p.2 = .ok e := by
          rw [decodeIndexed,he]
          rfl
        rw [List.filter_cons_of_pos hselects,List.filterMap_cons,hat,List.map_cons,
          List.filter_cons_of_pos (by simpa using hs),List.map_cons,hdecoded,← hrest]
        simp [keep,hkept]
      · -- an event of another stream, whether or not the filter passes it
        have hother : form.streamId e ≠ streamId := fun heq => hs (by rw [← hstream,heq])
        rw [List.filter_cons,List.map_cons,
          List.filter_cons_of_neg (p := fun e : IndexedEvent Value => e.streamId = streamId.value)
            (by simpa using hs),← hrest]
        split_ifs
        · rw [List.filterMap_cons,hat]
          simp [keep,hother]
        · rfl
    · have hs : p.2.streamId ≠ streamId.value := fun hs => htype (hone hs)
      have hselects : ¬ selects globMatches form filter p = true := by
        rw [selects,Bool.and_eq_true]
        exact fun h => htype h.2
      rw [List.filter_cons_of_neg hselects,List.map_cons,
        List.filter_cons_of_neg (by simpa using hs),hrest]

variable (globMatches form filter)

/-- Read from the first page to exhaustion and keep one stream: every event of it comes once, in
the order of the local ingestion, and in that of `read_stream` when the two are one. -/
structure Rebuilds (limit : ℕ) (streamId : StreamId) (store : FileEventStore Value) : Prop where
  once : ((streamIngested store.index streamId.value).map IndexedEvent.eventId).Nodup
  same : (streamIngested store.index streamId.value).Perm
    (store.index.streamEvents streamId.value)
  reads : ∃ results, readAll (readFile globMatches form filter store)
      (store.index.byIngestion.length+1) (.first limit) = some results ∧
    (keep form streamId results).map .ok =
      (streamIngested store.index streamId.value).map (decodeIndexed form streamId) ∧
    (InOrder streamId.value store.index →
      (keep form streamId results).map .ok = readStream form store streamId)

variable {globMatches form filter}

theorem rebuilds_of_uniform (hlogged : Logged store) (hcurrent : Current store)
    (hsame : (streamIngested store.index streamId.value).Perm
      (store.index.streamEvents streamId.value))
    (h : Uniform globMatches form filter streamId store.index) {limit : ℕ} (hlimit : 0 < limit) :
    Rebuilds globMatches form filter limit streamId store where
  once := by
    have honce := hlogged.ingested_once
    rw [← hcurrent.shown] at honce
    rw [streamIngested]
    refine List.Nodup.sublist (List.filter_sublist.map _) ?_
    rwa [List.map_map]
  same := hsame
  reads := by
    have hkept : (keep form streamId ((selectFile globMatches form filter store).filterMap
        (decodeAt Prod.fst (decodeFile form)))).map .ok =
        (streamIngested store.index streamId.value).map (decodeIndexed form streamId) :=
      keep_selected h.passes h.oneType h.decodes
    have hall : ((selectFile globMatches form filter store).filter fun p =>
        After (none : Option Uuid) p.1) = selectFile globMatches form filter store :=
      List.filter_eq_self.mpr fun p _ => by simp
    refine ⟨_,?_,hkept,fun hinOrder => ?_⟩
    · rw [EventPage.first,readAll_eq_follow]
      simp only [readFile_eq_page]
      refine follow_complete ?_ hall ?_ ?_
      · exact hcurrent.ordered.positions.sublist List.filter_sublist
      · -- there is no gap at all, as whatever is selected decodes
        intro before gap a after heq hgap _
        cases gap with
        | nil => exact hlimit
        | cons p gap =>
          have hp : p ∈ selectFile globMatches form filter store := by simp [heq]
          obtain ⟨hmem,hselects⟩ := List.mem_filter.mp hp
          obtain ⟨e,he,_⟩ := h.decodes p hmem (Bool.and_eq_true_iff.mp hselects).2
          have hnone := hgap p List.mem_cons_self
          rw [decodeFile,he] at hnone
          cases hnone
      · exact Nat.lt_succ_of_le (List.length_filter_le _ _)
    · rw [hkept,show streamIngested store.index streamId.value = _ from hinOrder]
      rfl

end Reading

section Growth

/-- Each stream got the same new events at the end of both orders. -/
def GrowTogether (index later : Index Value) : Prop := ∀ streamId, ∃ more,
  streamIngested later streamId = streamIngested index streamId ++ more ∧
    later.streamEvents streamId = index.streamEvents streamId ++ more

theorem GrowTogether.refl (index : Index Value) : GrowTogether index index :=
  fun _ => ⟨[],by simp,by simp⟩

theorem GrowTogether.trans {a b c : Index Value} (hab : GrowTogether a b)
    (hbc : GrowTogether b c) : GrowTogether a c := by
  intro streamId
  obtain ⟨more,hingested,hevents⟩ := hab streamId
  obtain ⟨more',hingested',hevents'⟩ := hbc streamId
  refine ⟨more ++ more',?_,?_⟩
  · rw [hingested',hingested,List.append_assoc]
  · rw [hevents',hevents,List.append_assoc]

theorem GrowTogether.inOrder {index later : Index Value} (h : GrowTogether index later)
    {streamId : String} (hinOrder : InOrder streamId index) : InOrder streamId later := by
  obtain ⟨more,hingested,hevents⟩ := h streamId
  rw [InOrder,hingested,hevents,hinOrder]

theorem commit_growTogether (store : FileEventStore Value) (t : Transaction Value)
    (tips : Headers → List Uuid) : GrowTogether store.index (store.commit t tips).index :=
  fun streamId => ⟨_,commit_streamIngested store t tips streamId,
    commit_streamEvents store t tips streamId⟩

theorem appendEvents_growTogether (parse : Raw → Option Value) (store : FileEventStore Value)
    (stamp : Stamp) (writes : StreamWrites Any Raw) :
    GrowTogether store.index (appendEvents parse store stamp writes).2.index := by
  rcases appendEvents_store parse store stamp writes with hrun | ⟨t,_,hrun⟩
  · rw [hrun]
    exact .refl _
  · rw [hrun]
    exact commit_growTogether store t _

theorem reconcileForks_growTogether (form : ValueForm Value R)
    (resolver : ForkContext R → ResolutionOutcome R) (stamp : ℕ → Stamp) (forks : List Fork)
    (store : FileEventStore Value) (report : ReconcileReport) :
    GrowTogether store.index (reconcileForks form resolver stamp forks store report).2.index :=
  reconcileForks_induct (P := fun merged => GrowTogether store.index merged.index)
    (fun merged _ _ _ _ _ h => h.trans (commit_growTogether merged _ computeTips))
    (.refl store.index)

theorem reconcile_growTogether (form : ValueForm Value R)
    (resolver : ForkContext R → ResolutionOutcome R) (stamp : ℕ → Stamp)
    (store : FileEventStore Value) :
    GrowTogether store.index (FileStore.reconcile form resolver stamp store).2.index := by
  unfold FileStore.reconcile
  cases store.detectForks with
  | error e => exact .refl _
  | ok forks => exact reconcileForks_growTogether form resolver stamp forks store _

theorem interruptedReconcile_growTogether (form : ValueForm Value R)
    (resolver : ForkContext R → ResolutionOutcome R) (stamp : ℕ → Stamp) (done : ℕ)
    (store : FileEventStore Value) : GrowTogether store.index
      (WorkingCopy.interruptedReconcile form resolver stamp done store).index := by
  unfold WorkingCopy.interruptedReconcile
  cases store.detectForks with
  | error e => exact .refl _
  | ok forks => exact reconcileForks_growTogether form resolver stamp (forks.take done) store _

end Growth

section Run

variable {parse : Raw → Option Value} {globMatches : StreamPattern → String → Bool}
  {form : ValueForm Value E} {filter : EventFilter} {c c' : WorkingCopy Value E}

theorem step_cases {l : Label Any Raw Value R}
    (hstep : WorkingCopy.step parse globMatches form filter c l = some c') :
    (l = .openStore ∧ c' = { c with store := c.store.reopen, opened := true }) ∨
    (l ≠ .openStore ∧ (c'.opened = true → c.opened = true) ∧
      GrowTogether c.store.index c'.store.index) := by
  have hbecome : ∀ {store : FileEventStore Value} {opened : Bool},
      c.become store opened = some c' → (opened = true → c.opened = true) →
      GrowTogether c.store.index store.index → (c'.opened = true → c.opened = true) ∧
        GrowTogether c.store.index c'.store.index := by
    intro store opened h hopened hgrow
    obtain ⟨_,rfl⟩ := become_eq_some h
    exact ⟨hopened,hgrow⟩
  cases l with
  | openStore =>
    simp only [WorkingCopy.step] at hstep
    split_ifs at hstep
    exact .inl ⟨rfl,(Option.some.inj hstep).symm⟩
  | close =>
    obtain rfl := Option.some.inj hstep
    exact .inr ⟨by simp,by simp,.refl _⟩
  | append writes stamp =>
    simp only [WorkingCopy.step] at hstep
    split_ifs at hstep with hopened
    exact .inr ⟨by simp,hbecome hstep (fun _ => hopened)
      (appendEvents_growTogether parse c.store stamp writes)⟩
  | renameAppend writes stamp =>
    simp only [WorkingCopy.step] at hstep
    split_ifs at hstep with hopened
    cases hprep : prepareAppend parse c.store.replicaId c.store.index stamp writes with
    | error e =>
      simp only [hprep] at hstep
      obtain rfl := Option.some.inj hstep
      exact .inr ⟨by simp,id,.refl _⟩
    | ok t =>
      simp only [hprep] at hstep
      exact .inr ⟨by simp,hbecome hstep (fun _ => hopened) (.refl _)⟩
  | reconcile mergeForm resolver stamp =>
    simp only [WorkingCopy.step] at hstep
    split_ifs at hstep with hopened
    exact .inr ⟨by simp,hbecome hstep (fun _ => hopened)
      (reconcile_growTogether mergeForm resolver stamp c.store)⟩
  | crashReconcile mergeForm resolver stamp done =>
    simp only [WorkingCopy.step] at hstep
    split_ifs at hstep with hopened
    exact .inr ⟨by simp,hbecome hstep (fun _ => hopened)
      (interruptedReconcile_growTogether mergeForm resolver stamp done c.store)⟩
  | arrive files => exact .inr ⟨by simp,hbecome hstep id (.refl _)⟩
  | poll limit =>
    simp only [WorkingCopy.step] at hstep
    split_ifs at hstep with hopened
    obtain rfl := Option.some.inj hstep
    exact .inr ⟨by simp,id,.refl _⟩

theorem reachable_same (h : Reachable (system Any R parse globMatches form filter) c)
    (hopened : c.opened = true) (streamId : String) :
    (streamIngested c.store.index streamId).Perm (c.store.index.streamEvents streamId) := by
  induction h with
  | init hinit =>
    obtain ⟨replicaId,rfl⟩ := hinit
    exact .refl _
  | step hreach _ hstep ih =>
    rcases step_cases hstep with ⟨_,rfl⟩ | ⟨_,hbefore,hgrow⟩
    · exact reopen_same (reachable_inv hreach).logged streamId
    · obtain ⟨more,hingested,hevents⟩ := hgrow streamId
      rw [hingested,hevents]
      exact (ih (hbefore hopened)).append_right more

/-- The step is no open that finds events in front of some of the stream that the log holds. -/
def OpensInOrder (streamId : String) (c : WorkingCopy Value E) : Label Any Raw Value R → Prop
  | .openStore => ComesFirst streamId c.store
  | _ => True

theorem opensInOrder_of_ne {streamId : String} {l : Label Any Raw Value R}
    (hne : l ≠ .openStore) : OpensInOrder streamId c l := by
  cases l with
  | openStore => exact absurd rfl hne
  | close | append | renameAppend | reconcile | crashReconcile | arrive | poll => trivial

theorem inOrder_step_iff {streamId : String} {l : Label Any Raw Value R}
    (h : LocalIngestion.Inv globMatches form filter c)
    (hinOrder : c.opened = true → InOrder streamId c.store.index)
    (hstep : WorkingCopy.step parse globMatches form filter c l = some c') :
    (c'.opened = true → InOrder streamId c'.store.index) ↔ OpensInOrder streamId c l := by
  rcases step_cases hstep with ⟨rfl,rfl⟩ | ⟨hne,hbefore,hgrow⟩
  · rw [OpensInOrder,← inOrder_reopen_iff h.logged]
    exact ⟨fun h => h rfl,fun h _ => h⟩
  · exact iff_of_true (fun hopened => hgrow.inOrder (hinOrder (hbefore hopened)))
      (opensInOrder_of_ne hne)

/-- In every open state of a working copy, reading from the start to exhaustion and keeping a
stream of one type that decodes gives the events of `read_stream`, each once, in the order of the
local ingestion. A history keeps this the order of `read_stream` in all its open states exactly if
every open finds the events of the stream that the log already holds in front of all others. -/
theorem rebuild_order {F : Type} (readForm : ValueForm Value F) (readFilter : EventFilter)
    {limit : ℕ} (hlimit : 0 < limit) (streamId : StreamId) {labels : List (Label Any Raw Value R)}
    (hinit : (system Any R parse globMatches form filter).init c)
    (hrun : exec (system Any R parse globMatches form filter) c labels = some c') :
    Along (system Any R parse globMatches form filter) (fun c => c.opened = true →
      Uniform globMatches readForm readFilter streamId c.store.index →
        Rebuilds globMatches readForm readFilter limit streamId c.store) c labels ∧
    (Along (system Any R parse globMatches form filter) (fun c => c.opened = true →
        InOrder streamId.value c.store.index) c labels ↔
      AllSteps (system Any R parse globMatches form filter) (OpensInOrder streamId.value) c
        labels) := by
  have hreachable : Reachable (system Any R parse globMatches form filter) c := .init hinit
  have hrebuilds : ∀ {c : WorkingCopy Value E},
      Reachable (system Any R parse globMatches form filter) c → c.opened = true →
      Uniform globMatches readForm readFilter streamId c.store.index →
        Rebuilds globMatches readForm readFilter limit streamId c.store := by
    intro c hc hopened huniform
    have hinv := reachable_inv hc
    exact rebuilds_of_uniform hinv.logged (hinv.current hopened)
      (reachable_same hc hopened streamId.value) huniform hlimit
  refine ⟨Reachable.along (fun c hc => hrebuilds hc) hreachable labels,?_⟩
  refine along_iff_allSteps (I := Reachable (system Any R parse globMatches form filter)) ?_
    hreachable ?_ hrun
  · intro c l c' hc hinOrder hstep
    exact ⟨fun _ => hc.step trivial hstep,inOrder_step_iff (reachable_inv hc) hinOrder hstep⟩
  · obtain ⟨replicaId,rfl⟩ := hinit
    exact fun _ => rfl

end Run

section Scenarios
open TwoCopies

def deposit (amount : ℕ) : StreamWrites ℕ ℕ :=
  ⟨[⟨account1,amount,"Deposited",amount⟩],AList.insert account1 0 ∅,by
    simp only [List.mem_singleton,forall_eq]
    exact (AList.mem_insert _).mpr (.inl rfl)⟩

/-- A deposit is taken in, then an older one that another copy made. -/
def takeInOlder : List (Label ℕ ℕ ℕ ℕ) :=
  [.append (deposit 5) (stamp 1),
    .arrive (appendEvents some (.create 2)
      { stamp 2 with createdAt := "2024-04-30T12:00:00+00:00" } (deposit 7)).2.files,
    .close,.openStore]

/-- The stream now begins with the deposit of seven, the one that is read last. -/
theorem older_read_last :
    (∃ c, exec ledger { store := .create 1, opened := true } takeInOlder = some c ∧
      readAll (readFile (fun _ _ => true) deposits .all c.store) 3 (.first 10) =
        some [(5,2^64),(7,2*2^64)] ∧
      readStream deposits c.store account1 = [.ok 7,.ok 5]) ∧
    ¬ ∀ c : WorkingCopy ℕ ℕ, Reachable ledger c → c.opened = true →
      ∀ (limit : ℕ) (streamId : StreamId), 0 < limit →
        Uniform (fun _ _ => true) deposits .all streamId c.store.index →
        ∀ fuel results, readAll (readFile (fun _ _ => true) deposits .all c.store) fuel
            (.first limit) = some results →
          (keep deposits streamId results).map .ok = readStream deposits c.store streamId := by
  have hrun : (exec ledger { store := .create 1, opened := true } takeInOlder).map (fun c =>
      (c.opened,readAll (readFile (fun _ _ => true) deposits .all c.store) 3 (.first 10),
        (c.store.index.streamEvents "account-1").map IndexedEvent.eventData,
        c.store.index.byIngestion.all fun p =>
          p.2.streamId = "account-1" && p.2.eventType = "Deposited")) =
      some (true,some [(5,2^64),(7,2*2^64)],[7,5],true) := by decide +kernel
  obtain ⟨c,hc,hvalues⟩ := Option.map_eq_some_iff.mp hrun
  simp only [Prod.mk.injEq] at hvalues
  obtain ⟨hopened,hread,hdata,hshown⟩ := hvalues
  have hstream : readStream deposits c.store account1 = [.ok 7,.ok 5] := by
    have hmap : readStream deposits c.store account1 =
        ((c.store.index.streamEvents "account-1").map IndexedEvent.eventData).map .ok := by
      rw [List.map_map]
      rfl
    rw [hmap,hdata]
    rfl
  refine ⟨⟨c,hc,hread,hstream⟩,fun hall => ?_⟩
  have hreach : Reachable ledger c := Reachable.exec (.init ⟨1,rfl⟩) hc
  have hdeposit : ∀ p ∈ c.store.index.byIngestion,
      p.2.streamId = "account-1" ∧ p.2.eventType = "Deposited" := by
    simpa using hshown
  have huniform : Uniform (fun _ _ => true) deposits .all account1 c.store.index := by
    refine ⟨⟨rfl,rfl⟩,fun p hp _ => ?_,fun p hp _ => ⟨p.2.eventData,rfl,?_⟩⟩
    · rw [(hdeposit p hp).2]
      rfl
    · exact (hdeposit p hp).1.symm
  have hkept := hall c hreach hopened 10 account1 (by decide) huniform 3 _ hread
  rw [hstream] at hkept
  simp [keep,deposits] at hkept

/-- The deposit taken in, whose open puts it in front of what the log holds. -/
theorem rebuild_order_older :
    ∃ c, exec ledger { store := .create 1, opened := true } takeInOlder = some c ∧
    Along ledger (fun c => c.opened = true →
      Uniform (fun _ _ => true) deposits .all account1 c.store.index →
        Rebuilds (fun _ _ => true) deposits .all 10 account1 c.store)
      { store := .create 1, opened := true } takeInOlder ∧
    (Along ledger (fun c => c.opened = true → InOrder "account-1" c.store.index)
        { store := .create 1, opened := true } takeInOlder ↔
      AllSteps ledger (OpensInOrder "account-1") { store := .create 1, opened := true }
        takeInOlder) := by
  have hrun : (exec ledger { store := .create 1, opened := true } takeInOlder).isSome := by
    decide +kernel
  obtain ⟨c,hc⟩ := Option.isSome_iff_exists.mp hrun
  exact ⟨c,hc,rebuild_order deposits .all (by decide : 0 < 10) account1 ⟨1,rfl⟩ hc⟩

end Scenarios

end RebuildOrder
end EventCore
