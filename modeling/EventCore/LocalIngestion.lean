import EventCore.EventReader
import EventCore.IngestionOrder
import EventCore.Replicas

/-! One working copy over its whole life: its store is opened and closed, crashes between the file
and the ingestion log, receives files of others, and is polled by a reader all along. -/
namespace EventCore
namespace LocalIngestion
open Runs FileStore EventReader PagedScan

variable {Any Raw Value E R : Type}

def eventsOf (files : List (Transaction Value)) : List (IndexedEvent Value) :=
  files.flatMap fun t => t.events.map EventEnvelope.indexed

/-- No two files are of one transaction, no two events have one identifier. -/
def Distinct (files : List (Transaction Value)) : Prop :=
  (files.map Transaction.id).Nodup ∧ ((eventsOf files).map IndexedEvent.eventId).Nodup

instance (files : List (Transaction Value)) : Decidable (Distinct files) :=
  inferInstanceAs (Decidable (_ ∧ _))

/-- The working copy, whose read model counts while the store is open, and its reader. -/
structure WorkingCopy (Value E : Type) where
  store : FileEventStore Value
  opened : Bool
  cursor : Option Uuid := none
  seen : List (E × Uuid) := []

inductive Label (Any Raw Value R : Type)
  | openStore
  | close
  | append (writes : StreamWrites Any Raw) (stamp : Stamp)
  | renameAppend (writes : StreamWrites Any Raw) (stamp : Stamp)
  | reconcile (form : ValueForm Value R) (resolver : ForkContext R → ResolutionOutcome R)
      (stamp : ℕ → Stamp)
  | crashReconcile (form : ValueForm Value R) (resolver : ForkContext R → ResolutionOutcome R)
      (stamp : ℕ → Stamp) (done : ℕ)
  | arrive (files : List (Transaction Value))
  | poll (limit : ℕ)

namespace WorkingCopy

def become (c : WorkingCopy Value E) (store : FileEventStore Value) (opened : Bool) :
    Option (WorkingCopy Value E) :=
  if Distinct store.files then some { c with store := store, opened := opened } else none

def mergeFile (form : ValueForm Value R) (resolver : ForkContext R → ResolutionOutcome R)
    (stamp : Stamp) (store : FileEventStore Value) (fork : Fork) : Option (Transaction Value) :=
  match buildForkContext form store fork with
  | .error _ => none
  | .ok context =>
    match resolver context with
    | .unresolvable _ => none
    | .resolve events =>
      match mergeItems form events with
      | .error _ => none
      | .ok items => some (mergeTransaction store stamp fork items)

/-- The merge files of the first forks are written and taken in, that of the next one is renamed
into place and no more. -/
def interruptedReconcile (form : ValueForm Value R)
    (resolver : ForkContext R → ResolutionOutcome R) (stamp : ℕ → Stamp) (done : ℕ)
    (store : FileEventStore Value) : FileEventStore Value :=
  match store.detectForks with
  | .error _ => store
  | .ok forks =>
    let (outcome,merged) := reconcileForks form resolver stamp (forks.take done) store ⟨0,[]⟩
    let renamed := match outcome,forks[done]? with
      | .ok report,some fork =>
        (mergeFile form resolver (stamp report.resolved) merged fork).toList
      | _,_ => []
    { merged with files := merged.files ++ renamed }

variable (parse : Raw → Option Value) (globMatches : StreamPattern → String → Bool)
  (form : ValueForm Value E) (filter : EventFilter)

/-- A file appears before the log knows of it, and a crash, which is followed by a close, leaves it
so. Files of others may appear at any time, but are read by the next open. -/
def step (c : WorkingCopy Value E) : Label Any Raw Value R → Option (WorkingCopy Value E)
  | .openStore => if c.opened then none else some { c with store := c.store.reopen, opened := true }
  | .close => some { c with opened := false }
  | .append writes stamp =>
    if c.opened then c.become (appendEvents parse c.store stamp writes).2 true else none
  | .renameAppend writes stamp =>
    if c.opened then
      match prepareAppend parse c.store.replicaId c.store.index stamp writes with
      | .error _ => some c
      | .ok t => c.become { c.store with files := c.store.files ++ [t] } true
    else none
  | .reconcile form resolver stamp =>
    if c.opened then c.become (FileStore.reconcile form resolver stamp c.store).2 true else none
  | .crashReconcile form resolver stamp done =>
    if c.opened then c.become (interruptedReconcile form resolver stamp done c.store) true
    else none
  | .arrive files => c.become { c.store with files := c.store.files ++ files } c.opened
  | .poll limit =>
    if c.opened then
      let page : EventPage := ⟨c.cursor,limit⟩
      let results := readFile globMatches form filter c.store page
      some { c with
        cursor := (results.getLast?.map Prod.snd).or c.cursor
        seen := c.seen ++ results }
    else none

end WorkingCopy

def system (Any R : Type) (parse : Raw → Option Value)
    (globMatches : StreamPattern → String → Bool) (form : ValueForm Value E)
    (filter : EventFilter) : System (WorkingCopy Value E) (Label Any Raw Value R) where
  init c := ∃ replicaId, c = { store := .create replicaId, opened := true }
  step := WorkingCopy.step parse globMatches form filter

/-- The events in the order of the log, with the positions that it gives them. -/
def ingested (files : List (Transaction Value)) (lines : List (Uuid × ℕ)) :
    List (Uuid × IndexedEvent Value) :=
  lines.filterMap fun line => ((eventsOf files).find? fun e => e.eventId = line.1).map
    (positionFromSeq line.2,·)

abbrev WorkingCopy.ingested (c : WorkingCopy Value E) : List (Uuid × IndexedEvent Value) :=
  LocalIngestion.ingested c.store.files c.store.ingestionLog

section View

variable {files more : List (Transaction Value)} {lines : List (Uuid × ℕ)}

theorem eventsOf_append (files more : List (Transaction Value)) :
    eventsOf (files ++ more) = eventsOf files ++ eventsOf more := by simp [eventsOf]

theorem Distinct.left (h : Distinct (files ++ more)) : Distinct files := by
  refine ⟨?_,?_⟩
  · exact (List.map_append ▸ h.1 : (files.map Transaction.id ++ _).Nodup).of_append_left
  · have hids := h.2
    rw [eventsOf_append,List.map_append] at hids
    exact hids.of_append_left

theorem find?_eventId {events : List (IndexedEvent Value)}
    (hnodup : (events.map IndexedEvent.eventId).Nodup) {id : Uuid} {e : IndexedEvent Value} :
    events.find? (fun e => e.eventId = id) = some e ↔ e ∈ events ∧ e.eventId = id := by
  constructor
  · intro h
    have hid := List.find?_some h
    exact ⟨List.mem_of_find?_eq_some h,of_decide_eq_true hid⟩
  · rintro ⟨hmem,rfl⟩
    cases hfind : events.find? (fun f => f.eventId = e.eventId) with
    | none => exact absurd (decide_eq_true rfl) (List.find?_eq_none.mp hfind e hmem)
    | some f =>
      have hf := List.mem_of_find?_eq_some hfind
      have hid := List.find?_some hfind
      rw [List.inj_on_of_nodup_map hnodup hf hmem (of_decide_eq_true hid)]

theorem mem_ingested (hdistinct : Distinct files) {p : Uuid × IndexedEvent Value} :
    p ∈ ingested files lines ↔
      ∃ seq, (p.2.eventId,seq) ∈ lines ∧ p.1 = positionFromSeq seq ∧ p.2 ∈ eventsOf files := by
  simp only [ingested,List.mem_filterMap,Option.map_eq_some_iff,find?_eventId hdistinct.2]
  constructor
  · rintro ⟨⟨id,seq⟩,hline,e,⟨he,rfl⟩,rfl⟩
    exact ⟨seq,hline,rfl,he⟩
  · rintro ⟨seq,hline,hpos,he⟩
    exact ⟨(p.2.eventId,seq),hline,p.2,⟨he,rfl⟩,Prod.ext hpos.symm rfl⟩

theorem ingested_ascending (files : List (Transaction Value))
    (hlines : lines.Pairwise fun p q => p.2 < q.2) :
    (ingested files lines).Pairwise fun p q => p.1 < q.1 := by
  refine List.Pairwise.filterMap _ ?_ hlines
  intro p q hlt u hu v hv
  obtain ⟨_,_,rfl⟩ := Option.map_eq_some_iff.mp hu
  obtain ⟨_,_,rfl⟩ := Option.map_eq_some_iff.mp hv
  exact positionFromSeq_strictMono hlt

theorem ingested_append_files (hknown : ∀ line ∈ lines, line.1 ∈ (eventsOf files).map
    IndexedEvent.eventId) (more : List (Transaction Value)) :
    ingested (files ++ more) lines = ingested files lines := by
  refine List.filterMap_congr fun line hline => ?_
  obtain ⟨e,he,hid⟩ := List.mem_map.mp (hknown line hline)
  have hfound : ((eventsOf files).find? fun e => e.eventId = line.1).isSome := by
    rw [List.find?_isSome]
    exact ⟨e,he,decide_eq_true hid⟩
  rw [eventsOf_append,List.find?_append,Option.or_of_isSome hfound]

theorem ingested_append_lines (files : List (Transaction Value)) (lines more : List (Uuid × ℕ)) :
    ingested files (lines ++ more) = ingested files lines ++ ingested files more :=
  List.filterMap_append

theorem ingested_of_forall₂ (hdistinct : Distinct files) {events : List (IndexedEvent Value)}
    (hlines : List.Forall₂ (fun line e => line.1 = e.eventId) lines events)
    (hevents : ∀ e ∈ events, e ∈ eventsOf files) : ingested files lines =
      List.zipWith (fun line e => (positionFromSeq line.2,e)) lines events := by
  induction hlines with
  | nil => rfl
  | @cons line e lines events hid _ ih =>
    have hfound : (eventsOf files).find? (fun f => f.eventId = line.1) = some e :=
      (find?_eventId hdistinct.2).mpr ⟨hevents e List.mem_cons_self,hid.symm⟩
    have hrest := ih fun e he => hevents e (List.mem_cons_of_mem _ he)
    rw [ingested,List.filterMap_cons,hfound,List.zipWith_cons_cons,← hrest]
    rfl

end View

section Disk

/-- What the directory and the persisted log keep whether or not a store is open on them. -/
structure Logged (store : FileEventStore Value) : Prop where
  distinct : Distinct store.files
  ascending : store.ingestionLog.Pairwise fun p q => p.2 < q.2
  nodup : (store.ingestionLog.map Prod.fst).Nodup
  known : ∀ line ∈ store.ingestionLog, line.1 ∈ (eventsOf store.files).map IndexedEvent.eventId

instance (store : FileEventStore Value) : Decidable (Logged store) :=
  decidable_of_iff (Distinct store.files ∧ (store.ingestionLog.Pairwise fun p q => p.2 < q.2) ∧
      (store.ingestionLog.map Prod.fst).Nodup ∧
      ∀ line ∈ store.ingestionLog, line.1 ∈ (eventsOf store.files).map IndexedEvent.eventId)
    ⟨fun ⟨hdistinct,hascending,hnodup,hknown⟩ => ⟨hdistinct,hascending,hnodup,hknown⟩,
      fun h => ⟨h.distinct,h.ascending,h.nodup,h.known⟩⟩

structure Current (store : FileEventStore Value) : Prop where
  ordered : Ordered store.ingestionLog store.index
  shown : store.index.byIngestion = ingested store.files store.ingestionLog

structure Extends (store later : FileEventStore Value) : Prop where
  files : ∃ more, later.files = store.files ++ more
  lines : ∃ more, later.ingestionLog = store.ingestionLog ++ more

theorem Extends.refl (store : FileEventStore Value) : Extends store store :=
  ⟨⟨[],by simp⟩,⟨[],by simp⟩⟩

theorem Extends.trans {a b c : FileEventStore Value} (hab : Extends a b) (hbc : Extends b c) :
    Extends a c := by
  obtain ⟨⟨files,hfiles⟩,⟨lines,hlines⟩⟩ := hab
  obtain ⟨⟨files',hfiles'⟩,⟨lines',hlines'⟩⟩ := hbc
  refine ⟨⟨files ++ files',?_⟩,⟨lines ++ lines',?_⟩⟩
  · rw [hfiles',hfiles,List.append_assoc]
  · rw [hlines',hlines,List.append_assoc]

variable {store : FileEventStore Value}

/-- New events stand behind all that were there, and these keep their positions. -/
theorem Logged.grows {later : FileEventStore Value} (h : Logged store) (hlater : Logged later)
    (hext : Extends store later) :
    ∃ more, ingested later.files later.ingestionLog =
        ingested store.files store.ingestionLog ++ more ∧
      ∀ p ∈ ingested store.files store.ingestionLog, ∀ q ∈ more, p.1 < q.1 := by
  obtain ⟨files,hfiles⟩ := hext.files
  obtain ⟨lines,hlines⟩ := hext.lines
  have hsplit : ingested later.files later.ingestionLog =
      ingested store.files store.ingestionLog ++ ingested later.files lines := by
    rw [hlines,ingested_append_lines,hfiles,ingested_append_files h.known]
  refine ⟨_,hsplit,?_⟩
  have hsorted := ingested_ascending later.files hlater.ascending
  rw [hsplit] at hsorted
  exact (List.pairwise_append.mp hsorted).2.2

theorem Logged.arrive (h : Logged store) {files : List (Transaction Value)}
    (hdistinct : Distinct (store.files ++ files)) :
    Logged { store with files := store.files ++ files } where
  distinct := hdistinct
  ascending := h.ascending
  nodup := h.nodup
  known line hline := by
    have hmem := h.known line hline
    rw [eventsOf_append,List.map_append]
    exact List.mem_append_left _ hmem

theorem Current.arrive (h : Current store) (hlogged : Logged store)
    (files : List (Transaction Value)) :
    Current { store with files := store.files ++ files } where
  ordered := h.ordered
  shown := h.shown.trans (ingested_append_files hlogged.known files).symm

theorem ingestAll_lines (index : Index Value) (events : List (IndexedEvent Value)) :
    List.Forall₂ (fun line e => line.1 = e.eventId) (index.ingestAll events).2 events ∧
    (index.ingestAll events).1.byIngestion = index.byIngestion ++
      List.zipWith (fun line e => (positionFromSeq line.2,e)) (index.ingestAll events).2 events := by
  induction events generalizing index with
  | nil => exact ⟨.nil,by simp [Index.ingestAll]⟩
  | cons e events ih =>
    obtain ⟨hids,hshown⟩ := ih (index.ingestAppended e).1
    refine ⟨.cons rfl hids,?_⟩
    have hfirst : (index.ingestAppended e).1.byIngestion =
        index.byIngestion ++ [(positionFromSeq index.log.nextSeq,e)] := rfl
    rw [hfirst,List.append_assoc] at hshown
    exact hshown

theorem commit_extends (store : FileEventStore Value) (t : Transaction Value)
    (tips : Headers → List Uuid) : Extends store (store.commit t tips) := ⟨⟨_,rfl⟩,⟨_,rfl⟩⟩

theorem Current.commit (h : Current store) (hlogged : Logged store) {t : Transaction Value}
    (tips : Headers → List Uuid) (hdistinct : Distinct (store.files ++ [t])) :
    Logged (store.commit t tips) ∧ Current (store.commit t tips) ∧
    ∀ e ∈ eventsOf [t], ∃ position, (position,e) ∈
      ingested (store.files ++ [t]) (store.commit t tips).ingestionLog := by
  have hordered := h.ordered.commit t tips
  let start : Index Value :=
    { store.index with headers := store.index.headers.insert t.id t.header }
  have hlines := ingestAll_lines start (t.events.map EventEnvelope.indexed)
  obtain ⟨hids,hshown⟩ := hlines
  have hmem : ∀ e ∈ t.events.map EventEnvelope.indexed, e ∈ eventsOf (store.files ++ [t]) := by
    intro e he
    rw [eventsOf_append]
    exact List.mem_append_right _ (by simpa [eventsOf] using he)
  have hkeys : (start.ingestAll (t.events.map EventEnvelope.indexed)).2.map Prod.fst =
      (eventsOf [t]).map IndexedEvent.eventId := by
    have hmap := List.forall₂_map_left_iff.mpr (List.forall₂_map_right_iff.mpr hids)
    rw [List.forall₂_eq_eq_eq] at hmap
    simpa [eventsOf] using hmap
  refine ⟨⟨hdistinct,hordered.ascending,?_,?_⟩,⟨hordered,?_⟩,fun e he => ?_⟩
  · have hall := hdistinct.2
    rw [eventsOf_append,List.map_append,List.nodup_append] at hall
    change ((store.ingestionLog ++ (start.ingestAll _).2).map Prod.fst).Nodup
    rw [List.map_append,hkeys,List.nodup_append]
    refine ⟨hlogged.nodup,hall.2.1,fun a ha b hb => ?_⟩
    obtain ⟨line,hline,rfl⟩ := List.mem_map.mp ha
    exact hall.2.2 _ (hlogged.known line hline) b hb
  · intro line hline
    rw [commit_files,eventsOf_append,List.map_append]
    rcases List.mem_append.mp hline with hline | hline
    · exact List.mem_append_left _ (hlogged.known line hline)
    · exact List.mem_append_right _ (hkeys ▸ List.mem_map_of_mem hline)
  · change (start.ingestAll _).1.byIngestion =
      ingested (store.files ++ [t]) (store.ingestionLog ++ (start.ingestAll _).2)
    rw [ingested_append_lines,ingested_append_files hlogged.known,
      ingested_of_forall₂ hdistinct hids hmem,hshown,← h.shown]
  · have hline : e.eventId ∈ (start.ingestAll (t.events.map EventEnvelope.indexed)).2.map
        Prod.fst := hkeys ▸ List.mem_map_of_mem he
    obtain ⟨⟨id,seq⟩,hline,rfl⟩ := List.mem_map.mp hline
    refine ⟨positionFromSeq seq,(mem_ingested hdistinct).mpr ⟨seq,?_,rfl,?_⟩⟩
    · exact List.mem_append_right _ hline
    · rw [eventsOf_append]
      exact List.mem_append_right _ he

/-- The log of a walk knows exactly the lines, old and new, and one line an event. -/
structure Registered (lines : List (Uuid × ℕ)) (walk : Walk Value) : Prop where
  lookup : ∀ id seq, walk.log.seqOf id = some seq ↔ (id,seq) ∈ lines ++ walk.newEntries
  nodup : ((lines ++ walk.newEntries).map Prod.fst).Nodup
  known : ∀ line ∈ walk.newEntries, line.1 ∈ (walk.positioned.map Prod.snd).map
    IndexedEvent.eventId

theorem load_seqOf_iff {lines : List (Uuid × ℕ)} (hnodup : (lines.map Prod.fst).Nodup) (id : Uuid)
    (seq : ℕ) : (IngestionLog.load lines).seqOf id = some seq ↔ (id,seq) ∈ lines := by
  refine (foldl_insert_get? Prod.fst Prod.snd lines ∅ hnodup id seq).trans ?_
  simp only [HashMap.get?_empty,reduceCtorEq,and_false,or_false]
  constructor
  · rintro ⟨line,hline,rfl,rfl⟩
    exact hline
  · exact fun hline => ⟨(id,seq),hline,rfl,rfl⟩

theorem Registered.visit {lines : List (Uuid × ℕ)} {walk : Walk Value} (h : Registered lines walk)
    (indexed : IndexedEvent Value) : Registered lines (walk.visit indexed) := by
  unfold Walk.visit
  cases hseq : walk.log.seqOf indexed.eventId with
  | some seq =>
    refine ⟨h.lookup,h.nodup,fun line hline => ?_⟩
    have hmem := h.known line hline
    rw [List.map_append,List.map_append]
    exact List.mem_append_left _ hmem
  | none =>
    have hnew : indexed.eventId ∉ (lines ++ walk.newEntries).map Prod.fst := by
      intro hmem
      obtain ⟨⟨id,seq⟩,hline,hid⟩ := List.mem_map.mp hmem
      have hfound := (h.lookup id seq).mpr hline
      rw [show id = indexed.eventId from hid,hseq] at hfound
      cases hfound
    refine ⟨fun id seq => ?_,?_,fun line hline => ?_⟩
    · have hget : (walk.log.allocate indexed.eventId).1.seqOf id =
          if id = indexed.eventId then some walk.log.nextSeq else walk.log.seqOf id :=
        HashMap.get?_insert _ _ _ _
      have hiff := h.lookup id seq
      rw [← List.append_assoc,List.mem_append,List.mem_singleton,← hiff]
      change (walk.log.allocate indexed.eventId).1.seqOf id = some seq ↔
        _ ∨ (id,seq) = (indexed.eventId,walk.log.nextSeq)
      rw [hget,Prod.mk.injEq]
      by_cases hid : id = indexed.eventId
      · simp [hid,hseq,eq_comm]
      · simp [hid]
    · rw [← List.append_assoc,List.map_append,List.map_singleton]
      exact List.nodup_append_comm.mp (List.nodup_cons.mpr ⟨hnew,h.nodup⟩)
    · rw [List.map_append,List.map_append]
      rcases List.mem_append.mp hline with hline | hline
      · exact List.mem_append_left _ (h.known line hline)
      · rw [List.mem_singleton.mp hline]
        exact List.mem_append_right _ List.mem_cons_self

theorem Registered.foldl {lines : List (Uuid × ℕ)} (events : List (IndexedEvent Value))
    {walk : Walk Value} (h : Registered lines walk) :
    Registered lines (events.foldl Walk.visit walk) := by
  induction events generalizing walk with
  | nil => exact h
  | cons indexed events ih => exact ih (h.visit indexed)

theorem Logged.reopen (h : Logged store) :
    Logged store.reopen ∧ Current store.reopen ∧ Extends store store.reopen ∧
    ∀ e ∈ eventsOf store.files, ∃ position,
      (position,e) ∈ ingested store.files store.reopen.ingestionLog := by
  have hperm : (canonicalEvents store.files).Perm (eventsOf store.files) :=
    canonicalEvents_perm h.distinct.1
  have hids : ((canonicalEvents store.files).map IndexedEvent.eventId).Nodup :=
    (hperm.map _).nodup_iff.mpr h.distinct.2
  let walk := (canonicalEvents store.files).foldl Walk.visit
    ⟨∅,[],IngestionLog.load store.ingestionLog,[]⟩
  have hstart : Registered store.ingestionLog
      (⟨∅,[],IngestionLog.load store.ingestionLog,[]⟩ : Walk Value) :=
    ⟨fun id seq => by rw [List.append_nil]; exact load_seqOf_iff h.nodup id seq,
      by simpa using h.nodup,by simp⟩
  have hregistered : Registered store.ingestionLog walk := hstart.foldl _
  have hwalked := walked_canonicalEvents store.files h.ascending
  have hvisited : walk.positioned.map Prod.snd = canonicalEvents store.files := hwalked.visited
  have hordered : Ordered store.reopen.ingestionLog store.reopen.index :=
    ordered_scanIndex h.ascending hids
  have hlines : store.reopen.ingestionLog = store.ingestionLog ++ walk.newEntries := rfl
  have hmem : ∀ p : Uuid × IndexedEvent Value, p ∈ walk.positioned ↔
      p ∈ ingested store.files (store.ingestionLog ++ walk.newEntries) := by
    intro p
    rw [mem_ingested h.distinct]
    constructor
    · intro hp
      obtain ⟨seq,hseq,hpos⟩ := hwalked.placed p hp
      refine ⟨seq,(hregistered.lookup _ _).mp hseq,hpos,hperm.mem_iff.mp ?_⟩
      rw [← hvisited]
      exact List.mem_map_of_mem hp
    · rintro ⟨seq,hline,hpos,he⟩
      have hcanonical := hperm.mem_iff.mpr he
      rw [← hvisited] at hcanonical
      obtain ⟨q,hq,hqe⟩ := List.mem_map.mp hcanonical
      obtain ⟨seq',hseq',hqpos⟩ := hwalked.placed q hq
      have hseq := (hregistered.lookup _ _).mpr hline
      rw [hqe,hseq] at hseq'
      obtain rfl := Option.some.inj hseq'
      rwa [Prod.ext (hpos.trans hqpos.symm) hqe.symm]
  refine ⟨⟨h.distinct,hordered.ascending,hregistered.nodup,fun line hline => ?_⟩,⟨hordered,?_⟩,
    ⟨⟨[],by simp⟩,⟨walk.newEntries,rfl⟩⟩,fun e he => ?_⟩
  · rcases List.mem_append.mp hline with hline | hline
    · exact h.known line hline
    · have hknown := hregistered.known line hline
      rw [hvisited] at hknown
      exact ((hperm.map _).mem_iff).mp hknown
  · have hnodup : walk.positioned.Nodup := by
      have hevents : (walk.positioned.map Prod.snd).Nodup := hvisited ▸ hids.of_map _
      exact hevents.of_map _
    have hsorted := ingested_ascending store.files hordered.ascending
    have hingested : (ingested store.files store.reopen.ingestionLog).Nodup :=
      hsorted.imp fun hlt heq => absurd (congrArg Prod.fst heq) hlt.ne
    refine Grouping.sortBy_eq ?_ hsorted
    exact (List.perm_ext_iff_of_nodup hingested hnodup).mpr fun p => (hmem p).symm
  · have hcanonical := hperm.mem_iff.mpr he
    rw [← hvisited] at hcanonical
    obtain ⟨p,hp,rfl⟩ := List.mem_map.mp hcanonical
    exact ⟨p.1,(hmem p).mp hp⟩

theorem Logged.create (replicaId : Uuid) :
    Logged (.create replicaId : FileEventStore Value) ∧
    Current (.create replicaId : FileEventStore Value) := by
  have hempty : Logged (⟨replicaId,[],[],⟨∅,[],∅,[],⟨∅,0⟩⟩⟩ : FileEventStore Value) :=
    ⟨⟨List.nodup_nil,List.nodup_nil⟩,List.Pairwise.nil,List.nodup_nil,by simp⟩
  exact ⟨hempty.reopen.1,hempty.reopen.2.1⟩

/-- An operation on an open store that keeps what a reader is shown in step with the log. -/
structure Advances (store later : FileEventStore Value) : Prop where
  logged : Logged later
  current : Current later
  extension : Extends store later

theorem Advances.trans {a b c : FileEventStore Value} (hab : Advances a b) (hbc : Advances b c) :
    Advances a c := ⟨hbc.logged,hbc.current,hab.extension.trans hbc.extension⟩

structure TakesIn (store later : FileEventStore Value) : Prop extends Advances store later where
  shown : ∀ e ∈ eventsOf later.files, e ∈ eventsOf store.files ∨
    ∃ position, (position,e) ∈ later.index.byIngestion

theorem Current.takesIn_refl (h : Current store) (hlogged : Logged store) :
    TakesIn store store := ⟨⟨hlogged,h,.refl store⟩,fun _ he => .inl he⟩

theorem TakesIn.trans {a b c : FileEventStore Value} (hab : TakesIn a b) (hbc : TakesIn b c) :
    TakesIn a c := by
  refine ⟨hab.toAdvances.trans hbc.toAdvances,fun e he => ?_⟩
  rcases hbc.shown e he with he | hshown
  · rcases hab.shown e he with he | ⟨position,hposition⟩
    · exact .inl he
    · obtain ⟨more,hmore,_⟩ := hab.logged.grows hbc.logged hbc.extension
      rw [hab.current.shown] at hposition
      refine .inr ⟨position,?_⟩
      rw [hbc.current.shown,hmore]
      exact List.mem_append_left _ hposition
  · exact .inr hshown

theorem Current.takesIn_commit (h : Current store) (hlogged : Logged store)
    {t : Transaction Value} (tips : Headers → List Uuid)
    (hdistinct : Distinct (store.files ++ [t])) : TakesIn store (store.commit t tips) := by
  obtain ⟨hlogged',hcurrent',hshown⟩ := h.commit hlogged tips hdistinct
  refine ⟨⟨hlogged',hcurrent',commit_extends store t tips⟩,fun e he => ?_⟩
  rw [commit_files,eventsOf_append] at he
  rcases List.mem_append.mp he with he | he
  · exact .inl he
  · rw [hcurrent'.shown]
    exact .inr (hshown e he)

theorem Current.advances_arrive (h : Current store) (hlogged : Logged store)
    {files : List (Transaction Value)} (hdistinct : Distinct (store.files ++ files)) :
    Advances store { store with files := store.files ++ files } :=
  ⟨hlogged.arrive hdistinct,h.arrive hlogged files,⟨⟨files,rfl⟩,⟨[],by simp⟩⟩⟩

theorem Current.appendEvents (h : Current store) (hlogged : Logged store)
    (parse : Raw → Option Value) (stamp : Stamp) (writes : StreamWrites Any Raw)
    (hdistinct : Distinct (appendEvents parse store stamp writes).2.files) :
    TakesIn store (appendEvents parse store stamp writes).2 := by
  rcases appendEvents_store parse store stamp writes with hrun | ⟨t,_,hrun⟩
  · rw [hrun]
    exact h.takesIn_refl hlogged
  · rw [hrun] at hdistinct ⊢
    exact h.takesIn_commit hlogged (fun _ => [t.id]) hdistinct

section Merges

variable (form : ValueForm Value R) (resolver : ForkContext R → ResolutionOutcome R)
  (stamp : ℕ → Stamp)

theorem reconcileForks_extends (forks : List Fork) (store : FileEventStore Value)
    (report : ReconcileReport) :
    Extends store (reconcileForks form resolver stamp forks store report).2 :=
  reconcileForks_induct (fun store' _ _ _ _ _ h => h.trans (commit_extends store' _ computeTips))
    (.refl store)

theorem Current.reconcileForks {store : FileEventStore Value} (h : Current store)
    (hlogged : Logged store) (forks : List Fork) (report : ReconcileReport)
    (hdistinct : Distinct (reconcileForks form resolver stamp forks store report).2.files) :
    TakesIn store (reconcileForks form resolver stamp forks store report).2 := by
  have hcommit : ∀ (merged : FileEventStore Value) (t : Transaction Value),
      (Distinct merged.files → TakesIn store merged) →
      Distinct (merged.commit t computeTips).files → TakesIn store (merged.commit t computeTips) := by
    intro merged t hmerged hnow
    have htaken := hmerged hnow.left
    exact htaken.trans (htaken.current.takesIn_commit htaken.logged computeTips hnow)
  exact reconcileForks_induct (P := fun merged => Distinct merged.files → TakesIn store merged)
    (fun merged _ _ _ _ _ => hcommit merged _) (fun _ => h.takesIn_refl hlogged) hdistinct

theorem Current.reconcile {store : FileEventStore Value} (h : Current store)
    (hlogged : Logged store)
    (hdistinct : Distinct (reconcile form resolver stamp store).2.files) :
    TakesIn store (reconcile form resolver stamp store).2 := by
  unfold FileStore.reconcile at hdistinct ⊢
  cases hforks : store.detectForks with
  | error e => exact h.takesIn_refl hlogged
  | ok forks =>
    simp only [hforks] at hdistinct ⊢
    exact h.reconcileForks form resolver stamp hlogged forks _ hdistinct

theorem Current.interruptedReconcile {store : FileEventStore Value} (h : Current store)
    (hlogged : Logged store) (done : ℕ) (hdistinct : Distinct
      (WorkingCopy.interruptedReconcile form resolver stamp done store).files) :
    Advances store (WorkingCopy.interruptedReconcile form resolver stamp done store) := by
  unfold WorkingCopy.interruptedReconcile at hdistinct ⊢
  cases hforks : store.detectForks with
  | error e => exact (h.takesIn_refl hlogged).toAdvances
  | ok forks =>
    simp only [hforks] at hdistinct ⊢
    have hmerged := h.reconcileForks form resolver stamp hlogged (forks.take done) ⟨0,[]⟩
      hdistinct.left
    exact hmerged.toAdvances.trans (hmerged.current.advances_arrive hmerged.logged hdistinct)

end Merges

end Disk

section Reader

variable (globMatches : StreamPattern → String → Bool) (form : ValueForm Value E)
  (filter : EventFilter)

def selects (entry : Uuid × IndexedEvent Value) : Bool :=
  matchesPrefix filter entry.2.streamId && matchesPattern globMatches filter entry.2.streamId &&
    matchesType form.eventTypeName filter entry.2.eventType

/-- The reader has been given what it selects up to its cursor, which is a position of the log. -/
structure Inv (c : WorkingCopy Value E) : Prop where
  logged : Logged c.store
  current : c.opened = true → Current c.store
  polled : Polled Prod.fst (decodeFile form)
    (c.ingested.filter (selects globMatches form filter)) c.cursor c.seen
  cursor : ∀ p ∈ c.cursor, ∃ e, (p,e) ∈ c.ingested

variable {globMatches form filter} {c : WorkingCopy Value E}

theorem Inv.extend (h : Inv globMatches form filter c) {store : FileEventStore Value}
    (hlogged : Logged store) (hext : Extends c.store store) (opened : Bool)
    (hcurrent : opened = true → Current store) :
    Inv globMatches form filter { c with store := store, opened := opened } := by
  obtain ⟨more,hmore,hbehind⟩ := h.logged.grows hlogged hext
  refine ⟨hlogged,hcurrent,?_,?_⟩
  · rw [WorkingCopy.ingested,hmore,List.filter_append]
    refine h.polled.extend fun q hq p hp => ?_
    obtain ⟨e,he⟩ := h.cursor p hp
    exact hbehind (p,e) he q (List.mem_filter.mp hq).1
  · intro p hp
    obtain ⟨e,he⟩ := h.cursor p hp
    refine ⟨e,?_⟩
    rw [WorkingCopy.ingested,hmore]
    exact List.mem_append_left _ he

theorem Inv.advance (h : Inv globMatches form filter c) {store : FileEventStore Value}
    (hstore : Advances c.store store) :
    Inv globMatches form filter { c with store := store, opened := true } :=
  h.extend hstore.logged hstore.extension true fun _ => hstore.current

theorem Inv.selectFile_eq (h : Inv globMatches form filter c) (hopened : c.opened = true) :
    selectFile globMatches form filter c.store =
      c.ingested.filter (selects globMatches form filter) := by
  rw [WorkingCopy.ingested,← (h.current hopened).shown]
  rfl

theorem Inv.ascending (h : Inv globMatches form filter c) :
    (c.ingested.filter (selects globMatches form filter)).Pairwise fun p q => p.1 < q.1 :=
  (ingested_ascending c.store.files h.logged.ascending).sublist List.filter_sublist

theorem Inv.poll (h : Inv globMatches form filter c) (hopened : c.opened = true) (limit : ℕ) :
    Inv globMatches form filter
      { c with
        cursor := ((readFile globMatches form filter c.store ⟨c.cursor,limit⟩).getLast?.map
          Prod.snd).or c.cursor
        seen := c.seen ++ readFile globMatches form filter c.store ⟨c.cursor,limit⟩ } := by
  rw [readFile_eq_page,h.selectFile_eq hopened]
  refine ⟨h.logged,h.current,h.polled.poll h.ascending limit,fun p hp => ?_⟩
  rcases Option.or_eq_some_iff.mp hp with hp | ⟨_,hp⟩
  · obtain ⟨r,hr,rfl⟩ := Option.map_eq_some_iff.mp hp
    obtain ⟨a,ha,hpos⟩ := mem_page (List.mem_of_getLast? hr)
    exact ⟨a.2,hpos ▸ (List.mem_filter.mp ha).1⟩
  · exact h.cursor p hp

variable {parse : Raw → Option Value}

theorem become_eq_some {c c' : WorkingCopy Value E} {store : FileEventStore Value} {opened : Bool}
    (h : c.become store opened = some c') :
    Distinct store.files ∧ c' = { c with store := store, opened := opened } := by
  unfold WorkingCopy.become at h
  split_ifs at h with hdistinct
  exact ⟨hdistinct,(Option.some.inj h).symm⟩

theorem Inv.become (h : Inv globMatches form filter c) {c' : WorkingCopy Value E}
    {store : FileEventStore Value} (hadvances : Distinct store.files → Advances c.store store)
    (hbecome : c.become store true = some c') :
    Inv globMatches form filter c' ∧ Extends c.store c'.store := by
  obtain ⟨hdistinct,rfl⟩ := become_eq_some hbecome
  exact ⟨h.advance (hadvances hdistinct),(hadvances hdistinct).extension⟩

theorem inv_step {c' : WorkingCopy Value E} {l : Label Any Raw Value R}
    (h : Inv globMatches form filter c)
    (hstep : WorkingCopy.step parse globMatches form filter c l = some c') :
    Inv globMatches form filter c' ∧ Extends c.store c'.store := by
  cases l with
  | openStore =>
    simp only [WorkingCopy.step] at hstep
    split_ifs at hstep
    obtain rfl := Option.some.inj hstep
    obtain ⟨hlogged,hcurrent,hext,_⟩ := h.logged.reopen
    exact ⟨h.extend hlogged hext true fun _ => hcurrent,hext⟩
  | close =>
    obtain rfl := Option.some.inj hstep
    exact ⟨⟨h.logged,fun hopened => by simp at hopened,h.polled,h.cursor⟩,.refl _⟩
  | append writes stamp =>
    simp only [WorkingCopy.step] at hstep
    split_ifs at hstep with hopened
    exact h.become (fun hdistinct =>
      ((h.current hopened).appendEvents h.logged parse stamp writes hdistinct).toAdvances) hstep
  | renameAppend writes stamp =>
    simp only [WorkingCopy.step] at hstep
    split_ifs at hstep with hopened
    cases hprep : prepareAppend parse c.store.replicaId c.store.index stamp writes with
    | error e =>
      simp only [hprep] at hstep
      obtain rfl := Option.some.inj hstep
      exact ⟨h,.refl _⟩
    | ok t =>
      simp only [hprep] at hstep
      exact h.become ((h.current hopened).advances_arrive h.logged) hstep
  | reconcile mergeForm resolver stamp =>
    simp only [WorkingCopy.step] at hstep
    split_ifs at hstep with hopened
    exact h.become (fun hdistinct =>
      ((h.current hopened).reconcile mergeForm resolver stamp h.logged hdistinct).toAdvances) hstep
  | crashReconcile mergeForm resolver stamp done =>
    simp only [WorkingCopy.step] at hstep
    split_ifs at hstep with hopened
    exact h.become ((h.current hopened).interruptedReconcile mergeForm resolver stamp h.logged done)
      hstep
  | arrive files =>
    obtain ⟨hdistinct,rfl⟩ := become_eq_some hstep
    have hext : Extends c.store { c.store with files := c.store.files ++ files } :=
      ⟨⟨files,rfl⟩,⟨[],by simp⟩⟩
    exact ⟨h.extend (h.logged.arrive hdistinct) hext c.opened fun hopened =>
      (h.current hopened).arrive h.logged files,hext⟩
  | poll limit =>
    simp only [WorkingCopy.step] at hstep
    split_ifs at hstep with hopened
    obtain rfl := Option.some.inj hstep
    exact ⟨h.poll hopened limit,.refl _⟩

theorem inv_exec {c' : WorkingCopy Value E} {labels : List (Label Any Raw Value R)}
    (h : Inv globMatches form filter c)
    (hrun : exec (system Any R parse globMatches form filter) c labels = some c') :
    Inv globMatches form filter c' ∧ Extends c.store c'.store := by
  induction labels generalizing c with
  | nil =>
    obtain rfl := Option.some.inj hrun
    exact ⟨h,.refl _⟩
  | cons l labels ih =>
    obtain ⟨d,hstep,hrest⟩ := Option.bind_eq_some_iff.mp hrun
    obtain ⟨hd,hext⟩ := inv_step h hstep
    obtain ⟨hc',hext'⟩ := ih hd hrest
    exact ⟨hc',hext.trans hext'⟩

theorem reachable_inv (h : Reachable (system Any R parse globMatches form filter) c) :
    Inv globMatches form filter c := by
  refine ReachableBy.invariant ?_ ?_ h
  · rintro c ⟨replicaId,rfl⟩
    have hnew : Logged (.create replicaId : FileEventStore Value) ∧
        Current (.create replicaId : FileEventStore Value) := Logged.create replicaId
    exact ⟨hnew.1,fun _ => hnew.2,.start _,by simp⟩
  · intro c l c' hc _ hstep
    exact (inv_step hc hstep).1

theorem Inv.seen_le (h : Inv globMatches form filter c) (hopened : c.opened = true) :
    c.seen.length ≤ (selectFile globMatches form filter c.store).length := by
  rw [h.selectFile_eq hopened]
  exact h.polled.length_le

theorem Inv.complete (h : Inv globMatches form filter c) (hopened : c.opened = true) {limit : ℕ}
    (hgap : NoLongGap (decodeFile form) limit (selectFile globMatches form filter c.store))
    (hpage : readFile globMatches form filter c.store ⟨c.cursor,limit⟩ = []) :
    c.seen = (selectFile globMatches form filter c.store).filterMap
      (decodeAt Prod.fst (decodeFile form)) := by
  have hpolled := h.polled
  rw [← h.selectFile_eq hopened] at hpolled
  exact hpolled.complete hgap (readFile_eq_page c.store c.cursor limit ▸ hpage)

theorem polls_complete (h : Inv globMatches form filter c) (hopened : c.opened = true) {limit : ℕ}
    (hgap : NoLongGap (decodeFile form) limit (selectFile globMatches form filter c.store)) :
    ∃ polls c', exec (system Any R parse globMatches form filter) c
        (List.replicate polls (.poll limit)) = some c' ∧
      c'.seen = (selectFile globMatches form filter c.store).filterMap
        (decodeAt Prod.fst (decodeFile form)) := by
  obtain ⟨missing,hmissing⟩ : ∃ missing, (selectFile globMatches form filter c.store).length <
      c.seen.length + missing := ⟨_,Nat.lt_add_left _ (Nat.lt_succ_self _)⟩
  induction missing generalizing c with
  | zero =>
    have hle := h.seen_le hopened
    omega
  | succ missing ih =>
    by_cases hpage : readFile globMatches form filter c.store ⟨c.cursor,limit⟩ = []
    · exact ⟨0,c,rfl,h.complete hopened hgap hpage⟩
    · have hpos := List.length_pos_of_ne_nil hpage
      let next : WorkingCopy Value E :=
        { c with
          cursor := ((readFile globMatches form filter c.store ⟨c.cursor,limit⟩).getLast?.map
            Prod.snd).or c.cursor
          seen := c.seen ++ readFile globMatches form filter c.store ⟨c.cursor,limit⟩ }
      have hstep : (system Any R parse globMatches form filter).step c (.poll limit) = some next :=
        if_pos hopened
      have hlen : next.seen.length = c.seen.length +
          (readFile globMatches form filter c.store ⟨c.cursor,limit⟩).length :=
        List.length_append
      obtain ⟨polls,c',hrun,hseen⟩ := ih (c := next) (h.poll hopened limit) hopened hgap (by
        change (selectFile globMatches form filter c.store).length < _
        omega)
      refine ⟨polls+1,c',?_,hseen⟩
      rw [List.replicate_succ,exec_cons,hstep]
      exact hrun

theorem Logged.ingested_once {store : FileEventStore Value} (h : Logged store) :
    ((ingested store.files store.ingestionLog).map fun p => p.2.eventId).Nodup := by
  refine List.Nodup.sublist ?_ h.nodup
  have hsub : ∀ lines : List (Uuid × ℕ), ((ingested store.files lines).map
      fun p => p.2.eventId).Sublist (lines.map Prod.fst) := by
    intro lines
    induction lines with
    | nil => exact List.Sublist.slnil
    | cons line lines ih =>
      rw [ingested,List.filterMap_cons]
      cases hfind : (eventsOf store.files).find? fun e => e.eventId = line.1 with
      | none => exact ih.cons _
      | some e =>
        have hid := ((find?_eventId h.distinct.2).mp hfind).2
        simp only [Option.map_some,List.map_cons,hid]
        exact ih.cons_cons _
  exact hsub _

theorem Inv.shown (h : Inv globMatches form filter c) (hopened : c.opened = true) :
    c.store.index.byIngestion = c.ingested := (h.current hopened).shown

/-- Between any two moments of a working copy at which its store is open, with appends, merges,
crashes, arrivals and reopens in between, the ingestion view only grows at its end: what it showed
keeps its position, and what joins stands behind every cursor that was handed out. A reader that
goes on from its last cursor is given exactly the events up to there that it selects and can
decode, each once, and polls to the end. Appends and merges show what they write, and an open shows
all there is. -/
theorem cursor_lossless {s t : WorkingCopy Value E} {labels : List (Label Any Raw Value R)}
    (hs : Reachable (system Any R parse globMatches form filter) s)
    (hrun : exec (system Any R parse globMatches form filter) s labels = some t)
    (hsopen : s.opened = true) (htopen : t.opened = true) :
    (t.store.index.byIngestion.Pairwise fun p q => p.1 < q.1) ∧
    (t.store.index.byIngestion.map fun p => p.2.eventId).Nodup ∧
    (∃ more, t.store.index.byIngestion = s.store.index.byIngestion ++ more ∧
      ∀ p ∈ s.store.index.byIngestion, ∀ q ∈ more, p.1 < q.1) ∧
    Polled Prod.fst (decodeFile form) (selectFile globMatches form filter t.store) t.cursor t.seen ∧
    (t.seen.Pairwise fun p q => p.2 < q.2) ∧
    (∀ limit, NoLongGap (decodeFile form) limit (selectFile globMatches form filter t.store) →
      ∃ polls u, exec (system Any R parse globMatches form filter) t
          (List.replicate polls (.poll limit)) = some u ∧
        u.seen = (selectFile globMatches form filter t.store).filterMap
          (decodeAt Prod.fst (decodeFile form))) ∧
    (∀ l u, (system Any R parse globMatches form filter).step t l = some u →
      (∃ writes stamp, l = .append writes stamp) ∨
        (∃ mergeForm resolver stamp, l = .reconcile mergeForm resolver stamp) →
      ∀ e ∈ eventsOf u.store.files, e ∈ eventsOf t.store.files ∨
        ∃ position, (position,e) ∈ u.store.index.byIngestion) ∧
    ∀ u v, (system Any R parse globMatches form filter).step t .close = some u →
      (system Any R parse globMatches form filter).step u .openStore = some v →
      ∀ e ∈ eventsOf v.store.files, ∃ position, (position,e) ∈ v.store.index.byIngestion := by
  have hinvs := reachable_inv hs
  obtain ⟨hinvt,hext⟩ := inv_exec hinvs hrun
  have hpolled := hinvt.polled
  rw [← hinvt.selectFile_eq htopen] at hpolled
  refine ⟨?_,?_,?_,hpolled,?_,fun limit hgap => polls_complete hinvt htopen hgap,?_,?_⟩
  · exact (hinvt.current htopen).ordered.positions
  · rw [hinvt.shown htopen]
    exact hinvt.logged.ingested_once
  · rw [hinvt.shown htopen,hinvs.shown hsopen]
    exact hinvs.logged.grows hinvt.logged hext
  · refine hpolled.ascending ?_
    exact (hinvt.current htopen).ordered.positions.sublist List.filter_sublist
  · rintro l u hstep (⟨writes,stamp,rfl⟩ | ⟨mergeForm,resolver,stamp,rfl⟩)
    · obtain ⟨hdistinct,rfl⟩ := become_eq_some ((if_pos htopen).symm.trans hstep)
      exact ((hinvt.current htopen).appendEvents hinvt.logged parse stamp writes hdistinct).shown
    · obtain ⟨hdistinct,rfl⟩ := become_eq_some ((if_pos htopen).symm.trans hstep)
      exact ((hinvt.current htopen).reconcile mergeForm resolver stamp hinvt.logged hdistinct).shown
  · rintro u v hclose hopen e he
    obtain rfl := Option.some.inj hclose
    obtain rfl := Option.some.inj hopen
    obtain ⟨_,hcurrent,_,hall⟩ := hinvt.logged.reopen
    rw [show ({ t with opened := false } : WorkingCopy Value E).store.reopen.index.byIngestion = _
      from hcurrent.shown]
    exact hall e he

end Reader

section Scenarios
open TwoCopies

abbrev ledger : System (WorkingCopy ℕ ℕ) (Label ℕ ℕ ℕ ℕ) :=
  system ℕ ℕ some (fun _ _ => true) deposits .all

def firstDeposit : List (Label ℕ ℕ ℕ ℕ) := [.append openOne (stamp 1),.poll 10]

/-- An older deposit of another copy arrives, and a crash leaves a file that no log knows. -/
def mergeAndCrash : List (Label ℕ ℕ ℕ ℕ) :=
  [.arrive (appendEvents some (.create 2)
      { stamp 2 with createdAt := "2024-04-30T12:00:00+00:00" } openOne).2.files,
    .close,.openStore,.renameAppend openOther (stamp 3),.close,.openStore,.poll 1,.poll 1]

/-- The older deposit moves in front in its stream, and behind the cursor in the log. -/
theorem cursor_lossless_merged : ∃ s t, Reachable ledger s ∧
    exec ledger s mergeAndCrash = some t ∧
    s.seen = [(5,2^64)] ∧ t.seen = [(5,2^64),(5,2*2^64),(5,3*2^64)] ∧
    (t.store.index.streamEvents "account-1").map IndexedEvent.eventId = [200,100] ∧
    ∃ more, t.store.index.byIngestion = s.store.index.byIngestion ++ more ∧
      ∀ p ∈ s.store.index.byIngestion, ∀ q ∈ more, p.1 < q.1 := by
  let start : WorkingCopy ℕ ℕ := { store := .create 1, opened := true }
  have hfirst : (exec ledger start firstDeposit).isSome := by decide +kernel
  obtain ⟨s,hs⟩ := Option.isSome_iff_exists.mp hfirst
  have hmerge : ((exec ledger start firstDeposit).bind fun s =>
      exec ledger s mergeAndCrash).isSome := by decide +kernel
  rw [hs,Option.bind_some] at hmerge
  obtain ⟨t,ht⟩ := Option.isSome_iff_exists.mp hmerge
  have hbefore : (exec ledger start firstDeposit).map (fun s => (s.opened,s.seen)) =
      some (true,[(5,2^64)]) := by decide +kernel
  have hafter : ((exec ledger start firstDeposit).bind fun s => (exec ledger s mergeAndCrash).map
      fun t => (t.opened,t.seen,(t.store.index.streamEvents "account-1").map IndexedEvent.eventId)) =
      some (true,[(5,2^64),(5,2*2^64),(5,3*2^64)],[200,100]) := by decide +kernel
  rw [hs,Option.map_some] at hbefore
  rw [hs,Option.bind_some,ht,Option.map_some] at hafter
  obtain ⟨hsopen,hsseen⟩ := Prod.mk.inj (Option.some.inj hbefore)
  obtain ⟨htopen,hends⟩ := Prod.mk.inj (Option.some.inj hafter)
  obtain ⟨htseen,hstream⟩ := Prod.mk.inj hends
  have hstart : Reachable ledger start := .init ⟨1,rfl⟩
  have hreach : Reachable ledger s := hstart.exec hs
  exact ⟨s,t,hreach,ht,hsseen,htseen,hstream,(cursor_lossless hreach ht hsopen htopen).2.2.1⟩

end Scenarios

end LocalIngestion
end EventCore
