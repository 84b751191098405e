import EventCore.Types

/-! Commands: declared streams, the fold that reconstructs state, runtime stream
discovery, and the batch built from the events a command emits. -/
namespace EventCore

structure StreamDeclarations where
  streams : List StreamId
  nonempty : streams ≠ []
  nodup : streams.Nodup
  deriving DecidableEq

inductive StreamDeclarationsError
  | empty
  | duplicateStream (duplicate : StreamId)
  deriving DecidableEq

namespace StreamDeclarations

/-- First stream that repeats one before it. -/
def firstDuplicate : Finset StreamId → List StreamId → Option StreamId
  | _, [] => none
  | seen, stream :: streams =>
    if stream ∈ seen then some stream else firstDuplicate (insert stream seen) streams

theorem firstDuplicate_eq_none {seen : Finset StreamId} {streams : List StreamId}
    (h : firstDuplicate seen streams = none) : streams.Nodup ∧ ∀ s ∈ streams, s ∉ seen := by
  induction streams generalizing seen with
  | nil => simp
  | cons stream streams ih =>
    unfold firstDuplicate at h
    split_ifs at h with hseen
    obtain ⟨hnodup,hfresh⟩ := ih h
    constructor
    · exact List.nodup_cons.mpr
        ⟨fun hmem => hfresh stream hmem (Finset.mem_insert_self _ _),hnodup⟩
    · intro s hs
      rcases List.mem_cons.mp hs with rfl | hs
      · exact hseen
      · exact fun hmem => hfresh s hs (Finset.mem_insert_of_mem hmem)

def tryFromStreams (streams : List StreamId) :
    Except StreamDeclarationsError StreamDeclarations :=
  match h : firstDuplicate ∅ streams with
  | some duplicate => .error (.duplicateStream duplicate)
  | none =>
    if hempty : streams = [] then .error .empty
    else .ok ⟨streams,hempty,(firstDuplicate_eq_none h).1⟩

def single (stream : StreamId) : StreamDeclarations := ⟨[stream],by simp,by simp⟩

def withParticipant (declarations : StreamDeclarations) (participant : StreamId) :
    Except StreamDeclarationsError StreamDeclarations :=
  tryFromStreams (declarations.streams ++ [participant])

end StreamDeclarations

/-- Identifier of a stored command-state projection: trimmed, non-empty, at most 255
characters. -/
@[ext] structure CommandStateSnapshotId where
  value : String
  trimmed : trim value = value
  notEmpty : value ≠ ""
  lenCharMax : value.length ≤ 255

instance : DecidableEq CommandStateSnapshotId := fun a b =>
  decidable_of_iff (a.value = b.value) CommandStateSnapshotId.ext_iff.symm

/-- State after one stream was fully replayed, with the versions it represents. -/
structure CommandStateReplayCheckpoint (Value : Type) where
  streamId : StreamId
  state : Value
  streamVersions : HashMap StreamId StreamVersion

/-- A serialized state, the stream versions it includes, and one checkpoint per stream in
replay order. -/
structure CommandStateSnapshot (Value : Type) where
  state : Value
  streamVersions : HashMap StreamId StreamVersion
  replayCheckpoints : List (CommandStateReplayCheckpoint Value)

/-- `snapshot` includes every stream version of `other`. -/
def CommandStateSnapshot.covers {Value : Type} (snapshot other : CommandStateSnapshot Value) :
    Bool :=
  other.streamVersions.entries.all fun p =>
    match snapshot.streamVersions.get? p.1 with
    | some current => decide (p.2 ≤ current)
    | none => false

/-- `CommandLogic`: how a command folds events into state and decides on new ones. -/
structure CommandLogic (Any Raw Value E S : Type) where
  event : Event Any Raw E
  streamDeclarations : StreamDeclarations
  default : S
  apply : S → E → S
  handle : S → Except CommandError (List E)
  streamResolver : Option (S → List StreamId) := none
  commandStateSnapshotId : Option CommandStateSnapshotId := none
  serializeCommandStateSnapshot : S → Except CommandError Value := fun _ =>
    .error (.validationError "command declared a snapshot id without serializing its state")
  deserializeCommandStateSnapshot : Value → Except CommandError S := fun _ =>
    .error (.validationError "command declared a snapshot id without deserializing its state")

/-- Queue every stream that is not scheduled yet, in the order given. -/
def enqueueNew : List StreamId → List StreamId → Finset StreamId → List StreamId × Finset StreamId
  | [], queue, scheduled => (queue,scheduled)
  | stream :: streams, queue, scheduled =>
    if stream ∈ scheduled then enqueueNew streams queue scheduled
    else enqueueNew streams (queue ++ [stream]) (insert stream scheduled)

namespace CommandLogic

variable {Any Raw Value E S : Type} (command : CommandLogic Any Raw Value E S)

/-- Streams the resolver asks for in this state; none without a resolver. -/
def relatedStreams (state : S) : List StreamId :=
  match command.streamResolver with
  | some discoverRelatedStreams => discoverRelatedStreams state
  | none => []

def discoverRelatedStreams (state : S) (queue : List StreamId) (scheduled : Finset StreamId) :
    List StreamId × Finset StreamId :=
  enqueueNew (command.relatedStreams state) queue scheduled

end CommandLogic

section Build

variable {Any Raw E : Type}

def registerAll (expectedVersions : HashMap StreamId StreamVersion) :
    Except EventStoreError (StreamWrites Any Raw) :=
  expectedVersions.entries.foldlM (fun writes p => writes.registerStream p.1 p.2) StreamWrites.new

def buildStreamWritesFromEvents (ev : Event Any Raw E) (events : List E)
    (expectedVersions : HashMap StreamId StreamVersion) :
    Except CommandError (StreamWrites Any Raw) :=
  ((registerAll expectedVersions).bind fun writes =>
    events.foldlM (StreamWrites.append ev) writes).mapError .eventStoreError

theorem foldlM_registerStream {entries : List (Sigma fun _ : StreamId => StreamVersion)}
    (hnodup : entries.NodupKeys) (writes : StreamWrites Any Raw)
    (hfresh : ∀ p ∈ entries, p.1 ∉ writes.expectedVersions) :
    ∃ writes', entries.foldlM (fun writes p => writes.registerStream p.1 p.2) writes =
        .ok writes' ∧ writes'.entries = writes.entries ∧
      ∀ s, writes'.expectedVersions.get? s =
        (entries.dlookup s).or (writes.expectedVersions.get? s) := by
  induction entries generalizing writes with
  | nil => exact ⟨writes,rfl,rfl,by simp⟩
  | cons p entries ih =>
    obtain ⟨mid,hmid,hents,hver⟩ :=
      StreamWrites.registerStream_fresh (hfresh p List.mem_cons_self) p.2
    rw [List.nodupKeys_cons] at hnodup
    have hfresh' : ∀ q ∈ entries, q.1 ∉ mid.expectedVersions := by
      intro q hq hmem
      rw [hver,AList.mem_insert] at hmem
      rcases hmem with heq | hmem
      · exact hnodup.1 (heq ▸ List.mem_keys_of_mem hq)
      · exact hfresh q (List.mem_cons_of_mem _ hq) hmem
    obtain ⟨writes',hrun,hents',hlook⟩ := ih hnodup.2 mid hfresh'
    refine ⟨writes',?_,hents'.trans hents,?_⟩
    · rw [List.foldlM_cons,hmid]
      exact hrun
    · intro s
      rw [hlook,hver,HashMap.get?_insert]
      obtain ⟨k,v⟩ := p
      by_cases hs : s = k
      · subst hs
        have hnone : entries.dlookup s = none := List.dlookup_eq_none.mpr hnodup.1
        simp [hnone]
      · have hcons : (List.dlookup s (⟨k,v⟩ :: entries)) = entries.dlookup s :=
          List.dlookup_cons_ne entries (⟨k,v⟩ : Sigma fun _ : StreamId => StreamVersion)
            hs
        simp [hs,hcons]

theorem registerAll_spec (Any Raw : Type) (expectedVersions : HashMap StreamId StreamVersion) :
    ∃ writes : StreamWrites Any Raw, registerAll expectedVersions = .ok writes ∧
      writes.entries = [] ∧
      ∀ s, writes.expectedVersions.get? s = expectedVersions.get? s := by
  obtain ⟨writes,hrun,hents,hlook⟩ := foldlM_registerStream expectedVersions.nodupKeys
    (StreamWrites.new : StreamWrites Any Raw) (by simp [StreamWrites.new])
  refine ⟨writes,hrun,hents,fun s => ?_⟩
  rw [hlook]
  simp [StreamWrites.new,HashMap.get?,AList.lookup]

theorem buildStreamWritesFromEvents_eq_ok {ev : Event Any Raw E} {events : List E}
    {expectedVersions : HashMap StreamId StreamVersion} {writes : StreamWrites Any Raw}
    (h : buildStreamWritesFromEvents ev events expectedVersions = .ok writes) :
    (∀ s, writes.expectedVersions.get? s = expectedVersions.get? s) ∧
    List.Forall₂ (StreamWrites.IsEntry ev) events writes.entries := by
  obtain ⟨registered,hreg,hents,hlook⟩ := registerAll_spec Any Raw expectedVersions
  rw [buildStreamWritesFromEvents,hreg] at h
  simp only [Except.bind] at h
  cases hfold : events.foldlM (StreamWrites.append ev) registered with
  | error e => simp [hfold,Except.mapError] at h
  | ok w =>
    simp only [hfold,Except.mapError,Except.ok.injEq] at h
    subst h
    obtain ⟨hver,entries,hall,hw⟩ := StreamWrites.foldlM_append_eq_ok hfold
    rw [hents,List.nil_append] at hw
    exact ⟨fun s => by rw [hver,hlook],hw ▸ hall⟩

end Build

namespace Sample

/-- Whole numbers as events of one stream, stored as themselves. -/
def deposited : Event ℕ ℕ ℕ where
  streamId _ := account
  eventTypeName := "Deposited"
  typeName := "bank::Deposited"
  toRawValue := .ok
  fromStr := .ok
  box := id
  downcastRef := some
  downcastRef_box _ := rfl

def topUp : CommandLogic ℕ ℕ ℕ ℕ ℕ where
  event := deposited
  streamDeclarations := .single account
  default := 0
  apply := (· + ·)
  handle balance := .ok [balance+1]
  serializeCommandStateSnapshot := .ok
  deserializeCommandStateSnapshot := .ok

end Sample

end EventCore
