import Mathlib.Data.Finset.Basic
import Mathlib.Data.List.AList
import Mathlib.Data.List.DropRight
import Mathlib.Data.PNat.Basic

/-! Domain types shared by every store: stream identifiers, versions, the batch of
writes a command hands to a store, and the errors a store reports. -/
namespace EventCore

/-- Insertion-ordered entries stand for the unspecified iteration order of the source's maps. -/
abbrev HashMap (K V : Type) := AList fun _ : K => V

namespace HashMap

variable {K V : Type} [DecidableEq K]

def get? (m : HashMap K V) (k : K) : Option V := AList.lookup k m

@[simp] theorem get?_empty (k : K) : get? (∅ : HashMap K V) k = none := AList.lookup_empty k

@[simp] theorem get?_insert_self (m : HashMap K V) (k : K) (v : V) :
    get? (AList.insert k v m) k = some v := AList.lookup_insert m

@[simp] theorem get?_insert_ne (m : HashMap K V) {k k' : K} (v : V) (h : k' ≠ k) :
    get? (AList.insert k v m) k' = get? m k' := AList.lookup_insert_ne h

theorem get?_insert (m : HashMap K V) (k k' : K) (v : V) :
    get? (AList.insert k v m) k' = if k' = k then some v else get? m k' := by
  split_ifs with h
  · subst h; simp
  · simp [h]

theorem get?_isSome_iff {m : HashMap K V} {k : K} : (get? m k).isSome ↔ k ∈ m :=
  AList.lookup_isSome

theorem mem_of_get? {m : HashMap K V} {k : K} {v : V} (h : get? m k = some v) : k ∈ m := by
  rw [← get?_isSome_iff,h]
  rfl

theorem exists_of_mem {m : HashMap K V} {k : K} (h : k ∈ m) : ∃ v, get? m k = some v :=
  Option.isSome_iff_exists.mp (get?_isSome_iff.mpr h)

theorem get?_eq_none_iff {m : HashMap K V} {k : K} : get? m k = none ↔ k ∉ m :=
  AList.lookup_eq_none

theorem mem_entries_iff {m : HashMap K V} {k : K} {v : V} :
    (⟨k,v⟩ : Sigma fun _ : K => V) ∈ m.entries ↔ get? m k = some v :=
  AList.mem_lookup_iff.symm

end HashMap

/-- Number of events of a stream; the source counts in `usize`. -/
abbrev StreamVersion := ℕ

abbrev Uuid := ℕ

/-- Unicode `White_Space`, the property that `str::trim` removes. -/
def isWhitespace (c : Char) : Bool :=
  (9 ≤ c.toNat && c.toNat ≤ 13) || c.toNat == 0x20 || c.toNat == 0x85 || c.toNat == 0xA0 ||
  c.toNat == 0x1680 || (0x2000 ≤ c.toNat && c.toNat ≤ 0x200A) || c.toNat == 0x2028 ||
  c.toNat == 0x2029 || c.toNat == 0x202F || c.toNat == 0x205F || c.toNat == 0x3000

def trimChars (cs : List Char) : List Char := (cs.dropWhile isWhitespace).rdropWhile isWhitespace

def trim (s : String) : String := String.ofList (trimChars s.toList)

theorem dropWhile_trimChars (cs : List Char) :
    (trimChars cs).dropWhile isWhitespace = trimChars cs := by
  rw [List.dropWhile_eq_self_iff]
  intro hlen hws
  have hpre : trimChars cs <+: cs.dropWhile isWhitespace := List.rdropWhile_prefix isWhitespace _
  have hlen' : 0 < (cs.dropWhile isWhitespace).length := hlen.trans_le hpre.length_le
  have hhead := List.dropWhile_get_zero_not isWhitespace cs hlen'
  have hget : (trimChars cs)[0] = (cs.dropWhile isWhitespace)[0] := hpre.getElem hlen
  simp_all

@[simp] theorem trim_trim (s : String) : trim (trim s) = trim s := by
  have h : trimChars (trimChars s.toList) = trimChars s.toList := by
    rw [trimChars,dropWhile_trimChars,trimChars,List.rdropWhile_idempotent]
  simp [trim,h]

theorem mem_of_mem_trim {c : Char} {s : String} (h : c ∈ (trim s).toList) : c ∈ s.toList := by
  rw [trim,String.toList_ofList] at h
  exact (List.dropWhile_suffix isWhitespace).subset
    ((List.rdropWhile_prefix isWhitespace _).subset h)

/-- Reject `*`, `?`, `[` and `]`, which stream patterns reserve. -/
def noGlobMetacharacters (s : String) : Bool :=
  s.toList.all fun c => !(['*','?','[',']'].contains c)

/-- A stream identifier: trimmed, non-empty, at most 255 characters, free of glob
metacharacters. -/
structure StreamId where
  value : String
  trimmed : trim value = value
  notEmpty : value ≠ ""
  lenCharMax : value.length ≤ 255
  predicate : noGlobMetacharacters value = true
  deriving DecidableEq

inductive StreamIdError
  | notEmptyViolated | lenCharMaxViolated | predicateViolated
  deriving DecidableEq

def StreamId.tryNew (s : String) : Except StreamIdError StreamId :=
  if hempty : trim s = "" then .error .notEmptyViolated
  else if hlen : (trim s).length ≤ 255 then
    if hpred : noGlobMetacharacters (trim s) = true then
      .ok ⟨trim s,trim_trim s,hempty,hlen,hpred⟩
    else .error .predicateViolated
  else .error .lenCharMaxViolated

@[simp] theorem StreamId.tryNew_value (id : StreamId) : StreamId.tryNew id.value = .ok id := by
  obtain ⟨s,htrim,hempty,hlen,hpred⟩ := id
  simp [StreamId.tryNew,htrim,hempty,hlen,hpred]

theorem StreamId.value_of_tryNew {s : String} {id : StreamId} (h : StreamId.tryNew s = .ok id) :
    id.value = trim s := by
  unfold StreamId.tryNew at h
  split_ifs at h
  rw [← Except.ok.inj h]

theorem StreamId.value_injective : Function.Injective StreamId.value := by
  rintro ⟨s,_,_,_,_⟩ ⟨t,_,_,_,_⟩ h
  simpa using h

/-- The store operation that an infrastructure failure is reported for. -/
inductive Operation
  | readStream | appendEvents | beginTransaction | setExpectedVersions | commitTransaction
  deriving DecidableEq

inductive EventStoreError
  | conflictingExpectedVersions (streamId : StreamId) (firstVersion secondVersion : StreamVersion)
  | undeclaredStream (streamId : StreamId)
  | serializationFailed (streamId : StreamId) (detail : String)
  | deserializationFailed (streamId : StreamId) (detail : String)
  | storeFailure (operation : Operation)
  | versionConflict (streamId : StreamId) (expected actual : StreamVersion)
  deriving DecidableEq

/-- Failures a command run reports; a business rule violation is carried as its text. -/
inductive CommandError
  | businessRuleViolation (error : String)
  | concurrencyError (retries : ℕ)
  | eventStoreError (error : EventStoreError)
  | validationError (message : String)
  deriving DecidableEq

/-- Compare every expected version with the current one, in map order; the first
mismatch is the conflict reported. -/
def checkExpectedVersions (current : StreamId → StreamVersion) :
    List (Sigma fun _ : StreamId => StreamVersion) → Except EventStoreError Unit
  | [] => .ok ()
  | ⟨streamId,expected⟩ :: rest =>
    if current streamId ≠ expected then
      .error (.versionConflict streamId expected (current streamId))
    else checkExpectedVersions current rest

theorem checkExpectedVersions_eq_ok {current : StreamId → StreamVersion}
    {expected : List (Sigma fun _ : StreamId => StreamVersion)} :
    checkExpectedVersions current expected = .ok () ↔ ∀ p ∈ expected, current p.1 = p.2 := by
  induction expected with
  | nil => simp [checkExpectedVersions]
  | cons p rest ih =>
    unfold checkExpectedVersions
    split_ifs with h
    · simp [h]
    · simp only [ne_eq,not_not] at h
      simp [ih,h]

theorem checkExpectedVersions_eq_error {current : StreamId → StreamVersion}
    {expected : List (Sigma fun _ : StreamId => StreamVersion)} {e : EventStoreError}
    (h : checkExpectedVersions current expected = .error e) :
    ∃ p ∈ expected, current p.1 ≠ p.2 ∧ e = .versionConflict p.1 p.2 (current p.1) := by
  induction expected with
  | nil => simp [checkExpectedVersions] at h
  | cons p rest ih =>
    unfold checkExpectedVersions at h
    split_ifs at h with hne
    · exact ⟨p,List.mem_cons_self,hne,(Except.error.inj h).symm⟩
    · obtain ⟨q,hq,hne',he⟩ := ih h
      exact ⟨q,List.mem_cons_of_mem _ hq,hne',he⟩

section Writes

variable (Any Raw : Type)

/-- The `Event` trait of a payload type `E`: its stream, its stored type name, its
JSON text in `Raw` and its type-erased form in `Any`. -/
structure Event (E : Type) where
  streamId : E → StreamId
  eventTypeName : String
  /-- `std::any::type_name`, used in downcast errors only. -/
  typeName : String
  toRawValue : E → Except String Raw
  fromStr : Raw → Except String E
  box : E → Any
  downcastRef : Any → Option E
  downcastRef_box : ∀ e, downcastRef (box e) = some e

structure StreamWriteEntry where
  streamId : StreamId
  event : Any
  eventType : String
  eventData : Raw

/-- A batch in the making: every entry belongs to a registered stream. -/
structure StreamWrites where
  entries : List (StreamWriteEntry Any Raw)
  expectedVersions : HashMap StreamId StreamVersion
  declared : ∀ e ∈ entries, e.streamId ∈ expectedVersions

end Writes

attribute [simp] Event.downcastRef_box

namespace StreamWrites

variable {Any Raw E : Type}

def new : StreamWrites Any Raw := ⟨[],∅,by simp⟩

def registerStream (writes : StreamWrites Any Raw) (streamId : StreamId)
    (expectedVersion : StreamVersion) : Except EventStoreError (StreamWrites Any Raw) :=
  match writes.expectedVersions.get? streamId with
  | none => .ok
      { writes with
        expectedVersions := writes.expectedVersions.insert streamId expectedVersion
        declared := fun e he => (AList.mem_insert _).mpr (.inr (writes.declared e he)) }
  | some firstVersion =>
    if firstVersion ≠ expectedVersion then
      .error (.conflictingExpectedVersions streamId firstVersion expectedVersion)
    else .ok writes

/-- Serialize the event once and add it to the batch of its registered stream. -/
def append (ev : Event Any Raw E) (writes : StreamWrites Any Raw) (event : E) :
    Except EventStoreError (StreamWrites Any Raw) :=
  if h : ev.streamId event ∈ writes.expectedVersions then
    match ev.toRawValue event with
    | .error detail => .error (.serializationFailed (ev.streamId event) detail)
    | .ok eventData => .ok
        { writes with
          entries := writes.entries ++
            [⟨ev.streamId event,ev.box event,ev.eventTypeName,eventData⟩]
          declared := by
            intro e he
            rcases List.mem_append.mp he with he | he
            · exact writes.declared e he
            · exact List.mem_singleton.mp he ▸ h }
  else .error (.undeclaredStream (ev.streamId event))

def textsOf (entries : List (StreamWriteEntry Any Raw)) (streamId : StreamId) : List Raw :=
  (entries.filter fun entry => entry.streamId = streamId).map StreamWriteEntry.eventData

/-- The entry `append` adds for an event whose JSON text is `eventData`. -/
def IsEntry (ev : Event Any Raw E) (event : E) (entry : StreamWriteEntry Any Raw) : Prop :=
  entry.streamId = ev.streamId event ∧ entry.event = ev.box event ∧
  entry.eventType = ev.eventTypeName ∧ ev.toRawValue event = .ok entry.eventData

theorem registerStream_fresh {writes : StreamWrites Any Raw} {streamId : StreamId}
    (h : streamId ∉ writes.expectedVersions) (v : StreamVersion) :
    ∃ writes', writes.registerStream streamId v = .ok writes' ∧
      writes'.entries = writes.entries ∧
      writes'.expectedVersions = writes.expectedVersions.insert streamId v := by
  rw [registerStream,HashMap.get?_eq_none_iff.mpr h]
  exact ⟨_,rfl,rfl,rfl⟩

theorem append_eq_ok {ev : Event Any Raw E} {writes writes' : StreamWrites Any Raw} {event : E}
    (h : append ev writes event = .ok writes') :
    ev.streamId event ∈ writes.expectedVersions ∧
    writes'.expectedVersions = writes.expectedVersions ∧
    ∃ entry, IsEntry ev event entry ∧ writes'.entries = writes.entries ++ [entry] := by
  unfold append at h
  split_ifs at h with hmem
  cases hraw : ev.toRawValue event with
  | error detail => simp [hraw] at h
  | ok eventData =>
    simp only [hraw,Except.ok.injEq] at h
    subst h
    exact ⟨hmem,rfl,_,⟨rfl,rfl,rfl,hraw⟩,rfl⟩

theorem foldlM_append_eq_ok {ev : Event Any Raw E} {events : List E}
    {writes writes' : StreamWrites Any Raw}
    (h : events.foldlM (append ev) writes = .ok writes') :
    writes'.expectedVersions = writes.expectedVersions ∧
    ∃ entries, List.Forall₂ (IsEntry ev) events entries ∧
      writes'.entries = writes.entries ++ entries := by
  induction events generalizing writes with
  | nil =>
    cases (Except.ok.inj h : writes = writes')
    exact ⟨rfl,[],.nil,by simp⟩
  | cons event events ih =>
    rw [List.foldlM_cons] at h
    cases happ : append ev writes event with
    | error e => simp [happ,bind,Except.bind] at h
    | ok mid =>
      rw [happ] at h
      obtain ⟨_,hver,entry,hentry,hmid⟩ := append_eq_ok happ
      obtain ⟨hver',entries,hall,hents⟩ := ih h
      refine ⟨hver'.trans hver,entry :: entries,.cons hentry hall,?_⟩
      rw [hents,hmid,List.append_assoc,List.singleton_append]

end StreamWrites

namespace Sample

def account : StreamId := ⟨"account-1",by decide,by decide,by decide,by decide⟩

def savings : StreamId := ⟨"account-2",by decide,by decide,by decide,by decide⟩

def cash : StreamId := ⟨"account",by decide,by decide,by decide,by decide⟩

end Sample

end EventCore
