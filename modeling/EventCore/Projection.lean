import EventCore.Types

/-! Pages and filters of the event readers, and projectors with their failure decisions. -/
namespace EventCore

/-- A literal prefix of stream identifiers, validated like an identifier. -/
@[ext] structure StreamPrefix where
  value : String
  trimmed : trim value = value
  notEmpty : value ≠ ""
  lenCharMax : value.length ≤ 255
  predicate : noGlobMetacharacters value = true

instance : DecidableEq StreamPrefix := fun a b =>
  decidable_of_iff (a.value = b.value) StreamPrefix.ext_iff.symm

/-- A glob pattern for whole stream identifiers; that it compiles is the glob library's check. -/
@[ext] structure StreamPattern where
  value : String
  trimmed : trim value = value
  notEmpty : value ≠ ""
  lenCharMax : value.length ≤ 255

instance : DecidableEq StreamPattern := fun a b =>
  decidable_of_iff (a.value = b.value) StreamPattern.ext_iff.symm

structure EventPage where
  afterPosition : Option Uuid
  limit : ℕ
  deriving DecidableEq

namespace EventPage

def first (limit : ℕ) : EventPage := ⟨none,limit⟩

def after (position : Uuid) (limit : ℕ) : EventPage := ⟨some position,limit⟩

/-- The page after the last event returned; none after an empty page. -/
def nextFromResults {E : Type} (page : EventPage) (events : List (E × Uuid)) : Option EventPage :=
  events.getLast?.map fun e => ⟨some e.2,page.limit⟩

end EventPage

structure EventFilter where
  streamPrefix : Option StreamPrefix
  streamPattern : Option StreamPattern
  eventType : Option String
  deriving DecidableEq

namespace EventFilter

def all : EventFilter := ⟨none,none,none⟩

def ofPrefix (p : StreamPrefix) : EventFilter := ⟨some p,none,none⟩

def pattern (p : StreamPattern) : EventFilter := ⟨none,some p,none⟩

def withEventType (filter : EventFilter) (eventType : String) : EventFilter :=
  { filter with eventType := some eventType }

end EventFilter

/-- `position` lies after the cursor; everything lies after no cursor. -/
def IsAfter (cursor : Option Uuid) (position : Uuid) : Prop :=
  match cursor with
  | none => True
  | some c => c < position

instance (cursor : Option Uuid) (position : Uuid) : Decidable (IsAfter cursor position) := by
  unfold IsAfter; cases cursor <;> infer_instance

@[simp] theorem isAfter_none (position : Uuid) : IsAfter none position := trivial

@[simp] theorem isAfter_some {c position : Uuid} : IsAfter (some c) position ↔ c < position :=
  Iff.rfl

theorem IsAfter.mono {cursor : Option Uuid} {p q : Uuid} (h : IsAfter cursor p) (hpq : p < q) :
    IsAfter cursor q := by
  cases cursor with
  | none => trivial
  | some c => exact Nat.lt_trans h hpq

inductive FailureStrategy
  | fatal | skip | retry
  deriving DecidableEq

structure FailureContext (Err : Type) where
  error : Err
  position : Uuid
  retryCount : ℕ

/-- A projector with state `P`, context `X` and errors `Err`. -/
structure Projector (P E X Err : Type) where
  name : String
  eventTypeName : String
  defaultContext : X
  apply : P → E → Uuid → X → Except Err Unit × P × X
  onError : P → FailureContext Err → FailureStrategy × P := fun self _ => (.fatal,self)

inductive ProjectionError
  | failed (message : String)
  | leadershipError (message : String)
  deriving DecidableEq

end EventCore
