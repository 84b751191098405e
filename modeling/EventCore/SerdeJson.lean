import EventCore.FileStore
import EventCore.JsonTree

/-! Event types through `serde_json` in its default build: JSON text, the `Value` it parses into,
and what a decoder is shown of each. Text is taken as its syntax tree. -/
namespace EventCore
namespace SerdeJson
open JsonTree

/-- A number as it is written: an integer of any size, or one with a fraction or an exponent. -/
inductive Literal
  | int (n : ℤ)
  | float (digits : String)
  deriving DecidableEq

abbrev Text := Document Literal

/-- An `i64` or a `u64`. -/
abbrev Fits (n : ℤ) : Prop := -2^63 ≤ n ∧ n < 2^64

/-- Conversion of literals to `f64`, with the ones that are out of its range. -/
structure Rounding (F : Type) where
  nearest : Literal → F
  overflows : Literal → Bool
  overflows_int : ∀ n : ℤ, Fits n → overflows (.int n) = false

inductive Number (F : Type)
  | posInt (n : ℕ) (fits : n < 2^64)
  | negInt (n : ℤ) (fits : -2^63 ≤ n ∧ n < 0)
  | float (f : F)

/-- `serde_json::Value`. -/
abbrev Value (F : Type) := Document (Number F)

inductive Scalar (F : Type)
  | int (n : ℤ)
  | float (f : F)

variable {Any F E : Type}

/-- An integer outside both `u64` and `i64` becomes a float. -/
def Number.ofLiteral (rounding : Rounding F) : Literal → Number F
  | .int n =>
    if h : 0 ≤ n ∧ n < 2^64 then .posInt n.toNat (by omega)
    else if h : -2^63 ≤ n ∧ n < 0 then .negInt n h
    else .float (rounding.nearest (.int n))
  | .float digits => .float (rounding.nearest (.float digits))

def Number.scalar : Number F → Scalar F
  | .posInt n _ => .int n
  | .negInt n _ => .int n
  | .float f => .float f

def Literal.scalar (rounding : Rounding F) : Literal → Scalar F
  | .int n => .int n
  | .float digits => .float (rounding.nearest (.float digits))

/-- `from_str::<Value>`: objects are read into maps sorted by key. -/
def valueFromStr (rounding : Rounding F) (text : Text) : Option (Value F) :=
  if text.numbers.any rounding.overflows then none
  else some (text.keyOrdered.map (Number.ofLiteral rounding))

/-- An event type: its stream, its names, its erased form, and its two serde implementations. -/
structure JsonEvent (Any F E : Type) where
  streamId : E → StreamId
  eventTypeName : String
  typeName : String
  box : E → Any
  downcastRef : Any → Option E
  downcastRef_box : ∀ e, downcastRef (box e) = some e
  serialize : E → Except String Text
  deserialize : Document (Scalar F) → Except String E

def Literal.fits : Literal → Bool
  | .int n => Fits n
  | .float _ => true

namespace JsonEvent

variable (ev : JsonEvent Any F E) (rounding : Rounding F)

def fromStr (text : Text) : Except String E := ev.deserialize (text.map (Literal.scalar rounding))

def fromValue (value : Value F) : Except String E := ev.deserialize (value.map Number.scalar)

/-- `to_value` refuses the integers that a `Value` cannot hold. -/
def toValue (e : E) : Except String (Value F) :=
  match ev.serialize e with
  | .error detail => .error detail
  | .ok text =>
    if text.numbers.all Literal.fits then .ok (text.keyOrdered.map (Number.ofLiteral rounding))
    else .error "number out of range"

def event : Event Any Text E where
  streamId := ev.streamId
  eventTypeName := ev.eventTypeName
  typeName := ev.typeName
  toRawValue := ev.serialize
  fromStr := ev.fromStr rounding
  box := ev.box
  downcastRef := ev.downcastRef
  downcastRef_box := ev.downcastRef_box

def form : FileStore.ValueForm (Value F) E where
  streamId := ev.streamId
  eventTypeName := ev.eventTypeName
  toValue := ev.toValue rounding
  fromValue := ev.fromValue

def FloatFree (text : Text) : Prop := ∀ literal ∈ text.numbers, ∃ n, literal = .int n

/-- What decodes to an event that is written without floats had none itself, as the integer types
of serde reject floats. -/
def RejectsFloats : Prop :=
  ∀ document e text, ev.deserialize document = .ok e → ev.serialize e = .ok text →
    FloatFree text → ∀ f, .float f ∉ document.numbers

/-- Every integer of the text is an `i64` or a `u64`, and the text still decodes to the event with
the members of its objects in key order. -/
structure SurvivesValue (text : Text) (e : E) : Prop where
  inRange : ∀ n, .int n ∈ text.keyOrdered.numbers → Fits n
  orderFree : ev.fromStr rounding text.keyOrdered = .ok e

end JsonEvent

section Lemmas

variable {ev : JsonEvent Any F E} {rounding : Rounding F}
open JsonEvent

theorem scalar_ofLiteral {n : ℤ} (h : Fits n) :
    (Number.ofLiteral rounding (.int n)).scalar = .int n := by
  simp only [Number.ofLiteral]
  split_ifs with hpos hneg
  · simp [Number.scalar,hpos.1]
  · rfl
  · omega

theorem scalar_ofLiteral_outside {n : ℤ} (h : ¬ Fits n) :
    (Number.ofLiteral rounding (.int n)).scalar = .float (rounding.nearest (.int n)) := by
  simp only [Number.ofLiteral]
  split_ifs with hpos hneg
  · omega
  · omega
  · rfl

/-- Where all integers fit, a `Value` shows a decoder what the text in key order does. -/
theorem valueFromStr_scalars {text : Text} (hfloat : FloatFree text)
    (hrange : ∀ n, .int n ∈ text.keyOrdered.numbers → Fits n) :
    (text.keyOrdered.map (Number.ofLiteral rounding)).map Number.scalar =
      text.keyOrdered.map (Literal.scalar rounding) := by
  rw [Document.map_map]
  refine Document.map_congr _ fun literal hmem => ?_
  obtain ⟨n,rfl⟩ := hfloat literal (text.numbers_keyOrdered_subset hmem)
  exact scalar_ofLiteral (hrange n hmem)

theorem valueFromStr_eq_some {text : Text} {value : Value F}
    (h : valueFromStr rounding text = some value) :
    value = text.keyOrdered.map (Number.ofLiteral rounding) := by
  unfold valueFromStr at h
  split_ifs at h
  exact (Option.some.inj h).symm

theorem JsonEvent.SurvivesValue.valueFromStr_keyOrdered {text : Text} {e : E}
    (h : ev.SurvivesValue rounding text e) (hfloat : FloatFree text) :
    valueFromStr rounding text.keyOrdered =
      some (text.keyOrdered.map (Number.ofLiteral rounding)) := by
  have hnone : ¬ text.keyOrdered.numbers.any rounding.overflows = true := by
    rw [List.any_eq_true]
    rintro ⟨literal,hmem,hover⟩
    obtain ⟨n,rfl⟩ := hfloat literal (text.numbers_keyOrdered_subset hmem)
    rw [rounding.overflows_int n (h.inRange n hmem)] at hover
    cases hover
  rw [valueFromStr,if_neg hnone,Document.keyOrdered_keyOrdered]

theorem fromValue_of_survives {text : Text} {e : E} (hfloat : FloatFree text)
    (h : ev.SurvivesValue rounding text e) :
    ev.fromValue (text.keyOrdered.map (Number.ofLiteral rounding)) = .ok e := by
  rw [JsonEvent.fromValue,valueFromStr_scalars hfloat h.inRange]
  exact h.orderFree

/-- A type that rejects floats reads its event back through a `Value` only if no integer was
rounded. -/
theorem survives_of_fromValue {text : Text} {e : E} (hstrict : ev.RejectsFloats)
    (hfloat : FloatFree text) (htext : ev.serialize e = .ok text)
    (h : ev.fromValue (text.keyOrdered.map (Number.ofLiteral rounding)) = .ok e) :
    ev.SurvivesValue rounding text e := by
  have hrange : ∀ n, .int n ∈ text.keyOrdered.numbers → Fits n := by
    intro n hmem
    by_contra hout
    refine hstrict _ e text h htext hfloat (rounding.nearest (.int n)) ?_
    rw [Document.numbers_map,Document.numbers_map,List.map_map]
    exact List.mem_map.mpr ⟨_,hmem,scalar_ofLiteral_outside hout⟩
  refine ⟨hrange,?_⟩
  rw [JsonEvent.fromValue,valueFromStr_scalars hfloat hrange] at h
  exact h

end Lemmas

end SerdeJson
end EventCore
