import Mathlib.Data.List.Infix

/-! Patterns over whole texts: one character of a set, any text, or any number of path components.
A set is written as single characters and ranges. -/
namespace EventCore
namespace Wildcards

inductive Specifier
  | single (c : Char)
  | range (first last : Char)
  deriving DecidableEq

def Specifier.accepts : Specifier → Char → Bool
  | .single c, d => d == c
  | .range first last, d => first ≤ d && d ≤ last

/-- A set, or with `negated` its complement. -/
def within (negated : Bool) (specifiers : List Specifier) (c : Char) : Bool :=
  (specifiers.any fun s => s.accepts c) != negated

inductive Item
  | one (accepts : Char → Bool)
  | many
  | components

def afterSeparators : List Char → List (List Char)
  | [] => []
  | c :: cs => if c = '/' then cs :: afterSeparators cs else afterSeparators cs

def matchesAll : List Item → List Char → Bool
  | [], text => text.isEmpty
  | .one accepts :: items, text =>
    match text with
    | [] => false
    | c :: rest => accepts c && matchesAll items rest
  | .many :: items, text => text.tails.any (matchesAll items)
  | .components :: items, text => (text :: afterSeparators text).any (matchesAll items)

@[simp] theorem matchesAll_one_cons {accepts : Char → Bool} {items : List Item} {c : Char}
    {text : List Char} :
    matchesAll (.one accepts :: items) (c :: text) = (accepts c && matchesAll items text) := rfl

theorem matchesAll_many {items : List Item} {text : List Char} :
    matchesAll (.many :: items) text = true ↔
      ∃ rest, rest <:+ text ∧ matchesAll items rest = true := by
  simp [matchesAll]

theorem matchesAll_many_many (items : List Item) (text : List Char) :
    matchesAll (.many :: .many :: items) text = matchesAll (.many :: items) text := by
  rw [Bool.eq_iff_iff]
  simp only [matchesAll_many]
  constructor
  · rintro ⟨middle,hmiddle,rest,hrest,hmatch⟩
    exact ⟨rest,hrest.trans hmiddle,hmatch⟩
  · rintro ⟨rest,hrest,hmatch⟩
    exact ⟨rest,hrest,rest,List.suffix_refl rest,hmatch⟩

/-- Texts that one list of items matches as another does are matched so behind the same items. -/
theorem matchesAll_append_congr {items items' : List Item}
    (h : ∀ text, matchesAll items text = matchesAll items' text) (before : List Item)
    (text : List Char) : matchesAll (before ++ items) text = matchesAll (before ++ items') text := by
  induction before generalizing text with
  | nil => exact h text
  | cons item before ih =>
    have hrest : matchesAll (before ++ items) = matchesAll (before ++ items') := funext ih
    cases item with
    | one accepts =>
      cases text with
      | nil => rfl
      | cons c text => simp [ih]
    | many => simp only [List.cons_append,matchesAll,hrest]
    | components => simp only [List.cons_append,matchesAll,hrest]

end Wildcards
end EventCore
