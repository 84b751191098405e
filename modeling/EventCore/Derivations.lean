import Mathlib.Data.Set.Basic

/-! What follows by rules from what is given, and what follows without one element. -/
namespace EventCore
namespace Derivations

variable {α : Type*} {given : α → Prop} {rule : List α → α → Prop}

/-- The least set that has what is given and, with the premises of a rule, its conclusion. -/
inductive Derivable (given : α → Prop) (rule : List α → α → Prop) : α → Prop
  | given {a : α} (h : given a) : Derivable given rule a
  | rule {premises : List α} {a : α} (h : rule premises a)
      (hpremises : ∀ p ∈ premises, Derivable given rule p) : Derivable given rule a

theorem Derivable.least {P : α → Prop} (hgiven : ∀ a, given a → P a)
    (hrule : ∀ premises a, rule premises a → (∀ p ∈ premises, P p) → P a) {a : α}
    (h : Derivable given rule a) : P a := by
  induction h with
  | given h => exact hgiven _ h
  | rule h _ ih => exact hrule _ _ h ih

theorem Derivable.mono {given' : α → Prop} {rule' : List α → α → Prop}
    (hgiven : ∀ a, given a → given' a) (hrule : ∀ premises a, rule premises a → rule' premises a)
    {a : α} (h : Derivable given rule a) : Derivable given' rule' a :=
  h.least (fun a ha => .given (hgiven a ha))
    fun premises a ha hpremises => .rule (hrule premises a ha) hpremises

/-- What follows without ever concluding one element. -/
def Without (given : α → Prop) (rule : List α → α → Prop) (t : α) : α → Prop :=
  Derivable (fun a => given a ∧ a ≠ t) fun premises a => rule premises a ∧ a ≠ t

theorem Without.derivable {t a : α} (h : Without given rule t a) : Derivable given rule a :=
  h.mono (fun _ h => h.1) fun _ _ h => h.1

theorem not_without_self {t : α} : ¬ Without given rule t t := by
  intro h
  have hne : ∀ {a : α}, Without given rule t a → a ≠ t := by
    intro a ha
    cases ha with
    | given h => exact h.2
    | rule h => exact h.2
  exact hne h rfl

/-- The last step to an element, from premises that do not need it. -/
def Independent (given : α → Prop) (rule : List α → α → Prop) (t : α) : Prop :=
  given t ∨ ∃ premises, rule premises t ∧ ∀ p ∈ premises, Without given rule t p

/-- A derivation comes to the element by a step that does not need it, or does without it. -/
theorem Derivable.without_or {t a : α} (h : Derivable given rule a) :
    Without given rule t a ∨ Independent given rule t := by
  induction h with
  | @given a h =>
    by_cases he : a = t
    · exact .inr (.inl (he ▸ h))
    · exact .inl (.given ⟨h,he⟩)
  | @rule premises a h _ ih =>
    by_cases hpremises : ∀ p ∈ premises, Without given rule t p
    · by_cases he : a = t
      · exact .inr (.inr ⟨premises,he ▸ h,hpremises⟩)
      · exact .inl (.rule ⟨h,he⟩ hpremises)
    · obtain ⟨p,hp,hnot⟩ : ∃ p ∈ premises, ¬ Without given rule t p := by
        simpa using hpremises
      exact .inr ((ih p hp).resolve_left hnot)

/-- An element can be derived exactly if it can be without having it first. -/
theorem derivable_iff_independent {t : α} :
    Derivable given rule t ↔ Independent given rule t := by
  constructor
  · exact fun h => (h.without_or).resolve_left not_without_self
  · rintro (h | ⟨premises,h,hpremises⟩)
    · exact .given h
    · exact .rule h fun p hp => (hpremises p hp).derivable

end Derivations
end EventCore
