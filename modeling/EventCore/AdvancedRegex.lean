import EventCore.Wildcards
import Mathlib.Data.List.Basic

/-! The part of PostgreSQL's advanced regular expressions that anchored wildcard patterns need:
literals, escaped punctuation, `.`, `.*` and bracket expressions of characters and ranges. What
lies outside of it (groups, other quantifiers, alphanumeric escapes, collating elements and
character classes) or is an error has no reading here. -/
namespace EventCore
namespace AdvancedRegex
open Wildcards

def isPunctuation (c : Char) : Bool := c.toNat < 128 && !c.isAlphanum

/-- A character in a bracket expression, or a hyphen that asks for a range. -/
inductive BracketToken
  | plain (c : Char)
  | hyphen
  deriving DecidableEq

/-- A collating element, an equivalence class or a character class begins here. -/
def Opens (c : Char) (cs : List Char) : Prop :=
  c = '[' ∧ (cs.head? = some '.' ∨ cs.head? = some '=' ∨ cs.head? = some ':')
  deriving Decidable

/-- The tokens up to the closing bracket and the text behind it. A `]` that comes first is plain,
a hyphen is plain when it comes first or last. -/
def lexBracket : Bool → List Char → Option (List BracketToken × List Char)
  | _, [] => none
  | first, c :: cs =>
    if c = ']' then
      if first then (lexBracket false cs).map fun r => (.plain c :: r.1,r.2) else some ([],cs)
    else if c = '\\' then
      match cs with
      | [] => none
      | d :: ds =>
        if isPunctuation d then (lexBracket false ds).map fun r => (.plain d :: r.1,r.2)
        else none
    else if Opens c cs then none
    else if c = '-' ∧ first = false ∧ cs.head? ≠ some ']' then
      (lexBracket false cs).map fun r => (.hyphen :: r.1,r.2)
    else (lexBracket false cs).map fun r => (.plain c :: r.1,r.2)

/-- A hyphen cannot be the first endpoint of a range, and the endpoints are in order. -/
def parseBracket : List BracketToken → Option (List Specifier)
  | [] => some []
  | .hyphen :: _ => none
  | .plain a :: .hyphen :: .plain c :: ts =>
    if a = '-' ∨ c < a then none else (parseBracket ts).map (.range a c :: ·)
  | .plain a :: .hyphen :: .hyphen :: ts =>
    if a = '-' ∨ '-' < a then none else (parseBracket ts).map (.range a '-' :: ·)
  | [.plain _,.hyphen] => none
  | .plain a :: .plain b :: ts => (parseBracket (.plain b :: ts)).map (.single a :: ·)
  | [.plain a] => some [.single a]

/-- What `[` opens: its item and the text behind the bracket expression. -/
def bracket (text : List Char) : Option (Item × List Char) :=
  match text with
  | '^' :: cs => (lexBracket true cs).bind fun r =>
      (parseBracket r.1).map fun specifiers => (.one (within true specifiers),r.2)
  | cs => (lexBracket true cs).bind fun r =>
      (parseBracket r.1).map fun specifiers => (.one (within false specifiers),r.2)

/-- The characters that are not ordinary outside of bracket expressions. -/
def special : List Char := ['.','^','$','*','+','?','(',')','[','{','|','\\']

/-- The items between the anchors. The fuel bounds the number of items. -/
def branch : ℕ → List Char → Option (List Item)
  | 0, _ => none
  | _, [] => none
  | fuel + 1, c :: cs =>
    if c = '$' then if cs = [] then some [] else none
    else if c = '.' then
      match cs with
      | [] => none
      | d :: ds =>
        if d = '*' then (branch fuel ds).map (.many :: ·)
        else (branch fuel (d :: ds)).map (.one (fun _ => true) :: ·)
    else if c = '\\' then
      match cs with
      | [] => none
      | d :: ds =>
        if isPunctuation d then (branch fuel ds).map (.one (· == d) :: ·) else none
    else if c = '[' then (bracket cs).bind fun r => (branch fuel r.2).map (r.1 :: ·)
    else if c ∈ special then none
    else (branch fuel cs).map (.one (· == c) :: ·)

def parse : List Char → Option (List Item)
  | [] => none
  | c :: cs => if c = '^' then branch (cs.length+1) cs else none

/-- An engine that follows the documented syntax where it is read here. -/
def Documented (compile : String → Option (String → Bool)) : Prop :=
  ∀ {regex : String} {items : List Item}, parse regex.toList = some items →
    ∃ verdict, compile regex = some verdict ∧
      ∀ text, verdict text = matchesAll items text.toList

def reference (regex : String) : Option (String → Bool) :=
  (parse regex.toList).map fun items text => matchesAll items text.toList

theorem reference_documented : Documented reference :=
  fun h => ⟨_,by rw [reference,h]; rfl,fun _ => rfl⟩

section Brackets

variable {first : Bool} {c : Char} {cs rest : List Char}

theorem lexBracket_close : lexBracket false (']' :: rest) = some ([],rest) := by
  rw [lexBracket.eq_def]
  simp

theorem lexBracket_plain (hclose : c ≠ ']') (hescape : c ≠ '\\') (hopens : ¬ Opens c cs)
    (hhyphen : ¬ (c = '-' ∧ first = false ∧ cs.head? ≠ some ']')) :
    lexBracket first (c :: cs) =
      (lexBracket false cs).map fun r => (.plain c :: r.1,r.2) := by
  rw [lexBracket.eq_def]
  simp only [if_neg hclose,if_neg hescape,if_neg hopens,if_neg hhyphen]

theorem lexBracket_first : lexBracket true (']' :: rest) =
    (lexBracket false rest).map fun r => (.plain ']' :: r.1,r.2) := by
  rw [lexBracket.eq_def]
  simp

theorem lexBracket_escaped (h : isPunctuation c = true) : lexBracket first ('\\' :: c :: cs) =
    (lexBracket false cs).map fun r => (.plain c :: r.1,r.2) := by
  rw [lexBracket.eq_def]
  simp [h]

theorem lexBracket_hyphen (h : cs.head? ≠ some ']') :
    lexBracket false ('-' :: cs) =
      (lexBracket false cs).map fun r => (.hyphen :: r.1,r.2) := by
  rw [lexBracket.eq_def]
  simp [Opens,h]

theorem parseBracket_single {a : Char} {ts : List BracketToken} {specifiers : List Specifier}
    (hhead : ts.head? ≠ some .hyphen) (h : parseBracket ts = some specifiers) :
    parseBracket (.plain a :: ts) = some (.single a :: specifiers) := by
  match ts with
  | [] =>
    obtain rfl := Option.some.inj h
    rfl
  | .plain b :: ts => rw [parseBracket,h]; rfl
  | .hyphen :: ts => exact absurd rfl hhead

end Brackets

theorem branch_any {text : List Char} (hne : text ≠ []) (hstar : text.head? ≠ some '*')
    (fuel : ℕ) :
    branch (fuel+1) ('.' :: text) = (branch fuel text).map (.one (fun _ => true) :: ·) := by
  obtain ⟨d,ds,rfl⟩ := List.exists_cons_of_ne_nil hne
  have hd : d ≠ '*' := by simpa using hstar
  simp [branch,hd]

theorem branch_many (fuel : ℕ) (text : List Char) :
    branch (fuel+1) ('.' :: '*' :: text) = (branch fuel text).map (.many :: ·) := by
  simp [branch]

theorem branch_bracket {text rest : List Char} {item : Item}
    (h : bracket text = some (item,rest)) (fuel : ℕ) :
    branch (fuel+1) ('[' :: text) = (branch fuel rest).map (item :: ·) := by
  simp [branch,h]

theorem branch_escaped {c : Char} (h : isPunctuation c = true) (fuel : ℕ) (text : List Char) :
    branch (fuel+1) ('\\' :: c :: text) = (branch fuel text).map (.one (· == c) :: ·) := by
  simp [branch,h]

theorem branch_ordinary {c : Char} (h : c ∉ special) (fuel : ℕ) (text : List Char) :
    branch (fuel+1) (c :: text) = (branch fuel text).map (.one (· == c) :: ·) := by
  have hne : ∀ d ∈ special, c ≠ d := fun d hd he => h (he ▸ hd)
  have hend : c ≠ '$' := hne _ (by simp [special])
  have hdot : c ≠ '.' := hne _ (by simp [special])
  have hbackslash : c ≠ '\\' := hne _ (by simp [special])
  have hopen : c ≠ '[' := hne _ (by simp [special])
  rw [branch.eq_def]
  simp [hend,hdot,hbackslash,hopen,h]

end AdvancedRegex
end EventCore
