import EventCore.Wildcards
import Mathlib.Data.List.Basic

/-! Glob patterns with `*`, `?`, `**` as a path component, and character classes. A class is closed
by the first `]` behind its first character, and no character is an escape. -/
namespace EventCore
namespace GlobPatterns
open Wildcards

/-- `slash` says that a recursive wildcard took the separator behind it. -/
inductive Token
  | char (c : Char)
  | anyChar
  | anySequence
  | anyRecursiveSequence (slash : Bool)
  | anyWithin (negated : Bool) (body : List Char)
  deriving DecidableEq

/-- The entries of a class: three characters around a hyphen are a range. -/
def specifiers : List Char → List Specifier
  | a :: b :: c :: cs =>
    if b = '-' then .range a c :: specifiers cs else .single a :: specifiers (b :: c :: cs)
  | [a,b] => [.single a,.single b]
  | [a] => [.single a]
  | [] => []

/-- Where the reader of a pattern stands: outside, at the start of a path component or not, or in a
class. -/
inductive Mode
  | outside (atComponent : Bool)
  | inside (negated : Bool) (body : List Char)

/-- The tokens of a pattern, or none if it does not compile: three stars, a recursive wildcard that
is not a component of its own, a class that is not closed. -/
def tokens : Mode → List Char → Option (List Token)
  | .outside _, [] => some []
  | .outside atComponent, c :: cs =>
    if c = '?' then (tokens (.outside false) cs).map (.anyChar :: ·)
    else if c = '*' then
      match cs with
      | [] => some [.anySequence]
      | d :: ds =>
        if d = '*' then
          if atComponent then
            match ds with
            | [] => some [.anyRecursiveSequence false]
            | e :: es =>
              if e = '/' then (tokens (.outside true) es).map (.anyRecursiveSequence true :: ·)
              else none
          else none
        else (tokens (.outside false) (d :: ds)).map (.anySequence :: ·)
    else if c = '[' then
      match cs with
      | [] => none
      | d :: ds =>
        if d = '!' then
          match ds with
          | [] => none
          | e :: es => tokens (.inside true [e]) es
        else tokens (.inside false [d]) ds
    else (tokens (.outside (c == '/')) cs).map (.char c :: ·)
  | .inside _ _, [] => none
  | .inside negated body, c :: cs =>
    if c = ']' then (tokens (.outside false) cs).map (.anyWithin negated body :: ·)
    else tokens (.inside negated (body ++ [c])) cs

/-- A recursive wildcard stands for path components, the last one for all that is left. -/
def items : List Token → List Item
  | [] => []
  | .char c :: ts => .one (· == c) :: items ts
  | .anyChar :: ts => .one (fun _ => true) :: items ts
  | .anySequence :: ts => .many :: items ts
  | [.anyRecursiveSequence _] => [.many]
  | .anyRecursiveSequence _ :: ts => .components :: items ts
  | .anyWithin negated body :: ts => .one (within negated (specifiers body)) :: items ts

/-- A compiler of patterns that follows the documented syntax. -/
structure Documented (compile : String → Option (String → Bool)) : Prop where
  rejects : ∀ {pattern}, tokens (.outside true) pattern.toList = none → compile pattern = none
  accepts : ∀ {pattern ts}, tokens (.outside true) pattern.toList = some ts →
    ∃ verdict, compile pattern = some verdict ∧
      ∀ text, verdict text = matchesAll (items ts) text.toList

def reference (pattern : String) : Option (String → Bool) :=
  (tokens (.outside true) pattern.toList).map fun ts text => matchesAll (items ts) text.toList

theorem reference_documented : Documented reference where
  rejects h := by simp [reference,h]
  accepts h := ⟨_,by rw [reference,h]; rfl,fun _ => rfl⟩

theorem tokens_inside {negated : Bool} {body cs : List Char} {ts : List Token}
    (h : tokens (.inside negated body) cs = some ts) :
    ∃ more rest ts', ']' ∉ more ∧ cs = more ++ ']' :: rest ∧
      tokens (.outside false) rest = some ts' ∧ ts = .anyWithin negated (body ++ more) :: ts' := by
  induction cs generalizing body with
  | nil => simp [tokens] at h
  | cons c cs ih =>
    rw [tokens] at h
    split_ifs at h with hc
    · obtain ⟨ts',hts',rfl⟩ := Option.map_eq_some_iff.mp h
      exact ⟨[],cs,ts',by simp,by simp [hc],hts',by simp⟩
    · obtain ⟨more,rest,ts',hmore,rfl,hts',rfl⟩ := ih h
      refine ⟨c :: more,rest,ts',?_,rfl,hts',by simp⟩
      simpa [Ne.symm hc] using hmore

/-- The first token of a pattern, where the reader stands behind it, and what is left. -/
inductive First : List Char → Token → Bool → List Char → Prop
  | char {c : Char} {cs : List Char} (hany : c ≠ '?') (hstar : c ≠ '*') (hclass : c ≠ '[') :
      First (c :: cs) (.char c) (c == '/') cs
  | anyChar {cs : List Char} : First ('?' :: cs) .anyChar false cs
  | anySequence {cs : List Char} (h : cs.head? ≠ some '*') :
      First ('*' :: cs) .anySequence false cs
  | last : First ['*','*'] (.anyRecursiveSequence false) false []
  | component {cs : List Char} :
      First ('*' :: '*' :: '/' :: cs) (.anyRecursiveSequence true) true cs
  | anyWithin {negated : Bool} {body rest : List Char} (hne : body ≠ [])
      (hclose : ']' ∉ body.tail) (hbang : negated = false → body.head? ≠ some '!') :
      First ('[' :: ((if negated then ['!'] else []) ++ body ++ ']' :: rest))
        (.anyWithin negated body) false rest

theorem first_of_class {negated : Bool} {c : Char} {cs : List Char} {ts : List Token}
    (hbang : negated = false → c ≠ '!') (h : tokens (.inside negated [c]) cs = some ts) :
    ∃ t rest ts', First ('[' :: ((if negated then ['!'] else []) ++ c :: cs)) t false rest ∧
      tokens (.outside false) rest = some ts' ∧ ts = t :: ts' := by
  obtain ⟨more,rest,ts',hmore,rfl,hrest,rfl⟩ := tokens_inside h
  have hfirst : First ('[' :: ((if negated then ['!'] else []) ++ (c :: more) ++ ']' :: rest))
      (.anyWithin negated (c :: more)) false rest :=
    .anyWithin (by simp) hmore fun hn => by simpa using hbang hn
  rw [List.append_assoc] at hfirst
  exact ⟨_,rest,ts',hfirst,hrest,rfl⟩

theorem first_of_star {atComponent : Bool} {cs : List Char} {ts : List Token}
    (h : tokens (.outside atComponent) ('*' :: cs) = some ts) :
    ∃ t b rest ts', First ('*' :: cs) t b rest ∧ tokens (.outside b) rest = some ts' ∧
      ts = t :: ts' := by
  match cs with
  | [] => exact ⟨_,_,[],[],.anySequence (by simp),rfl,by simpa [tokens,eq_comm] using h⟩
  | d :: ds =>
    by_cases hd : d = '*'
    · subst hd
      cases atComponent with
      | false =>
        rw [tokens.eq_def] at h
        simp at h
      | true =>
        match ds with
        | [] => exact ⟨_,_,[],[],.last,rfl,by simpa [tokens,eq_comm] using h⟩
        | e :: es =>
          by_cases he : e = '/'
          · subst he
            obtain ⟨ts',hts',rfl⟩ : ∃ ts', tokens (.outside true) es = some ts' ∧
                .anyRecursiveSequence true :: ts' = ts := by simpa [tokens] using h
            exact ⟨_,_,es,ts',.component,hts',rfl⟩
          · simp [tokens,he] at h
    · obtain ⟨ts',hts',rfl⟩ : ∃ ts', tokens (.outside false) (d :: ds) = some ts' ∧
          .anySequence :: ts' = ts := by
        rw [tokens.eq_def] at h
        simpa [hd] using h
      exact ⟨_,_,_,ts',.anySequence (by simpa using hd),hts',rfl⟩

theorem first_of_bracket {atComponent : Bool} {cs : List Char} {ts : List Token}
    (h : tokens (.outside atComponent) ('[' :: cs) = some ts) :
    ∃ t rest ts', First ('[' :: cs) t false rest ∧ tokens (.outside false) rest = some ts' ∧
      ts = t :: ts' := by
  match cs with
  | [] => simp [tokens] at h
  | d :: ds =>
    by_cases hd : d = '!'
    · subst hd
      match ds with
      | [] => simp [tokens] at h
      | e :: es =>
        have hclass : tokens (.inside true [e]) es = some ts := by simpa [tokens] using h
        exact first_of_class (by simp) hclass
    · have hclass : tokens (.inside false [d]) ds = some ts := by
        rw [tokens.eq_def] at h
        simpa [hd] using h
      exact first_of_class (fun _ => hd) hclass

theorem first_of_tokens {atComponent : Bool} {c : Char} {cs : List Char} {ts : List Token}
    (h : tokens (.outside atComponent) (c :: cs) = some ts) :
    ∃ t b rest ts', First (c :: cs) t b rest ∧ tokens (.outside b) rest = some ts' ∧
      ts = t :: ts' := by
  by_cases hstar : c = '*'
  · subst hstar
    exact first_of_star h
  by_cases hclass : c = '['
  · obtain ⟨t,rest,ts',hfirst,hrest,rfl⟩ := first_of_bracket (hclass ▸ h)
    exact ⟨t,false,rest,ts',hclass ▸ hfirst,hrest,rfl⟩
  by_cases hany : c = '?'
  · subst hany
    obtain ⟨ts',hts',rfl⟩ : ∃ ts', tokens (.outside false) cs = some ts' ∧ .anyChar :: ts' = ts := by
      rw [tokens.eq_def] at h
      simpa using h
    exact ⟨_,_,cs,ts',.anyChar,hts',rfl⟩
  · obtain ⟨ts',hts',rfl⟩ : ∃ ts', tokens (.outside (c == '/')) cs = some ts' ∧
        .char c :: ts' = ts := by
      rw [tokens.eq_def] at h
      simpa [hany,hstar,hclass] using h
    exact ⟨_,_,cs,ts',.char hany hstar hclass,hts',rfl⟩

theorem tokens_induction {P : List Char → List Token → Prop} (nil : P [] [])
    (first : ∀ {c cs t b rest ts}, First (c :: cs) t b rest →
      tokens (.outside b) rest = some ts → P rest ts → P (c :: cs) (t :: ts))
    {atComponent : Bool} {cs : List Char} {ts : List Token}
    (h : tokens (.outside atComponent) cs = some ts) : P cs ts := by
  induction ts generalizing cs atComponent with
  | nil =>
    cases cs with
    | nil => exact nil
    | cons c cs =>
      obtain ⟨_,_,_,_,_,_,hts⟩ := first_of_tokens h
      cases hts
  | cons t ts ih =>
    cases cs with
    | nil => cases h
    | cons c cs =>
      obtain ⟨_,_,_,_,hfirst,hrest,hts⟩ := first_of_tokens h
      cases hts
      exact first hfirst hrest (ih hrest)

end GlobPatterns
end EventCore
