import EventCore.GlobToRegex
import EventCore.Projection

/-! Stream patterns pushed down to the `~` operator. The translation copies what stands in a
character class as it is, but the two pattern languages do not read every class alike. -/
namespace EventCore
namespace GlobPushdown
open Wildcards GlobPatterns AdvancedRegex GlobToRegex

/-- Whether the translation is in a character class, and what it has collected of it. -/
inductive Reading
  | outside
  | inside (charClass : List Char)

def metacharacters : List Char :=
  ['.','^','$','*','+','?','(',')','[',']','{','}','|','\\']

def regexEscape (literal : List Char) : List Char :=
  literal.flatMap fun c => if c ∈ metacharacters then ['\\',c] else [c]

/-- The loop over the characters. The last equation is the unclosed class. -/
def translate : Reading → List Char → List Char
  | .outside, [] => []
  | .outside, c :: cs =>
    if c = '*' then '.' :: '*' :: translate .outside cs
    else if c = '?' then '.' :: translate .outside cs
    else if c = '[' then
      match cs with
      | [] => regexEscape ['[']
      | d :: ds =>
        if d = '!' then translate (.inside ['^']) ds else translate (.inside []) (d :: ds)
    else regexEscape [c] ++ translate .outside cs
  | .inside charClass, c :: cs =>
    if c = ']' then '[' :: charClass ++ ']' :: translate .outside cs
    else translate (.inside (charClass ++ [c])) cs
  | .inside charClass, [] => regexEscape ['['] ++ regexEscape charClass

def globToAnchoredRegex (glob : String) : String :=
  String.ofList ('^' :: (translate .outside glob.toList ++ ['$']))

/-- `StreamPattern::matches`, where `compile` is `glob::Pattern::new` and `Pattern::matches`. -/
def matchesPattern (compile : String → Option (String → Bool)) (pattern : StreamPattern)
    (streamId : String) : Bool :=
  match compile pattern.value with
  | some verdict => verdict streamId
  | none => false

/-- The regular expression of the pattern is valid and selects the streams that the pattern
matches. -/
def Faithful (compile are : String → Option (String → Bool)) (pattern : StreamPattern) : Prop :=
  ∃ verdict, are (globToAnchoredRegex pattern.value) = some verdict ∧
    ∀ streamId : StreamId, verdict streamId.value = matchesPattern compile pattern streamId.value

/-- Nothing in the class is an escape or begins an element in brackets of its own, and its ranges
ascend from a character that is no hyphen. -/
structure Legible (body : List Char) : Prop where
  bracket : ']' ∉ body
  backslash : '\\' ∉ body
  element : ∀ d ∈ ['.','=',':'], ¬ ['[',d] <:+: body
  ordered : ∀ a c, .range a c ∈ specifiers body → a ≤ c ∧ a ≠ '-'

/-- Copied between brackets, the body of a class means the same to the regular expressions. -/
structure Copies (negated : Bool) (body : List Char) : Prop extends Legible body where
  caret : negated = false → body.head? ≠ some '^'
  placed : Placed true (specifiers body)

/-- A class copies, and a recursive wildcard has no separator behind it. -/
def Plain : Token → Prop
  | .anyWithin negated body => Copies negated body
  | .anyRecursiveSequence slash => slash = false
  | _ => True

theorem Legible.clear {body : List Char} (h : Legible body) : Clear body := ⟨h.element,h.ordered⟩

theorem bracket_copies {negated : Bool} {body : List Char} (h : Copies negated body)
    (hne : body ≠ []) (rest : List Char) :
    bracket ((if negated then ['^'] else []) ++ body ++ ']' :: rest) =
      some (.one (within negated (specifiers body)),rest) :=
  bracket_spelled (.refl h.backslash) h.toLegible.clear
    (fun hmem => h.bracket (List.mem_of_mem_tail hmem)) hne h.placed h.caret rest

section Translation

theorem branch_escape (c : Char) (fuel : ℕ) (text : List Char) :
    branch (fuel+1) (regexEscape [c] ++ text) = (branch fuel text).map (.one (· == c) :: ·) := by
  have hpunctuation : ∀ c ∈ metacharacters, isPunctuation c = true :=
    List.all_eq_true.mp (by decide)
  have hspecial : ∀ c ∈ special, c ∈ metacharacters := by simp [special,metacharacters]
  by_cases hc : c ∈ metacharacters
  · simpa [regexEscape,hc] using branch_escaped (hpunctuation c hc) fuel text
  · simpa [regexEscape,hc] using branch_ordinary (mt (hspecial c) hc) fuel text

theorem faithful_of_translation {tr : List Char → List Char} {plain : Token → Prop}
    (htr : Translation tr plain)
    {compile are : String → Option (String → Bool)} (hglob : GlobPatterns.Documented compile)
    (hare : AdvancedRegex.Documented are) {pattern : StreamPattern}
    (hcompiles : (compile pattern.value).isSome)
    (hplain : ∀ ts, tokens (.outside true) pattern.value.toList = some ts → ∀ t ∈ ts, plain t) :
    ∃ verdict, are (String.ofList ('^' :: (tr pattern.value.toList ++ ['$']))) = some verdict ∧
      ∀ streamId : StreamId,
        verdict streamId.value = matchesPattern compile pattern streamId.value := by
  cases hts : tokens (.outside true) pattern.value.toList with
  | none => simp [hglob.rejects hts] at hcompiles
  | some ts =>
    have hfuel : (tr pattern.value.toList).length < (tr pattern.value.toList ++ ['$']).length+1 := by
      rw [List.length_append]
      omega
    obtain ⟨its,hread,hmatch⟩ := htr.agrees hts (hplain ts hts) hfuel
    have hparse : AdvancedRegex.parse
        (String.ofList ('^' :: (tr pattern.value.toList ++ ['$']))).toList = some its := by
      rw [String.toList_ofList]
      exact hread
    obtain ⟨verdict,hverdict,hselects⟩ := hare hparse
    obtain ⟨glob,hglobVerdict,hglobSelects⟩ := hglob.accepts hts
    refine ⟨verdict,hverdict,fun streamId => ?_⟩
    rw [matchesPattern,hglobVerdict,hselects]
    exact (hmatch _).trans (hglobSelects _).symm

theorem translate_inside {charClass body rest : List Char} (h : ']' ∉ body) :
    translate (.inside charClass) (body ++ ']' :: rest) =
      '[' :: (charClass ++ body ++ ']' :: translate .outside rest) := by
  induction body generalizing charClass with
  | nil => simp [translate]
  | cons c body ih =>
    obtain ⟨hc,hbody⟩ := not_or.mp (mt List.mem_cons.mpr h)
    simp [translate,Ne.symm hc,ih hbody]

theorem translate_class {negated : Bool} {body rest : List Char} (hne : body ≠ [])
    (hclose : ']' ∉ body) (hbang : negated = false → body.head? ≠ some '!') :
    translate .outside ('[' :: ((if negated then ['!'] else []) ++ body ++ ']' :: rest)) =
      '[' :: ((if negated then ['^'] else []) ++ body ++ ']' :: translate .outside rest) := by
  obtain ⟨d,ds,rfl⟩ := List.exists_cons_of_ne_nil hne
  have hinside : ∀ charClass : List Char,
      translate (.inside charClass) (d :: (ds ++ ']' :: rest)) =
        '[' :: (charClass ++ d :: ds ++ ']' :: translate .outside rest) :=
    fun charClass => translate_inside hclose
  cases negated with
  | true =>
    rw [translate.eq_def]
    simpa using hinside ['^']
  | false =>
    have hd : d ≠ '!' := by simpa using hbang rfl
    rw [translate.eq_def]
    simpa [hd] using hinside []

theorem regexEscape_ne (c : Char) : regexEscape [c] ≠ [] := by
  by_cases hc : c ∈ metacharacters <;> simp [regexEscape,hc]

theorem regexEscape_head (c : Char) : (regexEscape [c]).head? ≠ some '*' := by
  by_cases hc : c ∈ metacharacters
  · simp [regexEscape,hc]
  · have hne : c ≠ '*' := fun he => hc (he ▸ by decide)
    simpa [regexEscape,hc] using hne

theorem translate_translation : Translation (translate .outside) Plain where
  nil := rfl
  char cs hany hstar hclass := by
    refine ⟨regexEscape [_],?_,regexEscape_ne _,regexEscape_head _,branch_escape _⟩
    rw [translate.eq_def]
    simp [hany,hstar,hclass]
  anyChar cs := by
    rw [translate.eq_def]
    simp
  star cs := by
    rw [translate.eq_def]
    simp
  anyWithin {negated body} rest hcopies hne _ hbang := by
    refine ⟨(if negated then ['^'] else []) ++ body ++ [']'],?_,fun text => ?_⟩
    · rw [translate_class hne (Legible.bracket (Copies.toLegible hcopies)) hbang]
      simp
    · rw [List.append_assoc,List.singleton_append]
      exact bracket_copies hcopies hne text
  component h := by cases h

end Translation

/-- What decides it for a whole pattern, as the pattern language reads it. -/
def PlainPattern (pattern : StreamPattern) : Prop :=
  ∀ ts, tokens (.outside true) pattern.value.toList = some ts → ∀ t ∈ ts, Plain t

/-- A pattern is pushed down faithfully if every character class in it means the same when it is
copied and no recursive wildcard goes before a separator. -/
theorem pushdown_faithful {compile are : String → Option (String → Bool)}
    (hglob : GlobPatterns.Documented compile) (hare : AdvancedRegex.Documented are)
    {pattern : StreamPattern} (hcompiles : (compile pattern.value).isSome)
    (hplain : PlainPattern pattern) : Faithful compile are pattern :=
  faithful_of_translation translate_translation hglob hare hcompiles hplain

section Accounts

def caretPattern : StreamPattern := ⟨"account-[^a]",by decide,by decide,by decide⟩

def accountB : StreamId := ⟨"account-b",by decide,by decide,by decide,by decide⟩

/-- The class of a caret and a letter becomes the class of everything but the letter. -/
theorem caret_class_negated :
    (AdvancedRegex.reference (globToAnchoredRegex caretPattern.value)).map (· accountB.value) =
      some true ∧
    matchesPattern GlobPatterns.reference caretPattern accountB.value = false ∧
    ¬ ∀ compile are, GlobPatterns.Documented compile → AdvancedRegex.Documented are →
      ∀ pattern : StreamPattern, (compile pattern.value).isSome →
        Faithful compile are pattern := by
  have hregex : (AdvancedRegex.reference (globToAnchoredRegex caretPattern.value)).map
      (· accountB.value) = some true := by decide +kernel
  have hglob : matchesPattern GlobPatterns.reference caretPattern accountB.value = false := by
    decide +kernel
  refine ⟨hregex,hglob,fun hall => ?_⟩
  obtain ⟨verdict,hverdict,hselects⟩ := hall _ _ GlobPatterns.reference_documented
    AdvancedRegex.reference_documented caretPattern (by decide +kernel)
  rw [hverdict,Option.map_some,hselects,hglob] at hregex
  cases hregex

def shelfPattern : StreamPattern := ⟨"account-[0-9]*/[!a-f_-]?",by decide,by decide,by decide⟩

/-- Ranges, a negation and a hyphen at the end of a class. -/
theorem pushdown_faithful_shelf :
    Faithful GlobPatterns.reference AdvancedRegex.reference shelfPattern := by
  have hts : tokens (.outside true) shelfPattern.value.toList = some
      [.char 'a',.char 'c',.char 'c',.char 'o',.char 'u',.char 'n',.char 't',.char '-',
        .anyWithin false ['0','-','9'],.anySequence,.char '/',
        .anyWithin true ['a','-','f','_','-'],.anyChar] := by
    decide +kernel
  have hdigits : Copies false ['0','-','9'] :=
    { bracket := by decide, backslash := by decide
      element := by simp [List.infix_cons_iff]
      ordered := by simp [specifiers]
      caret := by decide, placed := by simp [Placed,specifiers] }
  have hletters : Copies true ['a','-','f','_','-'] :=
    { bracket := by decide, backslash := by decide
      element := by simp [List.infix_cons_iff]
      ordered := by simp [specifiers]
      caret := by decide, placed := by simp [Placed,specifiers] }
  refine pushdown_faithful GlobPatterns.reference_documented AdvancedRegex.reference_documented
    (by decide +kernel) fun ts h => ?_
  obtain rfl := Option.some.inj (hts.symm.trans h)
  simp [Plain,hdigits,hletters]

end Accounts

end GlobPushdown
end EventCore
