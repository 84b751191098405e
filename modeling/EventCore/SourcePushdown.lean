import EventCore.DeliveryFrontier
import EventCore.GlobPushdown

/-! The projection source has a translation of stream patterns of its own. It escapes a leading
caret and the backslashes of a class, and it closes a class at the first bracket it meets. -/
namespace EventCore
namespace SourcePushdown
open Wildcards GlobPatterns AdvancedRegex GlobToRegex GlobPushdown DeliveryFrontier ProjectionSource
  SqliteStore

/-- Whether the translation is in a character class, and what it has collected of it. -/
inductive Reading
  | outside
  | inside (negated : Bool) (charClass : List Char)

def classCharacter (negated : Bool) (p : Char × ℕ) : List Char :=
  if negated = false ∧ p.2 = 0 ∧ p.1 = '^' then ['\\','^']
  else if p.1 = '\\' then ['\\','\\']
  else [p.1]

def classBody (negated : Bool) (charClass : List Char) : List Char :=
  charClass.zipIdx.flatMap (classCharacter negated)

def metacharacters : List Char := ['\\','^','$','.','+','(',')','|','{','}']

/-- The loop over the characters. The last equation is the unclosed class. -/
def translate : Reading → List Char → List Char
  | .outside, [] => []
  | .outside, c :: cs =>
    if c = '*' then '.' :: '*' :: translate .outside cs
    else if c = '?' then '.' :: translate .outside cs
    else if c = '[' then
      match cs with
      | [] => ['\\','[']
      | d :: ds =>
        if d = '!' then translate (.inside true ['^']) ds else translate (.inside false []) (d :: ds)
    else if c ∈ metacharacters then '\\' :: c :: translate .outside cs
    else c :: translate .outside cs
  | .inside negated charClass, c :: cs =>
    if c = ']' then '[' :: (classBody negated charClass ++ ']' :: translate .outside cs)
    else translate (.inside negated (charClass ++ [c])) cs
  | .inside _ charClass, [] => '\\' :: '[' :: charClass

def globToAnchoredRegex (glob : String) : String :=
  String.ofList ('^' :: (translate .outside glob.toList ++ ['$']))

/-- `read_envelopes` with a pattern; once its numbers are bound, the query fails on an expression
that is not valid. -/
def readEnvelopes {Raw : Type} (are : String → Option (String → Bool)) (tables : Tables Raw)
    (pattern : StreamPattern) (eventTypes : List String) (after : Option ℕ)
    (through : DeliveryUpperBound) (limit : ℕ) :
    Except PostgresProjectionSourceError (List (PersistedEventEnvelope (Row Raw))) := do
  bindQuery after through limit
  match are (globToAnchoredRegex pattern.value) with
  | none => throw .readFailed
  | some verdict =>
    return tables.selectEnvelopes (fun row => verdict row.streamId && row.eventType ∈ eventTypes)
      after through limit

/-- The regular expression of the pattern is valid and selects the streams that the pattern
matches, and so do the reads of the source. -/
structure Faithful (compile are : String → Option (String → Bool)) (pattern : StreamPattern) :
    Prop where
  selects : ∃ verdict, are (globToAnchoredRegex pattern.value) = some verdict ∧
    ∀ streamId : StreamId, verdict streamId.value = matchesPattern compile pattern streamId.value
  reads : ∀ {Raw : Type} (tables : Tables Raw),
    (∀ row ∈ tables.events, ∃ streamId : StreamId, row.streamId = streamId.value) →
    ∀ eventTypes after through limit,
      readEnvelopes are tables pattern eventTypes after through limit =
        tables.readEnvelopes (fun row => matchesPattern compile pattern row.streamId &&
          row.eventType ∈ eventTypes) after through limit

/-- The class keeps its entries. One that begins with its bracket is closed right there, and what
follows is translated like literals, up to a bracket that opens another class. -/
structure Kept (body : List Char) : Prop where
  clear : Clear body
  placed : Placed true (specifiers body)
  literals : body.head? = some ']' → ∀ c ∈ body.takeWhile (· ≠ '['), c ≠ '*' ∧ c ≠ '?'
  nested : body.head? = some ']' → (body.dropWhile (· ≠ '[')).tail.head? ≠ some '!'

/-- A class keeps its entries, and a recursive wildcard has no separator behind it. -/
def Plain : Token → Prop
  | .anyWithin _ body => Kept body
  | .anyRecursiveSequence slash => slash = false
  | _ => True

section Classes

theorem spelled_classBody (negated : Bool) (body : List Char) (k : ℕ) :
    Spelled body ((body.zipIdx k).flatMap (classCharacter negated)) := by
  induction body generalizing k with
  | nil => exact .nil
  | cons c body ih =>
    rw [List.zipIdx_cons,List.flatMap_cons,classCharacter]
    split_ifs with hcaret hbackslash
    · obtain ⟨_,_,rfl⟩ := hcaret
      exact .escaped (by decide) (by decide) (ih (k+1))
    · subst hbackslash
      exact .escaped (by decide) (by decide) (ih (k+1))
    · exact .plain hbackslash (ih (k+1))

theorem classBody_head {body : List Char} : (classBody false body).head? ≠ some '^' := by
  cases body with
  | nil => simp [classBody]
  | cons c body =>
    rw [classBody,List.zipIdx_cons,List.flatMap_cons,classCharacter]
    split_ifs with hcaret hbackslash
    · simp
    · simp
    · simpa using hcaret

theorem translate_inside {negated : Bool} {charClass body rest : List Char} (h : ']' ∉ body) :
    translate (.inside negated charClass) (body ++ ']' :: rest) =
      '[' :: (classBody negated (charClass ++ body) ++ ']' :: translate .outside rest) := by
  induction body generalizing charClass with
  | nil => simp [translate]
  | cons c body ih =>
    obtain ⟨hc,hbody⟩ := not_or.mp (mt List.mem_cons.mpr h)
    simp [translate,Ne.symm hc,ih hbody]

theorem translate_literal {c : Char} {cs : List Char} (hstar : c ≠ '*') (hany : c ≠ '?')
    (hclass : c ≠ '[') :
    translate .outside (c :: cs) =
      (if c ∈ metacharacters then ['\\',c] else [c]) ++ translate .outside cs := by
  rw [translate.eq_def]
  simp only [hstar,hany,hclass,if_false]
  split_ifs <;> rfl

theorem isPunctuation_of_mem {c : Char} (h : c ∈ metacharacters) : isPunctuation c = true :=
  List.all_eq_true.mp (by decide : metacharacters.all isPunctuation = true) c h

theorem translate_behind_bracket {cs rest : List Char} (hclose : ']' ∉ cs)
    (hliterals : ∀ c ∈ cs.takeWhile (· ≠ '['), c ≠ '*' ∧ c ≠ '?')
    (hnested : (cs.dropWhile (· ≠ '[')).tail.head? ≠ some '!') :
    ∃ text, translate .outside (cs ++ ']' :: rest) = text ++ ']' :: translate .outside rest ∧
      Spelled cs text := by
  induction cs with
  | nil =>
    refine ⟨[],?_,.nil⟩
    rw [List.nil_append,translate_literal (by decide) (by decide) (by decide)]
    simp [metacharacters]
  | cons c cs ih =>
    obtain ⟨_,hcs⟩ := not_or.mp (mt List.mem_cons.mpr hclose)
    by_cases hc : c = '['
    · subst hc
      refine ⟨'[' :: classBody false cs,?_,.plain (by decide) (spelled_classBody false cs 0)⟩
      have hhead : (cs ++ ']' :: rest).head? ≠ some '!' := by
        cases cs with
        | nil => simp
        | cons d ds => simpa using hnested
      obtain ⟨d,ds,hds⟩ : ∃ d ds, cs ++ ']' :: rest = d :: ds :=
        List.exists_cons_of_ne_nil (by simp)
      have hd : d ≠ '!' := by simpa [hds] using hhead
      have hinside : translate (.inside false []) (cs ++ ']' :: rest) =
          '[' :: (classBody false ([] ++ cs) ++ ']' :: translate .outside rest) :=
        translate_inside hcs
      rw [hds] at hinside
      rw [List.cons_append,hds,translate.eq_def]
      simpa [hd] using hinside
    · simp only [ne_eq,List.takeWhile_cons,List.dropWhile_cons,hc,not_false_eq_true,decide_true,
        if_true] at hliterals hnested
      obtain ⟨⟨hstar,hany⟩,hrest⟩ := List.forall_mem_cons.mp hliterals
      obtain ⟨text,htext,hspelled⟩ := ih hcs hrest hnested
      rw [List.cons_append,translate_literal hstar hany hc,htext]
      by_cases hmeta : c ∈ metacharacters
      · have hhyphen : c ≠ '-' := fun he => by simp [he,metacharacters] at hmeta
        exact ⟨'\\' :: c :: text,by simp [hmeta],.escaped (isPunctuation_of_mem hmeta) hhyphen hspelled⟩
      · have hbackslash : c ≠ '\\' := fun he => hmeta (by simp [he,metacharacters])
        exact ⟨c :: text,by simp [hmeta],.plain hbackslash hspelled⟩

theorem translate_class {negated : Bool} {body : List Char} (hkept : Kept body) (hne : body ≠ [])
    (hclose : ']' ∉ body.tail) (hbang : negated = false → body.head? ≠ some '!') (rest : List Char) :
    ∃ text, translate .outside ('[' :: ((if negated then ['!'] else []) ++ body ++ ']' :: rest)) =
        '[' :: ((if negated then ['^'] else []) ++ text ++ ']' :: translate .outside rest) ∧
      Spelled body text ∧ (negated = false → text.head? ≠ some '^') := by
  have hopen : translate .outside ('[' :: ((if negated then ['!'] else []) ++ body ++ ']' :: rest)) =
      translate (.inside negated (if negated then ['^'] else [])) (body ++ ']' :: rest) := by
    obtain ⟨d,ds,rfl⟩ := List.exists_cons_of_ne_nil hne
    cases negated with
    | true =>
      rw [translate.eq_def]
      simp
    | false =>
      have hd : d ≠ '!' := by simpa using hbang rfl
      rw [translate.eq_def]
      simp [hd]
  have hnegation : ∀ more : List Char, classBody negated ((if negated then ['^'] else []) ++ more) =
      (if negated then ['^'] else []) ++ (more.zipIdx (if negated then 1 else 0)).flatMap
        (classCharacter negated) := by
    intro more
    cases negated <;> simp [classBody,classCharacter]
  rw [hopen]
  by_cases hbracket : body.head? = some ']'
  · obtain ⟨cs,rfl⟩ := List.head?_eq_some_iff.mp hbracket
    have hliterals := hkept.literals hbracket
    have hnested := hkept.nested hbracket
    simp only [ne_eq,List.takeWhile_cons,List.dropWhile_cons,Char.reduceEq,not_false_eq_true,
      decide_true,if_true,List.forall_mem_cons] at hliterals hnested
    have hcs : ']' ∉ cs := hclose
    obtain ⟨text,htext,hspelled⟩ := translate_behind_bracket hcs hliterals.2 hnested
    refine ⟨']' :: text,?_,.plain (by decide) hspelled,by simp⟩
    have hempty := hnegation []
    rw [List.append_nil] at hempty
    rw [List.cons_append,translate,if_pos rfl,htext,hempty]
    simp
  · have hbody : ']' ∉ body := by
      obtain ⟨d,ds,rfl⟩ := List.exists_cons_of_ne_nil hne
      have hd : d ≠ ']' := by simpa using hbracket
      exact fun hmem => (List.mem_cons.mp hmem).elim (fun he => hd he.symm) hclose
    refine ⟨_,by rw [translate_inside hbody,hnegation],spelled_classBody negated body _,?_⟩
    rintro rfl
    exact classBody_head

end Classes

section Translation

theorem literal_head {c : Char} (h : c ≠ '*') :
    (if c ∈ metacharacters then ['\\',c] else [c]).head? ≠ some '*' := by
  split_ifs
  · simp
  · simpa using h

theorem branch_literal {c : Char} (hstar : c ≠ '*') (hany : c ≠ '?') (hclass : c ≠ '[') (fuel : ℕ)
    (text : List Char) : branch (fuel+1) ((if c ∈ metacharacters then ['\\',c] else [c]) ++ text) =
      (branch fuel text).map (.one (· == c) :: ·) := by
  by_cases hc : c ∈ metacharacters
  · simpa [hc] using branch_escaped (isPunctuation_of_mem hc) fuel text
  · have hspecial : ∀ d ∈ special, d ∈ metacharacters ∨ d = '*' ∨ d = '?' ∨ d = '[' := by
      simp [special,metacharacters]
    have hordinary : c ∉ special := fun hmem => by
      rcases hspecial c hmem with h | h | h | h
      · exact hc h
      · exact hstar h
      · exact hany h
      · exact hclass h
    simpa [hc] using branch_ordinary hordinary fuel text

theorem translate_translation : Translation (translate .outside) Plain where
  nil := rfl
  char cs hany hstar hclass := by
    refine ⟨_,translate_literal hstar hany hclass,?_,literal_head hstar,
      branch_literal hstar hany hclass⟩
    split_ifs <;> simp
  anyChar cs := by
    rw [translate.eq_def]
    simp
  star cs := by
    rw [translate.eq_def]
    simp
  anyWithin {negated body} rest hkept hne hclose hbang := by
    have hbody : Kept body := hkept
    obtain ⟨text,htext,hspelled,hcaret⟩ := translate_class hbody hne hclose hbang rest
    refine ⟨(if negated then ['^'] else []) ++ text ++ [']'],?_,fun more => ?_⟩
    · rw [htext]
      simp
    · rw [List.append_assoc,List.singleton_append]
      exact bracket_spelled hspelled hbody.clear hclose hne hbody.placed hcaret more
  component h := by cases h

end Translation

/-- What decides it for a whole pattern, as the pattern language reads it. -/
def PlainPattern (pattern : StreamPattern) : Prop :=
  ∀ ts, tokens (.outside true) pattern.value.toList = some ts → ∀ t ∈ ts, Plain t

section Reads

variable {compile are : String → Option (String → Bool)} {pattern : StreamPattern}

theorem selectEnvelopes_congr {Raw : Type} {tables : Tables Raw} {selects selects' : Row Raw → Bool}
    (h : ∀ row ∈ tables.events, selects row = selects' row) (after : Option ℕ)
    (through : DeliveryUpperBound) (limit : ℕ) :
    tables.selectEnvelopes selects after through limit =
      tables.selectEnvelopes selects' after through limit := by
  have hrow : ∀ envelope ∈ tables.envelopes, envelope.payload ∈ tables.events := by
    intro envelope henvelope
    obtain ⟨delivery,_,hmem⟩ := List.mem_flatMap.mp henvelope
    obtain ⟨row,hrow,rfl⟩ := List.mem_map.mp hmem
    exact (List.mem_filter.mp hrow).1
  unfold Tables.selectEnvelopes
  congr 2
  exact List.filter_congr fun envelope henvelope => by rw [h _ (hrow envelope henvelope)]

theorem Faithful.of_selects
    (h : ∃ verdict, are (globToAnchoredRegex pattern.value) = some verdict ∧
      ∀ streamId : StreamId,
        verdict streamId.value = matchesPattern compile pattern streamId.value) :
    Faithful compile are pattern where
  selects := h
  reads tables hstreams eventTypes after through limit := by
    obtain ⟨verdict,hverdict,hselects⟩ := h
    have hselected : tables.selectEnvelopes
        (fun row => verdict row.streamId && row.eventType ∈ eventTypes) after through limit =
          tables.selectEnvelopes (fun row => matchesPattern compile pattern row.streamId &&
            row.eventType ∈ eventTypes) after through limit := by
      refine selectEnvelopes_congr (fun row hrow => ?_) after through limit
      obtain ⟨streamId,hstreamId⟩ := hstreams row hrow
      rw [hstreamId,hselects]
    simp only [readEnvelopes,hverdict,hselected]
    rfl

/-- The source selects exactly what a pattern matches if every character class keeps its entries
in the translation and no recursive wildcard goes before a separator. -/
theorem source_pushdown_faithful (hglob : GlobPatterns.Documented compile)
    (hare : AdvancedRegex.Documented are) (hcompiles : (compile pattern.value).isSome)
    (hplain : PlainPattern pattern) : Faithful compile are pattern :=
  .of_selects (faithful_of_translation translate_translation hglob hare hcompiles hplain)

end Reads

section Accounts

def anywherePattern : StreamPattern := ⟨"**/account",by decide,by decide,by decide⟩

def account : StreamId := Sample.cash

/-- A recursive wildcard may stand for no path component, the expression demands its separator. -/
theorem recursive_wildcard_dropped :
    (∀ compile are, GlobPatterns.Documented compile → AdvancedRegex.Documented are →
      matchesPattern compile anywherePattern account.value = true ∧
      (are (globToAnchoredRegex anywherePattern.value)).map (· account.value) = some false) ∧
    ¬ ∀ compile are, GlobPatterns.Documented compile → AdvancedRegex.Documented are →
      ∀ pattern : StreamPattern, (compile pattern.value).isSome →
        Faithful compile are pattern := by
  have hdiffer : ∀ compile are, GlobPatterns.Documented compile → AdvancedRegex.Documented are →
      matchesPattern compile anywherePattern account.value = true ∧
      (are (globToAnchoredRegex anywherePattern.value)).map (· account.value) = some false := by
    intro compile are hglob hare
    constructor
    · have hpattern : (tokens (.outside true) anywherePattern.value.toList).map
          (fun ts => matchesAll (items ts) account.value.toList) = some true := by decide +kernel
      obtain ⟨ts,hts,hmatch⟩ := Option.map_eq_some_iff.mp hpattern
      obtain ⟨verdict,hverdict,hselects⟩ := hglob.accepts hts
      rw [matchesPattern,hverdict]
      exact (hselects _).trans hmatch
    · have hregex : (AdvancedRegex.parse (globToAnchoredRegex anywherePattern.value).toList).map
          (fun its => matchesAll its account.value.toList) = some false := by decide +kernel
      obtain ⟨its,hits,hmatch⟩ := Option.map_eq_some_iff.mp hregex
      obtain ⟨verdict,hverdict,hselects⟩ := hare hits
      rw [hverdict,Option.map_some,hselects,hmatch]
  refine ⟨hdiffer,fun hall => ?_⟩
  obtain ⟨hmatches,hdrops⟩ := hdiffer _ _ GlobPatterns.reference_documented
    AdvancedRegex.reference_documented
  obtain ⟨verdict,hverdict,hselects⟩ := (hall _ _ GlobPatterns.reference_documented
    AdvancedRegex.reference_documented anywherePattern (by decide +kernel)).selects
  rw [hverdict,Option.map_some,hselects,hmatches] at hdrops
  cases hdrops

def caretsPattern : StreamPattern := ⟨"account-[^\\-a]*[]!.[-]",by decide,by decide,by decide⟩

/-- A caret, a range from a backslash and a class that begins with its bracket. -/
theorem source_pushdown_faithful_carets :
    Faithful GlobPatterns.reference AdvancedRegex.reference caretsPattern := by
  have hts : tokens (.outside true) caretsPattern.value.toList = some
      [.char 'a',.char 'c',.char 'c',.char 'o',.char 'u',.char 'n',.char 't',.char '-',
        .anyWithin false ['^','\\','-','a'],.anySequence,
        .anyWithin false [']','!','.','[','-']] := by
    decide +kernel
  have hcarets : Kept ['^','\\','-','a'] :=
    { clear := ⟨by simp [List.infix_cons_iff],by simp [specifiers]⟩
      placed := by simp [Placed,specifiers]
      literals := by simp
      nested := by simp }
  have hbrackets : Kept [']','!','.','[','-'] :=
    { clear := ⟨by simp [List.infix_cons_iff],by simp [specifiers]⟩
      placed := by simp [Placed,specifiers]
      literals := by simp
      nested := by simp }
  refine source_pushdown_faithful GlobPatterns.reference_documented
    AdvancedRegex.reference_documented (by decide +kernel) fun ts h => ?_
  obtain rfl := Option.some.inj (hts.symm.trans h)
  simp [Plain,hcarets,hbrackets]

end Accounts

end SourcePushdown
end EventCore
