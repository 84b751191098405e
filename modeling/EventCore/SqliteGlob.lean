import EventCore.EventReader
import EventCore.GlobPushdown
import EventCore.SqlPatterns

/-! Stream patterns handed to SQLite's `GLOB` as they are. Its classes are negated by a caret and
not by an exclamation mark, and two stars are nothing but two stars. -/
namespace EventCore
namespace SqliteGlob
open Wildcards GlobPatterns SqlPatterns GlobPushdown
open EventReader (readSqlite sqlWhere)

/-- `stream_id GLOB p` holds of the streams that the pattern matches, and so `read_events` reads
what it would read with the verdict of the pattern. -/
structure Faithful (compile : String → Option (String → Bool)) (glob : String → String → Bool)
    (pattern : StreamPattern) : Prop where
  selects : ∀ streamId : StreamId,
    glob pattern.value streamId.value = matchesPattern compile pattern streamId.value
  reads : ∀ {Any Raw E : Type} (like : String → String → Bool) (ev : Event Any Raw E)
    (eventType : Option String) (table : SqliteStore.Table Raw) (page : EventPage),
    (∀ row ∈ table, ∃ streamId : StreamId, row.streamId = streamId.value) →
      readSqlite like glob ev ⟨none,some pattern,eventType⟩ table page =
        readSqlite like (fun _ => matchesPattern compile pattern) ev
          ⟨none,some pattern,eventType⟩ table page

/-- Both operators take the class for the same set: it is no negation for either, a range does not
begin with the bracket, and if it descends, its first endpoint is in the class by itself. -/
structure Shared (negated : Bool) (body : List Char) : Prop where
  positive : negated = false
  caret : body.head? ≠ some '^'
  bracket : ∀ c cs, body ≠ ']' :: '-' :: c :: cs
  endpoint : ∀ a c, .range a c ∈ specifiers body → (specifiers body).any (·.accepts a) = true

/-- A class is shared, and a recursive wildcard has no separator behind it. -/
def Plain : Token → Prop
  | .anyWithin negated body => Shared negated body
  | .anyRecursiveSequence slash => slash = false
  | _ => True

section Classes

/-- The first endpoints of ranges, which `GLOB` takes for entries as well. -/
def starts (entries : List Specifier) (d : Char) : Bool :=
  entries.any fun
    | .single _ => false
    | .range first _ => d == first

@[simp] theorem starts_single (c : Char) (entries : List Specifier) (d : Char) :
    starts (.single c :: entries) d = starts entries d := rfl

@[simp] theorem starts_range (a c : Char) (entries : List Specifier) (d : Char) :
    starts (.range a c :: entries) d = (d == a || starts entries d) := rfl

/-- No character is left of which a hyphen at the front could ask for a range. -/
def Fresh (prior : Option Char) (body : List Char) : Prop :=
  prior = none ∨ body.head? ≠ some '-' ∨ body.length ≤ 1

theorem globEntries_single {prior : Option Char} {c : Char} {cs : List Char}
    (h : Fresh prior (c :: cs)) :
    globEntries prior (c :: cs) = .single c :: globEntries (some c) cs := by
  cases prior with
  | none => rfl
  | some first =>
    cases cs with
    | nil => rfl
    | cons last cs =>
      have hc : c ≠ '-' := by
        rcases h with h | h | h
        · cases h
        · simpa using h
        · simp at h
      simp [globEntries,hc]

theorem globEntries_range {a c : Char} {prior : Option Char} {cs : List Char}
    (h : Fresh prior (a :: '-' :: c :: cs)) : globEntries prior (a :: '-' :: c :: cs) =
      .single a :: .range a c :: globEntries none cs := by
  rw [globEntries_single h]
  simp [globEntries]

/-- The entries of `GLOB` are those of the pattern and the first endpoints of its ranges. -/
theorem accepts_globEntries {prior : Option Char} {body : List Char} (h : Fresh prior body)
    (d : Char) : (globEntries prior body).any (·.accepts d) =
      ((specifiers body).any (·.accepts d) || starts (specifiers body) d) := by
  induction body using specifiers.induct generalizing prior with
  | case1 a c cs ih =>
    have hentries : specifiers (a :: '-' :: c :: cs) = .range a c :: specifiers cs := by
      simp [specifiers]
    have hrest := ih (.inl rfl : Fresh none cs)
    rw [globEntries_range h,hentries,starts_range,List.any_cons,List.any_cons,List.any_cons,hrest,
      Specifier.accepts]
    cases d == a <;> simp [Bool.or_assoc]
  | case2 a b c cs hb ih =>
    have hentries : specifiers (a :: b :: c :: cs) = .single a :: specifiers (b :: c :: cs) := by
      simp [specifiers,hb]
    have hrest := ih (.inr (.inl (by simpa using hb)) : Fresh (some a) (b :: c :: cs))
    rw [globEntries_single h,hentries,starts_single,List.any_cons,List.any_cons,hrest,Bool.or_assoc]
  | case3 a b =>
    rw [globEntries_single h]
    simp [globEntries,specifiers,starts,Specifier.accepts]
  | case4 a =>
    rw [globEntries_single h]
    simp [globEntries,specifiers,starts,Specifier.accepts]
  | case5 => cases prior <;> rfl

theorem accepts_classEntries {body : List Char} (hbracket : ∀ c cs, body ≠ ']' :: '-' :: c :: cs)
    (d : Char) : (classEntries body).any (·.accepts d) =
      ((specifiers body).any (·.accepts d) || starts (specifiers body) d) := by
  match body with
  | [] => rfl
  | c :: cs =>
    by_cases hc : c = ']'
    · subst hc
      have hentries : specifiers (']' :: cs) = .single ']' :: specifiers cs := by
        match cs with
        | [] => rfl
        | [_] => rfl
        | b :: e :: es =>
          have hb : b ≠ '-' := fun he => hbracket e es (by rw [he])
          simp [specifiers,hb]
      have hrest := accepts_globEntries (.inl rfl : Fresh none cs) d
      rw [classEntries,if_pos rfl,hentries,starts_single,List.any_cons,List.any_cons,hrest,
        Bool.or_assoc]
    · rw [classEntries,if_neg hc]
      exact accepts_globEntries (.inl rfl) d

theorem within_classEntries {negated : Bool} {body : List Char} (h : Shared negated body) :
    within false (classEntries body) = within negated (specifiers body) := by
  funext d
  have hstarts : starts (specifiers body) d = true →
      (specifiers body).any (·.accepts d) = true := by
    intro hd
    obtain ⟨entry,hentry,hfirst⟩ := List.any_eq_true.mp hd
    match entry with
    | .range first last =>
      obtain rfl : d = first := by simpa using hfirst
      exact h.endpoint d last hentry
  rw [within,within,accepts_classEntries h.bracket,h.positive]
  cases hd : starts (specifiers body) d with
  | false => rw [Bool.or_false]
  | true => rw [hstarts hd,Bool.true_or]

end Classes

theorem agrees_globItems {cs : List Char} {atComponent : Bool} {ts : List Token}
    (h : tokens (.outside atComponent) cs = some ts) (hplain : ∀ t ∈ ts, Plain t) :
    ∃ its, globItems .outside cs = some its ∧
      ∀ text, matchesAll its text = matchesAll (items ts) text := by
  refine tokens_induction (P := fun cs ts => (∀ t ∈ ts, Plain t) →
    ∃ its, globItems .outside cs = some its ∧
      ∀ text, matchesAll its text = matchesAll (items ts) text) ?_ ?_ h hplain
  · exact fun _ => ⟨[],rfl,fun _ => rfl⟩
  · intro c cs t b rest ts hfirst hrest ih hplain
    obtain ⟨ht,hts⟩ := List.forall_mem_cons.mp hplain
    obtain ⟨its,hits,hmatch⟩ := ih hts
    have hnext : ∀ {item : Item},
        globItems .outside (c :: cs) = (globItems .outside rest).map (item :: ·) →
        items (t :: ts) = item :: items ts →
        ∃ its, globItems .outside (c :: cs) = some its ∧
          ∀ text, matchesAll its text = matchesAll (items (t :: ts)) text := by
      intro item hread hitems
      refine ⟨item :: its,by rw [hread,hits]; rfl,fun text => ?_⟩
      rw [hitems]
      exact matchesAll_append_congr hmatch [item] text
    cases hfirst with
    | char hany hstar hclass => exact hnext (globItems_char hstar hany hclass) rfl
    | anyChar => exact hnext (globItems_any _) rfl
    | anySequence => exact hnext (globItems_star _) rfl
    | last =>
      -- two stars, and any text is matched either way
      obtain rfl := Option.some.inj hrest
      exact ⟨[.many,.many],by simp [globItems],matchesAll_many_many []⟩
    | component => cases ht
    | @anyWithin negated body rest hne hclose _ =>
      have hshared : Shared negated body := ht
      obtain rfl := hshared.positive
      refine hnext ?_ (by rw [items,← within_classEntries hshared])
      rw [if_neg (by decide),List.nil_append]
      exact globItems_class hne hclose hshared.caret

/-- What decides it for a whole pattern, as the pattern language reads it. -/
def PlainPattern (pattern : StreamPattern) : Prop :=
  ∀ ts, tokens (.outside true) pattern.value.toList = some ts → ∀ t ∈ ts, Plain t

section Reads

variable {compile : String → Option (String → Bool)} {glob : String → String → Bool}
  {pattern : StreamPattern}

theorem Faithful.of_selects (h : ∀ streamId : StreamId,
    glob pattern.value streamId.value = matchesPattern compile pattern streamId.value) :
    Faithful compile glob pattern where
  selects := h
  reads like ev eventType table page hstreams := by
    unfold readSqlite
    congr 3
    refine List.filter_congr fun row hrow => ?_
    obtain ⟨streamId,hstreamId⟩ := hstreams row hrow
    simp only [sqlWhere,hstreamId,h]

/-- SQLite selects exactly what a pattern matches if both take every character class for the same
set and no recursive wildcard goes before a separator. -/
theorem glob_pushdown_faithful (hcompile : GlobPatterns.Documented compile)
    (hglob : GlobDocumented glob) (hcompiles : (compile pattern.value).isSome)
    (hplain : PlainPattern pattern) : Faithful compile glob pattern := by
  refine .of_selects fun streamId => ?_
  cases hts : tokens (.outside true) pattern.value.toList with
  | none => simp [hcompile.rejects hts] at hcompiles
  | some ts =>
    obtain ⟨its,hits,hmatch⟩ := agrees_globItems hts (hplain ts hts)
    obtain ⟨verdict,hverdict,hselects⟩ := hcompile.accepts hts
    rw [matchesPattern,hverdict,hglob hits]
    exact (hmatch _).trans (hselects _).symm

end Reads

section Accounts

def exceptPattern : StreamPattern := ⟨"account-[!a]",by decide,by decide,by decide⟩

/-- An exclamation mark is a member of the class for SQLite. -/
theorem exclamation_is_member :
    (∀ compile glob, GlobPatterns.Documented compile → GlobDocumented glob →
      matchesPattern compile exceptPattern accountB.value = true ∧
      glob exceptPattern.value accountB.value = false) ∧
    ¬ ∀ compile glob, GlobPatterns.Documented compile → GlobDocumented glob →
      ∀ pattern : StreamPattern, (compile pattern.value).isSome → Faithful compile glob pattern := by
  have hdiffer : ∀ compile glob, GlobPatterns.Documented compile → GlobDocumented glob →
      matchesPattern compile exceptPattern accountB.value = true ∧
      glob exceptPattern.value accountB.value = false := by
    intro compile glob hcompile hglob
    constructor
    · have hpattern : (tokens (.outside true) exceptPattern.value.toList).map
          (fun ts => matchesAll (items ts) accountB.value.toList) = some true := by decide +kernel
      obtain ⟨ts,hts,hmatch⟩ := Option.map_eq_some_iff.mp hpattern
      obtain ⟨verdict,hverdict,hselects⟩ := hcompile.accepts hts
      rw [matchesPattern,hverdict]
      exact (hselects _).trans hmatch
    · have hpattern : (globItems .outside exceptPattern.value.toList).map
          (fun its => matchesAll its accountB.value.toList) = some false := by decide +kernel
      obtain ⟨its,hits,hmatch⟩ := Option.map_eq_some_iff.mp hpattern
      rw [hglob hits,hmatch]
  refine ⟨hdiffer,fun hall => ?_⟩
  obtain ⟨hmatches,hdrops⟩ := hdiffer _ _ GlobPatterns.reference_documented globReference_documented
  have hfaithful := hall _ _ GlobPatterns.reference_documented globReference_documented
    exceptPattern (by decide +kernel)
  rw [hfaithful.selects,hmatches] at hdrops
  cases hdrops

def rangesPattern : StreamPattern := ⟨"account-[a-c-e]*[]z-az]?",by decide,by decide,by decide⟩

/-- A hyphen behind a range, a class that begins with its bracket, a range that descends. -/
theorem glob_pushdown_faithful_ranges :
    Faithful GlobPatterns.reference globReference rangesPattern := by
  have hts : tokens (.outside true) rangesPattern.value.toList = some
      [.char 'a',.char 'c',.char 'c',.char 'o',.char 'u',.char 'n',.char 't',.char '-',
        .anyWithin false ['a','-','c','-','e'],.anySequence,
        .anyWithin false [']','z','-','a','z'],.anyChar] := by
    decide +kernel
  have hranges : Shared false ['a','-','c','-','e'] :=
    { positive := rfl
      caret := by decide
      bracket := by simp
      endpoint := by
        intro a c h
        obtain ⟨rfl,rfl⟩ : a = 'a' ∧ c = 'c' := by simpa [specifiers] using h
        decide }
  have hbrackets : Shared false [']','z','-','a','z'] :=
    { positive := rfl
      caret := by decide
      bracket := by simp
      endpoint := by
        intro a c h
        obtain ⟨rfl,rfl⟩ : a = 'z' ∧ c = 'a' := by simpa [specifiers] using h
        decide }
  refine glob_pushdown_faithful GlobPatterns.reference_documented globReference_documented
    (by decide +kernel) fun ts h => ?_
  obtain rfl := Option.some.inj (hts.symm.trans h)
  simp [Plain,hranges,hbrackets]

end Accounts

end SqliteGlob
end EventCore
