import EventCore.AdvancedRegex
import EventCore.GlobPatterns
import Mathlib.Data.List.Infix

/-! Glob patterns written as regular expressions. The classes of a pattern come back as they were
meant if their entries are kept apart, and a translation agrees with the pattern if it does so token
by token. -/
namespace EventCore
namespace GlobToRegex
open Wildcards GlobPatterns AdvancedRegex

section Classes

/-- No entry that is a hyphen stands between others; at the start of a class the first one may. -/
def Placed (first : Bool) (entries : List Specifier) : Prop :=
  .single '-' ∉ (if first then entries.tail else entries).dropLast

/-- The body is read with these entries, whatever follows its bracket. -/
def ReadsAs (first : Bool) (body : List Char) (entries : List Specifier) : Prop :=
  ∀ rest, ∃ ts, lexBracket first (body ++ ']' :: rest) = some (ts,rest) ∧
    ts.head? ≠ some .hyphen ∧ parseBracket ts = some entries

/-- The text begins with the character, whichever way it is written, and goes on with `text'`. -/
def Begins (first : Bool) (a : Char) (text text' : List Char) : Prop :=
  ∀ rest, ¬ (a = '-' ∧ first = false ∧ (text' ++ ']' :: rest).head? ≠ some ']') →
    lexBracket first (text ++ ']' :: rest) =
      (lexBracket false (text' ++ ']' :: rest)).map fun r => (.plain a :: r.1,r.2)

/-- The same characters, some of them behind a backslash. -/
inductive Spelled : List Char → List Char → Prop
  | nil : Spelled [] []
  | plain {c : Char} {body text : List Char} (hbackslash : c ≠ '\\') (h : Spelled body text) :
      Spelled (c :: body) (c :: text)
  | escaped {c : Char} {body text : List Char} (hpunctuation : isPunctuation c = true)
      (hhyphen : c ≠ '-') (h : Spelled body text) : Spelled (c :: body) ('\\' :: c :: text)

theorem Spelled.refl {body : List Char} (h : '\\' ∉ body) : Spelled body body := by
  induction body with
  | nil => exact .nil
  | cons c body ih =>
    obtain ⟨hc,hbody⟩ := not_or.mp (mt List.mem_cons.mpr h)
    exact .plain (Ne.symm hc) (ih hbody)

theorem Spelled.hyphen {body text : List Char} (h : Spelled ('-' :: body) text) :
    ∃ text', text = '-' :: text' ∧ Spelled body text' := by
  cases h with
  | plain _ h => exact ⟨_,rfl,h⟩
  | escaped _ hhyphen => exact absurd rfl hhyphen

/-- What stands behind the character does not make it more than a character. -/
theorem not_opens {a : Char} {body text : List Char}
    (helement : ∀ d ∈ ['.','=',':'], ¬ ['[',d] <:+: a :: body) (h : Spelled body text)
    (rest : List Char) : ¬ Opens a (text ++ ']' :: rest) := by
  rintro ⟨rfl,hnext⟩
  cases h with
  | nil => simp at hnext
  | @plain d body =>
    have hpair : ['[',d] <:+: '[' :: d :: body := (List.prefix_append ['[',d] body).isInfix
    refine helement d ?_ hpair
    simpa using hnext
  | escaped => simp at hnext

theorem Spelled.head_ne {body text : List Char} (h : Spelled body text) (hne : body ≠ [])
    (hbracket : ']' ∉ body) (rest : List Char) : (text ++ ']' :: rest).head? ≠ some ']' := by
  cases h with
  | nil => exact absurd rfl hne
  | plain =>
    intro hhead
    obtain rfl := Option.some.inj hhead
    exact hbracket List.mem_cons_self
  | escaped => simp

theorem Spelled.begins {first : Bool} {a : Char} {body text : List Char}
    (h : Spelled (a :: body) text) (hbracket : a = ']' → first = true)
    (helement : ∀ d ∈ ['.','=',':'], ¬ ['[',d] <:+: a :: body) :
    ∃ text', Spelled body text' ∧ Begins first a text text' ∧ (a = '-' → text = '-' :: text') := by
  cases h with
  | @plain _ _ text' hbackslash h =>
    refine ⟨text',h,fun rest hhyphen => ?_,fun ha => by rw [ha]⟩
    rw [List.cons_append]
    by_cases ha : a = ']'
    · obtain rfl := hbracket ha
      subst ha
      exact lexBracket_first
    · exact lexBracket_plain ha hbackslash (not_opens helement h rest) hhyphen
  | @escaped _ _ text' hpunctuation hhyphen h =>
    exact ⟨text',h,fun _ _ => lexBracket_escaped hpunctuation,fun ha => absurd ha hhyphen⟩

theorem ReadsAs.nil : ReadsAs false [] [] :=
  fun _ => ⟨[],lexBracket_close,by simp,rfl⟩

theorem ReadsAs.single {first : Bool} {a : Char} {body text text' : List Char}
    {entries : List Specifier} (h : ReadsAs false text' entries) (hspelled : Spelled body text')
    (hbegins : Begins first a text text') (hhyphen : a = '-' → first = true ∨ body = []) :
    ReadsAs first text (.single a :: entries) := by
  intro rest
  obtain ⟨ts,hts,hhead,hparse⟩ := h rest
  refine ⟨.plain a :: ts,?_,by simp,parseBracket_single hhead hparse⟩
  rw [hbegins rest,hts]
  · rfl
  · rintro ⟨ha,hfirst,hnext⟩
    rcases hhyphen ha with htrue | rfl
    · simp [hfirst] at htrue
    · cases hspelled
      simp at hnext

theorem ReadsAs.range {first : Bool} {a c : Char} {body text text₁ text₂ : List Char}
    {entries : List Specifier} (h : ReadsAs false text₂ entries)
    (hbegins : Begins first a text ('-' :: text₁)) (hspelled : Spelled (c :: body) text₁)
    (hends : Begins false c text₁ text₂) (hbracket : ']' ∉ c :: body)
    (hhyphen : c = '-' → text₁ = '-' :: text₂) (hordered : a ≤ c ∧ a ≠ '-') :
    ReadsAs first text (.range a c :: entries) := by
  intro rest
  obtain ⟨ts,hts,_,hparse⟩ := h rest
  have hstart : lexBracket first (text ++ ']' :: rest) =
      (lexBracket false (text₁ ++ ']' :: rest)).map
        fun r => (.plain a :: .hyphen :: r.1,r.2) := by
    rw [hbegins rest (fun h => hordered.2 h.1),List.cons_append,
      lexBracket_hyphen (hspelled.head_ne (by simp) hbracket rest),Option.map_map]
    rfl
  have hrange : ¬ (a = '-' ∨ c < a) := not_or.mpr ⟨hordered.2,Char.not_lt.mpr hordered.1⟩
  by_cases hend : c = '-' ∧ (text₂ ++ ']' :: rest).head? ≠ some ']'
  · -- the second endpoint is a hyphen that could ask for a range itself
    obtain ⟨rfl,hnext⟩ := hend
    refine ⟨.plain a :: .hyphen :: .hyphen :: ts,?_,by simp,?_⟩
    · rw [hstart,hhyphen rfl,List.cons_append,lexBracket_hyphen hnext,hts]
      rfl
    · rw [parseBracket,if_neg hrange,hparse]
      rfl
  · refine ⟨.plain a :: .hyphen :: .plain c :: ts,?_,by simp,?_⟩
    · rw [hstart,hends rest (fun h => hend ⟨h.1,h.2.2⟩),hts]
      rfl
    · rw [parseBracket,if_neg hrange,hparse]
      rfl

theorem Placed.of_cons {first : Bool} {entry : Specifier} {entries : List Specifier}
    (h : Placed first (entry :: entries)) :
    Placed false entries ∧ (entry = .single '-' → first = true ∨ entries = []) := by
  cases entries with
  | nil => exact ⟨by simp [Placed],fun _ => .inr rfl⟩
  | cons next entries =>
    cases first with
    | true => exact ⟨h,fun _ => .inl rfl⟩
    | false =>
      have hparts : .single '-' ∉ entry :: (next :: entries).dropLast := h
      exact ⟨fun hmem => hparts (List.mem_cons_of_mem _ hmem),
        fun he => absurd (he ▸ List.mem_cons_self) hparts⟩

theorem specifiers_eq_nil {body : List Char} (h : specifiers body = []) : body = [] := by
  fun_cases specifiers body <;> simp_all [specifiers]

/-- Its elements are characters, and its ranges ascend from a character that is no hyphen. -/
structure Clear (body : List Char) : Prop where
  element : ∀ d ∈ ['.','=',':'], ¬ ['[',d] <:+: body
  ordered : ∀ a c, .range a c ∈ specifiers body → a ≤ c ∧ a ≠ '-'

theorem Clear.suffix {body rest : List Char} (h : Clear body) (hsuffix : rest <:+ body)
    (hentries : specifiers rest ⊆ specifiers body) : Clear rest where
  element d hd hpart := h.element d hd (hpart.trans hsuffix.isInfix)
  ordered a c hmem := h.ordered a c (hentries hmem)

theorem ReadsAs.of_clear {first : Bool} {a : Char} {body text : List Char}
    (hbody : ∀ {text'}, Spelled body text' → ReadsAs false text' (specifiers body))
    (hspelled : Spelled (a :: body) text) (h : Clear (a :: body)) (hbracket : a = ']' → first = true)
    (hentries : specifiers (a :: body) = .single a :: specifiers body)
    (hplaced : Placed first (specifiers (a :: body))) :
    ReadsAs first text (specifiers (a :: body)) := by
  obtain ⟨text',hspelled',hbegins,_⟩ := hspelled.begins hbracket h.element
  rw [hentries] at hplaced ⊢
  refine (hbody hspelled').single hspelled' hbegins fun ha => ?_
  exact (hplaced.of_cons.2 (by rw [ha])).imp_right specifiers_eq_nil

theorem bracket_first {first : Bool} {a : Char} {cs : List Char}
    (h : ']' ∉ if first then (a :: cs).tail else a :: cs) :
    (a = ']' → first = true) ∧ ']' ∉ cs := by
  cases first with
  | true => exact ⟨fun _ => rfl,h⟩
  | false =>
    obtain ⟨ha,hcs⟩ := not_or.mp (mt List.mem_cons.mpr h)
    exact ⟨fun he => absurd he.symm ha,hcs⟩

theorem readsAs_spelled {body text : List Char} {first : Bool} (hspelled : Spelled body text)
    (h : Clear body) (hbracket : ']' ∉ if first then body.tail else body)
    (hstart : first = true → body ≠ []) (hplaced : Placed first (specifiers body)) :
    ReadsAs first text (specifiers body) := by
  induction body using specifiers.induct generalizing first text with
  | case1 a c cs ih =>
    have hentries : specifiers (a :: '-' :: c :: cs) = .range a c :: specifiers cs := by
      simp [specifiers]
    have hcs : Clear cs := h.suffix ⟨[a,'-',c],rfl⟩ (by simp [hentries])
    obtain ⟨hfirst,htail⟩ := bracket_first hbracket
    have hends : ']' ∉ c :: cs := fun hmem => htail (List.mem_cons_of_mem _ hmem)
    obtain ⟨hc,hnone⟩ := not_or.mp (mt List.mem_cons.mpr hends)
    have helement : ∀ d ∈ ['.','=',':'], ¬ ['[',d] <:+: c :: cs := fun d hd hpart =>
      h.element d hd (hpart.trans (List.IsSuffix.isInfix ⟨[a,'-'],rfl⟩))
    obtain ⟨text',hspelled',hbegins,_⟩ := hspelled.begins hfirst h.element
    obtain ⟨text₁,rfl,hspelled₁⟩ := hspelled'.hyphen
    obtain ⟨text₂,hspelled₂,hend,hhyphen⟩ :=
      hspelled₁.begins (fun he => absurd he.symm hc) helement
    rw [hentries] at hplaced ⊢
    have hrest : ReadsAs false text₂ (specifiers cs) :=
      ih hspelled₂ hcs hnone (by simp) hplaced.of_cons.1
    exact hrest.range hbegins hspelled₁ hend hends hhyphen (h.ordered a c (by simp [hentries]))
  | case2 a b c cs hb ih =>
    have hentries : specifiers (a :: b :: c :: cs) = .single a :: specifiers (b :: c :: cs) := by
      simp [specifiers,hb]
    have hrest : Clear (b :: c :: cs) := h.suffix (List.suffix_cons a _) (by simp [hentries])
    obtain ⟨hfirst,htail⟩ := bracket_first hbracket
    have hplaced' := hplaced
    rw [hentries] at hplaced'
    exact .of_clear (fun hspelled' => ih hspelled' hrest htail (by simp) hplaced'.of_cons.1)
      hspelled h hfirst hentries hplaced
  | case3 a b =>
    obtain ⟨hfirst,htail⟩ := bracket_first hbracket
    have hlast : Clear [b] := h.suffix (List.suffix_cons a _) (by simp [specifiers])
    have hplaced' : Placed false [.single b] := hplaced.of_cons.1
    have hb : ∀ {text'}, Spelled [b] text' → ReadsAs false text' (specifiers [b]) := by
      intro text' hspelled'
      refine .of_clear ?_ hspelled' hlast (fun he => ?_) rfl hplaced'
      · rintro _ ⟨⟩
        exact .nil
      · exact absurd (he ▸ List.mem_cons_self) htail
    exact .of_clear hb hspelled h hfirst rfl hplaced
  | case4 a =>
    refine .of_clear ?_ hspelled h (bracket_first hbracket).1 rfl hplaced
    rintro _ ⟨⟩
    exact .nil
  | case5 =>
    cases hspelled
    cases first with
    | true => exact absurd rfl (hstart rfl)
    | false => exact .nil

theorem bracket_spelled {negated : Bool} {body text : List Char} (hspelled : Spelled body text)
    (h : Clear body) (hbracket : ']' ∉ body.tail) (hne : body ≠ [])
    (hplaced : Placed true (specifiers body)) (hcaret : negated = false → text.head? ≠ some '^')
    (rest : List Char) :
    bracket ((if negated then ['^'] else []) ++ text ++ ']' :: rest) =
      some (.one (within negated (specifiers body)),rest) := by
  have hfirst : ']' ∉ if true then body.tail else body := hbracket
  obtain ⟨ts,hlex,_,hparse⟩ := readsAs_spelled hspelled h hfirst (fun _ => hne) hplaced rest
  cases negated with
  | true =>
    rw [if_pos rfl,List.append_assoc,List.singleton_append,bracket,hlex,Option.bind_some,hparse]
    rfl
  | false =>
    obtain ⟨d,ds,rfl⟩ : ∃ d ds, text = d :: ds := by
      cases hspelled with
      | nil => exact absurd rfl hne
      | plain | escaped => exact ⟨_,_,rfl⟩
    have hd : d ≠ '^' := fun he => hcaret rfl (by rw [he]; rfl)
    rw [if_neg (by decide),List.nil_append,bracket.eq_def]
    split
    · rename_i hcs
      exact absurd (List.cons.inj hcs).1 hd
    · rw [hlex,Option.bind_some,hparse]
      rfl

end Classes

section Translation

/-- The regular expression is read, and it matches as the tokens do. -/
def Agrees (fuel : ℕ) (text : List Char) (ts : List Token) : Prop :=
  ∃ its, branch fuel text = some its ∧
    ∀ streamId, matchesAll its streamId = matchesAll (items ts) streamId

theorem Agrees.cons {fuel : ℕ} {text rest : List Char} {t : Token} {ts : List Token} {item : Item}
    (h : Agrees fuel rest ts)
    (hread : branch (fuel+1) text = (branch fuel rest).map (item :: ·))
    (hitems : items (t :: ts) = item :: items ts) : Agrees (fuel+1) text (t :: ts) := by
  obtain ⟨its,hits,hmatch⟩ := h
  refine ⟨item :: its,by rw [hread,hits]; rfl,fun streamId => ?_⟩
  rw [hitems]
  exact matchesAll_append_congr hmatch [item] streamId

/-- A translation that writes every token down so that it is read back, those that are `plain`. -/
structure Translation (tr : List Char → List Char) (plain : Token → Prop) : Prop where
  nil : tr [] = []
  char : ∀ {c : Char} (cs : List Char), c ≠ '?' → c ≠ '*' → c ≠ '[' →
    ∃ w, tr (c :: cs) = w ++ tr cs ∧ w ≠ [] ∧ w.head? ≠ some '*' ∧
      ∀ fuel text, branch (fuel+1) (w ++ text) = (branch fuel text).map (.one (· == c) :: ·)
  anyChar : ∀ cs, tr ('?' :: cs) = '.' :: tr cs
  star : ∀ cs, tr ('*' :: cs) = '.' :: '*' :: tr cs
  anyWithin : ∀ {negated : Bool} {body : List Char} (rest : List Char),
    plain (.anyWithin negated body) → body ≠ [] → ']' ∉ body.tail →
    (negated = false → body.head? ≠ some '!') →
    ∃ w, tr ('[' :: ((if negated then ['!'] else []) ++ body ++ ']' :: rest)) =
        '[' :: (w ++ tr rest) ∧
      ∀ text, bracket (w ++ text) = some (.one (within negated (specifiers body)),text)
  component : ¬ plain (.anyRecursiveSequence true)

variable {tr : List Char → List Char} {plain : Token → Prop}

theorem Translation.head_ne (htr : Translation tr plain) {cs : List Char} {atComponent : Bool}
    {ts : List Token} (h : tokens (.outside atComponent) cs = some ts)
    (hplain : ∀ t ∈ ts, plain t) : (tr cs ++ ['$']).head? ≠ some '*' := by
  cases cs with
  | nil => simp [htr.nil]
  | cons c cs =>
    obtain ⟨t,b,rest,ts',hfirst,_,rfl⟩ := first_of_tokens h
    cases hfirst with
    | char hany hstar hclass =>
      obtain ⟨w,hw,hne,hhead,_⟩ := htr.char cs hany hstar hclass
      obtain ⟨d,w,rfl⟩ := List.exists_cons_of_ne_nil hne
      simpa [hw] using hhead
    | anyChar => simp [htr.anyChar]
    | anySequence => simp [htr.star]
    | last => simp [htr.star]
    | component => simp [htr.star]
    | anyWithin hne hclose hbang =>
      obtain ⟨w,hw,_⟩ := htr.anyWithin rest (hplain _ List.mem_cons_self) hne hclose hbang
      rw [hw]
      simp

theorem Translation.agrees (htr : Translation tr plain) {cs : List Char} {atComponent : Bool}
    {ts : List Token} (h : tokens (.outside atComponent) cs = some ts)
    (hplain : ∀ t ∈ ts, plain t) {fuel : ℕ} (hfuel : (tr cs).length < fuel) :
    Agrees fuel (tr cs ++ ['$']) ts := by
  refine tokens_induction (P := fun cs ts => (∀ t ∈ ts, plain t) → ∀ fuel, (tr cs).length < fuel →
    Agrees fuel (tr cs ++ ['$']) ts) ?_ ?_ h hplain fuel hfuel
  · intro _ fuel hfuel
    obtain ⟨fuel,rfl⟩ := Nat.exists_eq_succ_of_ne_zero (Nat.ne_zero_of_lt hfuel)
    exact ⟨[],by simp [htr.nil,branch],fun _ => rfl⟩
  · intro c cs t b rest ts hfirst hrest ih hplain fuel hfuel
    obtain ⟨fuel,rfl⟩ := Nat.exists_eq_succ_of_ne_zero (Nat.ne_zero_of_lt hfuel)
    obtain ⟨ht,hts⟩ := List.forall_mem_cons.mp hplain
    have hnext : (tr rest).length < fuel → Agrees fuel (tr rest ++ ['$']) ts := ih hts fuel
    cases hfirst with
    | char hany hstar hclass =>
      obtain ⟨w,hw,hne,_,hread⟩ := htr.char cs hany hstar hclass
      rw [hw] at hfuel ⊢
      rw [List.append_assoc]
      refine (hnext ?_).cons (hread fuel _) rfl
      have hpos : 0 < w.length := List.length_pos_of_ne_nil hne
      rw [List.length_append] at hfuel
      omega
    | anyChar =>
      rw [htr.anyChar] at hfuel ⊢
      refine (hnext (by simpa using hfuel)).cons ?_ rfl
      exact branch_any (by simp) (htr.head_ne hrest hts) fuel
    | @anySequence cs hcs =>
      rw [htr.star] at hfuel ⊢
      rw [List.length_cons,List.length_cons] at hfuel
      have hlen : (tr cs).length < fuel := by omega
      refine (hnext hlen).cons ?_ rfl
      exact branch_many fuel _
    | last =>
      -- two stars, and any text is matched either way
      obtain rfl := Option.some.inj hrest
      have hlen : 4 < fuel+1 := by simpa [htr.star,htr.nil] using hfuel
      obtain ⟨fuel,rfl⟩ : ∃ k, fuel = k+4 := ⟨fuel-4,by omega⟩
      exact ⟨[.many,.many],by simp [htr.star,htr.nil,branch],matchesAll_many_many []⟩
    | component => exact absurd ht htr.component
    | @anyWithin negated body rest hne hclose hbang =>
      obtain ⟨w,hw,hread⟩ := htr.anyWithin rest ht hne hclose hbang
      rw [hw] at hfuel ⊢
      rw [List.cons_append,List.append_assoc]
      have hlen : (tr rest).length < fuel := by
        rw [List.length_cons,List.length_append] at hfuel
        omega
      refine (hnext hlen).cons ?_ rfl
      exact branch_bracket (hread _) fuel

end Translation

end GlobToRegex
end EventCore
