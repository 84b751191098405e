import EventCore.Wildcards
import Mathlib.Data.List.Basic
import Mathlib.Data.List.Forall2

/-! The pattern operators of SQL. SQLite's `GLOB` has `*`, `?` and classes that a leading caret
negates; `LIKE` has `%` and `_`, and an escape character or not. -/
namespace EventCore
namespace SqlPatterns
open Wildcards

section Glob

/-- The entries of a class. A hyphen asks for a range from the character before it, unless that
closed a range or the class ends behind the hyphen. -/
def globEntries : Option Char → List Char → List Specifier
  | _, [] => []
  | none, c :: cs => .single c :: globEntries (some c) cs
  | some _, [c] => [.single c]
  | some first, c :: last :: cs =>
    if c = '-' then .range first last :: globEntries none cs
    else .single c :: globEntries (some c) (last :: cs)

/-- A bracket that comes first is a character, and none that a range could begin with. -/
def classEntries : List Char → List Specifier
  | [] => []
  | c :: cs => if c = ']' then .single c :: globEntries none cs else globEntries none (c :: cs)

/-- Where the reader of a pattern stands: outside, or in a class of which it has the body. -/
inductive GlobMode
  | outside
  | inside (negated : Bool) (body : List Char)

/-- The items of a pattern; a class that is not closed has no reading. -/
def globItems : GlobMode → List Char → Option (List Item)
  | .outside, [] => some []
  | .outside, c :: cs =>
    if c = '*' then (globItems .outside cs).map (.many :: ·)
    else if c = '?' then (globItems .outside cs).map (.one (fun _ => true) :: ·)
    else if c = '[' then
      match cs with
      | [] => none
      | d :: ds =>
        if d = '^' then
          match ds with
          | [] => none
          | e :: es => globItems (.inside true [e]) es
        else globItems (.inside false [d]) ds
    else (globItems .outside cs).map (.one (· == c) :: ·)
  | .inside _ _, [] => none
  | .inside negated body, c :: cs =>
    if c = ']' then (globItems .outside cs).map (.one (within negated (classEntries body)) :: ·)
    else globItems (.inside negated (body ++ [c])) cs

def GlobDocumented (glob : String → String → Bool) : Prop :=
  ∀ {pattern : String} {items : List Item}, globItems .outside pattern.toList = some items →
    ∀ text, glob pattern text = matchesAll items text.toList

def globReference (pattern text : String) : Bool :=
  match globItems .outside pattern.toList with
  | some items => matchesAll items text.toList
  | none => false

theorem globReference_documented : GlobDocumented globReference :=
  fun h text => by simp [globReference,h]

theorem globItems_inside {negated : Bool} {body more rest : List Char} (h : ']' ∉ more) :
    globItems (.inside negated body) (more ++ ']' :: rest) =
      (globItems .outside rest).map (.one (within negated (classEntries (body ++ more))) :: ·) := by
  induction more generalizing body with
  | nil => simp [globItems]
  | cons c more ih =>
    obtain ⟨hc,hmore⟩ := not_or.mp (mt List.mem_cons.mpr h)
    simp [globItems,Ne.symm hc,ih hmore]

theorem globItems_class {body rest : List Char} (hne : body ≠ []) (hclose : ']' ∉ body.tail)
    (hcaret : body.head? ≠ some '^') :
    globItems .outside ('[' :: (body ++ ']' :: rest)) =
      (globItems .outside rest).map (.one (within false (classEntries body)) :: ·) := by
  obtain ⟨d,ds,rfl⟩ := List.exists_cons_of_ne_nil hne
  have hd : d ≠ '^' := by simpa using hcaret
  have hinside : globItems (.inside false [d]) (ds ++ ']' :: rest) =
      (globItems .outside rest).map (.one (within false (classEntries ([d] ++ ds))) :: ·) :=
    globItems_inside hclose
  rw [globItems.eq_def]
  simpa [hd] using hinside

theorem globItems_star (cs : List Char) :
    globItems .outside ('*' :: cs) = (globItems .outside cs).map (.many :: ·) := by
  rw [globItems.eq_def]
  simp

theorem globItems_any (cs : List Char) :
    globItems .outside ('?' :: cs) = (globItems .outside cs).map (.one (fun _ => true) :: ·) := by
  rw [globItems.eq_def]
  simp

theorem globItems_char {c : Char} {cs : List Char} (hstar : c ≠ '*') (hany : c ≠ '?')
    (hclass : c ≠ '[') :
    globItems .outside (c :: cs) = (globItems .outside cs).map (.one (· == c) :: ·) := by
  rw [globItems.eq_def]
  simp [hstar,hany,hclass]

end Glob

section Like

/-- The items of a pattern, where a character behind an escape character stands for itself. A
pattern that ends with an escape character has no reading. -/
def likeItems (escapes : Char → Bool) (same : Char → Char → Bool) : List Char → Option (List Item)
  | [] => some []
  | c :: cs =>
    if escapes c then
      match cs with
      | [] => none
      | d :: ds => (likeItems escapes same ds).map (.one (same d) :: ·)
    else if c = '%' then (likeItems escapes same cs).map (.many :: ·)
    else if c = '_' then (likeItems escapes same cs).map (.one (fun _ => true) :: ·)
    else (likeItems escapes same cs).map (.one (same c) :: ·)

variable {escapes : Char → Bool} {same : Char → Char → Bool}

def LikeDocumented (escapes : Char → Bool) (same : Char → Char → Bool)
    (like : String → String → Bool) : Prop :=
  ∀ {pattern : String} {items : List Item}, likeItems escapes same pattern.toList = some items →
    ∀ text, like pattern text = matchesAll items text.toList

def likeReference (escapes : Char → Bool) (same : Char → Char → Bool) (pattern text : String) :
    Bool :=
  match likeItems escapes same pattern.toList with
  | some items => matchesAll items text.toList
  | none => false

theorem likeReference_documented : LikeDocumented escapes same (likeReference escapes same) :=
  fun h text => by simp [likeReference,h]

/-- How SQLite compares: the ASCII letters without their case. -/
def caseless (c d : Char) : Bool := c.toLower = d.toLower

def Literally (escapes : Char → Bool) (c : Char) : Prop := escapes c = false ∧ c ≠ '%' ∧ c ≠ '_'

theorem likeItems_escaped {c : Char} (h : escapes c = true) (d : Char) (ds : List Char) :
    likeItems escapes same (c :: d :: ds) =
      (likeItems escapes same ds).map (.one (same d) :: ·) := by
  simp [likeItems,h]

theorem likeItems_many (h : escapes '%' = false) (cs : List Char) :
    likeItems escapes same ('%' :: cs) = (likeItems escapes same cs).map (.many :: ·) := by
  rw [likeItems.eq_def]
  simp [h]

theorem likeItems_any (h : escapes '_' = false) (cs : List Char) :
    likeItems escapes same ('_' :: cs) =
      (likeItems escapes same cs).map (.one (fun _ => true) :: ·) := by
  rw [likeItems.eq_def]
  simp [h]

theorem likeItems_char {c : Char} (h : Literally escapes c) (cs : List Char) :
    likeItems escapes same (c :: cs) = (likeItems escapes same cs).map (.one (same c) :: ·) := by
  obtain ⟨hescape,hmany,hany⟩ := h
  rw [likeItems.eq_def]
  simp [hescape,hmany,hany]

theorem likeItems_literally {cs : List Char} (h : ∀ c ∈ cs, Literally escapes c)
    (more : List Char) : likeItems escapes same (cs ++ more) =
      (likeItems escapes same more).map (cs.map (fun c => .one (same c)) ++ ·) := by
  induction cs with
  | nil => simp
  | cons c cs ih =>
    obtain ⟨hc,hcs⟩ := List.forall_mem_cons.mp h
    rw [List.cons_append,likeItems_char hc,ih hcs,Option.map_map]
    rfl

theorem matchesAll_literally {cs : List Char} {items : List Item} {text : List Char} :
    matchesAll (cs.map (fun c => .one (same c)) ++ items) text = true ↔
      ∃ first rest, text = first ++ rest ∧ List.Forall₂ (fun c d => same c d = true) cs first ∧
        matchesAll items rest = true := by
  induction cs generalizing text with
  | nil => simp
  | cons c cs ih =>
    cases text with
    | nil => simp [matchesAll]
    | cons d text =>
      rw [List.map_cons,List.cons_append,matchesAll_one_cons,Bool.and_eq_true,ih]
      constructor
      · rintro ⟨hd,first,rest,rfl,hfirst,hrest⟩
        exact ⟨d :: first,rest,rfl,.cons hd hfirst,hrest⟩
      · rintro ⟨_,rest,he,_ | ⟨hd,hfirst⟩,hrest⟩
        rename_i e first
        obtain ⟨rfl,rfl⟩ := List.cons.inj he
        exact ⟨hd,first,rest,rfl,hfirst,hrest⟩

@[simp] theorem matchesAll_many_nil (text : List Char) : matchesAll [.many] text = true :=
  matchesAll_many.mpr ⟨[],List.nil_suffix,rfl⟩

theorem forall₂_same_iff {cs first : List Char} (h : ∀ c ∈ cs, ∀ d, same c d = (c == d)) :
    List.Forall₂ (fun c d => same c d = true) cs first ↔ cs = first := by
  induction cs generalizing first with
  | nil => cases first <;> simp
  | cons c cs ih =>
    obtain ⟨hc,hcs⟩ := List.forall_mem_cons.mp h
    cases first with
    | nil => simp
    | cons d first => simp [hc,ih hcs]

theorem like_literally {like : String → String → Bool} (hlike : LikeDocumented escapes same like)
    (hpercent : escapes '%' = false) {p : String}
    (h : ∀ c ∈ p.toList, Literally escapes c ∧ ∀ d, same c d = (c == d)) (text : String) :
    like (p ++ "%") text = p.toList.isPrefixOf text.toList := by
  have hitems : likeItems escapes same (p ++ "%").toList =
      some (p.toList.map (fun c => .one (same c)) ++ [.many]) := by
    have hlast : likeItems escapes same ['%'] = some [.many] := likeItems_many hpercent []
    rw [String.toList_append,likeItems_literally fun c hc => (h c hc).1]
    simp [hlast]
  have hsame : ∀ first : List Char,
      List.Forall₂ (fun c d => same c d = true) p.toList first ↔ p.toList = first :=
    fun _ => forall₂_same_iff fun c hc => (h c hc).2
  rw [hlike hitems,Bool.eq_iff_iff,matchesAll_literally,List.isPrefixOf_iff_prefix]
  constructor
  · rintro ⟨first,rest,htext,hfirst,_⟩
    exact ⟨rest,by rw [(hsame _).mp hfirst,htext]⟩
  · rintro ⟨rest,htext⟩
    exact ⟨p.toList,rest,htext.symm,(hsame _).mpr rfl,matchesAll_many_nil rest⟩

end Like

end SqlPatterns
end EventCore
