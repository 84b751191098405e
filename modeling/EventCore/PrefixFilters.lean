import Mathlib
import EventCore.EventReader
import EventCore.GlobPushdown
import EventCore.SqlPatterns

/-! Prefix filters in four event readers. Two of them compare characters; the two that hand the
prefix to `LIKE` make a pattern of it, with a percent sign at the end. -/
namespace EventCore
namespace PrefixFilters
open Wildcards SqlPatterns EventReader FileStore

variable {Any Raw Value E : Type}

section Readers

variable (like : String → String → Bool) (are : String → Option (String → Bool))
  (form : ValueForm Value E) (filter : EventFilter)

/-- The predicate on the stream; none if the regular expression of a pattern is not valid. -/
def selectsStream : Option (String → Bool) :=
  match filter.streamPrefix with
  | some p => some fun streamId => like (p.value ++ "%") streamId
  | none =>
    match filter.streamPattern with
    | some pattern => are (GlobPushdown.globToAnchoredRegex pattern.value)
    | none => some fun _ => true

/-- `LIMIT`, for which a negative number is an error. -/
def limitRows {α : Type} : Option ℕ → List α → Except EventStoreError (List α)
  | none,_ => .error (.storeFailure .readStream)
  | some limit,rows => .ok (rows.take limit)

/-- `PostgresEventStore::read_events`, `ORDER BY event_id`. -/
def readPostgres (table : SqliteStore.Table Value) (page : EventPage) :
    Except EventStoreError (List (E × Uuid)) :=
  match selectsStream like are filter with
  | none => .error (.storeFailure .readStream)
  | some selects =>
    (limitRows (sqlLimit page.limit)
      ((table.filter fun row => matchesType form.eventTypeName filter row.eventType &&
        (IsAfter page.afterPosition row.eventId && selects row.streamId)).insertionSort
          fun p q => p.eventId ≤ q.eventId)).map
      (List.filterMap fun row => (form.fromValue row.eventData).toOption.map (·,row.eventId))

end Readers

def beginsWith (p : StreamPrefix) (streamId : String) : Bool :=
  p.value.toList.isPrefixOf streamId.toList

/-- In every store a read with the prefix is a read of the events of the streams that begin with
it. -/
structure Literal (sqliteLike postgresLike : String → String → Bool) (p : StreamPrefix) : Prop where
  memory : ∀ {Any Raw Value E : Type} (globMatches : StreamPattern → String → Bool)
    (ev : Event Any Raw E) (eventType : Option String) (data : MemoryStore.StoreData Any Raw Value)
    (page : EventPage),
    readMemory globMatches ev ⟨some p,none,eventType⟩ data page =
      readMemory globMatches ev ⟨none,none,eventType⟩
        { data with globalLog := data.globalLog.filter fun entry => beginsWith p entry.streamId }
        page
  file : ∀ {Value E : Type} (globMatches : StreamPattern → String → Bool) (form : ValueForm Value E)
    (eventType : Option String) (store : FileEventStore Value) (page : EventPage),
    readFile globMatches form ⟨some p,none,eventType⟩ store page =
      readFile globMatches form ⟨none,none,eventType⟩
        { store with index := { store.index with
            byIngestion := store.index.byIngestion.filter fun entry =>
              beginsWith p entry.2.streamId } } page
  sqlite : ∀ {Any Raw E : Type} (glob : String → String → Bool) (ev : Event Any Raw E)
    (eventType : Option String) (table : SqliteStore.Table Raw) (page : EventPage),
    (∀ row ∈ table, ∃ streamId : StreamId, row.streamId = streamId.value) →
    readSqlite sqliteLike glob ev ⟨some p,none,eventType⟩ table page =
      readSqlite sqliteLike glob ev ⟨none,none,eventType⟩
        (table.filter fun row => beginsWith p row.streamId) page
  postgres : ∀ {Value E : Type} (are : String → Option (String → Bool)) (form : ValueForm Value E)
    (eventType : Option String) (table : SqliteStore.Table Value) (page : EventPage),
    (∀ row ∈ table, ∃ streamId : StreamId, row.streamId = streamId.value) →
    readPostgres postgresLike are form ⟨some p,none,eventType⟩ table page =
      readPostgres postgresLike are form ⟨none,none,eventType⟩
        (table.filter fun row => beginsWith p row.streamId) page

/-- No wildcard, no escape character, and no letter that SQLite compares without its case. -/
def Plain (p : StreamPrefix) : Prop :=
  ∀ c ∈ p.value.toList, c ≠ '%' ∧ c ≠ '_' ∧ c ≠ '\\' ∧ c.isAlpha = false

structure Operators (sqliteLike postgresLike : String → String → Bool) : Prop where
  sqlite : LikeDocumented (fun _ => false) caseless sqliteLike
  postgres : LikeDocumented (· == '\\') (· == ·) postgresLike

theorem reference_operators : Operators (likeReference (fun _ => false) caseless)
    (likeReference (· == '\\') (· == ·)) :=
  ⟨likeReference_documented,likeReference_documented⟩

section Identifiers

theorem trim_eq_self_iff {s : String} : trim s = s ↔
    (∀ c ∈ s.toList.head?, isWhitespace c = false) ∧
      ∀ c ∈ s.toList.getLast?, isWhitespace c = false := by
  have hchars : trim s = s ↔ trimChars s.toList = s.toList := by
    rw [trim,← String.toList_inj,String.toList_ofList]
  rw [hchars]
  constructor
  · intro h
    constructor
    · intro c hc
      have hself := dropWhile_trimChars s.toList
      rw [h,List.dropWhile_eq_self_iff] at hself
      obtain ⟨cs,hcs⟩ := List.head?_eq_some_iff.mp hc
      simpa [hcs] using hself
    · intro c hc
      have hself : s.toList.rdropWhile isWhitespace = s.toList := by
        rw [← h,trimChars,List.rdropWhile_idempotent]
      rw [List.rdropWhile_eq_self_iff] at hself
      obtain ⟨cs,hcs⟩ := List.getLast?_eq_some_iff.mp hc
      simpa [hcs] using hself
  · rintro ⟨hhead,hlast⟩
    have hdrop : s.toList.dropWhile isWhitespace = s.toList := by
      rw [List.dropWhile_eq_self_iff]
      intro hlen
      simpa using hhead _ (List.head?_eq_getElem? ▸ List.getElem?_eq_getElem hlen)
    rw [trimChars,hdrop,List.rdropWhile_eq_self_iff]
    intro hne
    simpa using hlast _ (List.getLast?_eq_some_getLast hne)

/-- Other characters make an identifier too, if there are no more of them, none is a glob
metacharacter, and those at the ends are no white space. -/
theorem exists_streamId (p : StreamPrefix) (cs : List Char) (hne : cs ≠ [])
    (hlen : cs.length ≤ p.value.toList.length)
    (hhead : ∀ c ∈ cs.head?, isWhitespace c = false)
    (hlast : ∀ c ∈ cs.getLast?, isWhitespace c = false)
    (hglob : ∀ c ∈ cs, c ∉ ['*','?','[',']']) : ∃ streamId : StreamId, streamId.value.toList = cs := by
  refine ⟨⟨String.ofList cs,?_,?_,?_,?_⟩,by simp⟩
  · rw [trim_eq_self_iff,String.toList_ofList]
    exact ⟨hhead,hlast⟩
  · intro he
    exact hne (by simpa using congrArg String.toList he)
  · have hmax := p.lenCharMax
    simp only [String.length_ofList] at *
    simpa using hlen.trans hmax
  · simp only [noGlobMetacharacters,String.toList_ofList,List.all_eq_true]
    intro c hc
    simpa using hglob c hc

end Identifiers

section Operators

variable {sqliteLike postgresLike : String → String → Bool} {p : StreamPrefix}

theorem Literal.of_operators
    (hsqlite : ∀ streamId : StreamId,
      sqliteLike (p.value ++ "%") streamId.value = beginsWith p streamId.value)
    (hpostgres : ∀ streamId : StreamId,
      postgresLike (p.value ++ "%") streamId.value = beginsWith p streamId.value) :
    Literal sqliteLike postgresLike p where
  memory globMatches ev eventType data page := by
    simp only [readMemory,matchesPrefix,matchesPattern,List.filter_filter]
    congr 3
    funext entry
    simp [beginsWith,matchesType,Bool.and_comm,Bool.and_left_comm]
  file globMatches form eventType store page := by
    simp only [readFile,matchesPrefix,matchesPattern,List.filter_filter]
    congr 3
    funext entry
    simp [beginsWith,matchesType,Bool.and_comm,Bool.and_left_comm]
  sqlite glob ev eventType table page hstreams := by
    have hrows : ∀ row ∈ table,
        (IsAfter page.afterPosition row.eventId &&
          sqlWhere sqliteLike glob ev ⟨some p,none,eventType⟩ row) =
        ((IsAfter page.afterPosition row.eventId &&
          sqlWhere sqliteLike glob ev ⟨none,none,eventType⟩ row) && beginsWith p row.streamId) := by
      intro row hrow
      obtain ⟨streamId,hstreamId⟩ := hstreams row hrow
      simp [sqlWhere,matchesType,hstreamId,hsqlite,Bool.and_assoc,Bool.and_comm]
    rw [readSqlite,List.filter_congr hrows,readSqlite,List.filter_filter]
  postgres are form eventType table page hstreams := by
    have hrows : ∀ row ∈ table,
        (matchesType form.eventTypeName ⟨some p,none,eventType⟩ row.eventType &&
          (IsAfter page.afterPosition row.eventId && postgresLike (p.value ++ "%") row.streamId)) =
        ((matchesType form.eventTypeName ⟨none,none,eventType⟩ row.eventType &&
          (IsAfter page.afterPosition row.eventId && true)) && beginsWith p row.streamId) := by
      intro row hrow
      obtain ⟨streamId,hstreamId⟩ := hstreams row hrow
      rw [hstreamId,hpostgres,Bool.and_true,Bool.and_assoc]
      rfl
    simp only [readPostgres,selectsStream,List.filter_congr hrows,List.filter_filter]

end Operators

section Sqlite

def otherCase (c : Char) : Char := if c.isUpper then c.toLower else c.toUpper

/-- A character that SQLite takes for this one, and another one where there is any. -/
def variant (c : Char) : Char := if c = '%' ∨ c = '_' then 'x' else otherCase c

theorem toLower_otherCase (c : Char) : (otherCase c).toLower = c.toLower := by
  unfold otherCase
  split_ifs <;> simp

theorem isAlpha_otherCase (c : Char) : (otherCase c).isAlpha = c.isAlpha := by
  unfold otherCase
  split_ifs <;> simp

theorem otherCase_eq {c : Char} (h : c.isAlpha = false) : otherCase c = c := by
  obtain ⟨hupper,hlower⟩ : c.isUpper = false ∧ c.isLower = false := by simpa [Char.isAlpha] using h
  rw [otherCase,hupper,if_neg (by decide),Char.toUpper_eq_of_not_isLower (by simp [hlower])]

theorem otherCase_ne {c : Char} (h : c.isAlpha = true) : otherCase c ≠ c := by
  intro he
  by_cases hupper : c.isUpper = true
  · rw [otherCase,if_pos hupper] at he
    have hlower := Char.isUpper_toLower_eq_false c
    rw [he,hupper] at hlower
    cases hlower
  · rw [otherCase,if_neg hupper] at he
    have halpha := Char.isUpper_toUpper_eq_isAlpha c
    rw [he,h] at halpha
    exact hupper halpha

theorem caseless_eq_beq {c : Char} (h : c.isAlpha = false) (d : Char) : caseless c d = (c == d) := by
  have hc : c.toLower = c := Char.toLower_eq_of_not_isUpper (by simp_all [Char.isAlpha])
  rw [Bool.eq_iff_iff,caseless,decide_eq_true_eq,beq_iff_eq,hc]
  constructor
  · intro he
    have hd : d.isAlpha = false := by rw [← Char.isAlpha_toLower_eq_isAlpha,← he,h]
    rw [he,Char.toLower_eq_of_not_isUpper (by simp_all [Char.isAlpha])]
  · rintro rfl
    exact hc.symm

theorem not_isWhitespace_of_isAlpha {c : Char} (h : c.isAlpha = true) : isWhitespace c = false := by
  simp only [Char.isAlpha,Char.isUpper,Char.isLower,Bool.or_eq_true,Bool.and_eq_true,
    decide_eq_true_eq,ge_iff_le,UInt32.le_iff_toNat_le,Char.toNat_val] at h
  simp [isWhitespace] at h ⊢
  omega

theorem isWhitespace_variant (c : Char) : isWhitespace (variant c) = isWhitespace c := by
  unfold variant
  split_ifs with hc
  · rcases hc with rfl | rfl <;> decide
  · cases h : c.isAlpha with
    | true =>
      rw [not_isWhitespace_of_isAlpha h,not_isWhitespace_of_isAlpha ((isAlpha_otherCase c).trans h)]
    | false => rw [otherCase_eq h]

theorem variant_not_mem {c : Char} (h : c ∉ ['*','?','[',']']) : variant c ∉ ['*','?','[',']'] := by
  unfold variant
  split_ifs with hc
  · decide
  · cases halpha : c.isAlpha with
    | true =>
      intro hmem
      have hnone : ∀ d ∈ ['*','?','[',']'], d.isAlpha = false := by simp
      have hother := hnone _ hmem
      rw [isAlpha_otherCase,halpha] at hother
      cases hother
    | false => rwa [otherCase_eq halpha]

theorem variant_ne {c : Char} (h : c = '%' ∨ c = '_' ∨ c.isAlpha = true) : variant c ≠ c := by
  unfold variant
  split_ifs with hc
  · rcases hc with rfl | rfl <;> decide
  · obtain ⟨hmany,hany⟩ := not_or.mp hc
    exact otherCase_ne ((h.resolve_left hmany).resolve_left hany)

theorem matches_variant (cs : List Char) :
    ∃ items, likeItems (fun _ => false) caseless (cs ++ ['%']) = some items ∧
      matchesAll items (cs.map variant) = true := by
  induction cs with
  | nil => exact ⟨[.many],rfl,by simp⟩
  | cons c cs ih =>
    obtain ⟨items,hitems,hmatch⟩ := ih
    by_cases hmany : c = '%'
    · subst hmany
      refine ⟨.many :: items,by rw [List.cons_append,likeItems_many rfl,hitems]; rfl,?_⟩
      exact matchesAll_many.mpr ⟨_,List.suffix_cons _ _,hmatch⟩
    by_cases hany : c = '_'
    · subst hany
      refine ⟨.one (fun _ => true) :: items,?_,by simpa using hmatch⟩
      rw [List.cons_append,likeItems_any rfl,hitems]
      rfl
    · refine ⟨.one (caseless c) :: items,?_,?_⟩
      · rw [List.cons_append,likeItems_char ⟨rfl,hmany,hany⟩,hitems]
        rfl
      · simp [variant,hmany,hany,caseless,toLower_otherCase,hmatch]

end Sqlite

section Postgres

/-- The text that is left of the prefix when Postgres has read its escapes; at the end of the
prefix the percent sign is escaped. -/
def unescaped : List Char → List Char
  | [] => []
  | c :: cs =>
    if c = '\\' then
      match cs with
      | [] => ['%']
      | d :: ds => d :: unescaped ds
    else c :: unescaped cs

theorem mem_unescaped {cs : List Char} {c : Char} (h : c ∈ unescaped cs) : c = '%' ∨ c ∈ cs := by
  fun_induction unescaped cs with
  | case1 => cases h
  | case2 => exact .inl (by simpa using h)
  | case3 d ds ih =>
    rcases List.mem_cons.mp h with rfl | h
    · simp
    · exact (ih h).imp_right fun hc => by simp [hc]
  | case4 d ds hd ih =>
    rcases List.mem_cons.mp h with rfl | h
    · simp
    · exact (ih h).imp_right fun hc => by simp [hc]

theorem unescaped_eq_nil {cs : List Char} (h : unescaped cs = []) : cs = [] := by
  fun_cases unescaped cs with
  | case1 => rfl
  | case2 => simp [unescaped] at h
  | case3 => simp [unescaped] at h
  | case4 d ds hd =>
    rw [unescaped.eq_def] at h
    simp [hd] at h

theorem mem_getLast_cons {c d : Char} {cs : List Char} (h : c ∈ cs.getLast?) :
    c ∈ (d :: cs).getLast? := by
  cases cs with
  | nil => cases h
  | cons e es => rwa [List.getLast?_cons_cons]

theorem getLast_unescaped {cs : List Char} {c : Char} (h : c ∈ (unescaped cs).getLast?) :
    c = '%' ∨ c ∈ cs.getLast? := by
  -- the character is the last one left, or there is a rest that it is the last one of
  have hrest : ∀ {d : Char} {ds : List Char}, c ∈ (d :: unescaped ds).getLast? →
      (c ∈ (unescaped ds).getLast? → c = '%' ∨ c ∈ ds.getLast?) →
      c = '%' ∨ c ∈ (d :: ds).getLast? := by
    intro d ds hd ih
    cases hds : unescaped ds with
    | nil =>
      rw [hds] at hd
      rw [unescaped_eq_nil hds]
      exact .inr hd
    | cons e es =>
      rw [hds,List.getLast?_cons_cons] at hd
      exact (ih (hds ▸ hd)).imp_right mem_getLast_cons
  fun_induction unescaped cs with
  | case1 => cases h
  | case2 => exact .inl (by simpa using h.symm)
  | case3 d ds ih => exact (hrest h ih).imp_right mem_getLast_cons
  | case4 d ds hd ih => exact hrest h ih

theorem length_unescaped (cs : List Char) : (unescaped cs).length ≤ cs.length := by
  fun_induction unescaped cs with
  | case1 => rfl
  | case2 => rfl
  | case3 d ds ih => exact Nat.succ_le_succ (ih.trans (Nat.le_succ _))
  | case4 d ds hd ih => exact Nat.succ_le_succ ih

theorem count_unescaped_le (cs : List Char) : (unescaped cs).count '\\' ≤ cs.count '\\' := by
  fun_induction unescaped cs with
  | case1 => rfl
  | case2 => simp
  | case3 d ds ih =>
    simp only [List.count_cons]
    omega
  | case4 d ds hd ih =>
    simp only [List.count_cons]
    omega

theorem count_unescaped_lt {cs : List Char} (h : '\\' ∈ cs) :
    (unescaped cs).count '\\' < cs.count '\\' := by
  fun_induction unescaped cs with
  | case1 => cases h
  | case2 => simp
  | case3 d ds ih =>
    have hle := count_unescaped_le ds
    simp only [List.count_cons,beq_self_eq_true,if_true]
    omega
  | case4 d ds hd ih =>
    have hlt := ih (by simpa [Ne.symm hd] using h)
    simp only [List.count_cons]
    omega

theorem matches_unescaped {cs : List Char} (h : ∀ c ∈ cs, c ≠ '%' ∧ c ≠ '_') :
    ∃ items, likeItems (· == '\\') (· == ·) (cs ++ ['%']) = some items ∧
      matchesAll items (unescaped cs) = true := by
  fun_induction unescaped cs with
  | case1 => exact ⟨[.many],rfl,by simp⟩
  | case2 => exact ⟨[.one ('%' == ·)],rfl,by simp [matchesAll]⟩
  | case3 d ds ih =>
    obtain ⟨items,hitems,hmatch⟩ := ih fun c hc => h c (by simp [hc])
    exact ⟨.one (d == ·) :: items,by simp [likeItems,hitems],by simpa using hmatch⟩
  | case4 d ds hd ih =>
    obtain ⟨items,hitems,hmatch⟩ := ih fun c hc => h c (by simp [hc])
    obtain ⟨hmany,hany⟩ := h d (by simp)
    refine ⟨.one (d == ·) :: items,?_,by simpa using hmatch⟩
    rw [List.cons_append,likeItems_char ⟨by simpa using hd,hmany,hany⟩,hitems]
    rfl

theorem head_unescaped {cs : List Char} {items : List Item}
    (h : likeItems (· == '\\') (· == ·) (cs ++ ['%']) = some items)
    (hmatch : matchesAll items cs = true) : (unescaped cs).head? = cs.head? := by
  fun_cases unescaped cs with
  | case1 => rfl
  | case2 =>
    obtain rfl := Option.some.inj h
    simp [matchesAll] at hmatch
  | case3 d ds =>
    rw [List.cons_append,List.cons_append,likeItems_escaped rfl,Option.map_eq_some_iff] at h
    obtain ⟨_,_,rfl⟩ := h
    rw [matchesAll_one_cons,Bool.and_eq_true,beq_iff_eq] at hmatch
    rw [hmatch.1]
    rfl
  | case4 d ds hd =>
    rw [unescaped.eq_def]
    simp

end Postgres

section Exact

variable {sqliteLike postgresLike : String → String → Bool} {p : StreamPrefix}

theorem beginsWith_iff {text : String} :
    beginsWith p text = true ↔ p.value.toList <+: text.toList := List.isPrefixOf_iff_prefix

theorem toList_pattern : (p.value ++ "%").toList = p.value.toList ++ ['%'] :=
  String.toList_append

theorem not_mem_glob {c : Char} (h : c ∈ p.value.toList) : c ∉ ['*','?','[',']'] := by
  have hall := List.all_eq_true.mp p.predicate c h
  simpa using hall

theorem exists_variant (h : ∃ c ∈ p.value.toList, c = '%' ∨ c = '_' ∨ c.isAlpha = true) :
    ∃ streamId : StreamId, streamId.value.toList = p.value.toList.map variant ∧
      beginsWith p streamId.value = false := by
  obtain ⟨hhead,hlast⟩ := trim_eq_self_iff.mp p.trimmed
  have hglob : ∀ c ∈ p.value.toList.map variant, c ∉ ['*','?','[',']'] := by
    intro c hc
    obtain ⟨d,hd,rfl⟩ := List.mem_map.mp hc
    exact variant_not_mem (not_mem_glob hd)
  obtain ⟨streamId,hstreamId⟩ := exists_streamId p (p.value.toList.map variant)
    (by simpa using p.notEmpty) (by simp) (by simpa [isWhitespace_variant] using hhead)
    (by simpa [isWhitespace_variant] using hlast) hglob
  refine ⟨streamId,hstreamId,Bool.eq_false_iff.mpr fun hbegins => ?_⟩
  rw [beginsWith_iff,hstreamId] at hbegins
  have hsame : p.value.toList.map variant = p.value.toList.map id := by
    rw [← hbegins.eq_of_length (by simp),List.map_id]
  obtain ⟨c,hc,hspecial⟩ := h
  exact variant_ne hspecial (List.map_inj_left.mp hsame c hc)

/-- SQLite's operator is literal exactly without wildcards and letters. -/
theorem sqlite_literal_iff (hlike : LikeDocumented (fun _ => false) caseless sqliteLike) :
    (∀ streamId : StreamId,
      sqliteLike (p.value ++ "%") streamId.value = beginsWith p streamId.value) ↔
    ∀ c ∈ p.value.toList, c ≠ '%' ∧ c ≠ '_' ∧ c.isAlpha = false := by
  constructor
  · intro h
    by_contra hspecial
    have hcharacter : ∃ c ∈ p.value.toList, c = '%' ∨ c = '_' ∨ c.isAlpha = true := by
      by_contra hnone
      refine hspecial fun c hc => ?_
      have hother := fun hc' => hnone ⟨c,hc,hc'⟩
      simpa using hother
    obtain ⟨streamId,hstreamId,hbegins⟩ := exists_variant hcharacter
    obtain ⟨items,hitems,hmatch⟩ := matches_variant p.value.toList
    rw [← toList_pattern] at hitems
    have hselects := h streamId
    rw [hlike hitems,hstreamId,hmatch,hbegins] at hselects
    cases hselects
  · intro h streamId
    refine like_literally hlike rfl (fun c hc => ?_) _
    obtain ⟨hmany,hany,halpha⟩ := h c hc
    refine ⟨⟨rfl,hmany,hany⟩,fun d => ?_⟩
    exact caseless_eq_beq halpha d

/-- Then Postgres's operator is literal exactly without a backslash. -/
theorem postgres_literal_iff (hlike : LikeDocumented (· == '\\') (· == ·) postgresLike)
    (hwild : ∀ c ∈ p.value.toList, c ≠ '%' ∧ c ≠ '_') :
    (∀ streamId : StreamId,
      postgresLike (p.value ++ "%") streamId.value = beginsWith p streamId.value) ↔
    '\\' ∉ p.value.toList := by
  constructor
  · intro h hbackslash
    obtain ⟨items,hitems,hmatch⟩ := matches_unescaped hwild
    -- the prefix is a stream identifier, and begins with itself
    have hself : matchesAll items p.value.toList = true := by
      have hselects := h ⟨p.value,p.trimmed,p.notEmpty,p.lenCharMax,p.predicate⟩
      rw [hlike (toList_pattern ▸ hitems)] at hselects
      exact hselects.trans (beginsWith_iff.mpr (List.prefix_refl _))
    obtain ⟨hhead,hlast⟩ := trim_eq_self_iff.mp p.trimmed
    have hchars : ∀ c ∈ unescaped p.value.toList, c ∉ ['*','?','[',']'] := by
      intro c hc
      rcases mem_unescaped hc with rfl | hc
      · decide
      · exact not_mem_glob hc
    obtain ⟨streamId,hstreamId⟩ := exists_streamId p (unescaped p.value.toList)
      (fun hnil => p.notEmpty (by simpa using unescaped_eq_nil hnil)) (length_unescaped _)
      (by rwa [head_unescaped hitems hself]) (fun c hc => by
        rcases getLast_unescaped hc with rfl | hc
        · decide
        · exact hlast c hc) hchars
    have hselects := h streamId
    rw [hlike (toList_pattern ▸ hitems),hstreamId,hmatch,eq_comm,beginsWith_iff,hstreamId]
      at hselects
    exact absurd (hselects.count_le '\\') (Nat.not_le.mpr (count_unescaped_lt hbackslash))
  · intro h streamId
    refine like_literally hlike rfl (fun c hc => ⟨⟨?_,hwild c hc⟩,fun d => rfl⟩) _
    simpa using fun he : c = '\\' => h (he ▸ hc)

/-- A table with one event, of which every other part is as good as any. -/
def oneRow (streamId : StreamId) : SqliteStore.Table ℕ :=
  [⟨1,streamId.value,1,"Deposited",1⟩]

theorem sqlLimit_one : sqlLimit 1 = some 1 := by decide

theorem readSqlite_oneRow (glob : String → String → Bool) (streamId : StreamId) :
    readSqlite sqliteLike glob Ledger.deposited ⟨some p,none,none⟩ (oneRow streamId) (.first 1) =
      if sqliteLike (p.value ++ "%") streamId.value then [(1,1)] else [] := by
  cases h : sqliteLike (p.value ++ "%") streamId.value <;>
    simp [readSqlite,oneRow,EventPage.first,sqlLimit_one,takeLimit,sqlWhere,matchesType,
      Ledger.deposited,Sample.deposited,h,Except.toOption]

theorem readSqlite_filter_oneRow (like glob : String → String → Bool) (streamId : StreamId) :
    readSqlite like glob Ledger.deposited ⟨none,none,none⟩
        ((oneRow streamId).filter fun row => beginsWith p row.streamId) (.first 1) =
      if beginsWith p streamId.value then [(1,1)] else [] := by
  cases h : beginsWith p streamId.value <;>
    simp [readSqlite,oneRow,EventPage.first,sqlLimit_one,takeLimit,sqlWhere,matchesType,
      Ledger.deposited,Sample.deposited,h,Except.toOption]

theorem readPostgres_oneRow (are : String → Option (String → Bool)) (streamId : StreamId) :
    readPostgres postgresLike are Ledger.depositForm ⟨some p,none,none⟩ (oneRow streamId)
        (.first 1) =
      .ok (if postgresLike (p.value ++ "%") streamId.value then [(1,1)] else []) := by
  cases h : postgresLike (p.value ++ "%") streamId.value <;>
    simp [readPostgres,oneRow,EventPage.first,sqlLimit_one,limitRows,selectsStream,matchesType,
      Ledger.depositForm,h,Except.toOption,Except.map]

theorem readPostgres_filter_oneRow (like : String → String → Bool)
    (are : String → Option (String → Bool)) (streamId : StreamId) :
    readPostgres like are Ledger.depositForm ⟨none,none,none⟩
        ((oneRow streamId).filter fun row => beginsWith p row.streamId) (.first 1) =
      .ok (if beginsWith p streamId.value then [(1,1)] else []) := by
  cases h : beginsWith p streamId.value <;>
    simp [readPostgres,oneRow,EventPage.first,sqlLimit_one,limitRows,selectsStream,matchesType,
      Ledger.depositForm,h,Except.toOption,Except.map]

theorem ite_some_injective {b b' : Bool}
    (h : (if b then [(1,1)] else []) = if b' then [(1,1)] else ([] : List (ℕ × Uuid))) : b = b' := by
  cases b <;> cases b' <;> simp_all

theorem Literal.selects_sqlite (h : Literal sqliteLike postgresLike p) (streamId : StreamId) :
    sqliteLike (p.value ++ "%") streamId.value = beginsWith p streamId.value := by
  have hread := h.sqlite (fun _ _ => true) Ledger.deposited none (oneRow streamId) (.first 1)
    (by simp [oneRow])
  rw [readSqlite_oneRow,readSqlite_filter_oneRow] at hread
  exact ite_some_injective hread

theorem Literal.selects_postgres (h : Literal sqliteLike postgresLike p) (streamId : StreamId) :
    postgresLike (p.value ++ "%") streamId.value = beginsWith p streamId.value := by
  have hread := h.postgres (fun _ => none) Ledger.depositForm none (oneRow streamId) (.first 1)
    (by simp [oneRow])
  rw [readPostgres_oneRow,readPostgres_filter_oneRow] at hread
  exact ite_some_injective (Except.ok.inj hread)

/-- Filters on prefixes are literal on every backend exactly if the prefix has no character that
one of the two operators treats in a way of its own. -/
theorem prefix_filters_literal_iff (h : Operators sqliteLike postgresLike) :
    Literal sqliteLike postgresLike p ↔ Plain p := by
  constructor
  · intro hliteral
    have hletters := (sqlite_literal_iff h.sqlite).mp hliteral.selects_sqlite
    have hwild : ∀ c ∈ p.value.toList, c ≠ '%' ∧ c ≠ '_' :=
      fun c hc => ⟨(hletters c hc).1,(hletters c hc).2.1⟩
    have hbackslash := (postgres_literal_iff h.postgres hwild).mp hliteral.selects_postgres
    intro c hc
    obtain ⟨hmany,hany,halpha⟩ := hletters c hc
    exact ⟨hmany,hany,fun he => hbackslash (he ▸ hc),halpha⟩
  · intro hplain
    have hwild : ∀ c ∈ p.value.toList, c ≠ '%' ∧ c ≠ '_' :=
      fun c hc => ⟨(hplain c hc).1,(hplain c hc).2.1⟩
    refine .of_operators ((sqlite_literal_iff h.sqlite).mpr fun c hc => ?_)
      ((postgres_literal_iff h.postgres hwild).mpr fun hc => (hplain _ hc).2.2.1 rfl)
    obtain ⟨hmany,hany,_,halpha⟩ := hplain c hc
    exact ⟨hmany,hany,halpha⟩

end Exact

section Accounts

def datePrefix : StreamPrefix := ⟨"2024-05 ✓",by decide,by decide,by decide,by decide⟩

theorem prefix_filters_literal_date : Literal (likeReference (fun _ => false) caseless)
    (likeReference (· == '\\') (· == ·)) datePrefix := by
  refine (prefix_filters_literal_iff reference_operators).mpr fun c hc => ?_
  have hall : datePrefix.value.toList.all fun c =>
      c ≠ '%' ∧ c ≠ '_' ∧ c ≠ '\\' ∧ c.isAlpha = false := by decide
  simpa using List.all_eq_true.mp hall c hc

def accountPrefix : StreamPrefix := ⟨"account_",by decide,by decide,by decide,by decide⟩

/-- An underscore is any character for both operators. -/
theorem underscore_is_wildcard :
    (∀ sqliteLike postgresLike, Operators sqliteLike postgresLike →
      sqliteLike (accountPrefix.value ++ "%") Ledger.account1.value = true ∧
      postgresLike (accountPrefix.value ++ "%") Ledger.account1.value = true ∧
      beginsWith accountPrefix Ledger.account1.value = false) ∧
    ¬ ∀ sqliteLike postgresLike, Operators sqliteLike postgresLike →
      ∀ p, Literal sqliteLike postgresLike p := by
  have hdiffer : ∀ sqliteLike postgresLike, Operators sqliteLike postgresLike →
      sqliteLike (accountPrefix.value ++ "%") Ledger.account1.value = true ∧
      postgresLike (accountPrefix.value ++ "%") Ledger.account1.value = true ∧
      beginsWith accountPrefix Ledger.account1.value = false := by
    intro sqliteLike postgresLike h
    refine ⟨?_,?_,by decide⟩
    · have hpattern : (likeItems (fun _ => false) caseless (accountPrefix.value ++ "%").toList).map
          (fun items => matchesAll items Ledger.account1.value.toList) = some true := by
        decide +kernel
      obtain ⟨items,hitems,hmatch⟩ := Option.map_eq_some_iff.mp hpattern
      rw [h.sqlite hitems,hmatch]
    · have hpattern : (likeItems (· == '\\') (· == ·) (accountPrefix.value ++ "%").toList).map
          (fun items => matchesAll items Ledger.account1.value.toList) = some true := by
        decide +kernel
      obtain ⟨items,hitems,hmatch⟩ := Option.map_eq_some_iff.mp hpattern
      rw [h.postgres hitems,hmatch]
  refine ⟨hdiffer,fun hall => ?_⟩
  obtain ⟨hsqlite,_,hbegins⟩ := hdiffer _ _ reference_operators
  rw [(hall _ _ reference_operators accountPrefix).selects_sqlite,hbegins] at hsqlite
  cases hsqlite

end Accounts

end PrefixFilters
end EventCore
