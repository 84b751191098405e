import EventCore.IngestionFile
import Mathlib.Data.Fintype.EquivFin

/-! A crash that cuts the ingestion log. The lines are not framed: what is left of a line cannot be
loaded, and what is appended to a line without its line feed becomes a part of it. -/
namespace EventCore
namespace TornLog
open FileStore LocalIngestion TextLines TransactionFiles IngestionFile

variable {Path Value : Type}

def cut (contents : String) (n : ℕ) : String := String.ofList (contents.toList.take n)

def ended (text : String) : String := String.ofList (text.toList.rdropWhile (· ≠ '\n'))

def EndsLine (text : String) : Prop := text.toList = [] ∨ text.toList.getLast? = some '\n'

theorem cut_ofList (text : List Char) (n : ℕ) :
    cut (String.ofList text) n = String.ofList (text.take n) := by
  rw [cut,String.toList_ofList]

theorem endsLine_ofList {text : List Char} :
    EndsLine (String.ofList text) ↔ text = [] ∨ text.getLast? = some '\n' := by
  rw [EndsLine,String.toList_ofList]

section Crash

variable (codec : EntryCodec) (path : Path)

def Kept (text : String) (id : Uuid) (seq : ℕ) : Prop :=
  ∃ log, load codec path (ended text) = .ok log ∧ log.seqOf id = some seq

/-- However the store is opened and appended to after the crash, the log loads, has what was kept,
and gives no number that was kept to another event. -/
structure Survives (Value : Type) (text : String) : Prop where
  loads : ∀ index contents, Reaches codec path Value text index contents →
    ∃ log, load codec path contents = .ok log
  keeps : ∀ index contents, Reaches codec path Value text index contents →
    ∀ log, load codec path contents = .ok log →
      ∀ id seq, Kept codec path text id seq → log.seqOf id = some seq
  unused : ∀ index contents, Reaches codec path Value text index contents →
    ∀ log, load codec path contents = .ok log →
      ∀ id seq, Kept codec path text id seq → ∀ other, log.seqOf other = some seq → other = id

end Crash

section Cuts

variable {codec : EntryCodec} {path : Path} {entries : List (Uuid × ℕ)}

theorem ended_render (entries : List (Uuid × ℕ)) {part : List Char} (h : '\n' ∉ part) :
    ended (String.ofList (render codec entries ++ part)) =
      String.ofList (render codec entries) := by
  have hpart : ∀ part : List Char, '\n' ∉ part →
      (render codec entries ++ part).rdropWhile (· ≠ '\n') = render codec entries := by
    intro part
    induction part using List.reverseRecOn with
    | nil =>
      intro _
      rw [List.append_nil]
      induction entries using List.reverseRecOn with
      | nil => rfl
      | append_singleton entries entry _ =>
        rw [render_append,render_singleton,← List.append_assoc]
        exact List.rdropWhile_concat_neg _ _ _ (by simp)
    | append_singleton part c ih =>
      intro h
      rw [List.mem_append,not_or,List.mem_singleton] at h
      rw [← List.append_assoc,List.rdropWhile_concat_pos _ _ _ (by simpa using Ne.symm h.2)]
      exact ih h.1
  rw [ended,String.toList_ofList,hpart part h]

theorem endsLine_render (entries : List (Uuid × ℕ)) :
    EndsLine (String.ofList (render codec entries)) := by
  rw [endsLine_ofList]
  induction entries using List.reverseRecOn with
  | nil => exact .inl rfl
  | append_singleton entries entry _ =>
    right
    rw [render_append,render_singleton,← List.append_assoc,List.getLast?_concat]

theorem not_endsLine {part : List Char} (h : '\n' ∉ part) (hne : part ≠ [])
    (entries : List (Uuid × ℕ)) :
    ¬ EndsLine (String.ofList (render codec entries ++ part)) := by
  rw [endsLine_ofList,List.getLast?_append_of_ne_nil _ hne]
  rintro (hnil | hlast)
  · exact hne (List.append_eq_nil_iff.mp hnil).2
  · exact h (List.mem_of_getLast? hlast)

theorem kept_iff (hjson : codec.Json) (hassigned : Assigned entries) {part : List Char}
    (h : '\n' ∉ part) {id : Uuid} {seq : ℕ} :
    Kept codec path (String.ofList (render codec entries ++ part)) id seq ↔
      (id,seq) ∈ entries := by
  rw [Kept,ended_render entries h,load_render hjson]
  simp only [Except.ok.injEq,exists_eq_left']
  exact load_seqOf_iff hassigned.nodup id seq

theorem survives_render (hjson : codec.Json) (hassigned : Assigned entries) :
    Survives codec path Value (String.ofList (render codec entries)) := by
  have hkept : ∀ id seq, Kept codec path (String.ofList (render codec entries)) id seq ↔
      (id,seq) ∈ entries := by
    intro id seq
    have hiff := @kept_iff Path codec path entries hjson hassigned [] (by simp) id seq
    rwa [List.append_nil] at hiff
  have hreached : ∀ index contents,
      Reaches codec path Value (String.ofList (render codec entries)) index contents →
        ∃ more, Assigned (entries ++ more) ∧
          load codec path contents = .ok (IngestionLog.load (entries ++ more)) := by
    intro index contents hreach
    obtain ⟨more,rfl,hnext,_⟩ := hreach.recorded hjson hassigned
    exact ⟨more,hnext,load_render hjson path _⟩
  refine ⟨fun index contents hreach => ?_,fun index contents hreach log hlog id seq h => ?_,
    fun index contents hreach log hlog id seq h other hother => ?_⟩
  · obtain ⟨more,_,hload⟩ := hreached index contents hreach
    exact ⟨_,hload⟩
  · obtain ⟨more,hnext,hload⟩ := hreached index contents hreach
    obtain rfl := Except.ok.inj (hlog.symm.trans hload)
    rw [load_seqOf_iff hnext.nodup]
    exact List.mem_append_left more ((hkept id seq).mp h)
  · obtain ⟨more,hnext,hload⟩ := hreached index contents hreach
    obtain rfl := Except.ok.inj (hlog.symm.trans hload)
    rw [load_seqOf_iff hnext.nodup] at hother
    have hold := List.mem_append_left more ((hkept id seq).mp h)
    have hseqs : ((entries ++ more).map Prod.snd).Nodup :=
      List.pairwise_map.mpr (hnext.ascending.imp fun hlt => hlt.ne)
    exact congrArg Prod.fst (List.inj_on_of_nodup_map hseqs hother hold rfl)

theorem load_part (hjson : codec.Json) (path : Path) (entries : List (Uuid × ℕ))
    {entry : Uuid × ℕ} {part : List Char} (h : part <+: codec.text entry) (hne : part ≠ [])
    (hproper : part ≠ codec.text entry) :
    ∃ e, load codec path (String.ofList (render codec entries ++ part)) = .error e := by
  obtain ⟨hfeed,_⟩ := hjson.oneLine entry
  have hline : '\n' ∉ part := fun hmem => hfeed (h.subset hmem)
  obtain ⟨error,herror⟩ := hjson.truncated entry _ (hjson.toString_eq entry) part (by simpa using h)
    hne (by simpa using hproper)
  obtain ⟨inner,_,htext⟩ := hjson.text_eq entry
  obtain ⟨rest,rfl⟩ : ∃ rest, part = '{' :: rest := by
    cases part with
    | nil => exact absurd rfl hne
    | cons c rest =>
      rw [htext,List.cons_append,List.cons_prefix_cons] at h
      exact ⟨rest,by rw [h.1]⟩
  refine ⟨⟨path,"invalid ingestion-log line: " ++ error⟩,?_⟩
  rw [load_render_append hjson,lines_of_not_mem hline hne,List.map_singleton,List.foldlM_cons,
    loadLine_error herror]
  rfl

/-- An entry that is appended to one without a line feed makes a line of the two. -/
theorem load_glued (hjson : codec.Json) (path : Path) (entries : List (Uuid × ℕ))
    (entry next : Uuid × ℕ) :
    ∃ e, load codec path (String.ofList (render codec entries ++
      (codec.text entry ++ render codec [next]))) = .error e := by
  obtain ⟨hfeed,_⟩ := hjson.oneLine entry
  obtain ⟨hfeed',hreturn⟩ := hjson.oneLine next
  obtain ⟨inner,_,htext⟩ := hjson.text_eq entry
  obtain ⟨inner',_,htext'⟩ := hjson.text_eq next
  obtain ⟨error,herror⟩ := hjson.trailing entry _ (hjson.toString_eq entry) (codec.text next)
    ⟨'{',by rw [htext']; exact List.mem_cons_self,by decide⟩
  rw [String.toList_ofList] at herror
  have hone : OneLine (codec.text entry ++ codec.text next) := by
    refine ⟨by simp [hfeed,hfeed'],?_⟩
    rw [List.getLast?_append_of_ne_nil]
    · exact hreturn
    · rw [htext']
      exact List.cons_ne_nil _ _
  have hlines : lines (codec.text entry ++ render codec [next]) =
      [codec.text entry ++ codec.text next] := by
    have hcut := @lines_flatMap [codec.text entry ++ codec.text next] (by simpa using hone)
    rwa [List.flatMap_singleton,List.append_assoc,← render_singleton] at hcut
  refine ⟨⟨path,"invalid ingestion-log line: " ++ error⟩,?_⟩
  rw [load_render_append hjson,hlines,List.map_singleton,List.foldlM_cons]
  rw [htext,List.cons_append,List.cons_append] at herror ⊢
  rw [loadLine_error herror]
  rfl

/-- A line without its line feed is loaded, and then glued to the line of the next event. -/
theorem not_survives_whole (hjson : codec.Json) {entry : Uuid × ℕ}
    (hentry : Assigned (entries ++ [entry])) (value : Value) :
    ¬ Survives codec path Value (String.ofList (render codec entries ++ codec.text entry)) := by
  intro h
  have hload : load codec path (String.ofList (render codec entries ++ codec.text entry)) =
      .ok (IngestionLog.load (entries ++ [entry])) := by
    obtain ⟨hfeed,_⟩ := hjson.oneLine entry
    obtain ⟨inner,_,htext⟩ := hjson.text_eq entry
    have hne : codec.text entry ≠ [] := by
      rw [htext]
      exact List.cons_ne_nil _ _
    rw [load_render_append hjson,lines_of_not_mem hfeed hne,List.map_singleton,List.foldlM_cons,
      hjson.loadLine_text,IngestionLog.load,List.foldl_concat,List.foldl_concat]
    rfl
  obtain ⟨id,hid⟩ := Infinite.exists_notMem_finset ((entries ++ [entry]).map Prod.fst).toFinset
  have hnone : (IngestionLog.load (entries ++ [entry])).seqOf id = none := by
    rw [Option.eq_none_iff_forall_ne_some]
    intro seq hseq
    have hmem := (load_seqOf_iff hentry.nodup id seq).mp hseq
    exact hid (List.mem_toFinset.mpr (List.mem_map_of_mem hmem))
  -- the store opens on no files, and then one event is appended
  let index : Index Value := (buildIndex [] (IngestionLog.load (entries ++ [entry]))).1
  let e : IndexedEvent Value := ⟨id,"","",value⟩
  have hopen : openStore codec path [] (String.ofList (render codec entries ++ codec.text entry)) =
      .ok (index,String.ofList (render codec entries ++ codec.text entry)) := by
    rw [openStore_eq hjson hload]
    exact congrArg (fun contents => Except.ok (index,contents)) String.append_empty
  have hnew : NewEvents index [e] := by
    refine ⟨List.nodup_singleton _,fun e' he' => ?_⟩
    rw [List.mem_singleton.mp he']
    exact hnone
  have happended := (Reaches.opened [] .start hopen).appended [e] hnew
    (ingestPersist_eq hjson path index [e] _)
  obtain ⟨log,hlog⟩ := h.loads _ _ happended
  obtain ⟨error,herror⟩ := load_glued hjson path entries entry
    (id,(IngestionLog.load (entries ++ [entry])).nextSeq)
  rw [← List.append_assoc,String.ofList_append] at herror
  have hsame := hlog.symm.trans herror
  cases hsame

theorem survives_iff_endsLine (hjson : codec.Json) (hassigned : Assigned entries) (value : Value)
    (n : ℕ) : Survives codec path Value (cut (String.ofList (render codec entries)) n) ↔
      EndsLine (cut (String.ofList (render codec entries)) n) := by
  obtain ⟨before,after,part,rfl,htake,hpart⟩ := take_lines codec.text entries n
  have hcut : cut (String.ofList (render codec (before ++ after))) n =
      String.ofList (render codec before ++ part) := by
    rw [cut_ofList]
    exact congrArg String.ofList htake
  rw [hcut]
  rcases eq_or_ne part [] with rfl | hne
  · rw [List.append_nil]
    exact iff_of_true (survives_render hjson hassigned.of_append) (endsLine_render before)
  · obtain ⟨entry,rest,rfl,hbegins⟩ := hpart.resolve_left hne
    obtain ⟨hfeed,_⟩ := hjson.oneLine entry
    refine iff_of_false (fun h => ?_) (not_endsLine (fun hmem => hfeed (hbegins.subset hmem)) hne _)
    by_cases hwhole : part = codec.text entry
    · have hentry : Assigned (before ++ [entry]) := by
        rw [← List.singleton_append,← List.append_assoc] at hassigned
        exact hassigned.of_append
      exact not_survives_whole hjson hentry value (hwhole ▸ h)
    · obtain ⟨log,hlog⟩ := h.loads _ _ .start
      obtain ⟨error,herror⟩ := load_part hjson path before hbegins hne hwhole
      have hsame := hlog.symm.trans herror
      cases hsame

end Cuts

/-- After any opens and appends, what a crash leaves of the log survives exactly if it ends a line. -/
theorem survives_iff [Inhabited Value] {codec : EntryCodec} {path : Path} (hjson : codec.Json)
    {index : Option (Index Value)} {contents : String}
    (h : Reaches codec path Value "" index contents) (n : ℕ) :
    Survives codec path Value (cut contents n) ↔ EndsLine (cut contents n) := by
  have hassigned : Assigned [] := ⟨.nil,.nil⟩
  obtain ⟨entries,rfl,hentries,_⟩ :=
    Reaches.recorded hjson hassigned (show Reaches codec path Value
      (String.ofList (render codec [])) index contents from h)
  exact survives_iff_endsLine hjson hentries default n

section Json

def entryHead : List Char :=
  '{' :: "\"event_id\":\"00000000-0000-0000-0000-00000000000".toList

def entryMiddle : List Char := "\",\"seq\":".toList

def entryText (entry : Uuid × ℕ) : List Char :=
  entryHead ++ (Nat.toDigits 10 entry.1 ++ (entryMiddle ++ (Nat.toDigits 10 entry.2 ++ ['}'])))

def entryParts (text : List Char) : Option (Uuid × ℕ) :=
  (stripStart entryHead text).bind fun rest =>
    (stripStart entryMiddle (rest.dropWhile Char.isDigit)).map fun rest' =>
      (Nat.ofDigitChars 10 (rest.takeWhile Char.isDigit) 0,
        Nat.ofDigitChars 10 (rest'.takeWhile Char.isDigit) 0)

def entryOf (text : List Char) : Except String (Uuid × ℕ) :=
  match entryParts text with
  | some entry => if entryText entry = text then .ok entry else .error "trailing characters"
  | none => .error "EOF while parsing an object"

def entryCodec : EntryCodec where
  toString entry := .ok (String.ofList (entryText entry))
  fromStr text := entryOf text.toList

theorem takeWhile_digits (n : ℕ) {c : Char} (h : c.isDigit = false) (rest : List Char) :
    (Nat.toDigits 10 n ++ c :: rest).takeWhile Char.isDigit = Nat.toDigits 10 n ∧
      (Nat.toDigits 10 n ++ c :: rest).dropWhile Char.isDigit = c :: rest := by
  have hdigits : ∀ d ∈ Nat.toDigits 10 n, d.isDigit = true :=
    fun d hd => Nat.isDigit_of_mem_toDigits (by decide) (by decide) hd
  rw [List.takeWhile_append_of_pos hdigits,List.dropWhile_append_of_pos hdigits]
  simp [h]

theorem entryOf_text (entry : Uuid × ℕ) : entryOf (entryText entry) = .ok entry := by
  have hmiddle : entryMiddle = '"' :: entryMiddle.tail := rfl
  have hparts : entryParts (entryText entry) = some entry := by
    rw [entryParts,entryText,stripStart_append,Option.bind_some,hmiddle,List.cons_append,
      (takeWhile_digits entry.1 (by decide) _).1,(takeWhile_digits entry.1 (by decide) _).2,
      ← List.cons_append,← hmiddle,stripStart_append,Option.map_some,
      (takeWhile_digits entry.2 (by decide) _).1]
    simp only [Nat.ofDigitChars_ten_toDigits]
  rw [entryOf,hparts]
  exact if_pos rfl

theorem entryText_of_entryOf {text : List Char} {entry : Uuid × ℕ}
    (h : entryOf text = .ok entry) : entryText entry = text := by
  rw [entryOf] at h
  split at h
  · split_ifs at h with hsame
    obtain rfl := Except.ok.inj h
    exact hsame
  · cases h

/-- The object is closed at the end of the text and nowhere before. -/
theorem entryText_eq (entry : Uuid × ℕ) : ∃ inner : List Char, '\n' ∉ inner ∧ '}' ∉ '{' :: inner ∧
    entryText entry = '{' :: inner ++ ['}'] := by
  refine ⟨entryHead.tail ++ (Nat.toDigits 10 entry.1 ++ (entryMiddle ++ Nat.toDigits 10 entry.2)),
    ?_,?_,by simp [entryText,entryHead]⟩
  · have hhead : '\n' ∉ entryHead.tail := by decide
    have hmiddle : '\n' ∉ entryMiddle := by decide
    simp only [List.mem_append,not_or]
    exact ⟨hhead,not_mem_toDigits rfl _,hmiddle,not_mem_toDigits rfl _⟩
  · have hhead : '}' ∉ entryHead.tail := by decide
    have hmiddle : '}' ∉ entryMiddle := by decide
    simp only [List.mem_cons,List.mem_append,not_or]
    exact ⟨by decide,hhead,not_mem_toDigits rfl _,hmiddle,not_mem_toDigits rfl _⟩

theorem prefix_entryText {part : List Char} {entry : Uuid × ℕ} (h : part <+: entryText entry)
    (hclosed : '}' ∈ part) : part = entryText entry := by
  obtain ⟨inner,_,hopen,htext⟩ := entryText_eq entry
  rw [htext,List.prefix_concat_iff] at h
  rcases h with h | h
  · rw [htext,h]
  · exact absurd (h.subset hclosed) hopen

theorem closed_entryText (entry : Uuid × ℕ) : '}' ∈ entryText entry := by
  simp [entryText]

theorem entryCodec_fromStr (text : List Char) :
    entryCodec.fromStr (String.ofList text) = entryOf text := by
  change entryOf (String.ofList text).toList = entryOf text
  rw [String.toList_ofList]

theorem entryCodec_json : entryCodec.Json where
  printed entry := by
    obtain ⟨inner,hline,_,htext⟩ := entryText_eq entry
    refine ⟨inner,hline,congrArg (fun text => Except.ok (String.ofList text)) htext,?_⟩
    rw [← htext,entryCodec_fromStr]
    exact entryOf_text entry
  truncated entry text htext part hpart _ hproper := by
    obtain rfl := Except.ok.inj htext
    rw [String.toList_ofList] at hpart hproper
    rw [entryCodec_fromStr]
    cases hparse : entryOf part with
    | error error => exact ⟨error,rfl⟩
    | ok other =>
      have hsame := entryText_of_entryOf hparse
      exact absurd (prefix_entryText hpart (hsame ▸ closed_entryText other)) hproper
  trailing entry text htext rest hrest := by
    obtain rfl := Except.ok.inj htext
    rw [String.toList_ofList,entryCodec_fromStr]
    cases hparse : entryOf (entryText entry ++ rest) with
    | error error => exact ⟨error,rfl⟩
    | ok other =>
      have hsame := entryText_of_entryOf hparse
      have hbegins : entryText entry <+: entryText other := hsame ▸ List.prefix_append _ _
      rw [← prefix_entryText hbegins (closed_entryText entry)] at hsame
      obtain ⟨c,hc,_⟩ := hrest
      rw [List.self_eq_append_right.mp hsame] at hc
      cases hc

end Json

section Deposits

def deposits : List (Transaction ℕ) :=
  [⟨⟨1,2,[],"2026-01-01T00:00:00Z",∅⟩,
    [⟨3,"account-1",1,"Deposited",50⟩,⟨4,"account-1",2,"Deposited",20⟩]⟩]

def depositLog : String := String.ofList (render entryCodec [(3,1),(4,2)])

theorem reaches_depositLog : Reaches entryCodec () ℕ ""
    (some (buildIndex deposits (IngestionLog.load [])).1) depositLog := by
  have hentries : (buildIndex deposits (IngestionLog.load [])).2 = [(3,1),(4,2)] := by
    decide +kernel
  refine .opened deposits .start ?_
  rw [openStore_eq entryCodec_json (load_empty entryCodec ()),hentries,String.empty_append,depositLog]

theorem survives_iff_deposits : Survives entryCodec () ℕ (cut depositLog 60) := by
  have hends : EndsLine (cut depositLog 60) := by
    rw [depositLog,cut_ofList,endsLine_ofList]
    decide +kernel
  exact (survives_iff entryCodec_json reaches_depositLog 60).mpr hends

/-- The first line without its line feed, and a half of it. -/
theorem torn_deposits :
    (¬ Survives entryCodec () ℕ (cut depositLog 59) ∧
      ¬ Survives entryCodec () ℕ (cut depositLog 30)) ∧
    ¬ ∀ (codec : EntryCodec) (path : Unit), codec.Json →
      ∀ (index : Option (Index ℕ)) (contents : String), Reaches codec path ℕ "" index contents →
        ∀ n, Survives codec path ℕ (cut contents n) := by
  have hassigned : Assigned [(3,1),(4,2)] := ⟨by decide,by decide⟩
  have hsurvives : ∀ n, Survives entryCodec () ℕ (cut depositLog n) ↔ EndsLine (cut depositLog n) :=
    survives_iff_endsLine entryCodec_json hassigned 0
  have hfeed : ¬ Survives entryCodec () ℕ (cut depositLog 59) := by
    rw [hsurvives,depositLog,cut_ofList,endsLine_ofList]
    decide +kernel
  have hhalf : ¬ Survives entryCodec () ℕ (cut depositLog 30) := by
    rw [hsurvives,depositLog,cut_ofList,endsLine_ofList]
    decide +kernel
  exact ⟨⟨hfeed,hhalf⟩,fun hall => hfeed (hall entryCodec () entryCodec_json _ _ reaches_depositLog 59)⟩

end Deposits

end TornLog
end EventCore
