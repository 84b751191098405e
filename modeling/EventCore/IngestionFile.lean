import EventCore.LocalIngestion
import EventCore.TransactionFiles

/-! The ingestion log as the text of its file: a line for each event that was given a sequence number,
appended when the store opens and after every append. Printing and parsing a line are parameters. -/
namespace EventCore
namespace IngestionFile
open FileStore LocalIngestion TextLines TransactionFiles

variable {Path Value : Type}

/-- `serde_json::to_string` and `serde_json::from_str` of a `LogEntry`. The texts are ASCII, so that
a byte of the file is a character. -/
structure EntryCodec where
  toString : Uuid × ℕ → Except String String
  fromStr : String → Except String (Uuid × ℕ)

/-- An entry is printed as one object on one line, and parsed back from it. The end of the text
before the object is closed is an error, and so is anything but blanks behind it. -/
structure EntryCodec.Json (codec : EntryCodec) : Prop where
  printed : ∀ entry, ∃ inner : List Char, '\n' ∉ inner ∧
    codec.toString entry = .ok (String.ofList ('{' :: inner ++ ['}'])) ∧
    codec.fromStr (String.ofList ('{' :: inner ++ ['}'])) = .ok entry
  truncated : ∀ entry text, codec.toString entry = .ok text → ∀ part : List Char,
    part <+: text.toList → part ≠ [] → part ≠ text.toList →
      ∃ error, codec.fromStr (String.ofList part) = .error error
  trailing : ∀ entry text, codec.toString entry = .ok text → ∀ rest : List Char,
    (∃ c ∈ rest, isWhitespace c = false) →
      ∃ error, codec.fromStr (String.ofList (text.toList ++ rest)) = .error error

section Files

variable (codec : EntryCodec) (path : Path)

/-- One turn of the loop over the lines: the assignments and the highest sequence number so far. -/
def loadLine (state : HashMap Uuid ℕ × ℕ) (line : String) :
    Except (Corrupted Path) (HashMap Uuid ℕ × ℕ) :=
  if trim line = "" then .ok state
  else match codec.fromStr line with
    | .ok entry => .ok (state.1.insert entry.1 entry.2,max state.2 entry.2)
    | .error error => .error ⟨path,"invalid ingestion-log line: " ++ error⟩

def load (contents : String) : Except (Corrupted Path) IngestionLog :=
  (((lines contents.toList).map String.ofList).foldlM (loadLine codec path) (∅,0)).map
    fun state => ⟨state.1,state.2+1⟩

def persistLine (body : String) (entry : Uuid × ℕ) : Except (Corrupted Path) String :=
  match codec.toString entry with
  | .ok line => .ok (body ++ line ++ "\n")
  | .error error => .error ⟨path,"failed to serialize ingestion-log entry: " ++ error⟩

/-- The file is opened for appending, so the lines go to its end. -/
def persist (entries : List (Uuid × ℕ)) (contents : String) : Except (Corrupted Path) String :=
  if entries = [] then .ok contents
  else (entries.foldlM (persistLine codec path) "").map (contents ++ ·)

/-- `scan_index`, once the transaction files are loaded. -/
def openStore (transactions : List (Transaction Value)) (contents : String) :
    Except (Corrupted Path) (Index Value × String) := do
  let log ← load codec path contents
  let (index,newEntries) := buildIndex transactions log
  let contents ← persist codec path newEntries contents
  return (index,contents)

/-- The events of one more transaction are ingested and their lines persisted. -/
def ingestPersist (index : Index Value) (events : List (IndexedEvent Value)) (contents : String) :
    Except (Corrupted Path) (Index Value × String) := do
  let (index,newEntries) := index.ingestAll events
  let contents ← persist codec path newEntries contents
  return (index,contents)

def NewEvents (index : Index Value) (events : List (IndexedEvent Value)) : Prop :=
  (events.map IndexedEvent.eventId).Nodup ∧ ∀ e ∈ events, index.log.seqOf e.eventId = none

/-- What opens and appends can make of the log file, with the index of the store that is open. -/
inductive Reaches (Value : Type) (start : String) : Option (Index Value) → String → Prop
  | start : Reaches Value start none start
  | opened {index : Option (Index Value)} {index' : Index Value} {contents contents' : String}
      (transactions : List (Transaction Value)) (h : Reaches Value start index contents)
      (hopen : openStore codec path transactions contents = .ok (index',contents')) :
      Reaches Value start (some index') contents'
  | appended {index index' : Index Value} {contents contents' : String}
      (events : List (IndexedEvent Value)) (h : Reaches Value start (some index) contents)
      (hnew : NewEvents index events)
      (hpersist : ingestPersist codec path index events contents = .ok (index',contents')) :
      Reaches Value start (some index') contents'

end Files

section Assignment

/-- Every event has one line, and the sequence numbers ascend. -/
structure Assigned (entries : List (Uuid × ℕ)) : Prop where
  ascending : entries.Pairwise fun p q => p.2 < q.2
  nodup : (entries.map Prod.fst).Nodup

theorem allocate_load (entries : List (Uuid × ℕ)) (id : Uuid) :
    (IngestionLog.load entries).allocate id =
      (IngestionLog.load (entries ++ [(id,(IngestionLog.load entries).nextSeq)]),
        (IngestionLog.load entries).nextSeq) := by
  simp [IngestionLog.allocate,IngestionLog.load]

theorem Assigned.concat {entries : List (Uuid × ℕ)} (h : Assigned entries) {id : Uuid}
    (hid : (IngestionLog.load entries).seqOf id = none) :
    Assigned (entries ++ [(id,(IngestionLog.load entries).nextSeq)]) where
  ascending := by
    refine List.pairwise_append.mpr ⟨h.ascending,List.pairwise_singleton _ _,fun p hp q hq => ?_⟩
    rw [List.mem_singleton.mp hq]
    exact lt_nextSeq_load hp
  nodup := by
    have hnew : id ∉ entries.map Prod.fst := by
      intro hmem
      obtain ⟨p,hp,rfl⟩ := List.mem_map.mp hmem
      rw [(load_seqOf_iff h.nodup p.1 p.2).mpr hp] at hid
      cases hid
    rw [List.map_append,List.map_singleton]
    exact List.nodup_append_comm.mp (List.nodup_cons.mpr ⟨hnew,h.nodup⟩)

theorem Assigned.of_append {entries more : List (Uuid × ℕ)} (h : Assigned (entries ++ more)) :
    Assigned entries where
  ascending := (List.pairwise_append.mp h.ascending).1
  nodup := by
    have hnodup := h.nodup
    rw [List.map_append] at hnodup
    exact hnodup.of_append_left

structure Tracks (entries : List (Uuid × ℕ)) (walk : Walk Value) : Prop where
  log : walk.log = IngestionLog.load (entries ++ walk.newEntries)
  assigned : Assigned (entries ++ walk.newEntries)

theorem Tracks.visit {entries : List (Uuid × ℕ)} {walk : Walk Value} (h : Tracks entries walk)
    (e : IndexedEvent Value) : Tracks entries (walk.visit e) := by
  unfold Walk.visit
  cases hseq : walk.log.seqOf e.eventId with
  | some seq => exact ⟨h.log,h.assigned⟩
  | none =>
    have hnew := h.assigned.concat (h.log ▸ hseq)
    have hlog := allocate_load (entries ++ walk.newEntries) e.eventId
    rw [← h.log] at hnew hlog
    rw [List.append_assoc] at hnew hlog
    simp only [hlog]
    exact ⟨rfl,hnew⟩

theorem Tracks.foldl {entries : List (Uuid × ℕ)} (events : List (IndexedEvent Value))
    {walk : Walk Value} (h : Tracks entries walk) : Tracks entries (events.foldl Walk.visit walk) := by
  induction events generalizing walk with
  | nil => exact h
  | cons e events ih => exact ih (h.visit e)

theorem tracks_buildIndex {entries : List (Uuid × ℕ)} (h : Assigned entries)
    (transactions : List (Transaction Value)) :
    (buildIndex transactions (IngestionLog.load entries)).1.log =
        IngestionLog.load (entries ++ (buildIndex transactions (IngestionLog.load entries)).2) ∧
      Assigned (entries ++ (buildIndex transactions (IngestionLog.load entries)).2) := by
  have hstart : Tracks entries (⟨∅,[],IngestionLog.load entries,[]⟩ : Walk Value) :=
    ⟨by rw [List.append_nil],by simpa using h⟩
  have hend := hstart.foldl (canonicalEvents transactions)
  exact ⟨hend.log,hend.assigned⟩

theorem tracks_ingestAll {entries : List (Uuid × ℕ)} (h : Assigned entries) {index : Index Value}
    (hlog : index.log = IngestionLog.load entries) {events : List (IndexedEvent Value)}
    (hnew : NewEvents index events) :
    (index.ingestAll events).1.log =
        IngestionLog.load (entries ++ (index.ingestAll events).2) ∧
      Assigned (entries ++ (index.ingestAll events).2) := by
  induction events generalizing entries index with
  | nil =>
    rw [Index.ingestAll,List.append_nil]
    exact ⟨hlog,h⟩
  | cons e events ih =>
    obtain ⟨hnodup,hfresh⟩ := hnew
    obtain ⟨he,hnodup⟩ := List.nodup_cons.mp hnodup
    obtain ⟨hfirst,hfresh⟩ := List.forall_mem_cons.mp hfresh
    have hallocate := allocate_load entries e.eventId
    have hnext := h.concat (hlog ▸ hfirst)
    have hlog' : (index.ingestAppended e).1.log =
        IngestionLog.load (entries ++ [(index.ingestAppended e).2]) := by
      rw [Index.ingestAppended,hlog]
      simp only [hallocate]
    have hentry : (index.ingestAppended e).2 = (e.eventId,(IngestionLog.load entries).nextSeq) := by
      rw [Index.ingestAppended,hlog]
      simp only [hallocate]
    have hnew' : NewEvents (index.ingestAppended e).1 events := by
      refine ⟨hnodup,fun e' he' => ?_⟩
      have hne : e'.eventId ≠ e.eventId :=
        fun hsame => he (hsame ▸ List.mem_map_of_mem he')
      have hold := hfresh e' he'
      rw [Index.ingestAppended]
      change (index.log.allocate e.eventId).1.seqOf e'.eventId = none
      exact (HashMap.get?_insert_ne _ _ hne).trans hold
    have hrest := ih (hentry ▸ hnext) hlog' hnew'
    rw [List.append_assoc] at hrest
    exact hrest

end Assignment

section Text

variable {codec : EntryCodec}

def EntryCodec.text (codec : EntryCodec) (entry : Uuid × ℕ) : List Char :=
  match codec.toString entry with
  | .ok line => line.toList
  | .error _ => []

def render (codec : EntryCodec) (entries : List (Uuid × ℕ)) : List Char :=
  entries.flatMap fun entry => codec.text entry ++ ['\n']

theorem render_append (codec : EntryCodec) (entries more : List (Uuid × ℕ)) :
    render codec (entries ++ more) = render codec entries ++ render codec more :=
  List.flatMap_append

theorem render_singleton (codec : EntryCodec) (entry : Uuid × ℕ) :
    render codec [entry] = codec.text entry ++ ['\n'] := List.flatMap_singleton ..

theorem EntryCodec.Json.toString_eq (h : codec.Json) (entry : Uuid × ℕ) :
    codec.toString entry = .ok (String.ofList (codec.text entry)) := by
  obtain ⟨inner,_,hprint,_⟩ := h.printed entry
  rw [EntryCodec.text,hprint]
  simp

theorem EntryCodec.Json.text_eq (h : codec.Json) (entry : Uuid × ℕ) :
    ∃ inner : List Char, '\n' ∉ inner ∧ codec.text entry = '{' :: inner ++ ['}'] := by
  obtain ⟨inner,hline,hprint,_⟩ := h.printed entry
  refine ⟨inner,hline,?_⟩
  rw [EntryCodec.text,hprint]
  simp

theorem EntryCodec.Json.fromStr_text (h : codec.Json) (entry : Uuid × ℕ) :
    codec.fromStr (String.ofList (codec.text entry)) = .ok entry := by
  obtain ⟨inner,_,hprint,hparse⟩ := h.printed entry
  rw [EntryCodec.text,hprint]
  simpa using hparse

theorem EntryCodec.Json.oneLine (h : codec.Json) (entry : Uuid × ℕ) : OneLine (codec.text entry) := by
  obtain ⟨inner,hline,htext⟩ := h.text_eq entry
  rw [htext]
  refine ⟨by simpa using hline,?_⟩
  rw [List.getLast?_concat]
  decide

theorem trim_brace (rest : List Char) : trim (String.ofList ('{' :: rest)) ≠ "" := by
  have hopen : isWhitespace '{' = false := by decide
  intro h
  have hchars : trimChars ('{' :: rest) = [] := by
    have hlist := congrArg String.toList h
    rw [trim,String.toList_ofList,String.toList_ofList] at hlist
    exact hlist
  rw [trimChars,List.dropWhile_cons_of_neg (by simp [hopen]),List.rdropWhile_eq_nil_iff] at hchars
  simp [hchars '{' List.mem_cons_self] at hopen

theorem EntryCodec.Json.loadLine_text (h : codec.Json) (path : Path) (state : HashMap Uuid ℕ × ℕ)
    (entry : Uuid × ℕ) : loadLine codec path state (String.ofList (codec.text entry)) =
      .ok (state.1.insert entry.1 entry.2,max state.2 entry.2) := by
  obtain ⟨inner,_,htext⟩ := h.text_eq entry
  rw [loadLine,if_neg,h.fromStr_text]
  rw [htext,List.cons_append]
  exact trim_brace _

theorem loadLine_error {rest : List Char} {error : String}
    (h : codec.fromStr (String.ofList ('{' :: rest)) = .error error) (path : Path)
    (state : HashMap Uuid ℕ × ℕ) : loadLine codec path state (String.ofList ('{' :: rest)) =
      .error ⟨path,"invalid ingestion-log line: " ++ error⟩ := by
  rw [loadLine,if_neg (trim_brace rest),h]

theorem foldlM_loadLine_text (h : codec.Json) (path : Path) (entries : List (Uuid × ℕ))
    (state : HashMap Uuid ℕ × ℕ) :
    (entries.map fun entry => String.ofList (codec.text entry)).foldlM (loadLine codec path) state =
      .ok (entries.foldl (fun seqByEvent line => seqByEvent.insert line.1 line.2) state.1,
        entries.foldl (fun maxSeq line => max maxSeq line.2) state.2) := by
  induction entries generalizing state with
  | nil => rfl
  | cons entry entries ih =>
    rw [List.map_cons,List.foldlM_cons,h.loadLine_text]
    exact ih _

theorem load_render_append (h : codec.Json) (path : Path) (entries : List (Uuid × ℕ))
    (rest : List Char) :
    load codec path (String.ofList (render codec entries ++ rest)) =
      (((lines rest).map String.ofList).foldlM (loadLine codec path)
        (entries.foldl (fun seqByEvent line => seqByEvent.insert line.1 line.2) ∅,
          entries.foldl (fun maxSeq line => max maxSeq line.2) 0)).map
        fun state => ⟨state.1,state.2+1⟩ := by
  have hlines : lines (render codec entries ++ rest) = entries.map codec.text ++ lines rest := by
    have hones : ∀ l ∈ entries.map codec.text, OneLine l := by
      intro l hl
      obtain ⟨entry,_,rfl⟩ := List.mem_map.mp hl
      exact h.oneLine entry
    have hcut := lines_append hones rest
    rwa [List.flatMap_map] at hcut
  have htexts : (entries.map codec.text).map String.ofList =
      entries.map fun entry => String.ofList (codec.text entry) := List.map_map
  rw [load,String.toList_ofList,hlines,List.map_append,List.foldlM_append,htexts,
    foldlM_loadLine_text h]
  rfl

theorem load_render (h : codec.Json) (path : Path) (entries : List (Uuid × ℕ)) :
    load codec path (String.ofList (render codec entries)) = .ok (IngestionLog.load entries) := by
  have hload := load_render_append h path entries []
  rw [List.append_nil] at hload
  rw [hload]
  rfl

theorem load_empty (codec : EntryCodec) (path : Path) :
    load codec path "" = .ok (IngestionLog.load []) := rfl

theorem persist_eq (h : codec.Json) (path : Path) (more : List (Uuid × ℕ)) (contents : String) :
    persist codec path more contents = .ok (contents ++ String.ofList (render codec more)) := by
  have hbody : ∀ body : String, more.foldlM (persistLine codec path) body =
      .ok (body ++ String.ofList (render codec more)) := by
    induction more with
    | nil => simp [render,pure,Except.pure]
    | cons entry more ih =>
      intro body
      rw [List.foldlM_cons,persistLine,h.toString_eq]
      refine (ih _).trans ?_
      congr 1
      rw [← String.toList_inj]
      simp [render]
  rw [persist]
  split_ifs with hmore
  · rw [hmore]
    simp [render]
  · rw [hbody]
    simp [Except.map]

theorem openStore_eq (h : codec.Json) {path : Path} {contents : String} {log : IngestionLog}
    (hload : load codec path contents = .ok log) (transactions : List (Transaction Value)) :
    openStore codec path transactions contents = .ok ((buildIndex transactions log).1,
      contents ++ String.ofList (render codec (buildIndex transactions log).2)) := by
  simp only [openStore,hload,persist_eq h,bind,Except.bind,pure,Except.pure]

theorem ingestPersist_eq (h : codec.Json) (path : Path) (index : Index Value)
    (events : List (IndexedEvent Value)) (contents : String) :
    ingestPersist codec path index events contents = .ok ((index.ingestAll events).1,
      contents ++ String.ofList (render codec (index.ingestAll events).2)) := by
  simp only [ingestPersist,persist_eq h,bind,Except.bind,pure,Except.pure]

end Text

section Runs

variable {codec : EntryCodec} {path : Path} {entries : List (Uuid × ℕ)}

theorem Reaches.recorded (hjson : codec.Json) (hassigned : Assigned entries)
    {index : Option (Index Value)} {contents : String}
    (h : Reaches codec path Value (String.ofList (render codec entries)) index contents) :
    ∃ more, contents = String.ofList (render codec (entries ++ more)) ∧
      Assigned (entries ++ more) ∧
      ∀ i, index = some i → i.log = IngestionLog.load (entries ++ more) := by
  induction h with
  | start => exact ⟨[],by rw [List.append_nil],by rwa [List.append_nil],by simp⟩
  | opened transactions _ hopen ih =>
    obtain ⟨more,rfl,hassigned,_⟩ := ih
    obtain ⟨hlog,hnext⟩ := tracks_buildIndex hassigned transactions
    rw [openStore_eq hjson (load_render hjson path _),← String.ofList_append,← render_append] at hopen
    obtain ⟨rfl,rfl⟩ := Prod.mk.inj (Except.ok.inj hopen)
    rw [List.append_assoc] at hlog hnext ⊢
    exact ⟨_,rfl,hnext,fun i hi => Option.some.inj hi ▸ hlog⟩
  | appended events _ hnew hpersist ih =>
    obtain ⟨more,rfl,hassigned,hindex⟩ := ih
    obtain ⟨hlog,hnext⟩ := tracks_ingestAll hassigned (hindex _ rfl) hnew
    rw [ingestPersist_eq hjson,← String.ofList_append,← render_append] at hpersist
    obtain ⟨rfl,rfl⟩ := Prod.mk.inj (Except.ok.inj hpersist)
    rw [List.append_assoc] at hlog hnext ⊢
    exact ⟨_,rfl,hnext,fun i hi => Option.some.inj hi ▸ hlog⟩

end Runs

end IngestionFile
end EventCore
