import EventCore.Replicas

/-! Appends of the file store whose I/O may fail anywhere: the transaction file, its renaming, and
the persisted ingestion log as text. -/
namespace EventCore
namespace FileStore
namespace FailedAppends

variable {Any Raw Value : Type}

inductive FsyncPolicy
  | full
  | none
deriving DecidableEq

/-- The JSON text of one assignment of the ingestion log, and how a line is read. -/
structure LogFormat where
  toString : Uuid × ℕ → List Char
  fromStr : List Char → Option (Uuid × ℕ)
  fromStr_toString : ∀ entry, fromStr (toString entry) = some entry
  one_line : ∀ entry, '\n' ∉ toString entry
  not_blank : ∀ entry, (toString entry).all Char.isWhitespace = false

/-- How the I/O of one append goes: which calls succeed, and after how many characters a write to
the ingestion log breaks off. -/
structure Io where
  create : Bool := true
  writeAll : Bool := true
  syncAll : Bool := true
  rename : Bool := true
  openLog : Bool := true
  logBreaks : Option ℕ := .none

inductive OpenError
  | corrupted (line : List Char)
deriving DecidableEq

/-- An open store over its `events/` directory and the text of its ingestion log. -/
structure Store (Value : Type) where
  replicaId : Uuid
  files : List (Transaction Value)
  log : List Char
  index : Index Value

variable (format : LogFormat)

def render (entries : List (Uuid × ℕ)) : List Char :=
  entries.flatMap fun entry => format.toString entry ++ ['\n']

def loadLine (line : List Char) : Except OpenError (Option (Uuid × ℕ)) :=
  if line.all Char.isWhitespace then .ok .none
  else
    match format.fromStr line with
    | some entry => .ok (some entry)
    | .none => .error (.corrupted line)

def load (text : List Char) : Except OpenError (List (Uuid × ℕ)) :=
  (fun lines => lines.filterMap id) <$> (text.splitOn '\n').mapM (loadLine format)

/-- Every open builds the read model from the directory and the log. -/
def Store.reopen (store : Store Value) : Except OpenError (Index Value) :=
  (fun lines => (scanIndex store.files lines).1) <$> load format store.log

/-- The directory with the transaction in it, unless a step up to the renaming fails. A failing
sync of the directory is ignored. -/
def writeTransactionFile (policy : FsyncPolicy) (io : Io) (files : List (Transaction Value))
    (t : Transaction Value) : Except Unit (List (Transaction Value)) :=
  if !io.create then .error ()
  else if !io.writeAll then .error ()
  else if policy = .full && !io.syncAll then .error ()
  else if !io.rename then .error ()
  else .ok (files ++ [t])

def persist (io : Io) (log : List Char) (entries : List (Uuid × ℕ)) :
    Except Unit Unit × List Char :=
  if entries = [] then (.ok (),log)
  else if !io.openLog then (.error (),log)
  else
    match io.logBreaks with
    | some n => (.error (),log ++ (render format entries).take n)
    | .none => (.ok (),log ++ render format entries)

variable (parse : Raw → Option Value) (policy : FsyncPolicy)

def appendEvents (io : Io) (store : Store Value) (stamp : Stamp) (writes : StreamWrites Any Raw) :
    Except EventStoreError Unit × Store Value :=
  match writes.entries with
  | [] => (.ok (),store)
  | _ :: _ =>
    match prepareAppend parse store.replicaId store.index stamp writes with
    | .error e => (.error e,store)
    | .ok t =>
      match writeTransactionFile policy io store.files t with
      | .error _ => (.error (.storeFailure .appendEvents),store)
      | .ok files =>
        let (index,entries) := store.index.ingestTransaction t fun _ => [t.id]
        let (persisted,log) := persist format io store.log entries
        (persisted.mapError fun _ => .storeFailure .appendEvents,
          { store with files := files, log := log, index := index })

/-- Every stream reads as before, from the open store and after a reopening. -/
structure Unchanged (store store' : Store Value) : Prop where
  now : ∀ s : StreamId, store'.index.streamEvents s.value = store.index.streamEvents s.value
  reopened : ∀ s : StreamId, (fun index => index.streamEvents s.value) <$> store'.reopen format =
    (fun index => index.streamEvents s.value) <$> store.reopen format

def Io.Publishes (policy : FsyncPolicy) (io : Io) : Prop :=
  io.create ∧ io.writeAll ∧ (policy = .full → io.syncAll) ∧ io.rename

def Io.Logs (io : Io) : Prop := io.openLog ∧ io.logBreaks = .none

section Log

theorem load_render (entries : List (Uuid × ℕ)) : load format (render format entries) = .ok entries := by
  have hlines : ((render format entries).splitOn '\n').mapM (loadLine format) =
      .ok (entries.map some ++ [none]) := by
    induction entries with
    | nil => rfl
    | cons entry entries ih =>
      have hsplit : (render format (entry :: entries)).splitOn '\n' =
          format.toString entry :: (render format entries).splitOn '\n' := by
        rw [render,List.flatMap_cons,List.append_assoc]
        refine List.splitOnP_append_cons_of_forall_mem (fun c hc => ?_) '\n' (by simp) _
        exact beq_false_of_ne fun he => format.one_line entry (he ▸ hc)
      have hline : loadLine format (format.toString entry) = .ok (some entry) := by
        simp [loadLine,format.not_blank,format.fromStr_toString]
      rw [hsplit,List.mapM_cons,hline,ih]
      rfl
  rw [load,hlines]
  change Except.ok ((entries.map some ++ [none]).filterMap id) = _
  rw [List.filterMap_append,List.filterMap_map]
  simp

variable {format}

theorem persist_ok {io : Io} (h : io.Logs) (log : List Char) (entries : List (Uuid × ℕ)) :
    persist format io log entries = (.ok (),log ++ render format entries) := by
  unfold persist
  split_ifs with hnil hopen
  · simp [hnil,render]
  · simp [h.1] at hopen
  · rw [h.2]

theorem persist_error {io : Io} (h : ¬ io.Logs) (log : List Char) {entries : List (Uuid × ℕ)}
    (hentries : entries ≠ []) : (persist format io log entries).1 = .error () := by
  unfold persist
  rw [if_neg hentries]
  split_ifs with hopen
  · rfl
  · cases hbreaks : io.logBreaks with
    | none => exact absurd ⟨by simpa using hopen,hbreaks⟩ h
    | some n => rfl

end Log

section Refinement

def Store.of (store : FileEventStore Value) : Store Value :=
  ⟨store.replicaId,store.files,render format store.ingestionLog,store.index⟩

theorem reopen_of (store : FileEventStore Value) :
    (Store.of format store).reopen format = .ok store.reopen.index := by
  rw [Store.reopen,Store.of,load_render]
  rfl

variable {format parse policy}

theorem writeTransactionFile_ok {io : Io} (h : io.Publishes policy)
    (files : List (Transaction Value)) (t : Transaction Value) :
    writeTransactionFile policy io files t = .ok (files ++ [t]) := by
  obtain ⟨hcreate,hwrite,hsync,hrename⟩ := h
  unfold writeTransactionFile
  by_cases hfull : policy = .full
  · simp [hcreate,hwrite,hrename,hsync hfull]
  · simp [hcreate,hwrite,hrename,hfull]

theorem writeTransactionFile_error {io : Io} (h : ¬ io.Publishes policy)
    (files : List (Transaction Value)) (t : Transaction Value) :
    writeTransactionFile policy io files t = .error () := by
  unfold writeTransactionFile
  split_ifs with hcreate hwrite hsync hrename
  · rfl
  · rfl
  · rfl
  · rfl
  · refine absurd ⟨by simpa using hcreate,by simpa using hwrite,fun hfull => ?_,
      by simpa using hrename⟩ h
    simpa [hfull] using hsync

theorem appendEvents_of {io : Io} (hpublishes : io.Publishes policy) (hlogs : io.Logs)
    (store : FileEventStore Value) (stamp : Stamp) (writes : StreamWrites Any Raw) :
    appendEvents format parse policy io (.of format store) stamp writes =
      ((FileStore.appendEvents parse store stamp writes).1,
        .of format (FileStore.appendEvents parse store stamp writes).2) := by
  cases hentries : writes.entries with
  | nil => simp [appendEvents,FileStore.appendEvents,hentries]
  | cons entry entries =>
    cases hprep : prepareAppend parse store.replicaId store.index stamp writes with
    | error e => simp [appendEvents,FileStore.appendEvents,hentries,hprep,Store.of]
    | ok t =>
      simp only [appendEvents,FileStore.appendEvents,hentries,hprep,Store.of,
        writeTransactionFile_ok hpublishes,persist_ok hlogs,FileEventStore.commit,render,
        List.flatMap_append]
      rfl

theorem appendEvents_index {io : Io} (hpublishes : io.Publishes policy) (store : Store Value)
    (stamp : Stamp) (writes : StreamWrites Any Raw) :
    (appendEvents format parse policy io store stamp writes).2.index =
      (FileStore.appendEvents parse ⟨store.replicaId,store.files,[],store.index⟩ stamp
        writes).2.index := by
  cases hentries : writes.entries with
  | nil => simp [appendEvents,FileStore.appendEvents,hentries]
  | cons entry entries =>
    cases hprep : prepareAppend parse store.replicaId store.index stamp writes with
    | error e => simp [appendEvents,FileStore.appendEvents,hentries,hprep]
    | ok t =>
      simp only [appendEvents,FileStore.appendEvents,hentries,hprep,
        writeTransactionFile_ok hpublishes]
      rfl

end Refinement

section Errors

theorem Unchanged.refl (store : Store Value) : Unchanged format store store :=
  ⟨fun _ => rfl,fun _ => rfl⟩

variable {format parse policy}

/-- A batch that is neither empty nor rejected and whose file gets into the directory shows in
the open store, whatever becomes of the log. -/
theorem published_changes {io : Io} (hpublishes : io.Publishes policy) {store : Store Value}
    {stamp : Stamp} {writes : StreamWrites Any Raw} (hentries : writes.entries ≠ [])
    (hrejected : ¬ Rejected parse store.index writes) :
    ¬ Unchanged format store (appendEvents format parse policy io store stamp writes).2 := by
  intro h
  obtain ⟨entry,entries,hcons⟩ := List.exists_cons_of_ne_nil hentries
  rcases appendEvents_cases parse ⟨store.replicaId,store.files,[],store.index⟩ stamp writes with
    ⟨hnil,_⟩ | ⟨_,_,hprep,_⟩ | ⟨_,t,_,hrun⟩
  · exact hentries hnil
  · exact hrejected (rejected_of_error hprep)
  · obtain ⟨values,htexts,hvalues⟩ := appendEvents_values hrun entry.streamId
    have hnow := h.now entry.streamId
    have hindex : (appendEvents format parse policy io store stamp writes).2.index =
        _ := appendEvents_index hpublishes store stamp writes
    rw [hindex,hrun] at hnow
    rw [hnow] at hvalues
    have hnone : values = [] := by simpa using hvalues
    rw [hnone,hcons] at htexts
    simp [StreamWrites.textsOf] at htexts

theorem prepared_lines {store : Store Value} {stamp : Stamp} {writes : StreamWrites Any Raw}
    {t : Transaction Value} (hentries : writes.entries ≠ [])
    (hprep : prepareAppend parse store.replicaId store.index stamp writes = .ok t) :
    (store.index.ingestTransaction t fun _ => [t.id]).2 ≠ [] := by
  obtain ⟨items,hparse,hevents⟩ := prepareAppend_events hprep
  have hlength := (parseEntries_eq_ok hparse).length_eq
  have hitems := congrArg List.length (buildEnvelopes_items store.index stamp.eventId items)
  rw [← hevents,List.length_map] at hitems
  have hpositive : 0 < t.events.length := by
    rw [hitems,← hlength]
    exact List.length_pos_of_ne_nil hentries
  obtain ⟨e,rest,hcons⟩ := List.exists_cons_of_length_pos hpositive
  simp [Index.ingestTransaction,hcons,Index.ingestAll]

theorem unchanged_iff (io : Io) (store : Store Value) (stamp : Stamp)
    (writes : StreamWrites Any Raw) :
    (∀ e, (appendEvents format parse policy io store stamp writes).1 = .error e →
      Unchanged format store (appendEvents format parse policy io store stamp writes).2) ↔
    writes.entries = [] ∨ Rejected parse store.index writes ∨ ¬ io.Publishes policy ∨ io.Logs := by
  cases hentries : writes.entries with
  | nil => simp [appendEvents,hentries]
  | cons entry entries =>
    have hne : writes.entries ≠ [] := by simp [hentries]
    cases hprep : prepareAppend parse store.replicaId store.index stamp writes with
    | error e =>
      simp [appendEvents,hentries,hprep,rejected_of_error hprep,Unchanged.refl]
    | ok t =>
      have hrejected := not_rejected_of_ok hprep
      by_cases hpublishes : io.Publishes policy
      · have hchanged : ¬ Unchanged format store
            (appendEvents format parse policy io store stamp writes).2 :=
          published_changes hpublishes hne hrejected
        by_cases hlogs : io.Logs
        · simp [appendEvents,hentries,hprep,writeTransactionFile_ok hpublishes,persist_ok hlogs,
            Except.mapError,hlogs]
        · have hfails : (appendEvents format parse policy io store stamp writes).1 =
              .error (.storeFailure .appendEvents) := by
            simp only [appendEvents,hentries,hprep,writeTransactionFile_ok hpublishes]
            rw [persist_error hlogs _ (prepared_lines hne hprep)]
            rfl
          constructor
          · intro h
            exact absurd (h _ hfails) hchanged
          · rintro (hnil | hrejected' | hunpublished | hlogs')
            · cases hnil
            · exact absurd hrejected' hrejected
            · exact absurd hpublishes hunpublished
            · exact absurd hlogs' hlogs
      · simp [appendEvents,hentries,hprep,writeTransactionFile_error hpublishes,hpublishes,
          Unchanged.refl]

/-- A failed append leaves every stream as it was exactly when it fails before its file is in
the directory. Where nothing fails, over a log as it is written, the append and a reopening are
those of the store that knows no failures. -/
theorem append_error_unchanged_iff (io : Io) (store : Store Value) (stamp : Stamp)
    (writes : StreamWrites Any Raw) :
    ((∀ e, (appendEvents format parse policy io store stamp writes).1 = .error e →
      Unchanged format store (appendEvents format parse policy io store stamp writes).2) ↔
    writes.entries = [] ∨ Rejected parse store.index writes ∨ ¬ io.Publishes policy ∨ io.Logs) ∧
    ∀ base : FileEventStore Value,
      (Store.of format base).reopen format = .ok base.reopen.index ∧
      (io.Publishes policy → io.Logs →
        appendEvents format parse policy io (.of format base) stamp writes =
          ((FileStore.appendEvents parse base stamp writes).1,
            .of format (FileStore.appendEvents parse base stamp writes).2)) :=
  ⟨unchanged_iff io store stamp writes,fun base => ⟨reopen_of format base,
    fun hpublishes hlogs => appendEvents_of hpublishes hlogs base stamp writes⟩⟩

end Errors

namespace FullDisk
open TwoCopies

def unary : LogFormat where
  toString entry := List.replicate entry.1 '1' ++ '0' :: List.replicate entry.2 '1'
  fromStr line :=
    some ((line.takeWhile (· = '1')).length,((line.dropWhile (· = '1')).drop 1).length)
  fromStr_toString entry := by
    have hones : ∀ c ∈ List.replicate entry.1 '1', decide (c = '1') = true := by
      simp [List.mem_replicate]
    rw [List.takeWhile_append_of_pos hones,List.dropWhile_append_of_pos hones]
    simp
  one_line entry := by simp [List.mem_replicate]
  not_blank entry := by simp

/-- The log cannot be opened once the transaction file is in place. -/
def io : Io := { openLog := false }

def store : Store ℕ := .of unary (.create 1)

def failed : Except EventStoreError Unit × Store ℕ :=
  appendEvents unary some .full io store (stamp 1) openOne

/-- The append of a first event reports an error, and yet the event shows, also after the store is
opened again; a second try meets a version conflict. -/
theorem error_after_commit :
    failed.1 = .error (.storeFailure .appendEvents) ∧
    ¬ (∀ e, failed.1 = .error e → Unchanged unary store failed.2) ∧
    (store.index.streamHead account1.value = 0 ∧ failed.2.index.streamHead account1.value = 1) ∧
    (fun index => index.streamHead account1.value) <$> failed.2.reopen unary = .ok 1 ∧
    (appendEvents unary some .full {} failed.2 (stamp 2) openOne).1 =
      .error (.versionConflict account1 0 1) := by
  have hfailed : failed.1 = .error (.storeFailure .appendEvents) := by decide +kernel
  have hheads : store.index.streamHead account1.value = 0 ∧
      failed.2.index.streamHead account1.value = 1 := by decide +kernel
  refine ⟨hfailed,fun h => ?_,hheads,by decide +kernel,by decide +kernel⟩
  have hnow := congrArg List.length ((h _ hfailed).now account1)
  have hsame : failed.2.index.streamHead account1.value = store.index.streamHead account1.value :=
    hnow
  omega

end FullDisk

end FailedAppends
end FileStore
end EventCore
