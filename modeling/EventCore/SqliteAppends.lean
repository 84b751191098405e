import EventCore.StreamVersions

/-! The append of the SQLite store as its statements run: rows are inserted a hundred at a time
within one transaction. Into a table whose streams are numbered without gaps it never fails but on
a conflict. -/
namespace EventCore
namespace SqliteStore
open StreamVersions StreamWrites

variable {Any Raw E : Type}

def maxRowsPerInsert : ℕ := 100

/-- One statement after the other; a violated constraint rolls all of them back. -/
def insertChunks : Table Raw → List (List (Row Raw)) → Except EventStoreError (Table Raw)
  | table, [] => .ok table
  | table, chunk :: chunks =>
    match insertRows table chunk with
    | .error e => .error e
    | .ok table => insertChunks table chunks

/-- `SqliteEventStore::append_events` with its chunked statements. -/
def appendChunked (nowV7 : ℕ → Uuid) (table : Table Raw) (writes : StreamWrites Any Raw) :
    Except EventStoreError (Table Raw) :=
  match writes.entries with
  | [] => .ok table
  | _ :: _ =>
    match checkExpectedVersions (fun s => currentVersion table s.value)
        writes.expectedVersions.entries with
    | .error e => .error e
    | .ok _ =>
      match assignRows nowV7 0 writes.expectedVersions writes.entries with
      | .error e => .error e
      | .ok rows => insertChunks table (rows.toChunks maxRowsPerInsert)

section Chunks

theorem flatten_toChunks_go {α : Type} (n : ℕ) (xs : List α) (acc : Array α)
    (accs : Array (List α)) : (List.toChunks.go n xs acc accs).flatten =
      accs.toList.flatten ++ acc.toList ++ xs := by
  induction xs generalizing acc accs with
  | nil => simp [List.toChunks.go]
  | cons x xs ih =>
    rw [List.toChunks.go]
    split_ifs
    · rw [ih]
      simp
    · rw [ih]
      simp

theorem flatten_toChunks {α : Type} (n : ℕ) (xs : List α) : (xs.toChunks n).flatten = xs := by
  cases xs with
  | nil => rfl
  | cons x xs =>
    cases n with
    | zero => simp [List.toChunks]
    | succ n => simp [List.toChunks,flatten_toChunks_go]

theorem insertRows_append (table rows more : Table Raw) : insertRows table (rows ++ more) =
    match insertRows table rows with
    | .error e => .error e
    | .ok table => insertRows table more := by
  induction rows generalizing table with
  | nil => rfl
  | cons row rows ih =>
    rw [List.cons_append,insertRows,insertRows]
    split_ifs
    · rfl
    · exact ih _

theorem insertChunks_eq (table : Table Raw) (chunks : List (List (Row Raw))) :
    insertChunks table chunks = insertRows table chunks.flatten := by
  induction chunks generalizing table with
  | nil => rfl
  | cons chunk chunks ih =>
    rw [insertChunks,List.flatten_cons,insertRows_append]
    cases insertRows table chunk with
    | error e => rfl
    | ok table => exact ih table

theorem appendChunked_eq (nowV7 : ℕ → Uuid) (table : Table Raw) (writes : StreamWrites Any Raw) :
    appendChunked nowV7 table writes = appendEvents nowV7 table writes := by
  unfold appendChunked appendEvents
  cases writes.entries with
  | nil => rfl
  | cons entry entries =>
    cases checkExpectedVersions (fun s => currentVersion table s.value)
      writes.expectedVersions.entries with
    | error e => rfl
    | ok u =>
      cases assignRows nowV7 0 writes.expectedVersions (entry :: entries) with
      | error e => rfl
      | ok rows =>
        change insertChunks table (rows.toChunks maxRowsPerInsert) = insertRows table rows
        rw [insertChunks_eq,flatten_toChunks]

end Chunks

section Append

def FreshIds (nowV7 : ℕ → Uuid) (table : Table Raw) (drawn count : ℕ) : Prop :=
  (table.map Row.eventId ++ (List.range' drawn count).map nowV7).Nodup

instance (nowV7 : ℕ → Uuid) (table : Table Raw) (drawn count : ℕ) :
    Decidable (FreshIds nowV7 table drawn count) := inferInstanceAs (Decidable (List.Nodup _))

theorem FreshIds.next {nowV7 : ℕ → Uuid} {table : Table Raw} {drawn count : ℕ}
    (h : FreshIds nowV7 table drawn (count+1)) {row : Row Raw} (hrow : row.eventId = nowV7 drawn) :
    FreshIds nowV7 (table ++ [row]) (drawn+1) count := by
  unfold FreshIds at h ⊢
  rw [List.range'_succ,List.map_cons] at h
  rwa [List.map_append,List.map_singleton,hrow,List.append_assoc,List.singleton_append]

theorem not_violatesUnique {nowV7 : ℕ → Uuid} {table : Table Raw} {drawn count : ℕ}
    (h : FreshIds nowV7 table drawn (count+1)) {row : Row Raw} (hrow : row.eventId = nowV7 drawn)
    (hversion : currentVersion table row.streamId < row.streamVersion) :
    violatesUnique table row = false := by
  unfold FreshIds at h
  rw [List.range'_succ,List.map_cons,List.nodup_append] at h
  refine List.any_eq_false.mpr fun old hold hsame => ?_
  simp only [Bool.or_eq_true,Bool.and_eq_true,decide_eq_true_eq] at hsame
  rcases hsame with hid | ⟨hstream,hsame⟩
  · exact h.2.2 _ (List.mem_map_of_mem hold) _ List.mem_cons_self (hid.trans hrow)
  · have hmem : old ∈ rowsOf table row.streamId :=
      List.mem_filter.mpr ⟨hold,decide_eq_true hstream⟩
    have hle := le_currentVersion hmem
    omega

theorem insertRows_assigned {P : Table Raw → Prop} (hP : ∀ table row, P table →
      row.streamVersion = currentVersion table row.streamId + 1 → P (table ++ [row]))
    {nowV7 : ℕ → Uuid} {entries : List (StreamWriteEntry Any Raw)}
    {drawn : ℕ} {table : Table Raw} {versions : HashMap StreamId StreamVersion} (h : P table)
    (hversions : ∀ s v, versions.get? s = some v → currentVersion table s.value = v)
    (hdeclared : ∀ e ∈ entries, e.streamId ∈ versions)
    (hfresh : FreshIds nowV7 table drawn entries.length) :
    ∃ rows, assignRows nowV7 drawn versions entries = .ok rows ∧
      insertRows table rows = .ok (table ++ rows) ∧ P (table ++ rows) := by
  induction entries generalizing drawn table versions with
  | nil => exact ⟨[],rfl,by simp [insertRows],by simpa using h⟩
  | cons entry entries ih =>
    obtain ⟨hentry,hentries⟩ := List.forall_mem_cons.mp hdeclared
    obtain ⟨version,hversion⟩ := HashMap.exists_of_mem hentry
    have hcurrent := hversions entry.streamId version hversion
    let row : Row Raw :=
      ⟨nowV7 drawn,entry.streamId.value,version+1,entry.eventType,entry.eventData⟩
    have hnext : row.streamVersion = currentVersion table row.streamId + 1 := by
      rw [hcurrent]
    let versions' : HashMap StreamId StreamVersion := versions.insert entry.streamId (version+1)
    have hversions' : ∀ s v, versions'.get? s = some v →
        currentVersion (table ++ [row]) s.value = v := by
      intro s v hv
      rw [HashMap.get?_insert] at hv
      rw [currentVersion_concat]
      by_cases hs : s = entry.streamId
      · rw [if_pos hs] at hv
        rw [if_pos (congrArg StreamId.value hs.symm),hs,hcurrent,← Option.some.inj hv]
        exact max_eq_right (Nat.le_succ _)
      · rw [if_neg hs] at hv
        rw [if_neg fun he => hs (StreamId.value_injective he).symm]
        exact hversions s v hv
    have hdeclared' : ∀ e ∈ entries, e.streamId ∈ versions' :=
      fun e he => (AList.mem_insert _).mpr (.inr (hentries e he))
    obtain ⟨rows,hrows,hinsert,hwhole⟩ :=
      ih (hP table row h hnext) hversions' hdeclared' (hfresh.next rfl)
    refine ⟨row :: rows,?_,?_,?_⟩
    · rw [assignRows,hversion]
      change (assignRows nowV7 (drawn+1) versions' entries).map (row :: ·) = _
      rw [hrows]
      rfl
    · have hunique : violatesUnique table row = false :=
        not_violatesUnique hfresh rfl (by rw [hnext]; exact Nat.lt_succ_self _)
      rw [insertRows,hunique,if_neg Bool.false_ne_true,hinsert,List.append_assoc,
        List.singleton_append]
    · rwa [List.append_assoc,List.singleton_append] at hwhole

theorem appendChunked_spec {nowV7 : ℕ → Uuid} {table : Table Raw} {writes : StreamWrites Any Raw}
    (hcontiguous : Contiguous table) (hne : writes.entries ≠ [])
    (hfresh : FreshIds nowV7 table 0 writes.entries.length) :
    match checkExpectedVersions (fun s => currentVersion table s.value)
      writes.expectedVersions.entries with
    | .error e => appendChunked nowV7 table writes = .error e
    | .ok _ => ∃ table', appendChunked nowV7 table writes = .ok table' ∧ Contiguous table' ∧
        ∀ streamId, storedTexts table' streamId =
          storedTexts table streamId ++ textsOf writes.entries streamId := by
  cases hcheck : checkExpectedVersions (fun s => currentVersion table s.value)
      writes.expectedVersions.entries with
  | error e =>
    rw [appendChunked_eq,appendEvents]
    cases hentries : writes.entries with
    | nil => exact absurd hentries hne
    | cons entry entries => simp only [hcheck]
  | ok u =>
    have hversions : ∀ s v, writes.expectedVersions.get? s = some v →
        currentVersion table s.value = v := fun s v hv =>
      checkExpectedVersions_eq_ok.mp hcheck ⟨s,v⟩ (HashMap.mem_entries_iff.mpr hv)
    obtain ⟨rows,hrows,hinsert,hwhole⟩ :=
      insertRows_assigned (fun _ _ => Contiguous.concat) hcontiguous hversions writes.declared hfresh
    have hrun : appendEvents nowV7 table writes = .ok (table ++ rows) := by
      rw [appendEvents]
      cases hentries : writes.entries with
      | nil => exact absurd hentries hne
      | cons entry entries =>
        rw [hentries] at hrows
        simp only [hcheck,hrows,hinsert]
    exact ⟨_,(appendChunked_eq _ _ _).trans hrun,hwhole,appendEvents_texts hrun⟩

end Append

section Read

variable {table : Table Raw} {streamId : String}

theorem orderedRows_eq (h : Contiguous table) (streamId : String) :
    orderedRows table streamId = rowsOf table streamId := by
  refine List.Pairwise.insertionSort_eq (List.pairwise_map.mp ?_)
  rw [h streamId]
  exact List.pairwise_le_range'

/-- Rows numbered from one on: those above `n` are all but the first `n`. -/
theorem filter_version_eq_drop {rows : List (Row Raw)} {start : ℕ}
    (h : rows.map Row.streamVersion = List.range' (start+1) rows.length) (n : ℕ) :
    rows.filter (fun row => start + n < row.streamVersion) = rows.drop n := by
  induction rows generalizing start n with
  | nil => simp
  | cons row rows ih =>
    rw [List.map_cons,List.length_cons,List.range'_succ] at h
    obtain ⟨hrow,hrows⟩ := List.cons.inj h
    cases n with
    | zero =>
      have hall := ih hrows 0
      rw [List.drop_zero] at hall ⊢
      rw [List.filter_cons,if_pos (by simp [hrow])]
      congr 1
      refine List.filter_eq_self.mpr fun later hlater => ?_
      rw [← hall] at hlater
      have hlt := of_decide_eq_true (List.mem_filter.mp hlater).2
      exact decide_eq_true (by omega)
    | succ n =>
      rw [List.filter_cons,if_neg (by simp [hrow]),List.drop_succ_cons,← ih hrows n]
      refine List.filter_congr fun row _ => ?_
      rw [decide_eq_decide]
      omega

theorem filter_orderedRows (h : Contiguous table) (n : ℕ) :
    (orderedRows table streamId).filter (fun row => n < row.streamVersion) =
      (orderedRows table streamId).drop n := by
  rw [orderedRows_eq h]
  have hdrop := filter_version_eq_drop (h streamId) n
  rwa [Nat.zero_add] at hdrop

theorem decodeUntilError_eq_map {Source : Type} {decode : Source → Except EventStoreError E}
    {sources : List Source} {events : List E} (h : sources.map decode = events.map .ok) :
    decodeUntilError decode sources = events.map .ok := by
  induction sources generalizing events with
  | nil => simpa [decodeUntilError] using h
  | cons source sources ih =>
    cases events with
    | nil => simp at h
    | cons event events =>
      simp only [List.map_cons,List.cons.injEq] at h
      rw [decodeUntilError,h.1,List.map_cons,ih h.2]

end Read

end SqliteStore
end EventCore
