import EventCore.FileStore
import EventCore.MemoryStore
import EventCore.PostgresStore
import EventCore.SqliteAppends

/-! The version checks of the four stores, side by side. They part on a batch that registers
streams and has no events: the memory store checks it, the others return before they look. -/
namespace EventCore
namespace VersionContract
open FileStore PostgresStore SerdeJson SqliteStore

variable {Any Erased Value : Type}

inductive Outcome
  | ok
  | versionConflict
  | failure
  deriving DecidableEq

def outcomeOf {α : Type} : Except EventStoreError α → Outcome
  | .ok _ => .ok
  | .error (.versionConflict _ _ _) => .versionConflict
  | .error _ => .failure

inductive Backend
  | memory
  | file
  | sqlite
  | postgres
  deriving DecidableEq

structure Stores (Any Erased Value : Type) where
  memory : MemoryStore.StoreData Any Text Erased
  file : FileEventStore Value
  sqlite : Table Text
  postgres : Table Text

structure Stores.Hold (stores : Stores Any Erased Value) (version : StreamId → StreamVersion) :
    Prop where
  memory : ∀ s, stores.memory.currentVersion s = version s
  file : ∀ s : StreamId, stores.file.index.streamHead s.value = version s
  sqlite : ∀ s : StreamId, currentVersion stores.sqlite s.value = version s
  postgres : ∀ s : StreamId, currentVersion stores.postgres s.value = version s

/-- What a batch meets in its environment: the parser of the file store, the column of Postgres
and the identifiers that each store draws. -/
structure Env (Value : Type) where
  parse : Text → Option Value
  accepts : Text → Bool
  nowV7 : Backend → ℕ → Uuid
  stamp : Stamp

def outcome (env : Env Value) (stores : Stores Any Erased Value) (writes : StreamWrites Any Text) :
    Backend → Outcome
  | .memory => outcomeOf (MemoryStore.appendEvents (env.nowV7 .memory) stores.memory writes).1
  | .file => outcomeOf (FileStore.appendEvents env.parse stores.file env.stamp writes).1
  | .sqlite => outcomeOf (appendChunked (env.nowV7 .sqlite) stores.sqlite writes)
  | .postgres => outcomeOf
      (PostgresStore.appendEvents env.accepts (env.nowV7 .postgres) stores.postgres writes)

def Stale (version : StreamId → StreamVersion) (writes : StreamWrites Any Text) : Prop :=
  ∃ s expected, writes.expectedVersions.get? s = some expected ∧ version s ≠ expected

/-- The payloads are values for the file store, and for the column of Postgres. -/
def Storable (env : Env Value) (writes : StreamWrites Any Text) : Backend → Prop
  | .file => ∀ entry ∈ writes.entries, env.parse entry.eventData ≠ none
  | .postgres => ∀ entry ∈ writes.entries, env.accepts entry.eventData = true
  | _ => True

section Check

variable {version : StreamId → StreamVersion} {writes : StreamWrites Any Text}

theorem stale_iff : Stale version writes ↔
    ∃ p ∈ writes.expectedVersions.entries, version p.1 ≠ p.2 := by
  constructor
  · rintro ⟨s,expected,hs,hne⟩
    exact ⟨⟨s,expected⟩,HashMap.mem_entries_iff.mpr hs,hne⟩
  · rintro ⟨⟨s,expected⟩,hp,hne⟩
    exact ⟨s,expected,HashMap.mem_entries_iff.mp hp,hne⟩

instance : Decidable (Stale version writes) := decidable_of_iff _ stale_iff.symm

def required (version : StreamId → StreamVersion) (writes : StreamWrites Any Text) : Outcome :=
  if Stale version writes then .versionConflict else .ok

theorem check_cases (version : StreamId → StreamVersion) (writes : StreamWrites Any Text)
    {entries : List (Sigma fun _ : StreamId => StreamVersion)}
    (hperm : entries.Perm writes.expectedVersions.entries) :
    (¬ Stale version writes ∧ checkExpectedVersions version entries = .ok ()) ∨
    (Stale version writes ∧ ∃ s expected actual,
      checkExpectedVersions version entries = .error (.versionConflict s expected actual)) := by
  rw [stale_iff]
  cases hcheck : checkExpectedVersions version entries with
  | ok u =>
    refine .inl ⟨?_,rfl⟩
    rintro ⟨p,hp,hne⟩
    exact hne (checkExpectedVersions_eq_ok.mp hcheck p (hperm.mem_iff.mpr hp))
  | error e =>
    obtain ⟨p,hp,hne,rfl⟩ := checkExpectedVersions_eq_error hcheck
    exact .inr ⟨⟨p,hperm.mem_iff.mp hp,hne⟩,_,_,_,rfl⟩

end Check

section Outcomes

variable {env : Env Value} {stores : Stores Any Erased Value} {version : StreamId → StreamVersion}
  {writes : StreamWrites Any Text}

theorem memory_outcome (h : stores.Hold version) :
    outcome env stores writes .memory = required version writes := by
  rw [outcome,required,MemoryStore.appendEvents,funext h.memory]
  rcases check_cases version writes (.refl _) with ⟨hfresh,hcheck⟩ | ⟨hstale,s,e,a,hcheck⟩
  · rw [hcheck,if_neg hfresh]
    rfl
  · rw [hcheck,if_pos hstale]
    rfl

theorem outcomeOf_error {α β : Type} (e : EventStoreError) :
    outcomeOf (.error e : Except EventStoreError α) =
      outcomeOf (.error e : Except EventStoreError β) := by cases e <;> rfl

theorem parseEntries_outcome (parse : Text → Option Value)
    (entries : List (StreamWriteEntry Any Text)) : outcomeOf (parseEntries parse entries) =
      if ∀ entry ∈ entries, parse entry.eventData ≠ none then .ok else .failure := by
  induction entries with
  | nil => rfl
  | cons entry entries ih =>
    rw [parseEntries,List.mapM_cons]
    simp only [List.forall_mem_cons]
    cases hparse : parse entry.eventData with
    | none => rfl
    | some value =>
      simp only [ne_eq,reduceCtorEq,not_false_eq_true,true_and] at ih ⊢
      rw [← ih]
      cases hrest : parseEntries parse entries with
      | error e =>
        simp only [bind,Except.bind,show entries.mapM _ = _ from hrest]
      | ok items =>
        simp only [bind,Except.bind,show entries.mapM _ = _ from hrest,pure,Except.pure,outcomeOf]

theorem prepareAppend_outcome (h : stores.Hold version) :
    outcomeOf (prepareAppend env.parse stores.file.replicaId stores.file.index env.stamp writes) =
      if Stale version writes then .versionConflict
      else if ∀ entry ∈ writes.entries, env.parse entry.eventData ≠ none then .ok
      else .failure := by
  rw [prepareAppend,funext h.file]
  rcases check_cases version writes (.refl _) with ⟨hcurrent,hcheck⟩ | ⟨hstale,s,e,a,hcheck⟩
  · rw [hcheck,if_neg hcurrent,← parseEntries_outcome]
    cases parseEntries env.parse writes.entries with
    | error e => exact outcomeOf_error e
    | ok items => rfl
  · rw [hcheck,if_pos hstale]
    rfl

theorem file_outcome (h : stores.Hold version) : outcome env stores writes .file =
    if writes.entries = [] then .ok else if Stale version writes then .versionConflict
      else if ∀ entry ∈ writes.entries, env.parse entry.eventData ≠ none then .ok
      else .failure := by
  have hprepare := @prepareAppend_outcome _ _ _ env _ _ writes h
  rw [outcome]
  rcases appendEvents_cases env.parse stores.file env.stamp writes with
    ⟨hnil,hrun⟩ | ⟨hne,e,hprep,hrun⟩ | ⟨hne,t,hprep,hrun⟩
  · rw [hrun,if_pos hnil]
    rfl
  · rw [hrun,if_neg hne,← hprepare,hprep]
    exact outcomeOf_error e
  · rw [hrun,if_neg hne,← hprepare,hprep]
    rfl

theorem sqlite_appendEvents_eq {nowV7 : ℕ → Uuid} {table : Table Text}
    (hne : writes.entries ≠ []) : SqliteStore.appendEvents nowV7 table writes =
      match checkExpectedVersions (fun s => currentVersion table s.value)
        writes.expectedVersions.entries with
      | .error e => .error e
      | .ok _ =>
        match assignRows nowV7 0 writes.expectedVersions writes.entries with
        | .error e => .error e
        | .ok rows => insertRows table rows := by
  unfold SqliteStore.appendEvents
  cases hentries : writes.entries with
  | nil => exact absurd hentries hne
  | cons entry entries =>
    cases assignRows nowV7 0 writes.expectedVersions (entry :: entries) with
    | error e => rfl
    | ok rows => rfl

theorem sqlite_outcome (h : stores.Hold version)
    (hfresh : FreshIds (env.nowV7 .sqlite) stores.sqlite 0 writes.entries.length) :
    outcome env stores writes .sqlite =
      if writes.entries = [] then .ok else required version writes := by
  rw [outcome,appendChunked_eq]
  by_cases hnil : writes.entries = []
  · rw [if_pos hnil,SqliteStore.appendEvents,hnil]
    rfl
  · rw [if_neg hnil,sqlite_appendEvents_eq hnil,funext h.sqlite,required]
    rcases check_cases version writes (.refl _) with ⟨hcurrent,hcheck⟩ | ⟨hstale,s,e,a,hcheck⟩
    · have hversions : ∀ s v, writes.expectedVersions.get? s = some v →
          currentVersion stores.sqlite s.value = v := by
        intro s v hv
        rw [h.sqlite]
        by_contra hne
        exact hcurrent ⟨s,v,hv,hne⟩
      have hkeep : ∀ (table : Table Text) (row : Row Text), True →
          row.streamVersion = currentVersion table row.streamId + 1 → True :=
        fun _ _ h _ => h
      obtain ⟨rows,hrows,hinsert,_⟩ :=
        insertRows_assigned hkeep trivial hversions writes.declared hfresh
      rw [hcheck,hrows,if_neg hcurrent]
      simp only [hinsert,outcomeOf]
    · rw [hcheck,if_pos hstale]
      rfl

section Insert

variable {accepts : Text → Bool} {nowV7 : ℕ → Uuid}

theorem assignStreamVersion_eq {table : Table Text} {expectedVersions : HashMap String ℕ}
    (hcurrent : ∀ s v, expectedVersions.get? s = some v → currentVersion table s = v)
    (streamId : StreamId) : assignStreamVersion table expectedVersions streamId =
      .ok (currentVersion table streamId.value + 1,
        expectedVersions.insert streamId.value (currentVersion table streamId.value + 1)) := by
  unfold assignStreamVersion
  cases hget : expectedVersions.get? streamId.value with
  | none => rfl
  | some v => simp only [hcurrent _ _ hget,ne_eq,not_true_eq_false,if_false]

theorem insertRows_outcome {entries : List (StreamWriteEntry Any Text)} {insertion : Insertion}
    (hcurrent : ∀ s v, insertion.expectedVersions.get? s = some v →
      currentVersion insertion.table s = v)
    (hfresh : FreshIds nowV7 insertion.table insertion.drawn entries.length) :
    outcomeOf (entries.foldlM (insertRow accepts nowV7) insertion) =
      if ∀ entry ∈ entries, accepts entry.eventData = true then .ok else .failure := by
  induction entries generalizing insertion with
  | nil => rfl
  | cons entry entries ih =>
    rw [List.foldlM_cons]
    simp only [List.forall_mem_cons]
    by_cases haccepts : accepts entry.eventData = true
    · let version := currentVersion insertion.table entry.streamId.value + 1
      let row : Row Text := ⟨nowV7 insertion.drawn,entry.streamId.value,version,entry.eventType,
        entry.eventData.keyOrdered⟩
      let next : Insertion := ⟨insertion.table ++ [row],
        insertion.expectedVersions.insert entry.streamId.value version,insertion.drawn+1⟩
      have hunique : violatesUnique insertion.table row = false :=
        not_violatesUnique hfresh rfl (Nat.lt_succ_self _)
      have hstep : insertRow accepts nowV7 insertion entry = .ok next := by
        unfold insertRow jsonb
        simp only [haccepts,if_true,assignStreamVersion_eq hcurrent]
        exact if_neg (by rw [hunique]; exact Bool.false_ne_true)
      have hcurrent' : ∀ s v, next.expectedVersions.get? s = some v →
          currentVersion next.table s = v := by
        intro s v hv
        rw [HashMap.get?_insert] at hv
        rw [currentVersion_concat]
        by_cases hs : s = entry.streamId.value
        · rw [if_pos hs] at hv
          rw [if_pos hs.symm,hs,← Option.some.inj hv]
          exact max_eq_right (Nat.le_succ _)
        · rw [if_neg hs] at hv
          rw [if_neg (Ne.symm hs)]
          exact hcurrent s v hv
      rw [hstep]
      simp only [haccepts,true_and]
      exact ih hcurrent' (hfresh.next rfl)
    · have hstep : insertRow accepts nowV7 insertion entry =
          .error (.storeFailure .appendEvents) := by
        unfold insertRow jsonb
        rw [if_neg haccepts]
      rw [hstep,if_neg fun h => haccepts h.1]
      rfl

end Insert

theorem postgres_appendEvents_eq {accepts : Text → Bool} {nowV7 : ℕ → Uuid} {table : Table Text}
    (hne : writes.entries ≠ []) : PostgresStore.appendEvents accepts nowV7 table writes =
      match validateExpectedVersions table writes.expectedVersions with
      | .error e => .error e
      | .ok _ =>
        (writes.entries.foldlM (insertRow accepts nowV7)
          ⟨table,expectedVersionsJson writes.expectedVersions,0⟩).map Insertion.table := by
  unfold PostgresStore.appendEvents
  cases hentries : writes.entries with
  | nil => exact absurd hentries hne
  | cons entry entries => rfl

theorem postgres_outcome (h : stores.Hold version)
    (hfresh : FreshIds (env.nowV7 .postgres) stores.postgres 0 writes.entries.length) :
    outcome env stores writes .postgres =
      if writes.entries = [] then .ok else if Stale version writes then .versionConflict
      else if ∀ entry ∈ writes.entries, env.accepts entry.eventData = true then .ok
      else .failure := by
  rw [outcome]
  by_cases hnil : writes.entries = []
  · rw [if_pos hnil,PostgresStore.appendEvents,hnil]
    rfl
  · rw [if_neg hnil,postgres_appendEvents_eq hnil,validateExpectedVersions,funext h.postgres]
    rcases check_cases version writes
        (List.perm_insertionSort (fun p q => p.1.value ≤ q.1.value) _) with
      ⟨hcurrent,hcheck⟩ | ⟨hstale,s,e,a,hcheck⟩
    · let insertion : Insertion :=
        ⟨stores.postgres,expectedVersionsJson writes.expectedVersions,0⟩
      have hexpected : ∀ s v, insertion.expectedVersions.get? s = some v →
          currentVersion insertion.table s = v := by
        intro s v hv
        obtain ⟨streamId,rfl,hget⟩ := (streamBasesOf_get? writes.expectedVersions).mp hv
        rw [h.postgres]
        by_contra hne
        exact hcurrent ⟨streamId,v,hget,hne⟩
      have hinserted := @insertRows_outcome _ env.accepts _ _ _ hexpected hfresh
      rw [hcheck,if_neg hcurrent,← hinserted]
      change outcomeOf (Except.map _ (writes.entries.foldlM _ insertion)) = _
      cases writes.entries.foldlM (insertRow env.accepts (env.nowV7 .postgres)) insertion with
      | error e => exact outcomeOf_error e
      | ok insertion => rfl
    · rw [hcheck,if_pos hstale]
      rfl

/-- The drawn identifiers are new to the tables that keep them distinct. -/
structure Env.Fresh (env : Env Value) (stores : Stores Any Erased Value)
    (writes : StreamWrites Any Text) : Prop where
  sqlite : FreshIds (env.nowV7 .sqlite) stores.sqlite 0 writes.entries.length
  postgres : FreshIds (env.nowV7 .postgres) stores.postgres 0 writes.entries.length

/-- A backend that looks at no empty batch, and at the payloads behind the versions. -/
theorem checked_conflict_iff {behind : Outcome} (hbehind : behind ≠ .versionConflict) :
    (if writes.entries = [] then .ok else if Stale version writes then .versionConflict
      else behind) = Outcome.versionConflict ↔ Stale version writes ∧ writes.entries ≠ [] := by
  by_cases hnil : writes.entries = []
  · simp [hnil]
  · by_cases hstale : Stale version writes <;> simp [hnil,hstale,hbehind]

theorem outcome_conflict_iff (hhold : stores.Hold version) (hfresh : env.Fresh stores writes)
    (backend : Backend) : outcome env stores writes backend = .versionConflict ↔
      Stale version writes ∧ (writes.entries ≠ [] ∨ backend = .memory) := by
  cases backend with
  | memory =>
    rw [memory_outcome hhold,required]
    by_cases hstale : Stale version writes <;> simp [hstale]
  | file =>
    rw [file_outcome hhold,checked_conflict_iff (by split_ifs <;> simp)]
    simp
  | sqlite =>
    rw [sqlite_outcome hhold hfresh.sqlite,required,checked_conflict_iff (by simp)]
    simp
  | postgres =>
    rw [postgres_outcome hhold hfresh.postgres,checked_conflict_iff (by split_ifs <;> simp)]
    simp

theorem outcome_ok_iff (hhold : stores.Hold version) (hfresh : env.Fresh stores writes)
    (hstale : ¬ Stale version writes) (backend : Backend) :
    outcome env stores writes backend = .ok ↔ Storable env writes backend := by
  cases backend with
  | memory => simp [memory_outcome hhold,required,hstale,Storable]
  | file =>
    rw [file_outcome hhold,if_neg hstale,Storable]
    by_cases hnil : writes.entries = []
    · simp [hnil]
    · rw [if_neg hnil]
      split_ifs with hparse
      · exact iff_of_true rfl hparse
      · exact iff_of_false nofun hparse
  | sqlite => simp [sqlite_outcome hhold hfresh.sqlite,required,hstale,Storable]
  | postgres =>
    rw [postgres_outcome hhold hfresh.postgres,if_neg hstale,Storable]
    by_cases hnil : writes.entries = []
    · simp [hnil]
    · rw [if_neg hnil]
      split_ifs with haccepts
      · exact iff_of_true rfl haccepts
      · exact iff_of_false nofun haccepts

/-- The contract holds exactly of batches that have an event or are not stale: then every store
reports a conflict if and only if there is one. Of those, all stores take the ones that are not
stale exactly if they take the payloads. -/
theorem version_contract_iff (hhold : stores.Hold version) (hfresh : env.Fresh stores writes) :
    ((∀ backend, outcome env stores writes backend = .versionConflict ↔ Stale version writes) ↔
      writes.entries ≠ [] ∨ ¬ Stale version writes) ∧
    ((∀ backend, outcome env stores writes backend = required version writes) ↔
      (writes.entries ≠ [] ∨ ¬ Stale version writes) ∧
      (Stale version writes ∨ ∀ backend, Storable env writes backend)) := by
  have hconflict := outcome_conflict_iff hhold hfresh
  by_cases hstale : Stale version writes
  · have hall : (∀ backend, outcome env stores writes backend = .versionConflict) ↔
        writes.entries ≠ [] := by
      simp only [hconflict,hstale,true_and]
      refine ⟨fun h => ?_,fun h _ => .inl h⟩
      have hfile := h .file
      rcases hfile with hne | hmemory
      · exact hne
      · cases hmemory
    simpa [required,hstale] using hall
  · have hok := outcome_ok_iff hhold hfresh hstale
    simp [required,hstale,hconflict,hok]

end Outcomes

section Scenarios
open Sample

def stamp : Stamp := ⟨1,"2024-05-01T12:00:00+00:00",id⟩

def opening : StreamWrites Unit Text :=
  ⟨[⟨account,(),"Deposited",JsonTree.Document.number (.int 5)⟩],AList.insert account 0 ∅,by decide⟩

/-- What a command comes to that has read the empty account and has nothing to write. -/
def silent : StreamWrites Unit Text := ⟨[],AList.insert account 0 ∅,by simp⟩

def env : Env ℕ := ⟨fun _ => some 5,fun _ => true,fun _ => Nat.succ,stamp⟩

def opened : Stores Unit ℕ ℕ where
  memory := (MemoryStore.appendEvents id .new opening).2
  file := (FileStore.appendEvents env.parse (.create 1) stamp opening).2
  sqlite := ((appendChunked id [] opening).toOption).getD []
  postgres := ((PostgresStore.appendEvents env.accepts id [] opening).toOption).getD []

def versions (s : StreamId) : StreamVersion := if s = account then 1 else 0

theorem opened_hold : opened.Hold versions := by
  have htexts : ∀ s, (StreamWrites.textsOf opening.entries s).length = versions s := by
    intro s
    by_cases hs : account = s
    · subst hs
      decide
    · have hne : ¬ s = account := Ne.symm hs
      simp [StreamWrites.textsOf,opening,versions,hs,hne]
  have htable : ∀ s : StreamId, currentVersion opened.sqlite s.value = versions s := by
    intro s
    by_cases hs : account = s
    · subst hs
      decide
    · have hvalue : ¬ account.value = s.value := fun he => hs (StreamId.value_injective he)
      have hnone : rowsOf opened.sqlite s.value = [] :=
        (List.filter_cons_of_neg (by simpa using hvalue)).trans rfl
      rw [currentVersion,hnone,versions,if_neg (Ne.symm hs)]
      rfl
  refine ⟨fun s => ?_,fun s => ?_,htable,htable⟩
  · rw [opened.memory.currentVersion_eq]
    change ((opening.entries.foldl (MemoryStore.writeEntry id) .new).streamEvents s).length = _
    rw [MemoryStore.streamEvents_foldl_writeEntry,← htexts s,MemoryStore.eventsOf,
      StreamWrites.textsOf]
    simp [MemoryStore.StoreData.new,MemoryStore.StoreData.streamEvents]
  · have hrun : FileStore.appendEvents env.parse (.create 1) stamp opening =
        (.ok (),opened.file) := rfl
    obtain ⟨values,hvalues,hadded⟩ := appendEvents_values hrun s
    have hlength := congrArg List.length hadded
    have hvalues' := congrArg List.length hvalues
    rw [List.length_map,List.length_map] at hvalues'
    rw [List.length_map,List.length_append,← hvalues',htexts s] at hlength
    exact hlength.trans (Nat.zero_add _)

/-- After a deposit, the memory store rejects the stale command and the others let it pass. -/
theorem silent_stale_passes :
    (∀ backend, outcome env opened silent backend =
      if backend = .memory then .versionConflict else .ok) ∧
    ¬ ∀ (env : Env ℕ) (stores : Stores Unit ℕ ℕ) (version : StreamId → StreamVersion)
      (writes : StreamWrites Unit Text), stores.Hold version → env.Fresh stores writes →
        ∀ backend, outcome env stores writes backend = required version writes := by
  have hrun : ∀ backend, outcome env opened silent backend =
      if backend = .memory then .versionConflict else .ok := by
    intro backend
    cases backend <;> decide
  refine ⟨hrun,fun h => ?_⟩
  have hfile := h env opened versions silent opened_hold ⟨by decide,by decide⟩ .file
  have hstale : Stale versions silent := ⟨account,0,by decide,by decide⟩
  rw [hrun,required,if_pos hstale] at hfile
  cases hfile

/-- The same deposit once more is a conflict for all of them. -/
theorem version_contract_iff_again : Stale versions opening ∧
    ∀ backend, outcome env opened opening backend = required versions opening := by
  have hstale : Stale versions opening := ⟨account,0,by decide,by decide⟩
  have hfresh : env.Fresh opened opening := ⟨by decide,by decide⟩
  exact ⟨hstale,(version_contract_iff opened_hold hfresh).2.mpr ⟨.inl (by decide),.inl hstale⟩⟩

end Scenarios

end VersionContract
end EventCore
