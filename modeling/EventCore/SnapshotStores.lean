import EventCore.MemoryStore
import EventCore.MergedSnapshots
import EventCore.PostgresStore

/-! Stored command snapshots in the four stores: each replaces a snapshot only by one that
covers it, and Postgres decides that in SQL over the `JSONB` form of the version vectors. -/
namespace EventCore
namespace SnapshotStores

variable {Any Raw Value Text : Type}

section Covers

theorem covers_iff {snapshot other : CommandStateSnapshot Value} :
    snapshot.covers other = true ↔ ∀ s v, other.streamVersions.get? s = some v →
      ∃ current, snapshot.streamVersions.get? s = some current ∧ v ≤ current := by
  rw [CommandStateSnapshot.covers,List.all_eq_true]
  constructor
  · intro h s v hv
    have hentry := h ⟨s,v⟩ (HashMap.mem_entries_iff.mpr hv)
    cases hget : snapshot.streamVersions.get? s with
    | none => simp [hget] at hentry
    | some current => exact ⟨current,rfl,by simpa [hget] using hentry⟩
  · rintro h ⟨s,v⟩ hv
    obtain ⟨current,hget,hle⟩ := h s v (HashMap.mem_entries_iff.mp hv)
    simpa [hget] using hle

theorem covers_refl (snapshot : CommandStateSnapshot Value) : snapshot.covers snapshot = true :=
  covers_iff.mpr fun _ v hv => ⟨v,hv,le_rfl⟩

theorem covers_trans {a b c : CommandStateSnapshot Value} (hab : a.covers b = true)
    (hbc : b.covers c = true) : a.covers c = true := by
  refine covers_iff.mpr fun s v hv => ?_
  obtain ⟨u,hu,hle⟩ := covers_iff.mp hbc s v hv
  obtain ⟨w,hw,hle'⟩ := covers_iff.mp hab s u hu
  exact ⟨w,hw,hle.trans hle'⟩

theorem covers_congr {a a' b b' : CommandStateSnapshot Value}
    (ha : a.streamVersions = a'.streamVersions) (hb : b.streamVersions = b'.streamVersions) :
    a.covers b = a'.covers b' := by
  simp only [CommandStateSnapshot.covers,ha,hb]

end Covers

/-- What a store keeps under each identifier, and how it takes in another snapshot. -/
structure SnapshotStore (σ Value : Type) where
  load : σ → CommandStateSnapshotId → Option (CommandStateSnapshot Value)
  save : σ → CommandStateSnapshotId → CommandStateSnapshot Value → σ

namespace SnapshotStore

variable {σ : Type}

def saves (store : SnapshotStore σ Value) (s : σ)
    (snapshots : List (CommandStateSnapshotId × CommandStateSnapshot Value)) : σ :=
  snapshots.foldl (fun s p => store.save s p.1 p.2) s

/-- At every moment of a sequence of saves the stored version vector covers every earlier one. -/
def NeverRegresses (store : SnapshotStore σ Value) : Prop :=
  ∀ s before after snapshotId old, store.load (store.saves s before) snapshotId = some old →
    ∃ new, store.load (store.saves s (before ++ after)) snapshotId = some new ∧
      new.covers old = true

theorem NeverRegresses.of_save {store : SnapshotStore σ Value}
    (hsave : ∀ s snapshotId snapshot id old, store.load s id = some old →
      ∃ new, store.load (store.save s snapshotId snapshot) id = some new ∧ new.covers old = true) :
    store.NeverRegresses := by
  intro s before after snapshotId old hold
  rw [show store.saves s (before ++ after) = store.saves (store.saves s before) after from
    List.foldl_append]
  generalize store.saves s before = t at hold
  induction after generalizing t old with
  | nil => exact ⟨old,hold,covers_refl old⟩
  | cons p after ih =>
    obtain ⟨mid,hmid,hcovers⟩ := hsave t p.1 p.2 snapshotId old hold
    obtain ⟨new,hnew,hcovers'⟩ := ih mid _ hmid
    exact ⟨new,hnew,covers_trans hcovers' hcovers⟩

end SnapshotStore

section Memory

def memoryStore : SnapshotStore (MemoryStore.StoreData Any Raw Value) Value where
  load := MemoryStore.loadCommandStateSnapshot
  save := MemoryStore.saveCommandStateSnapshot

theorem memoryStore_neverRegresses :
    (memoryStore : SnapshotStore (MemoryStore.StoreData Any Raw Value) Value).NeverRegresses := by
  refine .of_save fun data snapshotId snapshot id old hold => ?_
  simp only [memoryStore,MemoryStore.loadCommandStateSnapshot,
    MemoryStore.saveCommandStateSnapshot] at hold ⊢
  by_cases hid : id = snapshotId
  · subst hid
    rw [hold]
    by_cases hcovers : snapshot.covers old = true
    · exact ⟨snapshot,by simp [hcovers],hcovers⟩
    · exact ⟨old,by simp [hcovers,hold],covers_refl old⟩
  · refine ⟨old,?_,covers_refl old⟩
    split
    · split_ifs
      · exact hold
      · simp [hid,hold]
    · simp [hid,hold]

end Memory

/-- The snapshot text reads back with the version vector that was written. -/
def KeepsVersions (codec : FileStore.MergedSnapshots.SnapshotCodec Value Text) : Prop :=
  ∀ snapshot body, codec.toVec snapshot = .ok body →
    ∃ read, codec.fromStr body = .ok read ∧ read.streamVersions = snapshot.streamVersions

section File

open FileStore.MergedSnapshots

variable {codec : SnapshotCodec Value Text}

/-- A text that cannot be read holds no version vector. -/
def textStored (codec : SnapshotCodec Value Text) (files : SnapshotFiles Text)
    (snapshotId : CommandStateSnapshotId) : Option (CommandStateSnapshot Value) :=
  (files.get? snapshotId).bind fun contents => (codec.fromStr contents).toOption

def fileStore (codec : SnapshotCodec Value Text) : SnapshotStore (SnapshotFiles Text) Value where
  load := textStored codec
  save files snapshotId snapshot := (saveCommandStateSnapshot codec files snapshotId snapshot).2

/-- What a save may do to the texts: nothing, or to write a snapshot over one that it covers. -/
def Replaces (codec : SnapshotCodec Value Text) (texts texts' : SnapshotFiles Text)
    (snapshotId : CommandStateSnapshotId) (snapshot : CommandStateSnapshot Value) : Prop :=
  texts' = texts ∨ ∃ body, codec.toVec snapshot = .ok body ∧ texts' = texts.insert snapshotId body ∧
    ∀ old, textStored codec texts snapshotId = some old → snapshot.covers old = true

theorem Replaces.covers (hcodec : KeepsVersions codec) {texts texts' : SnapshotFiles Text}
    {snapshotId : CommandStateSnapshotId} {snapshot : CommandStateSnapshot Value}
    (h : Replaces codec texts texts' snapshotId snapshot) {id : CommandStateSnapshotId}
    {old : CommandStateSnapshot Value} (hold : textStored codec texts id = some old) :
    ∃ new, textStored codec texts' id = some new ∧ new.covers old = true := by
  rcases h with rfl | ⟨body,hbody,rfl,hcovers⟩
  · exact ⟨old,hold,covers_refl old⟩
  · by_cases hid : id = snapshotId
    · subst hid
      obtain ⟨read,hread,hversions⟩ := hcodec snapshot body hbody
      refine ⟨read,by simp [textStored,hread,Except.toOption],?_⟩
      rw [covers_congr hversions rfl]
      exact hcovers old hold
    · exact ⟨old,by simpa [textStored,hid] using hold,covers_refl old⟩

theorem writeSnapshotFile_replaces {files : SnapshotFiles Text}
    {snapshotId : CommandStateSnapshotId} {snapshot : CommandStateSnapshot Value}
    (hcovers : ∀ old, textStored codec files snapshotId = some old → snapshot.covers old = true) :
    Replaces codec files (writeSnapshotFile codec files snapshotId snapshot).2 snapshotId
      snapshot := by
  unfold writeSnapshotFile
  cases hbody : codec.toVec snapshot with
  | error e => exact .inl rfl
  | ok body => exact .inr ⟨body,hbody,rfl,hcovers⟩

theorem saveCommandStateSnapshot_replaces (files : SnapshotFiles Text)
    (snapshotId : CommandStateSnapshotId) (snapshot : CommandStateSnapshot Value) :
    Replaces codec files (saveCommandStateSnapshot codec files snapshotId snapshot).2 snapshotId
      snapshot := by
  unfold saveCommandStateSnapshot
  cases hget : files.get? snapshotId with
  | none => exact writeSnapshotFile_replaces (by simp [textStored,hget])
  | some contents =>
    cases hread : codec.fromStr contents with
    | error e => exact .inl (by simp [hread])
    | ok stored =>
      by_cases hcovers : snapshot.covers stored = true
      · simp only [hread,hcovers,if_true]
        refine writeSnapshotFile_replaces ?_
        simpa [textStored,hget,hread,Except.toOption] using hcovers
      · exact .inl (by simp [hread,hcovers])

theorem fileStore_neverRegresses (hcodec : KeepsVersions codec) :
    (fileStore codec).NeverRegresses :=
  .of_save fun files snapshotId snapshot _ _ hold =>
    (saveCommandStateSnapshot_replaces files snapshotId snapshot).covers hcodec hold

end File

section Sqlite

open FileStore.MergedSnapshots

variable {codec : SnapshotCodec Value Text}

/-- The rows of `eventcore_command_state_snapshots`, each with its `snapshot_data`. -/
abbrev SnapshotRows (Text : Type) := SnapshotFiles Text

def shouldSave (codec : SnapshotCodec Value Text) (snapshot : CommandStateSnapshot Value) :
    Option Text → Except EventStoreError Bool
  | some data =>
    match codec.fromStr data with
    | .error _ => .error (.storeFailure .appendEvents)
    | .ok current => .ok (snapshot.covers current)
  | none => .ok true

/-- `save_command_state_snapshot` of the SQLite store, in one transaction. -/
def sqliteSaveCommandStateSnapshot (codec : SnapshotCodec Value Text) (rows : SnapshotRows Text)
    (snapshotId : CommandStateSnapshotId) (snapshot : CommandStateSnapshot Value) :
    Except EventStoreError Unit × SnapshotRows Text :=
  match codec.toVec snapshot with
  | .error _ => (.error (.storeFailure .appendEvents),rows)
  | .ok serializedSnapshot =>
    match shouldSave codec snapshot (rows.get? snapshotId) with
    | .error e => (.error e,rows)
    | .ok true => (.ok (),rows.insert snapshotId serializedSnapshot)
    | .ok false => (.ok (),rows)

def sqliteStore (codec : SnapshotCodec Value Text) : SnapshotStore (SnapshotRows Text) Value where
  load := textStored codec
  save rows snapshotId snapshot := (sqliteSaveCommandStateSnapshot codec rows snapshotId snapshot).2

theorem shouldSave_covers {rows : SnapshotRows Text} {snapshotId : CommandStateSnapshotId}
    {snapshot : CommandStateSnapshot Value}
    (h : shouldSave codec snapshot (rows.get? snapshotId) = .ok true)
    {old : CommandStateSnapshot Value} (hold : textStored codec rows snapshotId = some old) :
    snapshot.covers old = true := by
  unfold textStored at hold
  cases hget : rows.get? snapshotId with
  | none => simp [hget] at hold
  | some data =>
    cases hread : codec.fromStr data with
    | error e => simp [hget,hread,Except.toOption] at hold
    | ok current =>
      simp only [hget,hread,Except.toOption,Option.bind_some,Option.some.injEq] at hold
      simpa [shouldSave,hget,hread,hold] using h

theorem sqliteSave_replaces (rows : SnapshotRows Text) (snapshotId : CommandStateSnapshotId)
    (snapshot : CommandStateSnapshot Value) :
    Replaces codec rows (sqliteSaveCommandStateSnapshot codec rows snapshotId snapshot).2 snapshotId
      snapshot := by
  unfold sqliteSaveCommandStateSnapshot
  cases hbody : codec.toVec snapshot with
  | error e => exact .inl rfl
  | ok body =>
    cases hsave : shouldSave codec snapshot (rows.get? snapshotId) with
    | error e => exact .inl rfl
    | ok decision =>
      cases decision with
      | false => exact .inl rfl
      | true => exact .inr ⟨body,hbody,rfl,fun _ hold => shouldSave_covers hsave hold⟩

theorem sqliteStore_neverRegresses (hcodec : KeepsVersions codec) :
    (sqliteStore codec).NeverRegresses :=
  .of_save fun rows snapshotId snapshot _ _ hold =>
    (sqliteSave_replaces rows snapshotId snapshot).covers hcodec hold

end Sqlite

section Postgres

/-- A row of `eventcore_command_state_snapshots`; the version vector is a `JSONB` object. -/
structure SnapshotRow (Value : Type) where
  state : Value
  streamVersions : HashMap StreamId StreamVersion
  replayCheckpoints : List (CommandStateReplayCheckpoint Value)

/-- The members of the `JSONB` object of a version vector. -/
def versionsJson (versions : HashMap StreamId StreamVersion) : List (String × ℕ) :=
  versions.entries.map fun p => (p.1.value,p.2)

/-- `::BIGINT` of a count written in decimal; one that is out of range fails the statement. -/
def bigint (n : ℕ) : Except EventStoreError ℕ :=
  if n < 2^63 then .ok n else .error (.storeFailure .appendEvents)

/-- `OR` of SQL, where `none` is `NULL`. -/
def sqlOr : Option Bool → Option Bool → Option Bool
  | some true, _ => some true
  | _, some true => some true
  | some false, some false => some false
  | _, _ => none

/-- `NOT (EXCLUDED.stream_versions ? current.stream_id)
OR (EXCLUDED.stream_versions ->> current.stream_id)::BIGINT < current.stream_version::BIGINT` -/
def regresses (excluded : List (String × ℕ)) (current : String × ℕ) :
    Except EventStoreError (Option Bool) := do
  let replacement ← match excluded.lookup current.1 with
    | some version => (bigint version).map some
    | none => .ok none
  let version ← bigint current.2
  .ok (sqlOr (some !(excluded.lookup current.1).isSome)
    (replacement.map fun replacement => decide (replacement < version)))

/-- `NOT EXISTS` over the members of the stored object: the first one that regresses decides. -/
def noneRegresses (excluded : List (String × ℕ)) : List (String × ℕ) → Except EventStoreError Bool
  | [] => .ok true
  | current :: rest => do
    if (← regresses excluded current) = some true then .ok false
    else noneRegresses excluded rest

def upsertPredicate (excluded stored : HashMap StreamId StreamVersion) :
    Except EventStoreError Bool :=
  noneRegresses (versionsJson excluded) (versionsJson stored)

/-- `save_command_state_snapshot` of the Postgres store: one upsert. -/
def postgresSaveCommandStateSnapshot (rows : HashMap CommandStateSnapshotId (SnapshotRow Value))
    (snapshotId : CommandStateSnapshotId) (snapshot : CommandStateSnapshot Value) :
    Except EventStoreError Unit × HashMap CommandStateSnapshotId (SnapshotRow Value) :=
  let excluded : SnapshotRow Value :=
    ⟨snapshot.state,snapshot.streamVersions,snapshot.replayCheckpoints⟩
  match rows.get? snapshotId with
  | none => (.ok (),rows.insert snapshotId excluded)
  | some current =>
    match upsertPredicate excluded.streamVersions current.streamVersions with
    | .error e => (.error e,rows)
    | .ok true => (.ok (),rows.insert snapshotId excluded)
    | .ok false => (.ok (),rows)

def postgresLoadCommandStateSnapshot
    (rows : HashMap CommandStateSnapshotId (SnapshotRow Value))
    (snapshotId : CommandStateSnapshotId) : Option (CommandStateSnapshot Value) :=
  (rows.get? snapshotId).map fun row => ⟨row.state,row.streamVersions,row.replayCheckpoints⟩

def postgresStore :
    SnapshotStore (HashMap CommandStateSnapshotId (SnapshotRow Value)) Value where
  load := postgresLoadCommandStateSnapshot
  save rows snapshotId snapshot := (postgresSaveCommandStateSnapshot rows snapshotId snapshot).2

theorem lookup_versionsJson (versions : HashMap StreamId StreamVersion) (s : StreamId) :
    (versionsJson versions).lookup s.value = versions.get? s := by
  obtain ⟨entries,hnodup⟩ := versions
  simp only [versionsJson,HashMap.get?,AList.lookup]
  clear hnodup
  induction entries with
  | nil => rfl
  | cons p entries ih =>
    obtain ⟨k,v⟩ := p
    by_cases hs : s = k
    · subst hs
      simp
    · have hvalue : (s.value == k.value) = false := by
        simpa using fun h => hs (StreamId.value_injective h)
      have hcons : List.dlookup s (⟨k,v⟩ :: entries) = entries.dlookup s :=
        List.dlookup_cons_ne entries (⟨k,v⟩ : Sigma fun _ : StreamId => StreamVersion) hs
      rw [hcons,List.map_cons,List.lookup_cons,hvalue,ih]

@[simp] theorem sqlOr_true (b : Option Bool) : sqlOr (some true) b = some true := rfl

theorem sqlOr_some (a b : Bool) : sqlOr (some a) (some b) = some (a || b) := by
  cases a <;> cases b <;> rfl

theorem bigint_of_lt {n : ℕ} (h : n < 2^63) : bigint n = .ok n := if_pos h

theorem bigint_eq_ok {n m : ℕ} (h : bigint n = .ok m) : m = n := by
  unfold bigint at h
  split_ifs at h
  exact (Except.ok.inj h).symm

def coversMember (excluded : HashMap StreamId StreamVersion) (s : StreamId) (v : StreamVersion) :
    Bool :=
  match excluded.get? s with
  | some current => decide (v ≤ current)
  | none => false

theorem regresses_eq_ok {excluded : HashMap StreamId StreamVersion} {s : StreamId}
    {v : StreamVersion} {answer : Option Bool}
    (h : regresses (versionsJson excluded) (s.value,v) = .ok answer) :
    answer = some (!coversMember excluded s v) := by
  unfold regresses at h
  rw [lookup_versionsJson] at h
  unfold coversMember
  cases hversion : bigint v with
  | error e =>
    cases hget : excluded.get? s with
    | none => simp [hget,hversion,bind,Except.bind] at h
    | some current =>
      cases hcurrent : bigint current <;>
        simp [hget,hversion,hcurrent,bind,Except.bind,Except.map] at h
  | ok version =>
    obtain rfl := bigint_eq_ok hversion
    cases hget : excluded.get? s with
    | none => simpa [hget,hversion,bind,Except.bind,eq_comm] using h
    | some current =>
      cases hcurrent : bigint current with
      | error e => simp [hget,hcurrent,bind,Except.bind,Except.map] at h
      | ok replacement =>
        obtain rfl := bigint_eq_ok hcurrent
        simp only [hget,hversion,hcurrent,bind,Except.bind,Except.map,Option.isSome_some,
          Bool.not_true,Option.map_some,sqlOr_some,Bool.false_or,Except.ok.injEq] at h
        rw [← h,← decide_not]
        simp only [Nat.not_le]

theorem regresses_isOk {excluded : HashMap StreamId StreamVersion}
    (hexcluded : ∀ s v, excluded.get? s = some v → v < 2^63) (s : StreamId) {v : StreamVersion}
    (hv : v < 2^63) : ∃ answer, regresses (versionsJson excluded) (s.value,v) = .ok answer := by
  unfold regresses
  rw [lookup_versionsJson,bigint_of_lt hv]
  cases hget : excluded.get? s with
  | none => exact ⟨_,rfl⟩
  | some current =>
    simp only [bigint_of_lt (hexcluded s current hget)]
    exact ⟨_,rfl⟩

theorem noneRegresses_eq_ok {excluded : HashMap StreamId StreamVersion}
    {entries : List (Sigma fun _ : StreamId => StreamVersion)} {accepts : Bool}
    (h : noneRegresses (versionsJson excluded) (entries.map fun p => (p.1.value,p.2)) =
      .ok accepts) :
    accepts = entries.all fun p => coversMember excluded p.1 p.2 := by
  induction entries with
  | nil => simpa [noneRegresses] using h.symm
  | cons p entries ih =>
    cases hp : regresses (versionsJson excluded) (p.1.value,p.2) with
    | error e => simp [noneRegresses,hp,bind,Except.bind] at h
    | ok answer =>
      have hanswer := regresses_eq_ok hp
      cases hmember : coversMember excluded p.1 p.2 with
      | false => simpa [noneRegresses,hp,hanswer,hmember,bind,Except.bind,eq_comm] using h
      | true =>
        simp only [List.map_cons,noneRegresses,hp,hanswer,hmember,bind,Except.bind] at h
        simpa [hmember] using ih (by simpa using h)

theorem noneRegresses_isOk {excluded : HashMap StreamId StreamVersion}
    (hexcluded : ∀ s v, excluded.get? s = some v → v < 2^63)
    {entries : List (Sigma fun _ : StreamId => StreamVersion)} (hentries : ∀ p ∈ entries, p.2 < 2^63) :
    ∃ accepts, noneRegresses (versionsJson excluded) (entries.map fun p => (p.1.value,p.2)) =
      .ok accepts := by
  induction entries with
  | nil => exact ⟨true,rfl⟩
  | cons p entries ih =>
    obtain ⟨answer,hp⟩ := regresses_isOk hexcluded p.1 (hentries p List.mem_cons_self)
    obtain ⟨accepts,hrest⟩ := ih fun q hq => hentries q (List.mem_cons_of_mem _ hq)
    simp only [List.map_cons,noneRegresses,hp,bind,Except.bind]
    split_ifs
    · exact ⟨false,rfl⟩
    · exact ⟨accepts,hrest⟩

/-- The predicate of the upsert accepts what covers the stored vector, unless it fails. -/
theorem upsertPredicate_eq_ok {snapshot stored : CommandStateSnapshot Value} {accepts : Bool}
    (h : upsertPredicate snapshot.streamVersions stored.streamVersions = .ok accepts) :
    accepts = snapshot.covers stored :=
  noneRegresses_eq_ok h

/-- With counts below `2^63` it does not fail. -/
theorem upsertPredicate_eq_covers {snapshot stored : CommandStateSnapshot Value}
    (hsnapshot : ∀ s v, snapshot.streamVersions.get? s = some v → v < 2^63)
    (hstored : ∀ s v, stored.streamVersions.get? s = some v → v < 2^63) :
    upsertPredicate snapshot.streamVersions stored.streamVersions =
      .ok (snapshot.covers stored) := by
  have hentries : ∀ p ∈ stored.streamVersions.entries, p.2 < 2^63 := fun p hp =>
    hstored p.1 p.2 (HashMap.mem_entries_iff.mp hp)
  obtain ⟨accepts,haccepts⟩ := noneRegresses_isOk hsnapshot hentries
  have hupsert : upsertPredicate snapshot.streamVersions stored.streamVersions = .ok accepts :=
    haccepts
  rw [hupsert,upsertPredicate_eq_ok hupsert]

theorem postgresStore_neverRegresses :
    (postgresStore : SnapshotStore (HashMap CommandStateSnapshotId (SnapshotRow Value))
      Value).NeverRegresses := by
  refine .of_save fun rows snapshotId snapshot id old hold => ?_
  simp only [postgresStore,postgresLoadCommandStateSnapshot,
    postgresSaveCommandStateSnapshot] at hold ⊢
  by_cases hid : id = snapshotId
  · subst hid
    obtain ⟨current,hget,rfl⟩ := Option.map_eq_some_iff.mp hold
    simp only [hget]
    cases hupsert : upsertPredicate snapshot.streamVersions current.streamVersions with
    | error e => exact ⟨_,by simpa using hold,covers_refl _⟩
    | ok accepts =>
      cases accepts with
      | false => exact ⟨_,by simpa using hold,covers_refl _⟩
      | true =>
        have hcovers : true = snapshot.covers
            ⟨current.state,current.streamVersions,current.replayCheckpoints⟩ :=
          upsertPredicate_eq_ok hupsert
        exact ⟨snapshot,by simp,hcovers.symm⟩
  · refine ⟨old,?_,covers_refl old⟩
    split
    · simpa [hid] using hold
    · split <;> simpa [hid] using hold

end Postgres

open FileStore.MergedSnapshots in
/-- Whatever is saved in whatever order, no store goes back behind a version vector that it has
held, and the SQL predicate of the Postgres store is `covers`. -/
theorem stored_snapshots_never_regress {codec : SnapshotCodec Value Text}
    (hcodec : KeepsVersions codec) :
    (∀ a : CommandStateSnapshot Value, a.covers a = true) ∧
    (∀ a b c : CommandStateSnapshot Value, a.covers b = true → b.covers c = true →
      a.covers c = true) ∧
    (memoryStore : SnapshotStore (MemoryStore.StoreData Any Raw Value) Value).NeverRegresses ∧
    (fileStore codec).NeverRegresses ∧ (sqliteStore codec).NeverRegresses ∧
    (postgresStore : SnapshotStore (HashMap CommandStateSnapshotId (SnapshotRow Value))
      Value).NeverRegresses ∧
    ∀ snapshot stored : CommandStateSnapshot Value,
      (∀ s v, snapshot.streamVersions.get? s = some v → v < 2^63) →
      (∀ s v, stored.streamVersions.get? s = some v → v < 2^63) →
      upsertPredicate snapshot.streamVersions stored.streamVersions =
        .ok (snapshot.covers stored) :=
  ⟨covers_refl,fun _ _ _ => covers_trans,memoryStore_neverRegresses,
    fileStore_neverRegresses hcodec,sqliteStore_neverRegresses hcodec,
    postgresStore_neverRegresses,fun _ _ => upsertPredicate_eq_covers⟩

def balanceId : CommandStateSnapshotId := ⟨"balance",by decide,by decide,by decide⟩

def balanceAt (version : StreamVersion) : CommandStateSnapshot ℕ :=
  ⟨5,(∅ : HashMap StreamId StreamVersion).insert Sample.account version,[]⟩

theorem balanceAt_small {n : StreamVersion} (hn : n < 2^63) :
    ∀ s v, (balanceAt n).streamVersions.get? s = some v → v < 2^63 := by
  intro s v hv
  simp only [balanceAt,HashMap.get?_insert,HashMap.get?_empty] at hv
  split_ifs at hv
  exact Option.some.inj hv ▸ hn

def plainCodec : FileStore.MergedSnapshots.SnapshotCodec ℕ (CommandStateSnapshot ℕ) :=
  ⟨.ok,.ok⟩

/-- A stale snapshot is saved after a newer one. -/
theorem stored_snapshots_never_regress_balance :
    (∃ new, (fileStore plainCodec).load
        ((fileStore plainCodec).saves ∅ [(balanceId,balanceAt 7),(balanceId,balanceAt 3)])
        balanceId = some new ∧ new.covers (balanceAt 7) = true) ∧
      upsertPredicate (balanceAt 3).streamVersions (balanceAt 7).streamVersions =
        .ok ((balanceAt 3).covers (balanceAt 7)) := by
  have hkeeps : KeepsVersions plainCodec := fun snapshot _ h =>
    ⟨snapshot,congrArg Except.ok (Except.ok.inj h).symm,rfl⟩
  obtain ⟨-,-,-,hfile,-,-,hupsert⟩ :=
    @stored_snapshots_never_regress ℕ ℕ ℕ (CommandStateSnapshot ℕ) plainCodec hkeeps
  exact ⟨hfile ∅ [(balanceId,balanceAt 7)] [(balanceId,balanceAt 3)] balanceId (balanceAt 7) rfl,
    hupsert (balanceAt 3) (balanceAt 7) (balanceAt_small (by decide))
      (balanceAt_small (by decide))⟩

end SnapshotStores
end EventCore
