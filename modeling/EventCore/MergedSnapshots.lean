import EventCore.Replicas
import EventCore.SnapshotEquivalence

/-! Command-state snapshots over a file store whose directory takes in the files of other
working copies. A snapshot counts events; what the count denotes can change when the read
model is rebuilt from a merged directory. -/
namespace EventCore
namespace FileStore
namespace MergedSnapshots
open SnapshotReplay

variable {Any Raw Value Text E S : Type}

/-- `serde_json::to_vec` and `from_str` of a snapshot file. -/
structure SnapshotCodec (Value Text : Type) where
  toVec : CommandStateSnapshot Value → Except String Text
  fromStr : Text → Except String (CommandStateSnapshot Value)

/-- The snapshot files of one working copy, each named after its identifier. -/
abbrev SnapshotFiles (Text : Type) := HashMap CommandStateSnapshotId Text

def loadCommandStateSnapshot (codec : SnapshotCodec Value Text) (files : SnapshotFiles Text)
    (snapshotId : CommandStateSnapshotId) :
    Except EventStoreError (Option (CommandStateSnapshot Value)) :=
  match files.get? snapshotId with
  | none => .ok none
  | some contents =>
    match codec.fromStr contents with
    | .error _ => .error (.storeFailure .readStream)
    | .ok snapshot => .ok (some snapshot)

def writeSnapshotFile (codec : SnapshotCodec Value Text) (files : SnapshotFiles Text)
    (snapshotId : CommandStateSnapshotId) (snapshot : CommandStateSnapshot Value) :
    Except EventStoreError Unit × SnapshotFiles Text :=
  match codec.toVec snapshot with
  | .error _ => (.error (.storeFailure .appendEvents),files)
  | .ok body => (.ok (),files.insert snapshotId body)

def saveCommandStateSnapshot (codec : SnapshotCodec Value Text) (files : SnapshotFiles Text)
    (snapshotId : CommandStateSnapshotId) (snapshot : CommandStateSnapshot Value) :
    Except EventStoreError Unit × SnapshotFiles Text :=
  match files.get? snapshotId with
  | none => writeSnapshotFile codec files snapshotId snapshot
  | some contents =>
    match codec.fromStr contents with
    | .error _ => (.error (.storeFailure .appendEvents),files)
    | .ok stored =>
      if snapshot.covers stored then writeSnapshotFile codec files snapshotId snapshot
      else (.ok (),files)

/-- A command that opted into snapshots, with the formats of its events and snapshots. -/
structure Setup (Any Raw Value Text E S : Type) where
  command : CommandLogic Any Raw Value E S
  snapshotId : CommandStateSnapshotId
  optedIn : command.commandStateSnapshotId = some snapshotId
  form : ValueForm Value E
  codec : SnapshotCodec Value Text
  parse : Raw → Option Value

/-- An open store, its snapshot files, and the snapshots that runs of the command have emitted
but not saved yet. -/
structure Workspace (Value Text : Type) where
  store : FileEventStore Value
  snapshots : SnapshotFiles Text
  unsaved : List (CommandStateSnapshot Value)

inductive Label (Any Raw Value E : Type)
  | append (writes : StreamWrites Any Raw) (stamp : Stamp)
  | reconcile (form : ValueForm Value E) (resolver : ForkContext E → ResolutionOutcome E)
      (stamp : ℕ → Stamp)
  | union (theirs : List (Transaction Value))
  | reopen
  | reconstruct (fuel : ℕ)
  | save (n : ℕ)
  | saveOther (snapshotId : CommandStateSnapshotId) (snapshot : CommandStateSnapshot Value)

variable (setup : Setup Any Raw Value Text E S)

def contents (w : Workspace Value Text) : Contents E := readStream setup.form w.store

def load (w : Workspace Value Text) :
    Except EventStoreError (Option (CommandStateSnapshot Value)) :=
  loadCommandStateSnapshot setup.codec w.snapshots setup.snapshotId

/-- Reconstruction of the command state through what is stored. -/
def reconstruct (w : Workspace Value Text) (stored : Option (CommandStateSnapshot Value))
    (fuel : ℕ) : Except Stop (Reconstruction Value S) :=
  reconstructCommandSnapshot setup.command (contents setup w) fuel
    setup.command.streamDeclarations.streams stored

/-- Reconstruction of the command state from the default state. -/
def fullReplay (w : Workspace Value Text) (fuel : ℕ) : Except Stop (ReplayProgress Value S) :=
  replayRemainingStreams setup.command (contents setup w) fuel
    (initialProgress setup.command setup.command.streamDeclarations.streams)

def step (w : Workspace Value Text) : Label Any Raw Value E → Option (Workspace Value Text)
  | .append writes stamp =>
    some { w with store := (appendEvents setup.parse w.store stamp writes).2 }
  | .reconcile form resolver stamp =>
    some { w with store := (reconcile form resolver stamp w.store).2 }
  | .union theirs =>
    some { w with store := { w.store with files := unionFiles w.store.files theirs } }
  -- no run outlives the store that it has borrowed
  | .reopen => some { w with store := w.store.reopen, unsaved := [] }
  | .reconstruct fuel =>
    match load setup w with
    | .error _ => some w
    | .ok stored =>
      match reconstruct setup w stored fuel with
      | .error _ => some w
      | .ok result => some { w with unsaved := w.unsaved ++ result.snapshot.toList }
  | .save n =>
    match w.unsaved[n]? with
    | none => none
    | some snapshot => some
        { w with
          snapshots :=
            (saveCommandStateSnapshot setup.codec w.snapshots setup.snapshotId snapshot).2
          unsaved := w.unsaved.eraseIdx n }
  | .saveOther snapshotId snapshot =>
    if snapshotId = setup.snapshotId then none
    else some
      { w with
        snapshots := (saveCommandStateSnapshot setup.codec w.snapshots snapshotId snapshot).2 }

/-- A new store without snapshots. -/
def system : Runs.System (Workspace Value Text) (Label Any Raw Value E) where
  init w := ∃ replicaId, w = ⟨.create replicaId,∅,[]⟩
  step := step setup

/-- The snapshot that a run will find. -/
def found (w : Workspace Value Text) : List (CommandStateSnapshot Value) :=
  match load setup w with
  | .error _ => []
  | .ok stored => stored.toList

/-- A reopen reads the events that the stored snapshot counts of a stream first, as before. -/
def CountedStay (w : Workspace Value Text) : Prop :=
  ∀ snapshot ∈ found setup w, ∀ checkpoint ∈ snapshot.replayCheckpoints,
    ∀ version ∈ checkpoint.streamVersions.get? checkpoint.streamId,
      (readStream setup.form w.store.reopen checkpoint.streamId).take version =
        (readStream setup.form w.store checkpoint.streamId).take version

def KeepsCounted (w : Workspace Value Text) : Label Any Raw Value E → Prop
  | .reopen => CountedStay setup w
  | _ => True

instance [DecidableEq E] (w : Workspace Value Text) : Decidable (CountedStay setup w) := by
  unfold CountedStay; infer_instance

instance [DecidableEq E] (w : Workspace Value Text) :
    ∀ l : Label Any Raw Value E, Decidable (KeepsCounted setup w l)
  | .reopen => inferInstanceAs (Decidable (CountedStay setup w))
  | .append .. | .reconcile .. | .union _ => isTrue trivial
  | .reconstruct _ | .save _ | .saveOther .. => isTrue trivial

/-- Through whatever is stored, the command gets the state and the expected versions, or the
error, of a full replay of the current streams. -/
def MatchesFullReplay (w : Workspace Value Text) : Prop :=
  ∃ stored, load setup w = .ok stored ∧
    ∀ result, Returns (fun fuel => (reconstruct setup w stored fuel).map Reconstruction.result)
        result ↔
      Returns (fun fuel => (fullReplay setup w fuel).map ReplayProgress.result) result

/-- The states of a snapshot are serialized states of the command. -/
def Serialized (command : CommandLogic Any Raw Value E S) (snapshot : CommandStateSnapshot Value) :
    Prop :=
  (∃ state, command.serializeCommandStateSnapshot state = .ok snapshot.state) ∧
  ∀ checkpoint ∈ snapshot.replayCheckpoints,
    ∃ state, command.serializeCommandStateSnapshot state = .ok checkpoint.state

/-- A snapshot file reads back as the snapshot it was written from. -/
def ReadsBack : Prop :=
  ∀ snapshot body, Serialized setup.command snapshot → setup.codec.toVec snapshot = .ok body →
    setup.codec.fromStr body = .ok snapshot

section Counted

variable {command : CommandLogic Any Raw Value E S} {contents : Contents E}

/-- The snapshot records a full replay whose events are still the first ones of their streams. -/
def CountsPrefix (command : CommandLogic Any Raw Value E S) (contents : Contents E)
    (snapshot : CommandStateSnapshot Value) : Prop :=
  ∃ earlier, Recorded command earlier snapshot ∧
    ∀ checkpoint ∈ snapshot.replayCheckpoints,
      earlier checkpoint.streamId <+: contents checkpoint.streamId

theorem CountsPrefix.serialized {snapshot : CommandStateSnapshot Value}
    (h : CountsPrefix command contents snapshot) : Serialized command snapshot := by
  obtain ⟨earlier,hrec,_⟩ := h
  obtain ⟨last,hreplays,hcap⟩ := hrec.replays
  exact ⟨⟨last.state,hcap.state⟩,fun checkpoint hmem => (hreplays.checkpoints checkpoint hmem).1⟩

theorem CountsPrefix.grow {snapshot : CommandStateSnapshot Value} {contents' : Contents E}
    (h : CountsPrefix command contents snapshot) (hgrow : Extends contents contents') :
    CountsPrefix command contents' snapshot := by
  obtain ⟨earlier,hrec,hpre⟩ := h
  exact ⟨earlier,hrec,fun checkpoint hmem =>
    (hpre checkpoint hmem).trans (hgrow checkpoint.streamId)⟩

theorem CountsPrefix.rebuild {snapshot : CommandStateSnapshot Value} {contents' : Contents E}
    (h : CountsPrefix command contents snapshot)
    (hstay : ∀ checkpoint ∈ snapshot.replayCheckpoints,
      ∀ version ∈ checkpoint.streamVersions.get? checkpoint.streamId,
        (contents' checkpoint.streamId).take version = (contents checkpoint.streamId).take version) :
    CountsPrefix command contents' snapshot := by
  obtain ⟨earlier,hrec,hpre⟩ := h
  refine ⟨earlier,hrec,fun checkpoint hmem => ?_⟩
  obtain ⟨last,hreplays,_⟩ := hrec.replays
  have hversion := (hreplays.checkpoints checkpoint hmem).2
  have hold : earlier checkpoint.streamId =
      (contents checkpoint.streamId).take (earlier checkpoint.streamId).length :=
    List.prefix_iff_eq_take.mp (hpre checkpoint hmem)
  rw [hold,← hstay checkpoint hmem _ hversion]
  exact List.take_prefix _ _

theorem CountsPrefix.agrees (hround : RoundTrips command) {snapshot : CommandStateSnapshot Value}
    (h : CountsPrefix command contents snapshot) :
    Agrees command
      (fun fuel => reconstructCommandSnapshot command contents fuel
        command.streamDeclarations.streams (some snapshot))
      (fun fuel => replayRemainingStreams command contents fuel
        (initialProgress command command.streamDeclarations.streams)) := by
  obtain ⟨earlier,hrec,hpre⟩ := h
  exact reconstruct_agrees_of_recorded hround hrec hpre

end Counted

section Grow

variable {form : ValueForm Value E} {parse : Raw → Option Value}

theorem readStream_commit (form : ValueForm Value E) (store : FileEventStore Value)
    (t : Transaction Value) (tips : Headers → List Uuid) :
    Extends (readStream form store) (readStream form (store.commit t tips)) := by
  intro s
  rw [readStream,readStream,commit_streamEvents,List.map_append]
  exact List.prefix_append _ _

theorem readStream_appendEvents (store : FileEventStore Value) (stamp : Stamp)
    (writes : StreamWrites Any Raw) : Extends (readStream form store)
      (readStream form (appendEvents parse store stamp writes).2) := by
  rcases appendEvents_store parse store stamp writes with hrun | ⟨t,_,hrun⟩
  · rw [hrun]
    exact fun _ => List.prefix_rfl
  · rw [hrun]
    exact readStream_commit form store t _

theorem readStream_reconcile {F : Type} (mergeForm : ValueForm Value F)
    (resolver : ForkContext F → ResolutionOutcome F) (stamp : ℕ → Stamp)
    (store : FileEventStore Value) : Extends (readStream form store)
      (readStream form (reconcile mergeForm resolver stamp store).2) :=
  reconcile_induct (P := fun merged => Extends (readStream form store) (readStream form merged))
    (fun merged t h s => (h s).trans (readStream_commit form merged t computeTips s)) mergeForm
    resolver stamp fun _ => List.prefix_rfl

end Grow

section Invariant

variable {setup : Setup Any Raw Value Text E S}

/-- What is stored loads, and every snapshot counts the first events of its streams. -/
structure Inv (setup : Setup Any Raw Value Text E S) (w : Workspace Value Text) :
    Prop where
  loads : ∃ stored, load setup w = .ok stored
  counted : ∀ snapshot ∈ found setup w ++ w.unsaved,
    CountsPrefix setup.command (contents setup w) snapshot

theorem mem_found {w : Workspace Value Text} {stored : Option (CommandStateSnapshot Value)}
    (hload : load setup w = .ok stored) {snapshot : CommandStateSnapshot Value} :
    snapshot ∈ found setup w ++ w.unsaved ↔ stored = some snapshot ∨ snapshot ∈ w.unsaved := by
  simp [found,hload,Option.mem_toList]

theorem Inv.counted_stored {w : Workspace Value Text} (h : Inv setup w)
    {stored : Option (CommandStateSnapshot Value)} (hload : load setup w = .ok stored)
    {snapshot : CommandStateSnapshot Value} (hstored : stored = some snapshot) :
    CountsPrefix setup.command (contents setup w) snapshot :=
  h.counted snapshot ((mem_found hload).mpr (.inl hstored))

theorem Inv.counted_unsaved {w : Workspace Value Text} (h : Inv setup w)
    {snapshot : CommandStateSnapshot Value} (hmem : snapshot ∈ w.unsaved) :
    CountsPrefix setup.command (contents setup w) snapshot := by
  obtain ⟨stored,hload⟩ := h.loads
  exact h.counted snapshot ((mem_found hload).mpr (.inr hmem))

theorem inv_of_counted {w : Workspace Value Text} {stored : Option (CommandStateSnapshot Value)}
    (hload : load setup w = .ok stored)
    (hstored : ∀ snapshot, stored = some snapshot →
      CountsPrefix setup.command (contents setup w) snapshot)
    (hunsaved : ∀ snapshot ∈ w.unsaved,
      CountsPrefix setup.command (contents setup w) snapshot) : Inv setup w := by
  refine ⟨⟨stored,hload⟩,fun snapshot hmem => ?_⟩
  rcases (mem_found hload).mp hmem with hold | hnew
  · exact hstored snapshot hold
  · exact hunsaved snapshot hnew

theorem Inv.agrees (hround : RoundTrips setup.command) {w : Workspace Value Text}
    (h : Inv setup w) {stored : Option (CommandStateSnapshot Value)}
    (hload : load setup w = .ok stored) :
    Agrees setup.command (reconstruct setup w stored) (fullReplay setup w) := by
  cases stored with
  | none => exact reconstructInFull_agrees
  | some snapshot => exact (h.counted_stored hload rfl).agrees hround

theorem save_cases (codec : SnapshotCodec Value Text) (files : SnapshotFiles Text)
    (snapshotId : CommandStateSnapshotId) (snapshot : CommandStateSnapshot Value) :
    (saveCommandStateSnapshot codec files snapshotId snapshot).2 = files ∨
    ∃ body, codec.toVec snapshot = .ok body ∧
      (saveCommandStateSnapshot codec files snapshotId snapshot).2 =
        files.insert snapshotId body := by
  have hwrite : (writeSnapshotFile codec files snapshotId snapshot).2 = files ∨
      ∃ body, codec.toVec snapshot = .ok body ∧
        (writeSnapshotFile codec files snapshotId snapshot).2 = files.insert snapshotId body := by
    unfold writeSnapshotFile
    cases codec.toVec snapshot with
    | error e => exact .inl rfl
    | ok body => exact .inr ⟨body,rfl,rfl⟩
  unfold saveCommandStateSnapshot
  cases hget : files.get? snapshotId with
  | none => exact hwrite
  | some contents =>
    cases hread : codec.fromStr contents with
    | error e => simp [hread]
    | ok stored =>
      by_cases hcovers : snapshot.covers stored = true
      · simpa [hread,hcovers] using hwrite
      · simp [hread,hcovers]

theorem Inv.grow {w : Workspace Value Text} (h : Inv setup w) {store : FileEventStore Value}
    (hgrow : Extends (readStream setup.form w.store) (readStream setup.form store)) :
    Inv setup { w with store := store } :=
  ⟨h.loads,fun snapshot hmem => (h.counted snapshot hmem).grow hgrow⟩

theorem inv_reconstruct (hround : RoundTrips setup.command) {w : Workspace Value Text}
    (h : Inv setup w) {stored : Option (CommandStateSnapshot Value)}
    (hload : load setup w = .ok stored) {fuel : ℕ} {result : Reconstruction Value S}
    (hrun : reconstruct setup w stored fuel = .ok result) :
    Inv setup { w with unsaved := w.unsaved ++ result.snapshot.toList } := by
  refine inv_of_counted hload (fun _ => h.counted_stored hload) ?_
  intro snapshot hmem
  rcases List.mem_append.mp hmem with hold | hnew
  · exact h.counted_unsaved hold
  · exact ⟨_,(h.agrees hround hload).emits fuel result snapshot hrun (Option.mem_toList.mp hnew),
      fun _ _ => List.prefix_rfl⟩

theorem inv_save (hback : ReadsBack setup) {w : Workspace Value Text} (h : Inv setup w) {n : ℕ}
    {snapshot : CommandStateSnapshot Value} (hget : w.unsaved[n]? = some snapshot) :
    Inv setup
      { w with
        snapshots :=
          (saveCommandStateSnapshot setup.codec w.snapshots setup.snapshotId snapshot).2
        unsaved := w.unsaved.eraseIdx n } := by
  have hcounts := h.counted_unsaved (List.mem_of_getElem? hget)
  have hrest : ∀ other ∈ w.unsaved.eraseIdx n,
      CountsPrefix setup.command (contents setup w) other :=
    fun other hmem => h.counted_unsaved (List.mem_of_mem_eraseIdx hmem)
  rcases save_cases setup.codec w.snapshots setup.snapshotId snapshot with
    hsame | ⟨body,hbody,hsaved⟩
  · rw [hsame]
    obtain ⟨stored,hload⟩ := h.loads
    exact inv_of_counted hload (fun _ => h.counted_stored hload) hrest
  · rw [hsaved]
    have hload : load setup { w with
        snapshots := w.snapshots.insert setup.snapshotId body
        unsaved := w.unsaved.eraseIdx n } = .ok (some snapshot) := by
      simp [load,loadCommandStateSnapshot,
        hback snapshot body hcounts.serialized hbody]
    refine inv_of_counted hload ?_ hrest
    rintro _ ⟨⟩
    exact hcounts

theorem inv_step (hround : RoundTrips setup.command) (hback : ReadsBack setup)
    {w w' : Workspace Value Text} {l : Label Any Raw Value E} (h : Inv setup w)
    (hkeeps : KeepsCounted setup w l) (hstep : step setup w l = some w') : Inv setup w' := by
  cases l with
  | append writes stamp =>
    obtain rfl := Option.some.inj hstep
    exact h.grow (readStream_appendEvents w.store stamp writes)
  | reconcile form resolver stamp =>
    obtain rfl := Option.some.inj hstep
    exact h.grow (readStream_reconcile form resolver stamp w.store)
  | union theirs =>
    obtain rfl := Option.some.inj hstep
    exact h.grow fun _ => List.prefix_rfl
  | reopen =>
    obtain rfl := Option.some.inj hstep
    obtain ⟨stored,hload⟩ := h.loads
    refine inv_of_counted hload (fun snapshot hstored => ?_) (by simp)
    have hfound : snapshot ∈ found setup w := by simp [found,hload,hstored]
    exact (h.counted_stored hload hstored).rebuild (hkeeps snapshot hfound)
  | reconstruct fuel =>
    simp only [step] at hstep
    obtain ⟨stored,hload⟩ := h.loads
    simp only [hload] at hstep
    cases hrun : reconstruct setup w stored fuel with
    | error e =>
      simp only [hrun,Option.some.injEq] at hstep
      exact hstep ▸ h
    | ok result =>
      simp only [hrun,Option.some.injEq] at hstep
      exact hstep ▸ inv_reconstruct hround h hload hrun
  | save n =>
    simp only [step] at hstep
    cases hget : w.unsaved[n]? with
    | none => simp [hget] at hstep
    | some snapshot =>
      simp only [hget,Option.some.injEq] at hstep
      exact hstep ▸ inv_save hback h hget
  | saveOther snapshotId snapshot =>
    simp only [step] at hstep
    split_ifs at hstep with hne
    rw [← Option.some.inj hstep]
    have hsame : load setup
        { w with
          snapshots := (saveCommandStateSnapshot setup.codec w.snapshots snapshotId snapshot).2 } =
          load setup w := by
      unfold load loadCommandStateSnapshot
      rcases save_cases setup.codec w.snapshots snapshotId snapshot with hkept | ⟨body,_,hsaved⟩
      · rw [hkept]
      · rw [hsaved,HashMap.get?_insert_ne _ _ (Ne.symm hne)]
    refine ⟨hsame ▸ h.loads,fun other hmem => h.counted other ?_⟩
    unfold found at hmem ⊢
    rwa [hsame] at hmem

theorem inv_of_reachable (hround : RoundTrips setup.command) (hback : ReadsBack setup)
    {w : Workspace Value Text} (h : Runs.ReachableBy (system setup) (KeepsCounted setup) w) :
    Inv setup w := by
  refine Runs.ReachableBy.invariant ?_ (fun w l w' => inv_step hround hback) h
  rintro w ⟨replicaId,rfl⟩
  have hload : load setup ⟨.create replicaId,∅,[]⟩ = .ok none := rfl
  exact inv_of_counted hload (by simp) (by simp)

end Invariant

section Scenarios
open TwoCopies

def balanceId : CommandStateSnapshotId := ⟨"balance/account-1",by decide,by decide,by decide⟩

/-- The balance of one account, with snapshot files that hold the snapshots themselves. -/
def balance : Setup ℕ ℕ ℕ (CommandStateSnapshot ℕ) ℕ ℕ where
  command := { Sample.topUp with commandStateSnapshotId := some balanceId }
  snapshotId := balanceId
  optedIn := rfl
  form := deposits
  codec := ⟨.ok,.ok⟩
  parse := some

theorem balance_roundTrips : RoundTrips balance.command := fun _ _ h => by cases h; rfl

theorem balance_readsBack : ReadsBack balance := fun _ _ _ h => by cases h; rfl

def hundredDeposits : StreamWrites ℕ ℕ where
  entries := List.replicate 100 ⟨account1,1,"Deposited",1⟩
  expectedVersions := AList.insert account1 0 ∅
  declared := by
    intro e he
    rw [List.eq_of_mem_replicate he]
    exact (AList.mem_insert _).mpr (.inl rfl)

def emptyWorkspace : Workspace ℕ (CommandStateSnapshot ℕ) := ⟨.create 1,∅,[]⟩

/-- The directory of another working copy after its first append. -/
def theirFiles (stamp : Stamp) : List (Transaction ℕ) :=
  (appendEvents some (.create 2) stamp openOne).2.files

/-- A snapshot of a hundred deposits is saved before the directory takes in the deposit of another
copy. The stamps decide which of the two concurrent transactions comes first. -/
def saveThenMerge (mine theirs : Stamp) : List (Label ℕ ℕ ℕ ℕ) :=
  [.append hundredDeposits mine,.reconstruct 1,.save 0,.union (theirFiles theirs),.reopen]

def dayBefore (stamp : Stamp) : Stamp := { stamp with createdAt := "2024-04-30T12:00:00+00:00" }

/-- The states a run of the command gets, through what is stored and by full replay. -/
def states (w : Workspace ℕ (CommandStateSnapshot ℕ)) : Option (ℕ × ℕ) :=
  match load balance w with
  | .error _ => none
  | .ok stored =>
    match reconstruct balance w stored 1, fullReplay balance w 1 with
    | .ok result, .ok replay => some (result.state,replay.state)
    | _, _ => none

end Scenarios

end MergedSnapshots
end FileStore
end EventCore
