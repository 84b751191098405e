import EventCore.SnapshotReplay

/-! Reconstruction through a stored projection agrees with full replay, and every
projection it emits records a full replay of the contents it was emitted on. -/
namespace EventCore
namespace SnapshotReplay

/-- With enough fuel, `f` ends with `r`. -/
def Returns {α : Type} (f : ℕ → Except Stop α) (r : Except Stop α) : Prop :=
  r ≠ .error .outOfFuel ∧ ∃ fuel, f fuel = r

theorem returns_succ_iff {α : Type} {f g : ℕ → Except Stop α}
    (hzero : f 0 = .error .outOfFuel) (hsucc : ∀ fuel, f (fuel+1) = g fuel) {r : Except Stop α} :
    Returns f r ↔ Returns g r := by
  constructor
  · rintro ⟨hr,fuel,hf⟩
    cases fuel with
    | zero => exact absurd (hf.symm.trans hzero) hr
    | succ fuel => exact ⟨hr,fuel,(hsucc fuel).symm.trans hf⟩
  · rintro ⟨hr,fuel,hg⟩
    exact ⟨hr,fuel+1,(hsucc fuel).trans hg⟩

variable {Any Raw Value E S : Type}

abbrev Contents (E : Type) := StreamId → List (Except EventStoreError E)

def ReplayProgress.result (replay : ReplayProgress Value S) :
    S × HashMap StreamId StreamVersion := (replay.state,replay.expectedVersions)

def Reconstruction.result (r : Reconstruction Value S) : S × HashMap StreamId StreamVersion :=
  (r.state,r.expectedVersions)

def RoundTrips (command : CommandLogic Any Raw Value E S) : Prop :=
  ∀ state value, command.serializeCommandStateSnapshot state = .ok value →
    command.deserializeCommandStateSnapshot value = .ok state

section Discovery

/-- What queueing new streams can do: the queue gains only unscheduled streams, without
repetition, and all queued streams are scheduled. -/
theorem enqueueNew_spec {streams queue queue' : List StreamId} {scheduled scheduled' : Finset StreamId}
    (hnodup : queue.Nodup) (hsched : ∀ s ∈ queue, s ∈ scheduled)
    (h : enqueueNew streams queue scheduled = (queue',scheduled')) :
    queue'.Nodup ∧ (∀ s ∈ queue', s ∈ queue ∨ s ∉ scheduled) ∧ scheduled ⊆ scheduled' ∧
    ∀ s ∈ queue', s ∈ scheduled' := by
  induction streams generalizing queue scheduled with
  | nil =>
    simp only [enqueueNew,Prod.mk.injEq] at h
    obtain ⟨rfl,rfl⟩ := h
    exact ⟨hnodup,fun s hs => .inl hs,subset_rfl,hsched⟩
  | cons stream streams ih =>
    unfold enqueueNew at h
    split_ifs at h with hmem
    · exact ih hnodup hsched h
    · have hnodup' : (queue ++ [stream]).Nodup :=
        List.Nodup.append hnodup (by simp)
          (List.disjoint_singleton.mpr fun hq => hmem (hsched _ hq))
      have hsched' : ∀ s ∈ queue ++ [stream], s ∈ insert stream scheduled := by
        intro s hs
        rcases List.mem_append.mp hs with hs | hs
        · exact Finset.mem_insert_of_mem (hsched s hs)
        · exact List.mem_singleton.mp hs ▸ Finset.mem_insert_self _ _
      obtain ⟨hn,hnew,hsub,hall⟩ := ih hnodup' hsched' h
      refine ⟨hn,?_,(Finset.subset_insert _ _).trans hsub,hall⟩
      intro s hs
      rcases hnew s hs with hs | hs
      · rcases List.mem_append.mp hs with hs | hs
        · exact .inl hs
        · exact .inr (List.mem_singleton.mp hs ▸ hmem)
      · exact .inr fun hmem' => hs (Finset.mem_insert_of_mem hmem')

/-- No stream is queued twice, queued after its visit, or queued without being scheduled. -/
structure Fresh (replay : ReplayProgress Value S) : Prop where
  nodup : replay.queue.Nodup
  unvisited : ∀ s ∈ replay.queue, s ∉ replay.visited
  scheduled : ∀ s, s ∈ replay.queue ∨ s ∈ replay.visited → s ∈ replay.scheduled

theorem fresh_initialProgress (command : CommandLogic Any Raw Value E S)
    (declarations : StreamDeclarations) :
    Fresh (initialProgress command declarations.streams) :=
  ⟨declarations.nodup,by simp [initialProgress],by simp [initialProgress]⟩

end Discovery

section Stream

variable {command : CommandLogic Any Raw Value E S} {contents : Contents E}

theorem foldCounting_eq (command : CommandLogic Any Raw Value E S)
    (items : List (Except EventStoreError E)) (state : S) (count : ℕ) :
    foldCounting command items state count =
    match command.foldItems items state with
    | .ok state => .ok (state,count+items.length)
    | .error e => .error (.error (.eventStoreError e)) := by
  induction items generalizing state count with
  | nil => rfl
  | cons item items ih =>
    cases item with
    | error e => rfl
    | ok event =>
      simp only [foldCounting,CommandLogic.foldItems_ok,List.length_cons]
      rw [ih]
      simp only [Nat.add_assoc,Nat.add_comm 1]

theorem applyCommandStream_after (state : S) (s : StreamId) (version : StreamVersion) :
    applyCommandStream command contents state s (some version) =
    match command.foldItems ((contents s).drop version) state with
    | .ok state => .ok (state,(contents s).length-version)
    | .error e => .error (.error (.eventStoreError e)) := by
  have h := foldCounting_eq command ((contents s).drop version) state 0
  simp only [Nat.zero_add,List.length_drop] at h
  exact h

theorem applyCommandStream_full (state : S) (s : StreamId) :
    applyCommandStream command contents state s none =
    match command.foldItems (contents s) state with
    | .ok state => .ok (state,(contents s).length)
    | .error e => .error (.error (.eventStoreError e)) := by
  have h := foldCounting_eq command (contents s) state 0
  simp only [Nat.zero_add] at h
  exact h

/-- The progress after a stream was folded into `state`. -/
def ReplayProgress.advance (command : CommandLogic Any Raw Value E S)
    (replay : ReplayProgress Value S) (s : StreamId) (queue : List StreamId) (state : S)
    (version : StreamVersion) (value : Value) : ReplayProgress Value S :=
  { state := state
    queue := (command.discoverRelatedStreams state queue replay.scheduled).1
    visited := insert s replay.visited
    scheduled := (command.discoverRelatedStreams state queue replay.scheduled).2
    expectedVersions := replay.expectedVersions.insert s version
    checkpoints := replay.checkpoints ++ [⟨s,value,replay.expectedVersions.insert s version⟩] }

theorem replayStream_eq (replay : ReplayProgress Value S) (s : StreamId) (queue : List StreamId) :
    replayStream command contents replay s queue =
    match command.foldItems (contents s) replay.state with
    | .error e => .error (.error (.eventStoreError e))
    | .ok state => (serialize command state).map
        (replay.advance command s queue state (contents s).length) := by
  simp only [replayStream,applyCommandStream_full]
  cases command.foldItems (contents s) replay.state with
  | error e => rfl
  | ok state =>
    simp only [bind,Except.bind,Except.map]
    cases serialize command state <;> rfl

theorem replayStream_eq_ok {replay replay' : ReplayProgress Value S} {s : StreamId}
    {queue : List StreamId} (h : replayStream command contents replay s queue = .ok replay') :
    ∃ state value, command.foldItems (contents s) replay.state = .ok state ∧
      command.serializeCommandStateSnapshot state = .ok value ∧
      replay' = replay.advance command s queue state (contents s).length value := by
  rw [replayStream_eq] at h
  cases hfold : command.foldItems (contents s) replay.state with
  | error e => simp [hfold] at h
  | ok state =>
    cases hser : command.serializeCommandStateSnapshot state with
    | error e => simp [hfold,serialize,hser,Except.map,Except.mapError] at h
    | ok value =>
      simp only [hfold,serialize,hser,Except.map,Except.mapError,Except.ok.injEq] at h
      exact ⟨state,value,rfl,hser,h.symm⟩

theorem Fresh.advance {replay : ReplayProgress Value S} (hfresh : Fresh replay) {s : StreamId}
    {queue : List StreamId} (hqueue : replay.queue = s :: queue) (state : S)
    (version : StreamVersion) (value : Value) :
    Fresh (replay.advance command s queue state version value) := by
  have hnodup := hqueue ▸ hfresh.nodup
  have hs : s ∈ replay.scheduled := hfresh.scheduled s (.inl (by simp [hqueue]))
  have hsub : ∀ t ∈ queue, t ∈ replay.scheduled := fun t ht =>
    hfresh.scheduled t (.inl (by simp [hqueue,ht]))
  obtain ⟨hn,hnew,hgrow,hall⟩ := enqueueNew_spec (List.nodup_cons.mp hnodup).2 hsub
    (show enqueueNew (command.relatedStreams state) queue replay.scheduled =
      command.discoverRelatedStreams state queue replay.scheduled from rfl)
  refine ⟨hn,?_,?_⟩
  · intro t ht hvisited
    rcases Finset.mem_insert.mp hvisited with rfl | hvisited
    · rcases hnew t ht with ht | ht
      · exact (List.nodup_cons.mp hnodup).1 ht
      · exact ht hs
    · rcases hnew t ht with ht | ht
      · exact hfresh.unvisited t (by simp [hqueue,ht]) hvisited
      · exact ht (hfresh.scheduled t (.inr hvisited))
  · rintro t (ht | ht)
    · exact hall t ht
    · rcases Finset.mem_insert.mp ht with rfl | ht
      · exact hgrow hs
      · exact hgrow (hfresh.scheduled t (.inr ht))

theorem replayRemainingStreams_nil {replay : ReplayProgress Value S} (h : replay.queue = [])
    (fuel : ℕ) : replayRemainingStreams command contents fuel replay = .ok replay := by
  cases fuel <;> simp [replayRemainingStreams,h]

theorem replayRemainingStreams_zero {replay : ReplayProgress Value S} {s : StreamId}
    {queue : List StreamId} (h : replay.queue = s :: queue) :
    replayRemainingStreams command contents 0 replay = .error .outOfFuel := by
  simp [replayRemainingStreams,h]

theorem replayRemainingStreams_succ {replay : ReplayProgress Value S} (hfresh : Fresh replay)
    {s : StreamId} {queue : List StreamId} (h : replay.queue = s :: queue) (fuel : ℕ) :
    replayRemainingStreams command contents (fuel+1) replay =
      (replayStream command contents replay s queue).bind
        (replayRemainingStreams command contents fuel) := by
  have hs : s ∉ replay.visited := hfresh.unvisited s (by simp [h])
  simp only [replayRemainingStreams,h,hs,if_false]
  rfl

theorem replayRemainingStreams_mono {fuel fuel' : ℕ} {replay last : ReplayProgress Value S}
    (hle : fuel ≤ fuel') (h : replayRemainingStreams command contents fuel replay = .ok last) :
    replayRemainingStreams command contents fuel' replay = .ok last := by
  induction fuel generalizing replay fuel' with
  | zero =>
    cases hqueue : replay.queue with
    | nil =>
      rw [replayRemainingStreams_nil hqueue] at h ⊢
      exact h
    | cons s queue => simp [replayRemainingStreams_zero hqueue] at h
  | succ fuel ih =>
    obtain ⟨fuel',rfl⟩ := Nat.exists_eq_succ_of_ne_zero (Nat.ne_zero_of_lt hle)
    cases hqueue : replay.queue with
    | nil =>
      rw [replayRemainingStreams_nil hqueue] at h ⊢
      exact h
    | cons s queue =>
      simp only [replayRemainingStreams,hqueue] at h ⊢
      split_ifs at h ⊢ with hvisited
      · exact ih (Nat.le_of_succ_le_succ hle) h
      · cases hstep : replayStream command contents replay s queue with
        | error e => simp [hstep,bind,Except.bind] at h
        | ok replay' =>
          rw [hstep] at h
          exact ih (Nat.le_of_succ_le_succ hle) h

end Stream

section Recorded

variable (command : CommandLogic Any Raw Value E S) (contents : Contents E)

/-- A full replay from one progress to the end, with the checkpoints it leaves. -/
inductive Replays : ReplayProgress Value S → List (CommandStateReplayCheckpoint Value) →
    ReplayProgress Value S → Prop
  | done {replay : ReplayProgress Value S} : replay.queue = [] → Replays replay [] replay
  | stream {replay last : ReplayProgress Value S} {s : StreamId} {queue : List StreamId}
      {state : S} {value : Value} {rest : List (CommandStateReplayCheckpoint Value)} :
      replay.queue = s :: queue →
      command.foldItems (contents s) replay.state = .ok state →
      command.serializeCommandStateSnapshot state = .ok value →
      Replays (replay.advance command s queue state (contents s).length value) rest last →
      Replays replay (⟨s,value,replay.expectedVersions.insert s (contents s).length⟩ :: rest) last

variable {command contents}

theorem replays_of_replayRemainingStreams {fuel : ℕ} {replay last : ReplayProgress Value S}
    (hfresh : Fresh replay)
    (h : replayRemainingStreams command contents fuel replay = .ok last) :
    ∃ rest, Replays command contents replay rest last ∧
      last.checkpoints = replay.checkpoints ++ rest := by
  induction fuel generalizing replay with
  | zero =>
    cases hqueue : replay.queue with
    | nil =>
      rw [replayRemainingStreams_nil hqueue,Except.ok.injEq] at h
      exact ⟨[],h ▸ .done hqueue,by simp [h]⟩
    | cons s queue => simp [replayRemainingStreams_zero hqueue] at h
  | succ fuel ih =>
    cases hqueue : replay.queue with
    | nil =>
      rw [replayRemainingStreams_nil hqueue,Except.ok.injEq] at h
      exact ⟨[],h ▸ .done hqueue,by simp [h]⟩
    | cons s queue =>
      rw [replayRemainingStreams_succ hfresh hqueue] at h
      cases hstep : replayStream command contents replay s queue with
      | error e => simp [hstep,Except.bind] at h
      | ok replay' =>
        obtain ⟨state,value,hfold,hvalue,rfl⟩ := replayStream_eq_ok hstep
        rw [hstep] at h
        obtain ⟨rest,hrest,hcps⟩ := ih (hfresh.advance hqueue _ _ _) h
        refine ⟨_,.stream hqueue hfold hvalue hrest,?_⟩
        simp [hcps,ReplayProgress.advance]

theorem Replays.serializes {replay last : ReplayProgress Value S}
    {rest : List (CommandStateReplayCheckpoint Value)}
    (h : Replays command contents replay rest last)
    (hser : replay.queue = [] →
      ∃ value, command.serializeCommandStateSnapshot replay.state = .ok value) :
    ∃ value, command.serializeCommandStateSnapshot last.state = .ok value := by
  induction h with
  | done hqueue => exact hser hqueue
  | stream _ _ hvalue _ ih => exact ih fun _ => ⟨_,hvalue⟩

theorem Replays.checkpoints {replay last : ReplayProgress Value S}
    {rest : List (CommandStateReplayCheckpoint Value)}
    (h : Replays command contents replay rest last) : ∀ checkpoint ∈ rest,
      (∃ state, command.serializeCommandStateSnapshot state = .ok checkpoint.state) ∧
      checkpoint.streamVersions.get? checkpoint.streamId =
        some (contents checkpoint.streamId).length := by
  induction h with
  | done => simp
  | @stream _ _ _ _ state value _ _ _ hvalue _ ih =>
    intro checkpoint hmem
    rcases List.mem_cons.mp hmem with rfl | hmem
    · exact ⟨⟨state,hvalue⟩,HashMap.get?_insert_self _ _ _⟩
    · exact ih checkpoint hmem

theorem Replays.deserializes (hround : RoundTrips command)
    {replay last : ReplayProgress Value S} {rest : List (CommandStateReplayCheckpoint Value)}
    (h : Replays command contents replay rest last) :
    ∀ checkpoint ∈ rest, ∃ state, deserialize command checkpoint.state = .ok state := by
  intro checkpoint hmem
  obtain ⟨⟨state,hvalue⟩,_⟩ := h.checkpoints checkpoint hmem
  exact ⟨state,by simp [deserialize,hround _ _ hvalue,Except.mapError]⟩

structure Captures (command : CommandLogic Any Raw Value E S)
    (snapshot : CommandStateSnapshot Value) (last : ReplayProgress Value S) : Prop where
  state : command.serializeCommandStateSnapshot last.state = .ok snapshot.state
  streamVersions : snapshot.streamVersions = last.expectedVersions
  replayCheckpoints : snapshot.replayCheckpoints = last.checkpoints

def Recorded (command : CommandLogic Any Raw Value E S) (contents : Contents E)
    (snapshot : CommandStateSnapshot Value) : Prop :=
  ∃ fuel last, replayRemainingStreams command contents fuel
      (initialProgress command command.streamDeclarations.streams) = .ok last ∧
    Captures command snapshot last

theorem Recorded.replays {snapshot : CommandStateSnapshot Value}
    (h : Recorded command contents snapshot) :
    ∃ last, Replays command contents
        (initialProgress command command.streamDeclarations.streams) snapshot.replayCheckpoints
        last ∧
      Captures command snapshot last := by
  obtain ⟨fuel,last,hlast,hcap⟩ := h
  obtain ⟨rest,hreplays,hcps⟩ :=
    replays_of_replayRemainingStreams (fresh_initialProgress command command.streamDeclarations) hlast
  have hrest : snapshot.replayCheckpoints = rest := hcap.replayCheckpoints.trans hcps
  exact ⟨last,hrest ▸ hreplays,hcap⟩

end Recorded

section Resume

variable {command : CommandLogic Any Raw Value E S}

theorem discoverCheckpoints_append (replay : ReplayProgress Value S)
    (before after : List (CommandStateReplayCheckpoint Value)) :
    discoverCheckpoints command replay (before ++ after) =
      (discoverCheckpoints command replay before).bind fun replay =>
        discoverCheckpoints command replay after := by
  induction before generalizing replay with
  | nil => rfl
  | cons checkpoint before ih =>
    simp only [List.cons_append,discoverCheckpoints]
    cases replay.queue with
    | nil => rfl
    | cons s queue =>
      simp only
      split_ifs
      · rfl
      · cases deserialize command checkpoint.state with
        | error e => rfl
        | ok state => exact ih _

/-- Discovery over the checkpoints of `replay` stands where `replay` stands. -/
def Rediscovers (command : CommandLogic Any Raw Value E S) (replay : ReplayProgress Value S) :
    Prop :=
  ∃ found, discoveryBeforeCheckpoint command command.streamDeclarations.streams
      replay.checkpoints = .ok found ∧
    found.queue = replay.queue ∧ found.visited = replay.visited ∧
    found.scheduled = replay.scheduled

theorem Rediscovers.advance (hround : RoundTrips command) {replay : ReplayProgress Value S}
    (h : Rediscovers command replay) {s : StreamId} {queue : List StreamId}
    (hqueue : replay.queue = s :: queue) {state : S} {value : Value}
    (hvalue : command.serializeCommandStateSnapshot state = .ok value) (version : StreamVersion) :
    Rediscovers command (replay.advance command s queue state version value) := by
  obtain ⟨found,hfound,hq,hv,hs⟩ := h
  refine ⟨{ replay.advance command s queue state version value with
    expectedVersions := found.expectedVersions, checkpoints := found.checkpoints },?_,rfl,rfl,rfl⟩
  rw [discoveryBeforeCheckpoint] at hfound ⊢
  simp only [ReplayProgress.advance,discoverCheckpoints_append,hfound,Except.bind]
  simp only [discoverCheckpoints,hq,hqueue,ne_eq,not_true_eq_false,if_false,deserialize,
    hround _ _ hvalue,Except.mapError,bind,Except.bind,hs,hv]

/-- Both end in the same states and versions, or the same errors, and a projection that
`f` emits captures an end of `g`. -/
structure Agrees (command : CommandLogic Any Raw Value E S)
    (f : ℕ → Except Stop (Reconstruction Value S)) (g : ℕ → Except Stop (ReplayProgress Value S)) :
    Prop where
  returns : ∀ r, Returns (fun fuel => (f fuel).map Reconstruction.result) r ↔
    Returns (fun fuel => (g fuel).map ReplayProgress.result) r
  emits : ∀ fuel r snapshot, f fuel = .ok r → r.snapshot = some snapshot →
    ∃ fuel last, g fuel = .ok last ∧ Captures command snapshot last

theorem Agrees.succ {f : ℕ → Except Stop (Reconstruction Value S)}
    {g : ℕ → Except Stop (ReplayProgress Value S)} (g' : ℕ → Except Stop (ReplayProgress Value S))
    (h : Agrees command f g') (hzero : g 0 = .error .outOfFuel) (hsucc : ∀ fuel, g (fuel+1) = g' fuel) :
    Agrees command f g where
  returns r := by
    rw [h.returns]
    refine (returns_succ_iff ?_ ?_).symm
    · simp [hzero,Except.map]
    · simp [hsucc]
  emits fuel r snapshot hf hsnap := by
    obtain ⟨fuel',last,hg,hcap⟩ := h.emits fuel r snapshot hf hsnap
    exact ⟨fuel'+1,last,(hsucc fuel').trans hg,hcap⟩

theorem agrees_error {f : ℕ → Except Stop (Reconstruction Value S)}
    {g : ℕ → Except Stop (ReplayProgress Value S)} {e : Stop} (hf : ∀ fuel, f fuel = .error e)
    (hzero : g 0 = .error .outOfFuel) (hsucc : ∀ fuel, g (fuel+1) = .error e) :
    Agrees command f g := by
  have hconst : Agrees command f fun _ => .error e :=
    ⟨fun r => by simp [Returns,hf,Except.map],fun fuel r _ hr => by simp [hf] at hr⟩
  exact Agrees.succ _ hconst hzero hsucc

/-- A computation that post-processes each end of `g` without changing its result. -/
theorem agrees_bind {f : ℕ → Except Stop (Reconstruction Value S)}
    {g : ℕ → Except Stop (ReplayProgress Value S)}
    (k : ReplayProgress Value S → Except Stop (Reconstruction Value S))
    (hf : ∀ fuel, f fuel = (g fuel).bind k)
    (hk : ∀ fuel last, g fuel = .ok last → ∃ r, k last = .ok r ∧ r.result = last.result ∧
      ∀ snapshot, r.snapshot = some snapshot → Captures command snapshot last) :
    Agrees command f g where
  returns r := by
    have hsame : ∀ fuel, (f fuel).map Reconstruction.result =
        (g fuel).map ReplayProgress.result := by
      intro fuel
      rw [hf]
      cases hg : g fuel with
      | error e => rfl
      | ok last =>
        obtain ⟨r,hr,hres,_⟩ := hk fuel last hg
        simp [Except.bind,hr,Except.map,hres]
    simp only [hsame]
  emits fuel r snapshot hr hsnap := by
    rw [hf] at hr
    cases hg : g fuel with
    | error e => simp [hg,Except.bind] at hr
    | ok last =>
      obtain ⟨r',hr',_,hcap⟩ := hk fuel last hg
      simp only [hg,Except.bind,hr',Except.ok.injEq] at hr
      exact ⟨fuel,last,hg,hcap snapshot (hr ▸ hsnap)⟩

variable {contents : Contents E}

theorem resumeAt_agrees {replay : ReplayProgress Value S}
    (hfresh : Fresh replay) (hdisc : Rediscovers command replay) {s : StreamId}
    {queue : List StreamId} (hqueue : replay.queue = s :: queue) {oldValue : Value}
    {base version : StreamVersion} {state : S}
    (hstep : command.foldItems (contents s) replay.state = .ok state)
    (hlen : version = (contents s).length) :
    Agrees command
      (fun fuel => resumeAt command contents fuel command.streamDeclarations.streams
        replay.checkpoints ⟨s,oldValue,replay.expectedVersions.insert s base⟩ version state)
      (fun fuel => replayRemainingStreams command contents fuel replay) := by
  obtain ⟨found,hfound,hq,hv,hs⟩ := hdisc
  have hslow : ∀ fuel, replayRemainingStreams command contents (fuel+1) replay =
      ((serialize command state).map
        (replay.advance command s queue state (contents s).length)).bind
        (replayRemainingStreams command contents fuel) := by
    intro fuel
    rw [replayRemainingStreams_succ hfresh hqueue,replayStream_eq,hstep]
  have hzero : replayRemainingStreams command contents 0 replay = .error .outOfFuel :=
    replayRemainingStreams_zero hqueue
  cases hvalue : serialize command state with
  | error e =>
    refine agrees_error (e := e) ?_ hzero ?_
    · intro fuel
      simp [resumeAt,hvalue,bind,Except.bind]
    · intro fuel
      rw [hslow,hvalue]
      rfl
  | ok value =>
    have hvalue' : command.serializeCommandStateSnapshot state = .ok value := by
      cases hser : command.serializeCommandStateSnapshot state <;>
        simp_all [serialize,Except.mapError]
    refine Agrees.succ (fun fuel => replayRemainingStreams command contents fuel
      (replay.advance command s queue state (contents s).length value)) ?_ hzero ?_
    · refine agrees_bind (fun last => (serialize command last.state).map fun value =>
        ⟨last.state,last.expectedVersions,
          some ⟨value,last.expectedVersions,last.checkpoints⟩⟩) ?_ ?_
      · intro fuel
        subst hlen
        simp only [resumeAt,hvalue,hfound,hq,hqueue,hs,hv,bind,Except.bind,ne_eq,
          not_true_eq_false,if_false,ReplayProgress.advance,AList.insert_insert]
        cases replayRemainingStreams command contents fuel _ with
        | error e => rfl
        | ok last => cases serialize command last.state <;> rfl
      · intro fuel last hlast
        obtain ⟨_,hreplays,_⟩ :=
          replays_of_replayRemainingStreams (hfresh.advance hqueue _ _ _) hlast
        obtain ⟨final,hfinal⟩ := hreplays.serializes fun _ => ⟨value,hvalue'⟩
        refine ⟨_,by rw [serialize,hfinal]; rfl,rfl,?_⟩
        rintro snapshot ⟨⟩
        exact ⟨hfinal,rfl,rfl⟩
    · intro fuel
      rw [hslow,hvalue]
      rfl

/-- The walk over the checkpoints of a replay of `earlier` agrees with a full replay of
`contents`, as long as each of its streams has only grown. -/
theorem resumeCheckpoints_agrees (hround : RoundTrips command) {earlier : Contents E}
    {snapshot : CommandStateSnapshot Value} {replay last : ReplayProgress Value S}
    {rest : List (CommandStateReplayCheckpoint Value)}
    (hreplays : Replays command earlier replay rest last)
    (hstate : command.serializeCommandStateSnapshot last.state = .ok snapshot.state)
    (hversions : snapshot.streamVersions = last.expectedVersions)
    (hfresh : Fresh replay) (hdisc : Rediscovers command replay)
    (hext : ∀ checkpoint ∈ rest, earlier checkpoint.streamId <+: contents checkpoint.streamId) :
    Agrees command
      (fun fuel => resumeCheckpoints command contents fuel command.streamDeclarations.streams
        snapshot replay.checkpoints rest)
      (fun fuel => replayRemainingStreams command contents fuel replay) := by
  induction hreplays with
  | @done replay hqueue =>
    refine agrees_bind (fun last => .ok ⟨last.state,last.expectedVersions,none⟩) ?_ ?_
    · intro fuel
      simp [resumeCheckpoints,deserialize,hround _ _ hstate,Except.mapError,bind,Except.bind,
        replayRemainingStreams_nil hqueue,hversions]
    · intro fuel last _
      exact ⟨_,rfl,rfl,by simp⟩
  | @stream replay last s queue state value rest hqueue hfold hvalue _ ih =>
    obtain ⟨tail,htail⟩ := hext _ List.mem_cons_self
    simp only at htail
    have hdrop : (contents s).drop (earlier s).length = tail := by simp [← htail]
    have hcount : (contents s).length-(earlier s).length = tail.length := by simp [← htail]
    have hfull : command.foldItems (contents s) replay.state = command.foldItems tail state := by
      rw [← htail,command.foldItems_append,hfold,Except.bind]
    have hwalk : ∀ fuel, resumeCheckpoints command contents fuel
        command.streamDeclarations.streams snapshot replay.checkpoints
        (⟨s,value,replay.expectedVersions.insert s (earlier s).length⟩ :: rest) =
        match command.foldItems tail state with
        | .error e => .error (.error (.eventStoreError e))
        | .ok state' => if tail.length = 0 then
            resumeCheckpoints command contents fuel command.streamDeclarations.streams snapshot
              (replay.checkpoints ++ [⟨s,value,replay.expectedVersions.insert s
                (earlier s).length⟩]) rest
          else resumeAt command contents fuel command.streamDeclarations.streams
            replay.checkpoints ⟨s,value,replay.expectedVersions.insert s (earlier s).length⟩
            ((earlier s).length+tail.length) state' := by
      intro fuel
      simp only [resumeCheckpoints,HashMap.get?_insert_self,deserialize,hround _ _ hvalue,
        Except.mapError,applyCommandStream_after,hdrop,hcount,bind,Except.bind]
      cases command.foldItems tail state <;> rfl
    simp only [hwalk]
    cases htl : tail with
    | nil =>
      -- no tail: this stream replays as it did then, and the walk goes on
      have hsame : contents s = earlier s := by simp [← htail,htl]
      simp only [CommandLogic.foldItems_nil,List.length_nil,if_true]
      refine Agrees.succ _ (ih hstate hversions (hfresh.advance hqueue _ _ _)
        (hdisc.advance hround hqueue hvalue _)
        fun checkpoint hmem => hext checkpoint (List.mem_cons_of_mem _ hmem))
        (replayRemainingStreams_zero hqueue) ?_
      intro fuel
      rw [replayRemainingStreams_succ hfresh hqueue,replayStream_eq,hsame,hfold]
      simp [serialize,hvalue,Except.mapError,Except.map,Except.bind]
    | cons item items =>
      cases hstep : command.foldItems (item :: items) state with
      | error e =>
        refine agrees_error (fun _ => rfl) (replayRemainingStreams_zero hqueue) ?_
        intro fuel
        rw [replayRemainingStreams_succ hfresh hqueue,replayStream_eq,hfull,htl,hstep]
        rfl
      | ok state' =>
        simp only [List.length_cons,Nat.add_eq_zero_iff,one_ne_zero,and_false,if_false]
        refine resumeAt_agrees hfresh hdisc hqueue ?_ ?_
        · rw [hfull,htl,hstep]
        · simp [← htail,htl]

theorem reconstructInFull_agrees :
    Agrees command
      (fun fuel => reconstructInFull command contents fuel command.streamDeclarations.streams)
      (fun fuel => replayRemainingStreams command contents fuel
        (initialProgress command command.streamDeclarations.streams)) := by
  refine agrees_bind (fun last =>
    if COMMAND_STATE_SNAPSHOT_REFRESH_THRESHOLD ≤
        (last.expectedVersions.entries.map fun p => p.2).sum then
      (serialize command last.state).map fun value => ⟨last.state,last.expectedVersions,
        some ⟨value,last.expectedVersions,last.checkpoints⟩⟩
    else .ok ⟨last.state,last.expectedVersions,none⟩) ?_ ?_
  · intro fuel
    simp only [reconstructInFull,discoveryBeforeCheckpoint,discoverCheckpoints,bind,Except.bind]
    cases replayRemainingStreams command contents fuel _ with
    | error e => rfl
    | ok last =>
      simp only
      split_ifs
      · cases serialize command last.state <;> rfl
      · rfl
  · intro fuel last hlast
    obtain ⟨_,hreplays,_⟩ := replays_of_replayRemainingStreams
      (fresh_initialProgress command command.streamDeclarations) hlast
    obtain ⟨value,hvalue⟩ :=
      hreplays.serializes fun hnil => absurd hnil command.streamDeclarations.nonempty
    split_ifs
    · refine ⟨_,by rw [serialize,hvalue]; rfl,rfl,?_⟩
      rintro snapshot ⟨⟩
      exact ⟨hvalue,rfl,rfl⟩
    · exact ⟨_,rfl,rfl,by simp⟩

variable (command) in
theorem validateCheckpoints_isOk {queue : List StreamId} {visited scheduled : Finset StreamId}
    {checkpoints : List (CommandStateReplayCheckpoint Value)}
    (h : ∀ checkpoint ∈ checkpoints, ∃ state, deserialize command checkpoint.state = .ok state) :
    ∃ answer, validateCheckpoints command queue visited scheduled checkpoints = .ok answer := by
  induction checkpoints generalizing queue visited scheduled with
  | nil => exact ⟨_,rfl⟩
  | cons checkpoint checkpoints ih =>
    cases queue with
    | nil => exact ⟨none,rfl⟩
    | cons s queue =>
      simp only [validateCheckpoints]
      split_ifs
      · exact ⟨none,rfl⟩
      · obtain ⟨state,hstate⟩ := h checkpoint List.mem_cons_self
        simp only [hstate,bind,Except.bind]
        exact ih fun c hc => h c (List.mem_cons_of_mem _ hc)

variable (command) in
theorem snapshotReplayOrderIsValid_isOk {snapshot : CommandStateSnapshot Value}
    (h : ∀ checkpoint ∈ snapshot.replayCheckpoints,
      ∃ state, deserialize command checkpoint.state = .ok state) :
    ∃ valid, snapshotReplayOrderIsValid command command.streamDeclarations.streams snapshot =
      .ok valid := by
  unfold snapshotReplayOrderIsValid
  split_ifs with hlen
  · exact ⟨false,rfl⟩
  · simp only [discoveryBeforeCheckpoint,discoverCheckpoints,bind,Except.bind]
    obtain ⟨answer,hanswer⟩ := validateCheckpoints_isOk command h
    rw [hanswer]
    cases answer <;> exact ⟨_,rfl⟩

/-- A projection that records a full replay of `earlier` reconstructs the current
contents, provided each stream it counts has only grown. -/
theorem reconstruct_agrees_of_recorded (hround : RoundTrips command) {earlier : Contents E}
    {snapshot : CommandStateSnapshot Value} (hrec : Recorded command earlier snapshot)
    (hext : ∀ checkpoint ∈ snapshot.replayCheckpoints,
      earlier checkpoint.streamId <+: contents checkpoint.streamId) :
    Agrees command
      (fun fuel => reconstructCommandSnapshot command contents fuel
        command.streamDeclarations.streams (some snapshot))
      (fun fuel => replayRemainingStreams command contents fuel
        (initialProgress command command.streamDeclarations.streams)) := by
  have hfresh := fresh_initialProgress command command.streamDeclarations
  obtain ⟨last,hreplays,hcap⟩ := hrec.replays
  obtain ⟨valid,hvalid⟩ := snapshotReplayOrderIsValid_isOk command (hreplays.deserializes hround)
  simp only [reconstructCommandSnapshot,hvalid,bind,Except.bind]
  cases valid with
  | false => simpa using reconstructInFull_agrees
  | true =>
    have hdisc : Rediscovers command
        (initialProgress command command.streamDeclarations.streams) :=
      ⟨_,rfl,rfl,rfl,rfl⟩
    have hwalk := resumeCheckpoints_agrees hround hreplays hcap.state hcap.streamVersions
      hfresh hdisc hext
    simpa [initialProgress] using hwalk

end Resume

section Stored

variable {command : CommandLogic Any Raw Value E S} {contents : Contents E}

/-- Only appends happened from `earlier` to `contents`, to any streams. -/
def Extends (earlier contents : Contents E) : Prop := ∀ s, earlier s <+: contents s

/-- Projections that an executor may find stored: emitted by an earlier reconstruction,
itself with or without such a projection, before any appends; or rejected by the order check. -/
inductive Stored (command : CommandLogic Any Raw Value E S) :
    Contents E → CommandStateSnapshot Value → Prop
  | rejected {contents : Contents E} {snapshot : CommandStateSnapshot Value} :
      snapshotReplayOrderIsValid command command.streamDeclarations.streams snapshot =
        .ok false → Stored command contents snapshot
  | emitted {earlier contents : Contents E} {fuel : ℕ} {r : Reconstruction Value S}
      {stored : Option (CommandStateSnapshot Value)} {snapshot : CommandStateSnapshot Value} :
      (∀ old, stored = some old → Stored command earlier old) →
      reconstructCommandSnapshot command earlier fuel command.streamDeclarations.streams stored =
        .ok r →
      r.snapshot = some snapshot → Extends earlier contents → Stored command contents snapshot

theorem reconstruct_eq_of_rejected {snapshot : CommandStateSnapshot Value}
    (h : snapshotReplayOrderIsValid command command.streamDeclarations.streams snapshot =
      .ok false) (fuel : ℕ) :
    reconstructCommandSnapshot command contents fuel command.streamDeclarations.streams
      (some snapshot) =
    reconstructInFull command contents fuel command.streamDeclarations.streams := by
  simp [reconstructCommandSnapshot,h,bind,Except.bind]

theorem Stored.recorded (hround : RoundTrips command) {snapshot : CommandStateSnapshot Value}
    (h : Stored command contents snapshot) :
    snapshotReplayOrderIsValid command command.streamDeclarations.streams snapshot = .ok false ∨
    ∃ earlier, Extends earlier contents ∧ Recorded command earlier snapshot := by
  induction h with
  | rejected h => exact .inl h
  | @emitted earlier contents fuel r stored snapshot _ hrun hsnap hext ih =>
    refine .inr ⟨earlier,hext,?_⟩
    cases stored with
    | none => exact reconstructInFull_agrees.emits fuel r snapshot hrun hsnap
    | some old =>
      rcases ih old rfl with hrej | ⟨first,hfirst,hrec⟩
      · rw [reconstruct_eq_of_rejected hrej] at hrun
        exact reconstructInFull_agrees.emits fuel r snapshot hrun hsnap
      · exact (reconstruct_agrees_of_recorded hround hrec fun checkpoint _ =>
          hfirst checkpoint.streamId).emits fuel r snapshot hrun hsnap

theorem Stored.agrees (hround : RoundTrips command) {snapshot : CommandStateSnapshot Value}
    (h : Stored command contents snapshot) :
    Agrees command
      (fun fuel => reconstructCommandSnapshot command contents fuel
        command.streamDeclarations.streams (some snapshot))
      (fun fuel => replayRemainingStreams command contents fuel
        (initialProgress command command.streamDeclarations.streams)) := by
  rcases h.recorded hround with hrej | ⟨earlier,hext,hrec⟩
  · simpa only [reconstruct_eq_of_rejected hrej] using reconstructInFull_agrees
  · exact reconstruct_agrees_of_recorded hround hrec fun checkpoint _ => hext checkpoint.streamId

/-- Through a stored projection a reconstruction ends in the state and versions, or the
error, of a replay from the default state, and so does one through any projection it
emits, after any later appends. -/
theorem reconstruct_eq_full_replay (hround : RoundTrips command)
    {snapshot : CommandStateSnapshot Value} (h : Stored command contents snapshot) :
    (∀ result,
      Returns (fun fuel => (reconstructCommandSnapshot command contents fuel
        command.streamDeclarations.streams (some snapshot)).map Reconstruction.result) result ↔
      Returns (fun fuel => (replayRemainingStreams command contents fuel
        (initialProgress command command.streamDeclarations.streams)).map
          ReplayProgress.result) result) ∧
    ∀ fuel r replacement later, reconstructCommandSnapshot command contents fuel
        command.streamDeclarations.streams (some snapshot) = .ok r →
      r.snapshot = some replacement → Extends contents later →
      ∀ result,
        Returns (fun fuel => (reconstructCommandSnapshot command later fuel
          command.streamDeclarations.streams (some replacement)).map
            Reconstruction.result) result ↔
        Returns (fun fuel => (replayRemainingStreams command later fuel
          (initialProgress command command.streamDeclarations.streams)).map
            ReplayProgress.result) result := by
  refine ⟨(h.agrees hround).returns,?_⟩
  intro fuel r replacement later hrun hsnap hext
  have hstored : Stored command later replacement :=
    .emitted (fun old hold => Option.some.inj hold ▸ h) hrun hsnap hext
  exact (hstored.agrees hround).returns

/-- `n` deposits of one on the account. -/
def deposits (n : ℕ) : Contents ℕ := fun s =>
  if s = Sample.account then List.replicate n (.ok 1) else []

theorem extends_deposits {m n : ℕ} (h : m ≤ n) : Extends (deposits m) (deposits n) := by
  intro s
  unfold deposits
  split_ifs
  · exact ⟨List.replicate (n-m) (.ok 1),by rw [List.replicate_append_replicate,Nat.add_sub_cancel' h]⟩
  · exact List.prefix_rfl

/-- The hundredth deposit emits a projection; the next run resumes from it. -/
theorem reconstruct_eq_full_replay_topUp :
    ∃ r snapshot, reconstructCommandSnapshot Sample.topUp (deposits 100) 1 [Sample.account] none =
        .ok r ∧ r.snapshot = some snapshot ∧ snapshot.state = 100 ∧
      ∀ result,
        Returns (fun fuel => (reconstructCommandSnapshot Sample.topUp (deposits 101) fuel
          [Sample.account] (some snapshot)).map Reconstruction.result) result ↔
        Returns (fun fuel => (replayRemainingStreams Sample.topUp (deposits 101) fuel
          (initialProgress Sample.topUp [Sample.account])).map ReplayProgress.result) result := by
  have hround : RoundTrips Sample.topUp := fun _ _ h => by cases h; rfl
  obtain ⟨r,snapshot,hrun,hsnap,hstate⟩ : ∃ r snapshot, reconstructCommandSnapshot Sample.topUp
      (deposits 100) 1 [Sample.account] none = .ok r ∧ r.snapshot = some snapshot ∧
      snapshot.state = 100 := ⟨_,_,rfl,rfl,rfl⟩
  have hstored : Stored Sample.topUp (deposits 101) snapshot :=
    .emitted (by simp) hrun hsnap (extends_deposits (by omega))
  exact ⟨r,snapshot,hrun,hsnap,hstate,(reconstruct_eq_full_replay hround hstored).1⟩

end Stored

section Fuel

def Stable {α : Type} (f : ℕ → Except Stop α) : Prop :=
  ∀ fuel, f fuel ≠ .error .outOfFuel → f (fuel+1) = f fuel

theorem Stable.of_le {α : Type} {f : ℕ → Except Stop α} (h : Stable f) {fuel fuel' : ℕ}
    (hle : fuel ≤ fuel') (hne : f fuel ≠ .error .outOfFuel) : f fuel' = f fuel := by
  induction fuel', hle using Nat.le_induction with
  | base => rfl
  | succ fuel' _ ih => rw [h fuel' (ih ▸ hne),ih]

theorem Stable.const {α : Type} (r : Except Stop α) : Stable fun _ => r := fun _ _ => rfl

theorem Stable.bind {α β : Type} {f : ℕ → Except Stop α} (h : Stable f)
    (k : α → Except Stop β) : Stable fun fuel => (f fuel).bind k := by
  intro fuel hne
  have hf : f fuel ≠ .error .outOfFuel := by
    intro hout
    simp [hout,Except.bind] at hne
  simp only [h fuel hf]

theorem Stable.after {α β : Type} (r : Except Stop α) {k : ℕ → α → Except Stop β}
    (h : ∀ a, r = .ok a → Stable fun fuel => k fuel a) : Stable fun fuel => r.bind (k fuel) := by
  cases r with
  | error e => exact .const _
  | ok a => exact h a rfl

variable (command : CommandLogic Any Raw Value E S) (contents : Contents E)

theorem replayRemainingStreams_stable (replay : ReplayProgress Value S) :
    Stable fun fuel => replayRemainingStreams command contents fuel replay := by
  intro fuel
  induction fuel generalizing replay with
  | zero =>
    intro hne
    cases hqueue : replay.queue with
    | nil => simp only [replayRemainingStreams_nil hqueue]
    | cons s queue => exact absurd (replayRemainingStreams_zero hqueue) hne
  | succ fuel ih =>
    intro hne
    cases hqueue : replay.queue with
    | nil => simp only [replayRemainingStreams_nil hqueue]
    | cons s queue =>
      simp only [replayRemainingStreams,hqueue] at hne ih ⊢
      split_ifs at hne ⊢ with hvisited
      · exact ih _ hne
      · cases hstep : replayStream command contents replay s queue with
        | error e => rfl
        | ok replay' =>
          rw [hstep] at hne
          exact ih _ hne

theorem reconstructInFull_stable (streamIds : List StreamId) :
    Stable fun fuel => reconstructInFull command contents fuel streamIds := by
  unfold reconstructInFull
  refine .after (discoveryBeforeCheckpoint command streamIds []) fun replay _ => ?_
  exact (replayRemainingStreams_stable command contents replay).bind _

theorem resumeAt_stable (streamIds : List StreamId)
    (before : List (CommandStateReplayCheckpoint Value))
    (checkpoint : CommandStateReplayCheckpoint Value) (version : StreamVersion) (state : S) :
    Stable fun fuel => resumeAt command contents fuel streamIds before checkpoint version state := by
  unfold resumeAt
  refine .after (serialize command state) fun value _ => ?_
  refine .after (discoveryBeforeCheckpoint command streamIds before) fun replay _ => ?_
  cases replay.queue with
  | nil => exact .const _
  | cons current queue =>
    simp only
    split_ifs
    · exact .const _
    · exact (replayRemainingStreams_stable command contents _).bind _

theorem resumeCheckpoints_stable (streamIds : List StreamId)
    (snapshot : CommandStateSnapshot Value)
    (before checkpoints : List (CommandStateReplayCheckpoint Value)) :
    Stable fun fuel =>
      resumeCheckpoints command contents fuel streamIds snapshot before checkpoints := by
  induction checkpoints generalizing before with
  | nil => exact .const _
  | cons checkpoint rest ih =>
    unfold resumeCheckpoints
    cases checkpoint.streamVersions.get? checkpoint.streamId with
    | none => exact .const _
    | some baseVersion =>
      refine .after (deserialize command checkpoint.state) fun state _ => ?_
      refine .after (applyCommandStream command contents state checkpoint.streamId
        (some baseVersion)) fun result _ => ?_
      obtain ⟨state,tailCount⟩ := result
      simp only
      split_ifs
      · exact ih _
      · exact resumeAt_stable command contents streamIds before checkpoint _ _

theorem reconstructCommandSnapshot_stable (streamIds : List StreamId)
    (stored : Option (CommandStateSnapshot Value)) :
    Stable fun fuel => reconstructCommandSnapshot command contents fuel streamIds stored := by
  cases stored with
  | none => exact reconstructInFull_stable command contents streamIds
  | some snapshot =>
    unfold reconstructCommandSnapshot
    refine .after (snapshotReplayOrderIsValid command streamIds snapshot) fun valid _ => ?_
    cases valid with
    | false => exact reconstructInFull_stable command contents streamIds
    | true => exact resumeCheckpoints_stable command contents streamIds snapshot [] _

end Fuel

end SnapshotReplay
end EventCore
