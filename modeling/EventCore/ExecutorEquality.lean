import EventCore.SnapshotExecutor

/-! When the two executors cannot be told apart: both make every attempt from the same replay, and
they report a retry with different streams once a stream was discovered. -/
namespace EventCore
namespace SnapshotExecutor

open Exploration SnapshotReplay ExecuteLoop

variable {Any Raw Value E S : Type}

section Snapshots

variable {env : Environment E} {command : CommandLogic Any Raw Value E S} {policy : RetryPolicy}

/-- What is stored once an attempt has reconstructed the state. -/
def SnapshotRun.nextStored (run : SnapshotRun Any Raw Value) (r : Reconstruction Value S) :
    Option (CommandStateSnapshot Value) :=
  match r.snapshot with
  | some snapshot => savedSnapshot run.stored snapshot
  | none => run.stored

theorem executeWithSnapshot_attempt {fuel : ℕ} {run : SnapshotRun Any Raw Value}
    {r : Reconstruction Value S}
    (hr : reconstructCommandSnapshot command env.contents fuel command.streamDeclarations.streams
      run.stored = .ok r) :
    executeWithSnapshot env command policy (fuel+1) run =
      match command.batch r.expectedVersions r.state with
      | .error e => some (run.observe (.finished (.error e)))
      | .ok writes =>
        match appendOutcome run.attempt (env.appendResult run.batches.length) with
        | some outcome => some ⟨.finished outcome,run.batches ++ [writes],run.retries⟩
        | none =>
          if run.attempt < policy.maxRetries then
            executeWithSnapshot env command policy fuel ⟨run.attempt+1,run.nextStored r,
              run.batches ++ [writes],
              if policy.metricsHook then
                run.retries ++ [⟨command.streamDeclarations.streams,run.attempt.succPNat,
                  computeRetryDelayMs (env.applyJitter run.batches.length) policy.backoffStrategy
                    run.attempt⟩]
              else run.retries⟩
          else some ⟨.finished (.error (.concurrencyError policy.maxRetries)),
            run.batches ++ [writes],run.retries⟩ := by
  rw [executeWithSnapshot]
  simp only [hr,CommandLogic.batch]
  cases command.handle r.state with
  | error e => rfl
  | ok events =>
    simp only [Except.bind]
    cases buildStreamWritesFromEvents command.event events r.expectedVersions with
    | error e => rfl
    | ok writes =>
      simp only
      cases env.appendResult run.batches.length with
      | ok => rfl
      | error e => cases e <;> rfl

theorem executeWithSnapshot_failed {fuel : ℕ} {run : SnapshotRun Any Raw Value} {stop : Stop}
    (hr : reconstructCommandSnapshot command env.contents fuel command.streamDeclarations.streams
      run.stored = .error stop) :
    executeWithSnapshot env command policy (fuel+1) run = run.fails stop := by
  rw [executeWithSnapshot]
  simp only [hr]

theorem executeWithSnapshot_succ {fuel : ℕ} {run : SnapshotRun Any Raw Value}
    {o : Observed Any Raw} (h : executeWithSnapshot env command policy fuel run = some o) :
    executeWithSnapshot env command policy (fuel+1) run = some o := by
  induction fuel generalizing run with
  | zero => cases h
  | succ fuel ih =>
    have hstable := reconstructCommandSnapshot_stable command env.contents
      command.streamDeclarations.streams run.stored fuel
    cases hr : reconstructCommandSnapshot command env.contents fuel
        command.streamDeclarations.streams run.stored with
    | error stop =>
      rw [executeWithSnapshot_failed hr] at h
      have hne : stop ≠ .outOfFuel := by
        rintro rfl
        cases h
      simp only [hr,ne_eq,Except.error.injEq,hne,not_false_eq_true,true_imp_iff] at hstable
      rw [executeWithSnapshot_failed hstable,h]
    | ok r =>
      simp only [hr,ne_eq,reduceCtorEq,not_false_eq_true,true_imp_iff] at hstable
      rw [executeWithSnapshot_attempt hr] at h
      rw [executeWithSnapshot_attempt hstable]
      split at h
      · exact h
      · split at h
        · exact h
        · by_cases hretry : run.attempt < policy.maxRetries
          · rw [if_pos hretry] at h ⊢
            exact ih h
          · rw [if_neg hretry] at h ⊢
            exact h

theorem executeWithSnapshot_mono {fuel fuel' : ℕ} (hle : fuel ≤ fuel')
    {run : SnapshotRun Any Raw Value} {o : Observed Any Raw}
    (h : executeWithSnapshot env command policy fuel run = some o) :
    executeWithSnapshot env command policy fuel' run = some o := by
  induction fuel', hle using Nat.le_induction with
  | base => exact h
  | succ _ _ ih => exact executeWithSnapshot_succ ih

/-- The store holds what an earlier reconstruction emitted, if anything. -/
def StoredFine (env : Environment E) (command : CommandLogic Any Raw Value E S)
    (stored : Option (CommandStateSnapshot Value)) : Prop :=
  ∀ snapshot, stored = some snapshot → Stored command env.contents snapshot

theorem StoredFine.next {run : SnapshotRun Any Raw Value} {fuel : ℕ} {r : Reconstruction Value S}
    (h : StoredFine env command run.stored)
    (hr : reconstructCommandSnapshot command env.contents fuel command.streamDeclarations.streams
      run.stored = .ok r) : StoredFine env command (run.nextStored r) := by
  unfold SnapshotRun.nextStored
  cases hsnapshot : r.snapshot with
  | none => exact h
  | some snapshot =>
    have hnew : Stored command env.contents snapshot :=
      .emitted h hr hsnapshot fun _ => List.prefix_rfl
    intro saved hsaved
    simp only [savedSnapshot] at hsaved
    split at hsaved
    · split_ifs at hsaved
      · exact h saved (by simp_all)
      · exact Option.some.inj hsaved ▸ hnew
    · exact Option.some.inj hsaved ▸ hnew

theorem StoredFine.agrees (himpl : Implements command)
    {stored : Option (CommandStateSnapshot Value)} (h : StoredFine env command stored) :
    Agrees command
      (fun fuel => reconstructCommandSnapshot command env.contents fuel
        command.streamDeclarations.streams stored)
      (fun fuel => replayRemainingStreams command env.contents fuel
        (initialProgress command command.streamDeclarations.streams)) := by
  cases stored with
  | none => exact reconstructInFull_agrees
  | some snapshot => exact (h snapshot rfl).agrees himpl.roundTrips

theorem exists_reconstruct (himpl : Implements command)
    {stored : Option (CommandStateSnapshot Value)} (h : StoredFine env command stored) {n : ℕ}
    {last : ReplayProgress Value S}
    (hreplay : replayRemainingStreams command env.contents n
      (initialProgress command command.streamDeclarations.streams) = .ok last) :
    ∃ fuel r, r.state = last.state ∧ r.expectedVersions = last.expectedVersions ∧
      ∀ fuel', fuel ≤ fuel' → reconstructCommandSnapshot command env.contents fuel'
        command.streamDeclarations.streams stored = .ok r := by
  have hreturns := ((h.agrees himpl).returns (.ok last.result)).mpr
    ⟨by simp,n,by simp [hreplay,Except.map]⟩
  obtain ⟨-,fuel,hfuel⟩ := hreturns
  cases hr : reconstructCommandSnapshot command env.contents fuel
      command.streamDeclarations.streams stored with
  | error e => simp [hr,Except.map] at hfuel
  | ok r =>
    simp only [hr,Except.map,Except.ok.injEq,Reconstruction.result,ReplayProgress.result,
      Prod.mk.injEq] at hfuel
    refine ⟨fuel,r,hfuel.1,hfuel.2,fun fuel' hle => ?_⟩
    have hstable := (reconstructCommandSnapshot_stable command env.contents
      command.streamDeclarations.streams stored).of_le hle
    simp only [hr,ne_eq,reduceCtorEq,not_false_eq_true,true_imp_iff] at hstable
    exact hstable

theorem executeWithSnapshot_settle (himpl : Implements command) {n : ℕ}
    {last : ReplayProgress Value S} {writes : StreamWrites Any Raw}
    (hreplay : replayRemainingStreams command env.contents n
      (initialProgress command command.streamDeclarations.streams) = .ok last)
    (hbatch : command.batch last.expectedVersions last.state = .ok writes) (remaining : ℕ)
    {run : SnapshotRun Any Raw Value} (hstored : StoredFine env command run.stored)
    (hremaining : run.attempt+remaining = policy.maxRetries) :
    ∃ fuel, executeWithSnapshot env command policy fuel run = some (settle env policy
      command.streamDeclarations.streams writes remaining run.attempt run.batches run.retries) := by
  induction remaining generalizing run with
  | zero =>
    obtain ⟨fuel,r,hstate,hversions,hr⟩ := exists_reconstruct himpl hstored hreplay
    have hlast : ¬run.attempt < policy.maxRetries := by omega
    refine ⟨fuel+1,?_⟩
    rw [executeWithSnapshot_attempt (hr fuel le_rfl),hstate,hversions,hbatch,settle]
    simp only [if_neg hlast]
    cases appendOutcome run.attempt (env.appendResult run.batches.length) <;> rfl
  | succ remaining ih =>
    obtain ⟨fuel,r,hstate,hversions,hr⟩ := exists_reconstruct himpl hstored hreplay
    have hretry : run.attempt < policy.maxRetries := by omega
    obtain ⟨fuel',hnext⟩ := @ih ⟨run.attempt+1,run.nextStored r,run.batches ++ [writes],
      if policy.metricsHook then run.retries ++ [⟨command.streamDeclarations.streams,
        run.attempt.succPNat,computeRetryDelayMs (env.applyJitter run.batches.length)
          policy.backoffStrategy run.attempt⟩] else run.retries⟩
      (hstored.next (hr fuel le_rfl)) (by simp only; omega)
    refine ⟨max fuel fuel'+1,?_⟩
    rw [executeWithSnapshot_attempt (hr _ (Nat.le_max_left fuel fuel')),hstate,hversions,hbatch,
      settle]
    simp only [if_pos hretry]
    cases happend : appendOutcome run.attempt (env.appendResult run.batches.length) with
    | some outcome => rfl
    | none => exact executeWithSnapshot_mono (Nat.le_max_right fuel fuel') hnext

end Snapshots

section Settle

variable {env : Environment E} {policy : RetryPolicy} {streams streams' : List StreamId}
  {writes : StreamWrites Any Raw}

/-- Where the streams do not matter, the same is shown whatever they are. -/
theorem settle_agrees (h : policy.metricsHook = true → streams.toFinset = streams'.toFinset)
    (remaining attempt : ℕ) (batches : List (StreamWrites Any Raw))
    {retries retries' : List RetryContext} (hretries : List.Forall₂ SameRetry retries retries') :
    (settle env policy streams writes remaining attempt batches retries).Agrees
      (settle env policy streams' writes remaining attempt batches retries') := by
  induction remaining generalizing attempt batches retries retries' with
  | zero =>
    unfold settle
    split <;> exact ⟨rfl,rfl,hretries⟩
  | succ remaining ih =>
    unfold settle
    split
    · exact ⟨rfl,rfl,hretries⟩
    · refine ih _ _ ?_
      cases hhook : policy.metricsHook with
      | false => exact hretries
      | true => exact List.rel_append hretries (.cons ⟨h hhook,rfl⟩ .nil)

variable (env policy streams writes) in
theorem settle_retries (remaining attempt : ℕ) (batches : List (StreamWrites Any Raw))
    (retries : List RetryContext) :
    retries <+: (settle env policy streams writes remaining attempt batches retries).retries := by
  induction remaining generalizing attempt batches retries with
  | zero =>
    unfold settle
    split <;> exact List.prefix_rfl
  | succ remaining ih =>
    unfold settle
    split
    · exact List.prefix_rfl
    · refine List.IsPrefix.trans ?_ (ih _ _ _)
      split_ifs
      · exact List.prefix_append _ _
      · exact List.prefix_rfl

theorem settle_agrees_iff (remaining : ℕ) :
    (settle env policy streams writes remaining 0 [] []).Agrees
      (settle env policy streams' writes remaining 0 [] []) ↔
    (policy.metricsHook = true → 0 < remaining → appendOutcome 0 (env.appendResult 0) = none →
      streams.toFinset = streams'.toFinset) := by
  constructor
  · intro h hhook hpos hconflict
    obtain ⟨remaining,rfl⟩ := Nat.exists_eq_succ_of_ne_zero hpos.ne'
    have hretries := h.retries
    simp only [settle,List.length_nil,hconflict,hhook,if_true,List.nil_append] at hretries
    obtain ⟨rest,hrest⟩ := settle_retries env policy streams writes remaining (0+1) [writes]
      [⟨streams,Nat.succPNat 0,computeRetryDelayMs (env.applyJitter 0) policy.backoffStrategy 0⟩]
    obtain ⟨rest',hrest'⟩ := settle_retries env policy streams' writes remaining (0+1) [writes]
      [⟨streams',Nat.succPNat 0,computeRetryDelayMs (env.applyJitter 0) policy.backoffStrategy 0⟩]
    rw [← hrest,← hrest'] at hretries
    cases hretries with
    | cons hsame _ => exact hsame.1
  · intro h
    by_cases hretry : 0 < remaining ∧ appendOutcome 0 (env.appendResult 0) = none
    · exact settle_agrees (fun hhook => h hhook hretry.1 hretry.2) remaining 0 [] .nil
    · cases remaining with
      | zero =>
        unfold settle
        split <;> exact ⟨rfl,rfl,.nil⟩
      | succ remaining =>
        have hends : ∃ outcome, appendOutcome 0 (env.appendResult 0) = some outcome :=
          Option.ne_none_iff_exists'.mp fun hnone => hretry ⟨Nat.succ_pos _,hnone⟩
        obtain ⟨outcome,houtcome⟩ := hends
        simp only [settle,List.length_nil,houtcome]
        exact ⟨rfl,rfl,.nil⟩

end Settle

section Equality

variable {env : Environment E} {command : CommandLogic Any Raw Value E S} {policy : RetryPolicy}
  {stored : Option (CommandStateSnapshot Value)}

/-- The command comes to a batch, having read a stream that it does not declare. -/
def DiscoversUndeclared (command : CommandLogic Any Raw Value E S) (contents : Contents E) : Prop :=
  ∃ reads events, command.search.Exhausts reads ∧ (∀ v ∈ reads, contents v.1 = v.2.map .ok) ∧
    command.handle (command.search.after reads) = .ok events ∧
    (∀ event ∈ events, command.event.streamId event ∈ reads.map Prod.fst ∧
      ∃ raw, command.event.toRawValue event = .ok raw) ∧
    ∃ v ∈ reads, v.1 ∉ command.streamDeclarations.streams

theorem replay_of_inOrder (himpl : Implements command) {done rest : List (StreamId × List E)}
    (hall : command.search.Exhausts (done ++ rest))
    (hcontents : ∀ v ∈ rest, env.contents v.1 = v.2.map .ok) {r : Reading S}
    {replay : ReplayProgress Value S} (htracks : Tracks command done r)
    (hsame : SameReading r replay) :
    ∃ n last r', replayRemainingStreams command env.contents n replay = .ok last ∧
      Tracks command (done ++ rest) r' ∧ SameReading r' last := by
  induction rest generalizing done r replay with
  | nil =>
    rw [List.append_nil] at hall ⊢
    have hqueue : r.queue = [] := by
      have hschedule := htracks.queue
      rw [← hall.nodes] at hschedule
      exact List.append_right_eq_self.mp hschedule
    exact ⟨0,replay,r,replayRemainingStreams_nil (hsame.queue.symm.trans hqueue) 0,htracks,hsame⟩
  | cons v rest ih =>
    have hnext := hall.inOrder.next
    obtain ⟨queue,hqueue⟩ : ∃ queue, r.queue = v.1 :: queue := by
      cases hreading : r.queue with
      | nil =>
        rw [← htracks.queue,hreading] at hnext
        simp at hnext
      | cons s queue =>
        rw [htracks.next hreading] at hnext
        exact ⟨queue,by rw [Option.some.inj hnext]⟩
    obtain ⟨value,hvalue,-⟩ := himpl (v.2.foldl command.apply replay.state)
    have hcommand : (ExecutePipeline.new command {}).command = command := rfl
    have htracks' := htracks.streamEnded hqueue v.2 hcommand
    have hsame' := hsame.advance hcommand v.1 queue (v.2.foldl command.apply replay.state)
      v.2.length value
    rw [hsame.state] at htracks'
    have hassoc : done ++ v :: rest = done ++ [(v.1,v.2)] ++ rest := by simp
    rw [hassoc] at hall ⊢
    obtain ⟨n,last,r',hn,hlast⟩ := ih hall
      (fun w hw => hcontents w (List.mem_cons_of_mem _ hw)) htracks' hsame'
    refine ⟨n+1,last,r',?_,hlast⟩
    rw [hsame.replay_step htracks hqueue,
      replayStream_readable queue (hcontents v List.mem_cons_self) hvalue]
    exact hn

def fullReplay (env : Environment E) (command : CommandLogic Any Raw Value E S) (n : ℕ) :
    Except Stop (ReplayProgress Value S) :=
  replayRemainingStreams command env.contents n
    (initialProgress command command.streamDeclarations.streams)

theorem fullReplay_unique {n n' : ℕ} {last last' : ReplayProgress Value S}
    (h : fullReplay env command n = .ok last) (h' : fullReplay env command n' = .ok last') :
    last = last' := by
  have hmax := replayRemainingStreams_mono (Nat.le_max_left n n') h
  have hmax' := replayRemainingStreams_mono (Nat.le_max_right n n') h'
  exact Except.ok.inj (hmax.symm.trans hmax')

theorem execute_fullReplay (env : Environment E) (policy : RetryPolicy)
    (himpl : Implements command) (n : ℕ) :
    Follows env command (ExecutePipeline.new command policy) (.start command policy) n
      (fullReplay env command n) :=
  execute_follows env himpl rfl n (Tracks.initReading command) (sameReading_init command)
    (by simp) rfl

theorem exists_reads (himpl : Implements command) {n : ℕ} {last : ReplayProgress Value S}
    (hreplay : fullReplay env command n = .ok last) :
    ∃ reads, command.search.Exhausts reads ∧ (∀ v ∈ reads, env.contents v.1 = v.2.map .ok) ∧
      replayedStreams last = reads.map Prod.fst ∧ last.state = command.search.after reads ∧
      ∀ s, s ∈ last.expectedVersions ↔ s ∈ reads.map Prod.fst := by
  have hfollows := execute_fullReplay env {} himpl n
  rw [hreplay] at hfollows
  obtain ⟨k,reads,r,y,htracks,hsame,hqueue,hcontents,-⟩ := hfollows
  refine ⟨reads,htracks.exhausts hqueue,hcontents,hsame.streamIds.symm.trans htracks.streamIds,
    hsame.state.symm.trans htracks.state,fun s => ?_⟩
  rw [← hsame.expectedVersions,← HashMap.get?_isSome_iff,Option.isSome_iff_exists]
  simp [htracks.versions]

theorem exists_replay_of_discovers (himpl : Implements command)
    (h : DiscoversUndeclared command env.contents) :
    ∃ n last writes, fullReplay env command n = .ok last ∧
      command.batch last.expectedVersions last.state = .ok writes ∧
      ∃ s ∈ replayedStreams last, s ∉ command.streamDeclarations.streams := by
  obtain ⟨reads,events,hexhausts,hcontents,hhandle,hevents,v,hv,hundeclared⟩ := h
  rw [← List.nil_append reads] at hexhausts
  obtain ⟨n,last,r,hreplay,htracks,hsame⟩ := replay_of_inOrder himpl hexhausts
    hcontents (Tracks.initReading command) (sameReading_init command)
  rw [List.nil_append] at htracks
  have hread : ∀ s, s ∈ last.expectedVersions ↔ s ∈ reads.map Prod.fst := by
    intro s
    rw [← hsame.expectedVersions,← HashMap.get?_isSome_iff,Option.isSome_iff_exists]
    simp [htracks.versions]
  rw [← htracks.state,hsame.state] at hhandle
  obtain ⟨writes,hwrites⟩ := CommandLogic.exists_batch hhandle
    (fun event hevent => (hread _).mpr (hevents event hevent).1)
    fun event hevent => (hevents event hevent).2
  refine ⟨n,last,writes,hreplay,hwrites,v.1,?_,hundeclared⟩
  rw [replayedStreams,← hsame.streamIds,htracks.streamIds]
  exact List.mem_map_of_mem hv

theorem discovers_of_replay (himpl : Implements command) {n : ℕ} {last : ReplayProgress Value S}
    (hreplay : fullReplay env command n = .ok last) {writes : StreamWrites Any Raw}
    (hbatch : command.batch last.expectedVersions last.state = .ok writes) {s : StreamId}
    (hs : s ∈ replayedStreams last) (hundeclared : s ∉ command.streamDeclarations.streams) :
    DiscoversUndeclared command env.contents := by
  obtain ⟨reads,hexhausts,hcontents,hstreams,hstate,hread⟩ := exists_reads himpl hreplay
  obtain ⟨-,events,hhandle,hentries,hvisited⟩ := CommandLogic.batch_eq_ok hbatch
  rw [hstreams] at hs
  obtain ⟨v,hv,rfl⟩ := List.mem_map.mp hs
  refine ⟨reads,events,hexhausts,hcontents,hstate ▸ hhandle,fun event hevent => ?_,v,hv,
    hundeclared⟩
  refine ⟨(hread _).mp (hvisited event hevent),?_⟩
  obtain ⟨i,hi,rfl⟩ := List.getElem_of_mem hevent
  exact ⟨_,(List.Forall₂.get hentries hi (hentries.length_eq ▸ hi)).2.2.2⟩

theorem observablyEqual_iff_agrees {fuel fuel' : ℕ} {o o' : Observed Any Raw}
    (ho : execute env fuel (.start command policy) = some o)
    (ho' : executeWithSnapshot env command policy fuel' ⟨0,stored,[],[]⟩ = some o') :
    ObservablyEqual env command policy stored ↔ o.Agrees o' := by
  have hfirst : ∀ n p, execute env n (.start command policy) = some p → p = o := fun n p hp =>
    Option.some.inj ((execute_mono (Nat.le_max_left n fuel) hp).symm.trans
      (execute_mono (Nat.le_max_right n fuel) ho))
  have hsecond : ∀ n p, executeWithSnapshot env command policy n ⟨0,stored,[],[]⟩ = some p →
      p = o' := fun n p hp =>
    Option.some.inj ((executeWithSnapshot_mono (Nat.le_max_left n fuel') hp).symm.trans
      (executeWithSnapshot_mono (Nat.le_max_right n fuel') ho'))
  constructor
  · rintro ⟨hforth,-⟩
    obtain ⟨n,p,hp,hagrees⟩ := hforth fuel o ho
    exact hsecond n p hp ▸ hagrees
  · intro hagrees
    exact ⟨fun n p hp => ⟨fuel',o',ho',hfirst n p hp ▸ hagrees⟩,
      fun n p hp => ⟨fuel,o,ho,hsecond n p hp ▸ hagrees⟩⟩

theorem same_observed (o : Observed Any Raw) (h : o.retries = []) : o.Agrees o :=
  ⟨rfl,rfl,by rw [h]; exact .nil⟩

theorem observablyEqual_of_unreadable (himpl : Implements command)
    (hstored : StoredFine env command stored) {n : ℕ} {stop : Stop} (hstop : stop ≠ .outOfFuel)
    (hreplay : fullReplay env command n = .error stop) :
    ObservablyEqual env command policy stored := by
  have hfollows := execute_fullReplay env policy himpl n
  rw [hreplay] at hfollows
  have hreturns : Returns (fun fuel => (fullReplay env command fuel).map ReplayProgress.result)
      (.error stop) := ⟨by simpa using hstop,n,by simp [hreplay,Except.map]⟩
  obtain ⟨-,fuel,hfuel⟩ := ((hstored.agrees himpl).returns (.error stop)).mpr hreturns
  match stop with
  | .error e =>
    obtain ⟨k,hk⟩ := hfollows
    cases hr : reconstructCommandSnapshot command env.contents fuel
        command.streamDeclarations.streams stored with
    | ok r => simp [hr,Except.map] at hfuel
    | error stop =>
      simp only [hr,Except.map,Except.error.injEq] at hfuel
      subst hfuel
      have hsnapshot : executeWithSnapshot env command policy (fuel+1) ⟨0,stored,[],[]⟩ =
          some ⟨.finished (.error e),[],[]⟩ := by
        rw [executeWithSnapshot_failed hr]
        rfl
      exact (observablyEqual_iff_agrees (hk 0) hsnapshot).mpr (same_observed _ rfl)
  | .panicked message => exact hfollows.elim
  | .outOfFuel => exact absurd rfl hstop

theorem observablyEqual_of_rejected (himpl : Implements command)
    (hstored : StoredFine env command stored) {n : ℕ} {last : ReplayProgress Value S}
    (hreplay : fullReplay env command n = .ok last) {e : CommandError}
    (hbatch : command.batch last.expectedVersions last.state = .error e) :
    ObservablyEqual env command policy stored := by
  have hfollows := execute_fullReplay env policy himpl n
  rw [hreplay] at hfollows
  obtain ⟨k,reads,r,y,htracks,hsame,hqueue,-,hy,hcalls,hrun⟩ := hfollows
  rw [ExecutePipeline.stepReading_tracks htracks,hqueue,hsame.expectedVersions,hsame.state] at hy
  have hcommand : (ExecutePipeline.new command policy).command = command := rfl
  simp only [ExecutePipeline.stepHandling_eq,hcommand,hbatch] at hy
  obtain ⟨hpipeline,hstep⟩ := Prod.mk.inj hy
  have hplain := (hrun 1).trans (execute_done hstep 0)
  rw [hcalls,hpipeline] at hplain
  obtain ⟨fuel,result,hstate,hversions,hr⟩ := exists_reconstruct himpl hstored hreplay
  have hsnapshot : executeWithSnapshot env command policy (fuel+1) ⟨0,stored,[],[]⟩ =
      some ⟨.finished (.error e),[],[]⟩ := by
    rw [executeWithSnapshot_attempt (hr fuel le_rfl),hstate,hversions,hbatch]
    rfl
  exact (observablyEqual_iff_agrees hplain hsnapshot).mpr (same_observed _ rfl)

theorem observablyEqual_of_endless (himpl : Implements command)
    (hstored : StoredFine env command stored)
    (hnever : ∀ n, fullReplay env command n = .error .outOfFuel) :
    ObservablyEqual env command policy stored := by
  constructor
  · intro n o ho
    have hfollows := execute_fullReplay env policy himpl n
    rw [hnever] at hfollows
    have hno : execute env n (.start command policy) = none := hfollows
    simp [hno] at ho
  · intro n o ho
    cases n with
    | zero => cases ho
    | succ n =>
      have hr : reconstructCommandSnapshot command env.contents n
          command.streamDeclarations.streams stored = .error .outOfFuel := by
        by_contra hne
        have hmap : (reconstructCommandSnapshot command env.contents n
            command.streamDeclarations.streams stored).map Reconstruction.result ≠
            .error .outOfFuel := by
          cases hresult : reconstructCommandSnapshot command env.contents n
              command.streamDeclarations.streams stored with
          | ok r => simp [Except.map]
          | error stop => simpa [Except.map,hresult] using hne
        obtain ⟨-,fuel,hfuel⟩ := ((hstored.agrees himpl).returns _).mp ⟨hmap,n,rfl⟩
        have hout := hnever fuel
        simp only [fullReplay] at hout
        simp only [hout] at hfuel
        exact hmap hfuel.symm
      rw [executeWithSnapshot_failed hr] at ho
      cases ho

theorem observablyEqual_of_no_batch (himpl : Implements command)
    (hstored : StoredFine env command stored)
    (hnone : ∀ n last writes, fullReplay env command n = .ok last →
      command.batch last.expectedVersions last.state ≠ .ok writes) :
    ObservablyEqual env command policy stored := by
  by_cases hends : ∃ n, fullReplay env command n ≠ .error .outOfFuel
  · obtain ⟨n,hn⟩ := hends
    cases hreplay : fullReplay env command n with
    | error stop =>
      exact observablyEqual_of_unreadable himpl hstored (fun hout => hn (hout ▸ hreplay)) hreplay
    | ok last =>
      cases hbatch : command.batch last.expectedVersions last.state with
      | ok writes => exact absurd hbatch (hnone n last writes hreplay)
      | error e => exact observablyEqual_of_rejected himpl hstored hreplay hbatch
  · exact observablyEqual_of_endless himpl hstored fun n => by_contra fun hne => hends ⟨n,hne⟩

theorem observablyEqual_iff_streams (himpl : Implements command)
    (hstored : StoredFine env command stored) {n : ℕ} {last : ReplayProgress Value S}
    {writes : StreamWrites Any Raw} (hreplay : fullReplay env command n = .ok last)
    (hbatch : command.batch last.expectedVersions last.state = .ok writes) :
    ObservablyEqual env command policy stored ↔
      (policy.metricsHook = true → 0 < policy.maxRetries →
        appendOutcome 0 (env.appendResult 0) = none →
        (replayedStreams last).toFinset = command.streamDeclarations.streams.toFinset) := by
  have hstart : ((Execution.start command policy).pipeline,(Execution.start command policy).step) =
      (ExecutePipeline.new command policy).stepReading (ExecutePipeline.initReading command) := rfl
  have hremaining : (ExecutePipeline.new command policy).attempt+policy.maxRetries =
      policy.maxRetries := Nat.zero_add _
  have hremaining' : (⟨0,stored,[],[]⟩ : SnapshotRun Any Raw Value).attempt+policy.maxRetries =
      policy.maxRetries := Nat.zero_add _
  obtain ⟨k,hk⟩ := execute_settle himpl hreplay hbatch policy.maxRetries rfl rfl hremaining hstart
  obtain ⟨fuel,hfuel⟩ :=
    executeWithSnapshot_settle himpl hreplay hbatch policy.maxRetries hstored hremaining'
  rw [observablyEqual_iff_agrees (hk 0) hfuel]
  exact settle_agrees_iff policy.maxRetries

theorem replayedStreams_eq_declared_iff (himpl : Implements command) {n : ℕ}
    {last : ReplayProgress Value S} (hreplay : fullReplay env command n = .ok last) :
    (replayedStreams last).toFinset = command.streamDeclarations.streams.toFinset ↔
      ∀ s ∈ replayedStreams last, s ∈ command.streamDeclarations.streams := by
  obtain ⟨reads,hexhausts,-,hstreams,-,-⟩ := exists_reads himpl hreplay
  constructor
  · intro heq s hs
    rw [← List.mem_toFinset,heq] at hs
    exact List.mem_toFinset.mp hs
  · intro hall
    ext s
    rw [List.mem_toFinset,List.mem_toFinset]
    exact ⟨hall s,fun hs => hstreams ▸ hexhausts.mem_of_root hs⟩

/-- The executors show the same exactly if it does not happen that the first append is a conflict
which is retried and reported, after a stream was read that the command does not declare. -/
theorem snapshot_executor_agrees_iff (himpl : Implements command)
    (hstored : StoredFine env command stored) :
    ObservablyEqual env command policy stored ↔
      ¬(policy.metricsHook = true ∧ 0 < policy.maxRetries ∧
        isConflict (env.appendResult 0) = true ∧ DiscoversUndeclared command env.contents) := by
  have hconflict : appendOutcome 0 (env.appendResult 0) = none ↔
      isConflict (env.appendResult 0) = true := by
    cases env.appendResult 0 with
    | ok => simp [appendOutcome,isConflict]
    | error e => cases e <;> simp [appendOutcome,isConflict]
  by_cases hbatch : ∃ n last writes, fullReplay env command n = .ok last ∧
      command.batch last.expectedVersions last.state = .ok writes
  · obtain ⟨n,last,writes,hreplay,hwrites⟩ := hbatch
    rw [observablyEqual_iff_streams himpl hstored hreplay hwrites,hconflict,
      replayedStreams_eq_declared_iff himpl hreplay]
    have hdiscovers : DiscoversUndeclared command env.contents ↔
        ¬∀ s ∈ replayedStreams last, s ∈ command.streamDeclarations.streams := by
      constructor
      · intro h hall
        obtain ⟨n',last',writes',hreplay',-,s,hs,hundeclared⟩ := exists_replay_of_discovers himpl h
        obtain rfl := fullReplay_unique hreplay' hreplay
        exact hundeclared (hall s hs)
      · intro h
        simp only [not_forall] at h
        obtain ⟨s,hs,hundeclared⟩ := h
        exact discovers_of_replay himpl hreplay hwrites hs hundeclared
    rw [hdiscovers]
    tauto
  · refine iff_of_true (observablyEqual_of_no_batch himpl hstored fun n last writes hreplay hw =>
      hbatch ⟨n,last,writes,hreplay,hw⟩) ?_
    rintro ⟨-,-,-,hdiscovers⟩
    obtain ⟨n,last,writes,hreplay,hw,-⟩ := exists_replay_of_discovers himpl hdiscovers
    exact hbatch ⟨n,last,writes,hreplay,hw⟩

/-- One deposit on the account; the first append loses against another writer. -/
def loseOnce : Environment ℕ where
  contents s := if s = Sample.account then [.ok 1] else []
  appendResult n := if n = 0 then .error (.versionConflict Sample.account 1 2) else .ok ()
  applyJitter _ := id

theorem sweep_implements : Implements Sample.sweep := fun state => ⟨state,rfl,rfl⟩

/-- The pipeline reports the savings that it has read as well, the other executor does not. -/
theorem sweep_retry_differs :
    ¬ObservablyEqual loseOnce Sample.sweep ⟨4,.fixed 5,true⟩ none := by
  have hplain : ∃ o, execute loseOnce 10 (.start Sample.sweep ⟨4,.fixed 5,true⟩) = some o ∧
      o.retries = [⟨[Sample.account,Sample.savings],1,5⟩] := ⟨_,rfl,rfl⟩
  have hsnapshot : ∃ o, executeWithSnapshot loseOnce Sample.sweep ⟨4,.fixed 5,true⟩ 10
      ⟨0,none,[],[]⟩ = some o ∧ o.retries = [⟨[Sample.account],1,5⟩] := ⟨_,rfl,rfl⟩
  obtain ⟨o,ho,hretries⟩ := hplain
  obtain ⟨o',ho',hretries'⟩ := hsnapshot
  intro hequal
  have hsame := ((observablyEqual_iff_agrees ho ho').mp hequal).retries
  rw [hretries,hretries'] at hsame
  cases hsame with
  | cons hstreams _ => exact absurd hstreams.1 (by decide)

/-- Without a hook nothing of this shows. -/
theorem snapshot_executor_agrees_sweep :
    ObservablyEqual loseOnce Sample.sweep ⟨4,.fixed 5,false⟩ none :=
  (snapshot_executor_agrees_iff sweep_implements (fun _ h => by cases h)).mpr (by simp)

end Equality

end SnapshotExecutor
end EventCore
